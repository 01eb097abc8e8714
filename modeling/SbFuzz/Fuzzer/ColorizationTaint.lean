import SbFuzz.Fuzzer.ColorizationProperties

/-! The taint that `colorization` returns: the accepted ranges, merged. -/

set_option autoImplicit false

namespace SbFuzz.Fuzzer.Colorization

open Systems Systems.Program

/-! ## Intervals -/

def Tainted.Has (t : Tainted) (p : Nat) : Prop := t.pos ≤ p ∧ p < t.pos + t.len

def Accepted (ranges : List Range) (p : Nat) : Prop := ∃ range ∈ ranges, range.ok = 1 ∧ range.Has p

/-- The intervals of a set of positions: none empty, none next to another, the last one
first. -/
structure Intervals (positions : Nat → Prop) (taint : List Tainted) : Prop where
  covers : ∀ p, (∃ t ∈ taint, t.Has p) ↔ positions p
  nonempty : ∀ t ∈ taint, 0 < t.len
  gaps : taint.Pairwise fun later earlier => earlier.pos + earlier.len < later.pos

/-- The first interval ends where the range starts. -/
def Continues (taint : List Tainted) (range : Range) : Prop :=
  taint.head?.any fun t => t.pos + t.len = range.start

/-- Some of the accepted ranges are merged, those at the lower positions. -/
structure Merging (positions : Nat → Prop) (ranges : List Range) (taint : List Tainted)
    (count : Nat) : Prop where
  apart : ranges.Pairwise Range.Apart
  inside : ∀ range ∈ ranges, range.start ≤ range.last ∧ range.start < 0xffffffff
  intervals : Intervals (fun p => positions p ∧ ¬Accepted ranges p) taint
  remaining : ∀ p, Accepted ranges p → positions p
  behind : ∀ t ∈ taint, ∀ range ∈ ranges, range.ok = 1 → t.pos + t.len ≤ range.start
  counted : count = (taint.map Tainted.len).sum

/-! ## The scan -/

section

variable {taint : List Tainted} {all : List Range}

/-- No accepted range starts in front of a position. -/
def Lowest (ranges : List Range) (pos : Nat) : Prop :=
  ∀ range ∈ ranges, range.ok = 1 → pos ≤ range.start

def Scanned (taint : List Tainted) (all : List Range) (pos : Nat) : Picked → Prop
  | .continues _ _ => False
  | .starts k range =>
    pos = range.start ∧ all[k]? = some range ∧ range.ok = 1 ∧ ¬Continues taint range
  | .finished => pos = 0xffffffff

/-- What a scan of all ranges comes to. -/
def Right (taint : List Tainted) (all : List Range) : Picked → Prop
  | .continues k range => all[k]? = some range ∧ range.ok = 1 ∧ Continues taint range
  | .starts k range => all[k]? = some range ∧ range.ok = 1 ∧ ¬Continues taint range ∧
      Lowest all range.start
  | .finished => Lowest all 0xffffffff

theorem pick_right {ranges : List Range} {k pos : Nat} {found : Picked}
    (rest : all.drop k = ranges) (scanned : Scanned taint all pos found)
    (lowest : Lowest (all.take k) pos) : Right taint all (pick taint pos found ranges k) := by
  induction ranges generalizing k pos found with
  | nil =>
      rw [List.take_of_length_le (List.drop_eq_nil_iff.mp rest)] at lowest
      cases found with
      | continues k range => exact scanned.elim
      | starts k range => exact ⟨scanned.2.1, scanned.2.2.1, scanned.2.2.2, scanned.1 ▸ lowest⟩
      | finished => exact scanned ▸ lowest
  | cons range ranges ih =>
      have next : all.drop (k + 1) = ranges := by
        rw [← List.drop_drop, rest, List.drop_one, List.tail_cons]
      have here : all[k]? = some range := by rw [← List.head?_drop, rest, List.head?_cons]
      have lower {bound : Nat} (below : bound ≤ pos) (this : range.ok = 1 → bound ≤ range.start) :
          Lowest (all.take (k + 1)) bound := by
        intro other seen ok
        rw [List.take_add_one, here] at seen
        rcases List.mem_append.mp seen with before | last
        · exact Nat.le_trans below (lowest other before ok)
        · rw [List.mem_singleton.mp last] at ok ⊢
          exact this ok
      unfold pick
      split
      · next new =>
        split
        · next continues => exact ⟨here, new.1, continues⟩
        · next fresh =>
          exact ih next ⟨rfl, here, new.1, fresh⟩
            (lower (Nat.le_of_lt new.2) fun _ => Nat.le_refl _)
      · next old =>
        exact ih next scanned
          (lower (Nat.le_refl pos) fun ok => Nat.le_of_not_lt fun before => old ⟨ok, before⟩)

end

/-! ## The merge -/

section

variable {positions : Nat → Prop} {ranges others : List Range} {taint : List Tainted}
  {count : Nat} {range : Range}

theorem Accepted.perm {p : Nat} (same : ranges.Perm others) :
    Accepted ranges p ↔ Accepted others p := by
  unfold Accepted
  exact exists_congr fun range => and_congr_left' same.mem_iff

theorem accepted_cons {p : Nat} (ok : range.ok = 1) :
    Accepted (range :: others) p ↔ range.Has p ∨ Accepted others p := by
  unfold Accepted
  simp only [List.mem_cons, exists_eq_or_imp, ok, true_and]

theorem accepted_merged {p : Nat} :
    Accepted ({ range with ok := 2 } :: others) p ↔ Accepted others p := by
  unfold Accepted
  simp

theorem Merging.perm (merging : Merging positions ranges taint count)
    (same : ranges.Perm others) : Merging positions others taint count where
  apart := (same.pairwise_iff Range.Apart.symm).mp merging.apart
  inside range member := merging.inside range (same.mem_iff.mpr member)
  intervals :=
    { covers := fun p => (merging.intervals.covers p).trans
        (and_congr_right' (not_congr (Accepted.perm same)))
      nonempty := merging.intervals.nonempty
      gaps := merging.intervals.gaps }
  remaining p accepted := merging.remaining p ((Accepted.perm same).mpr accepted)
  behind t member range there := merging.behind t member range (same.mem_iff.mpr there)
  counted := merging.counted

/-- The lowest accepted range goes into the intervals. -/
theorem Merging.take {merged : List Tainted}
    (merging : Merging positions (range :: others) taint count) (ok : range.ok = 1)
    (lowest : Lowest (range :: others) range.start)
    (covers : ∀ p, (∃ t ∈ merged, t.Has p) ↔ (∃ t ∈ taint, t.Has p) ∨ range.Has p)
    (nonempty : ∀ t ∈ merged, 0 < t.len)
    (gaps : merged.Pairwise fun later earlier => earlier.pos + earlier.len < later.pos)
    (ends : ∀ t ∈ merged, t.pos + t.len ≤ range.last + 1)
    (counted : (merged.map Tainted.len).sum = (taint.map Tainted.len).sum + range.size) :
    Merging positions ({ range with ok := 2 } :: others) merged (count + range.size) := by
  obtain ⟨apart, apartOthers⟩ := List.pairwise_cons.mp merging.apart
  have above {other : Range} (member : other ∈ others) (accepted : other.ok = 1) :
      range.last < other.start := by
    have distinct := apart other member
    have higher := lowest other (List.mem_cons_of_mem _ member) accepted
    have ordered := merging.inside other (List.mem_cons_of_mem _ member)
    unfold Range.Apart at distinct
    omega
  have alone {p : Nat} (has : range.Has p) : ¬Accepted others p := by
    rintro ⟨other, member, accepted, also⟩
    have higher := above member accepted
    unfold Range.Has at has also
    omega
  refine ⟨List.pairwise_cons.mpr ⟨apart, apartOthers⟩, ?_, ⟨fun p => ?_, nonempty, gaps⟩, ?_, ?_, ?_⟩
  · intro other member
    rcases List.mem_cons.mp member with rfl | member
    · exact merging.inside range List.mem_cons_self
    · exact merging.inside other (List.mem_cons_of_mem _ member)
  · have before := merging.intervals.covers p
    rw [accepted_cons ok] at before
    rw [covers, before, accepted_merged]
    constructor
    · rintro (⟨inside, open'⟩ | has)
      · exact ⟨inside, fun accepted => open' (.inr accepted)⟩
      · exact ⟨merging.remaining p ((accepted_cons ok).mpr (.inl has)), alone has⟩
    · rintro ⟨inside, closed⟩
      by_cases has : range.Has p
      · exact .inr has
      · exact .inl ⟨inside, fun accepted => accepted.elim has closed⟩
  · intro p accepted
    exact merging.remaining p ((accepted_cons ok).mpr (.inr (accepted_merged.mp accepted)))
  · intro t member other there accepted
    rcases List.mem_cons.mp there with rfl | there
    · cases accepted
    · have higher := above there accepted
      have ending := ends t member
      omega
  · rw [counted, merging.counted]

theorem Merging.starts (merging : Merging positions (range :: others) taint count)
    (ok : range.ok = 1) (lowest : Lowest (range :: others) range.start)
    (fresh : ¬Continues taint range) :
    Merging positions ({ range with ok := 2 } :: others)
      ({ pos := range.start, len := range.size } :: taint) (count + range.size) := by
  obtain ⟨ordered, _⟩ := merging.inside range List.mem_cons_self
  have size := Range.size_eq ordered
  have before (t : Tainted) (member : t ∈ taint) : t.pos + t.len < range.start := by
    have upTo := merging.behind t member range List.mem_cons_self ok
    cases taint with
    | nil => cases member
    | cons first rest =>
        have apart : first.pos + first.len ≠ range.start := fun same => fresh (decide_eq_true same)
        have firstUpTo := merging.behind first List.mem_cons_self range List.mem_cons_self ok
        rcases List.mem_cons.mp member with rfl | member
        · omega
        · have gap := (List.pairwise_cons.mp merging.intervals.gaps).1 t member
          omega
  refine merging.take ok lowest (fun p => ?_) ?_ ?_ ?_ ?_
  · rw [List.exists_mem_cons_iff, or_comm]
    unfold Tainted.Has Range.Has
    rw [size, Nat.lt_succ_iff]
  · intro t member
    rcases List.mem_cons.mp member with rfl | member
    · dsimp only
      omega
    · exact merging.intervals.nonempty t member
  · exact List.pairwise_cons.mpr ⟨before, merging.intervals.gaps⟩
  · intro t member
    rcases List.mem_cons.mp member with rfl | member
    · exact Nat.le_of_eq size
    · have ending := before t member
      omega
  · rw [List.map_cons, List.sum_cons, Nat.add_comm]

theorem Merging.continues {first : Tainted} {rest : List Tainted}
    (merging : Merging positions (range :: others) (first :: rest) count) (ok : range.ok = 1)
    (continues : first.pos + first.len = range.start) :
    Merging positions ({ range with ok := 2 } :: others)
      ({ first with len := first.len + range.size } :: rest) (count + range.size) := by
  obtain ⟨ordered, _⟩ := merging.inside range List.mem_cons_self
  obtain ⟨gaps, gapsRest⟩ := List.pairwise_cons.mp merging.intervals.gaps
  have size := Range.size_eq ordered
  have lowest : Lowest (range :: others) range.start := fun other member accepted =>
    continues ▸ merging.behind first List.mem_cons_self other member accepted
  refine merging.take ok lowest (fun p => ?_) ?_ ?_ ?_ ?_
  · rw [List.exists_mem_cons_iff, List.exists_mem_cons_iff]
    unfold Tainted.Has Range.Has
    dsimp only
    constructor
    · rintro (has | later)
      · by_cases old : p < first.pos + first.len
        · exact .inl (.inl ⟨has.1, old⟩)
        · exact .inr (by omega)
      · exact .inl (.inr later)
    · rintro ((has | later) | has)
      · exact .inl (by omega)
      · exact .inr later
      · exact .inl (by omega)
  · intro t member
    rcases List.mem_cons.mp member with rfl | member
    · have positive := merging.intervals.nonempty first List.mem_cons_self
      exact Nat.lt_of_lt_of_le positive (Nat.le_add_right _ _)
    · exact merging.intervals.nonempty t (List.mem_cons_of_mem _ member)
  · exact List.pairwise_cons.mpr ⟨gaps, gapsRest⟩
  · intro t member
    rcases List.mem_cons.mp member with rfl | member
    · dsimp only
      omega
    · have upTo := merging.behind t (List.mem_cons_of_mem _ member) range List.mem_cons_self ok
      omega
  · simp only [List.map_cons, List.sum_cons]
    omega

theorem countP_merged {k : Nat} (there : ranges[k]? = some range) (ok : range.ok = 1) :
    (ranges.set k { range with ok := 2 }).countP (fun range => range.ok = 1) <
      ranges.countP fun range => range.ok = 1 := by
  obtain ⟨inside, here⟩ := List.getElem?_eq_some_iff.mp there
  rw [(List.set_perm_cons_eraseIdx inside _).countP_eq,
    ← (List.getElem_cons_eraseIdx_perm inside).countP_eq, here]
  simp [ok]

/-- The merge comes to its end, and leaves none of the accepted ranges out. -/
theorem mergeLoop_intervals {fuel : Nat} (merging : Merging positions ranges taint count)
    (enough : (ranges.countP fun range => range.ok = 1) < fuel) :
    ∃ merged, mergeLoop fuel ranges taint count = some (merged, (merged.map Tainted.len).sum) ∧
      Intervals positions merged := by
  induction fuel generalizing ranges taint count with
  | zero => exact absurd enough (Nat.not_lt_zero _)
  | succ fuel ih =>
      have right : Right taint ranges (pick taint 0xffffffff .finished ranges 0) :=
        pick_right List.drop_zero rfl nofun
      have split {k : Nat} {range : Range} (there : ranges[k]? = some range) :
          Merging positions (range :: ranges.eraseIdx k) taint count ∧
            ∀ other, (ranges.set k other).Perm (other :: ranges.eraseIdx k) := by
        obtain ⟨inside, here⟩ := List.getElem?_eq_some_iff.mp there
        exact ⟨merging.perm (here ▸ (List.getElem_cons_eraseIdx_perm inside).symm),
          fun other => List.set_perm_cons_eraseIdx inside other⟩
      unfold mergeLoop
      cases picked : pick taint 0xffffffff .finished ranges 0 with
      | continues k range =>
          rw [picked] at right
          obtain ⟨there, ok, continues⟩ := right
          obtain ⟨merging, same⟩ := split there
          have fewer := countP_merged there ok
          cases taint with
          | nil => cases continues
          | cons first rest =>
              exact ih ((merging.continues ok (of_decide_eq_true continues)).perm (same _).symm)
                (by omega)
      | starts k range =>
          rw [picked] at right
          obtain ⟨there, ok, fresh, lowest⟩ := right
          obtain ⟨inside, here⟩ := List.getElem?_eq_some_iff.mp there
          obtain ⟨merging, same⟩ := split there
          have fewer := countP_merged there ok
          have lowest' : Lowest (range :: ranges.eraseIdx k) range.start := by
            intro other member
            rw [← here] at member
            exact lowest other ((List.getElem_cons_eraseIdx_perm inside).mem_iff.mp member)
          exact ih ((merging.starts ok lowest' fresh).perm (same _).symm) (by omega)
      | finished =>
          rw [picked] at right
          have none (p : Nat) : ¬Accepted ranges p := by
            rintro ⟨range, member, ok, _⟩
            have high := right range member ok
            have low := (merging.inside range member).2
            omega
          refine ⟨taint, by rw [merging.counted], ?_, merging.intervals.nonempty,
            merging.intervals.gaps⟩
          exact fun p => (merging.intervals.covers p).trans (and_iff_left (none p))

end

/-! ## The whole -/

theorem replaceByte_ne {replacement : Replacement} {orig other : UInt8} {random rest : List Nat}
    (replaced : replaceByte replacement orig random = some (other, rest)) : orig ≠ other := by
  unfold replaceByte at replaced
  split at replaced
  · next c =>
    split at replaced
    · cases replaced
    · next differs =>
      cases replaced
      exact Ne.symm differs
  · next base limit =>
    split at replaced
    · cases replaced
    · next n rest drawn =>
      cases replaced
      have passed := List.head?_dropWhile_not (fun n => base + .ofNat (n % limit) = orig) random
      rw [drawn] at passed
      exact Ne.symm (of_decide_eq_false passed)

theorem replaceAll_ne {pickReplacement : UInt8 → Replacement} {buf changed : List UInt8}
    {random : List Nat} (replaced : replaceAll pickReplacement buf random = some changed) :
    List.Forall₂ (· ≠ ·) buf changed := by
  induction buf generalizing random changed with
  | nil =>
      cases replaced
      exact .nil
  | cons c rest ih =>
      unfold replaceAll at replaced
      obtain ⟨⟨other, left⟩, first, replaced⟩ := Option.bind_eq_some_iff.mp replaced
      obtain ⟨others, later, same⟩ := Option.bind_eq_some_iff.mp replaced
      cases same
      exact .cons (replaceByte_ne first) (ih later)

section

variable {env : Env} {input changed : List UInt8}

theorem holds_start (some' : input ≠ []) (executed : History) :
    Colors env input changed input (addRange [] 0 (input.length - 1)) executed where
  length := rfl
  apart := List.pairwise_singleton _ _
  inside range member := by
    have positive := List.length_pos_iff.mpr some'
    rw [List.mem_singleton.mp member]
    exact ⟨Nat.zero_le _, Nat.sub_one_lt_of_lt positive, Nat.zero_le _⟩
  covered p before :=
    .inl ⟨_, List.mem_singleton_self _, Nat.zero_le p, Nat.le_sub_one_of_lt before⟩
  accepted range member ok := by
    rw [List.mem_singleton.mp member] at ok
    cases ok
  original _ _ := rfl
  cksum := rfl

theorem Colors.merging {buf : List UInt8} {ranges : List Range} {executed : History}
    (colors : Colors env input changed buf ranges executed) (short : input.length < 0x100000000) :
    Merging (Accepted ranges) ranges [] 0 where
  apart := colors.apart
  inside range member := by
    have inside := colors.inside range member
    omega
  intervals :=
    { covers := fun p => by simp
      nonempty := nofun
      gaps := .nil }
  remaining _ accepted := accepted
  behind _ member := nomatch member
  counted := rfl

/-- What the search ends with: every byte of an accepted range is changed, every other one
is original, the checksum is the original one, and the taint is what was accepted unless
that is not satisfactory. -/
structure Colored (env : Env) (input changed : List UInt8) (st : State)
    (taint : List Tainted) : Prop where
  colors : Holds env input changed st
  taint : ∃ merged, Intervals (Accepted st.ranges) merged ∧
    taint = if unsatisfactory env input.length (merged.map Tainted.len).sum then [] else merged

/-- The search starts as its invariant says, keeps it in all rounds, and comes to its end. -/
theorem colorization_colors (env : Env) (random : List Nat) (input : List UInt8)
    (some' : input ≠ []) (short : input.length < 0x100000000) :
    (∀ changed executed,
      Colors env input changed input (addRange [] 0 (input.length - 1)) executed) ∧
    (∀ changed rounds, changed.length = input.length →
      Ensures (Holds env input changed) (colorLoop env input changed (env.cksum input) rounds)
        (fun _ => Holds env input changed) (fun reason _ => reason = .aborted)) ∧
    Ensures (fun st => st.buf = input) (colorization env random)
      (fun taint st =>
        ∃ changed, List.Forall₂ (· ≠ ·) input changed ∧ Colored env input changed st taint)
      (fun reason _ => reason ≠ .outOfFuel) := by
  refine ⟨fun _ executed => holds_start some' executed,
    fun _ rounds sameLength => colorLoop_ensures sameLength rounds, .fixed fun st same => ?_⟩
  subst same
  let begun : State := { st with ranges := addRange [] 0 (st.buf.length - 1) }
  refine .bind (fun seen after => seen = st ∧ after = st) (.look fun _ same => ⟨same, same⟩)
    fun seen => ?_
  refine .bind (fun _ after => seen = st ∧ after = begun)
    (.update fun _ same => ⟨same.1, by rw [same.2, same.1]⟩) fun _ => ?_
  refine .bind (fun cksum after => seen = st ∧ cksum = env.cksum st.buf ∧
    after = { begun with executed := st.buf :: st.executed }) ?_ fun cksum => ?_
  · refine .fixed fun after same => ?_
    rw [same.2]
    exact (getExecChecksum_ensures begun).mono (fun _ _ done => ⟨same.1, done⟩) fun _ _ aborted =>
      aborted ▸ nofun
  refine .fixed fun _ ⟨seen', cksum', after'⟩ => ?_
  subst seen' cksum' after'
  dsimp only
  split
  · exact .stop fun _ _ => nofun
  · next changed replaced =>
    have differs := replaceAll_ne replaced
    have sameLength : changed.length = seen.buf.length := differs.length_eq.symm
    refine .bind (fun _ => Holds env seen.buf changed) ?_ fun _ => ?_
    · refine ((colorLoop_ensures sameLength _).mono (fun _ _ holds => holds) fun _ _ aborted =>
        aborted ▸ nofun).of fun _ same => same ▸ holds_start some' _
    · refine .bind (fun seen' after => seen' = after ∧ Holds env seen.buf changed after)
        (.look fun _ holds => ⟨rfl, holds⟩) fun ended => .fixed fun after ⟨same, holds⟩ => ?_
      subst same
      obtain ⟨merged, done, intervals⟩ := mergeLoop_intervals (holds.merging short)
        (Nat.lt_succ_of_le List.countP_le_length)
      rw [done]
      exact .pure fun _ same => ⟨changed, differs, same ▸ ⟨holds, merged, intervals, rfl⟩⟩

end

def firstByteEnv : Env where
  cksum buf := (buf.headD 0).toUInt64
  aborts _ := false
  tooSlow _ := false
  cmplogRandomColorization := true
  colorizeSuccess := 0
  cmplogLvl := 2
  activeItems := 1

theorem colorization_colors_twoBytes :
    Ensures (fun st => st.buf = [0x41, 0x42]) (colorization firstByteEnv [0x43, 0x44])
      (fun taint st => ∃ changed, List.Forall₂ (· ≠ ·) [0x41, 0x42] changed ∧
        Colored firstByteEnv [0x41, 0x42] changed st taint)
      (fun reason _ => reason ≠ .outOfFuel) :=
  (colorization_colors firstByteEnv [0x43, 0x44] [0x41, 0x42] nofun (by decide)).2.2

/-- A single byte that cannot be changed is in no range any more. -/
theorem colorization_drops :
    ¬∀ p < 1, ∃ range ∈
      (colorization firstByteEnv [0x43] { buf := [0x41], ranges := [], executed := [] }).2.ranges,
      range.Has p := by
  intro covers
  obtain ⟨range, member, _⟩ := covers 0 Nat.one_pos
  have none :
      (colorization firstByteEnv [0x43] { buf := [0x41], ranges := [], executed := [] }).2.ranges =
        [] := rfl
  rw [none] at member
  cases member

end SbFuzz.Fuzzer.Colorization
