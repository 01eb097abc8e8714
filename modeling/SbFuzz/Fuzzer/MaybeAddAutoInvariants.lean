import SbFuzz.Fuzzer.MaybeAddAuto

/-! Whatever tokens are offered, the automatic ones stay few, different from one
another and from the user's, and the ones that are used are in order. -/

set_option autoImplicit false

namespace SbFuzz.Fuzzer.MaybeAddAuto

open SbFuzz.Systems

/-! ## Case -/

/-- Tokens that differ in the case of letters at most. -/
def SameNocase (token other : Token) : Prop := token.map toLower = other.map toLower

theorem SameNocase.length_eq {token other : Token} (same : SameNocase token other) :
    token.length = other.length := by
  have lengths := congrArg List.length same
  rwa [List.length_map, List.length_map] at lengths

theorem memcmpNocase_iff {m1 m2 : Token} (lengths : m1.length = m2.length) :
    memcmpNocase m1 m2 = false ↔ SameNocase m1 m2 := by
  unfold SameNocase
  induction m1 generalizing m2 with
  | nil =>
      obtain rfl := List.length_eq_zero_iff.mp lengths.symm
      simp [memcmpNocase]
  | cons c m1 ih =>
      cases m2 with
      | nil => cases lengths
      | cons d m2 =>
          rw [memcmpNocase, List.map_cons, List.map_cons, List.cons.injEq,
            ← ih (Nat.succ.inj lengths)]
          by_cases same : toLower c = toLower d
          · simp [same]
          · have different : toLower c ^^^ toLower d ≠ 0 := fun zero =>
              same (UInt8.xor_eq_zero_iff.mp zero)
            simp [same, different]

theorem matches_iff {mem : Token} {ae : AutoExtra} :
    ae.matches mem = true ↔ SameNocase ae.data mem := by
  unfold AutoExtra.matches
  rw [Bool.and_eq_true, decide_eq_true_eq, Bool.not_eq_true']
  constructor
  · rintro ⟨lengths, same⟩
    exact (memcmpNocase_iff lengths).mp same
  · intro same
    exact ⟨same.length_eq, (memcmpNocase_iff same.length_eq).mpr same⟩

/-- In the order of lengths the two loops meet every token of the length. -/
theorem mem_sameLength {extras : List Token} (ranked : Ranked List.length extras) (n : Nat)
    {extra : Token} :
    extra ∈ (extras.dropWhile fun extra => extra.length < n).takeWhile
        (fun extra => extra.length = n) ↔ extra ∈ extras ∧ extra.length = n := by
  induction extras with
  | nil => simp
  | cons head extras ih =>
      by_cases shorter : head.length < n
      · rw [List.dropWhile_cons_of_pos (by simpa using shorter), ih ranked.tail, List.mem_cons]
        constructor
        · exact fun ⟨member, length⟩ => ⟨.inr member, length⟩
        · rintro ⟨rfl | member, length⟩
          · omega
          · exact ⟨member, length⟩
      · rw [List.dropWhile_cons_of_neg (by simpa using shorter)]
        by_cases fits : head.length = n
        · have same : (extras.dropWhile fun extra => extra.length < n) = extras := by
            cases extras with
            | nil => rfl
            | cons next extras =>
                have ordered := ranked.head_le List.mem_cons_self
                exact List.dropWhile_cons_of_neg (by simpa using fits ▸ ordered)
          rw [same] at ih
          rw [List.takeWhile_cons_of_pos (by simpa using fits), List.mem_cons, ih ranked.tail,
            List.mem_cons]
          constructor
          · rintro (rfl | ⟨member, length⟩)
            · exact ⟨.inl rfl, fits⟩
            · exact ⟨.inr member, length⟩
          · rintro ⟨rfl | member, length⟩
            · exact .inl rfl
            · exact .inr ⟨member, length⟩
        · rw [List.takeWhile_cons_of_neg (by simpa using fits)]
          refine iff_of_false List.not_mem_nil ?_
          rintro ⟨member, length⟩
          rcases List.mem_cons.mp member with rfl | later
          · exact fits length
          · have ordered := ranked.head_le later
            omega

theorem matchesExtra_iff {extras : List Token} (ranked : Ranked List.length extras) (mem : Token) :
    matchesExtra extras mem = true ↔ ∃ extra ∈ extras, SameNocase extra mem := by
  unfold matchesExtra
  simp only [List.any_eq_true, mem_sameLength ranked, Bool.not_eq_true']
  constructor
  · rintro ⟨extra, ⟨member, length⟩, same⟩
    exact ⟨extra, member, (memcmpNocase_iff length).mp same⟩
  · rintro ⟨extra, member, same⟩
    exact ⟨extra, ⟨member, same.length_eq⟩, (memcmpNocase_iff same.length_eq).mpr same⟩

/-! ## The array -/

theorem pairwise_set {α : Type} {R : α → α → Prop} (symm : ∀ {a b}, R a b → R b a) {items : List α}
    (distinct : items.Pairwise R) {item : α} (new : ∀ other ∈ items, R other item) (i : Nat) :
    (items.set i item).Pairwise R := by
  induction items generalizing i with
  | nil => exact .nil
  | cons head items ih =>
      obtain ⟨first, rest⟩ := List.pairwise_cons.mp distinct
      obtain ⟨newFirst, newRest⟩ := List.forall_mem_cons.mp new
      cases i with
      | zero => exact .cons (fun other member => symm (newRest other member)) rest
      | succ i =>
          refine .cons (fun other member => ?_) (ih rest newRest i)
          rcases List.mem_or_eq_of_mem_set member with old | rfl
          · exact first other old
          · exact newFirst

/-- Automatic tokens besides the ones of the user. -/
structure Valid (extras : List Token) (aExtras : List AutoExtra) : Prop where
  bounded : aExtras.length ≤ maxAutoExtras
  distinct : aExtras.Pairwise fun ae1 ae2 => ¬ SameNocase ae1.data ae2.data
  fresh : ∀ ae ∈ aExtras, ∀ extra ∈ extras, ¬ SameNocase extra ae.data

section

variable {extras : List Token} {aExtras other : List AutoExtra} {mem : Token}

theorem Valid.perm (valid : Valid extras aExtras) (perm : other.Perm aExtras) :
    Valid extras other where
  bounded := perm.length_eq ▸ valid.bounded
  distinct := (perm.pairwise_iff fun different same => different same.symm).mpr valid.distinct
  fresh := fun ae member => valid.fresh ae (perm.mem_iff.mp member)

theorem Valid.congr (valid : Valid extras aExtras)
    (same : other.map AutoExtra.data = aExtras.map AutoExtra.data) : Valid extras other where
  bounded := by
    have lengths := congrArg List.length same
    rw [List.length_map, List.length_map] at lengths
    exact lengths ▸ valid.bounded
  distinct := by
    have distinct : (aExtras.map AutoExtra.data).Pairwise fun m1 m2 => ¬ SameNocase m1 m2 :=
      List.pairwise_map.mpr valid.distinct
    rw [← same] at distinct
    exact List.pairwise_map.mp distinct
  fresh := by
    intro ae member
    have there : ae.data ∈ other.map AutoExtra.data := List.mem_map_of_mem member
    rw [same] at there
    obtain ⟨ae', member', data⟩ := List.mem_map.mp there
    rw [← data]
    exact valid.fresh ae' member'

theorem Valid.place (valid : Valid extras aExtras) (random : Nat)
    (new : ∀ extra ∈ extras, ¬ SameNocase extra mem) :
    Valid extras (place random aExtras mem) := by
  unfold MaybeAddAuto.place
  split
  · next i _ =>
    refine valid.congr ?_
    refine List.ext_getElem? fun k => ?_
    rw [List.getElem?_map, List.getElem?_map, List.getElem?_modify]
    split <;> cases aExtras[k]? <;> rfl
  · next absent =>
    have unlike : ∀ ae ∈ aExtras, ¬ SameNocase ae.data mem := fun ae member same =>
      absurd (matches_iff.mpr same) (by simpa using List.findIdx?_eq_none_iff.mp absent ae member)
    split
    · next room =>
      refine ⟨?_, ?_, ?_⟩
      · rw [List.length_append, List.length_singleton]
        exact room
      · refine List.pairwise_append.mpr ⟨valid.distinct, List.pairwise_singleton _ _, ?_⟩
        intro ae member new' isNew
        obtain rfl := List.mem_singleton.mp isNew
        exact unlike ae member
      · intro ae member
        rcases List.mem_append.mp member with old | isNew
        · exact valid.fresh ae old
        · obtain rfl := List.mem_singleton.mp isNew
          exact new
    · refine ⟨?_, ?_, ?_⟩
      · rw [List.length_set]
        exact valid.bounded
      · exact pairwise_set (fun different same => different same.symm) valid.distinct unlike _
      · intro ae member
        rcases List.mem_or_eq_of_mem_set member with old | rfl
        · exact valid.fresh ae old
        · exact new

end

theorem sortAExtras_perm (qsort : AutoQSort) (aExtras : List AutoExtra) :
    (sortAExtras qsort aExtras).Perm aExtras := by
  have used := qsort.perm_byUse aExtras
  unfold sortAExtras
  refine ((qsort.perm_byLen _).append_right _).trans ?_
  rw [List.take_append_drop]
  exact used

theorem sortAExtras_ranked (qsort : AutoQSort) (aExtras : List AutoExtra) :
    Ranked (fun ae : AutoExtra => ae.data.length)
      ((sortAExtras qsort aExtras).take useAutoExtras) := by
  have ranked (part : List AutoExtra) :
      Ranked (fun ae : AutoExtra => ae.data.length) (qsort.byLen part) := by
    refine (qsort.sorted_byLen part).imp fun ordered => ?_
    unfold compareAutoExtrasLen at ordered
    dsimp only
    omega
  unfold sortAExtras
  dsimp only
  generalize qsort.byUse aExtras = used
  have size : (qsort.byLen (used.take useAutoExtras)).length = min useAutoExtras used.length := by
    rw [(qsort.perm_byLen _).length_eq, List.length_take]
  rw [List.take_append, List.take_of_length_le (by omega)]
  rcases Nat.lt_or_ge used.length useAutoExtras with few | many
  · rw [List.drop_of_length_le (Nat.le_of_lt few), List.take_nil, List.append_nil]
    exact ranked _
  · rw [size, Nat.min_eq_left many, Nat.sub_self, List.take_zero, List.append_nil]
    exact ranked _

/-! ## Runs -/

/-- What any calls leave of no automatic tokens, each with the number that is drawn. -/
def maybeAddAutos (qsort : AutoQSort) (extras : List Token) (calls : List (Token × Nat)) : Tokens :=
  calls.foldl (fun tokens call => maybeAddAuto qsort call.2 tokens call.1) ⟨extras, [], false⟩

/-- The automatic tokens behind a call, of which the ones in use are in order. -/
structure Tokens.Kept (extras : List Token) (tokens : Tokens) : Prop where
  extras_eq : tokens.extras = extras
  valid : Valid extras tokens.aExtras
  ranked : Ranked (fun ae : AutoExtra => ae.data.length) (tokens.aExtras.take useAutoExtras)

theorem maybeAddAuto_kept {extras : List Token} (sorted : Ranked List.length extras)
    (qsort : AutoQSort) (random : Nat) {tokens : Tokens} (kept : tokens.Kept extras) (mem : Token) :
    (maybeAddAuto qsort random tokens mem).Kept extras := by
  unfold maybeAddAuto
  split
  · exact kept
  · split
    · exact kept
    · split
      · exact kept
      · next unmatched =>
        rw [kept.extras_eq, matchesExtra_iff sorted] at unmatched
        have new : ∀ extra ∈ extras, ¬ SameNocase extra mem := fun extra member same =>
          unmatched ⟨extra, member, same⟩
        exact ⟨kept.extras_eq, (kept.valid.place random new).perm (sortAExtras_perm qsort _),
          sortAExtras_ranked qsort _⟩

/-- Next to user tokens in the order of lengths, the automatic tokens after any calls are no more
than there is room for, pairwise different and different from the user's but for the case of
letters, and the ones in use are in the order of lengths. -/
theorem maybeAddAutos_kept {extras : List Token} (sorted : Ranked List.length extras)
    (qsort : AutoQSort) (calls : List (Token × Nat)) :
    (maybeAddAutos qsort extras calls).Kept extras := by
  have start : Tokens.Kept extras ⟨extras, [], false⟩ :=
    ⟨rfl, ⟨Nat.zero_le _, .nil, nofun⟩, by simp [Ranked]⟩
  unfold maybeAddAutos
  generalize (⟨extras, [], false⟩ : Tokens) = tokens at start ⊢
  induction calls generalizing tokens with
  | nil => exact start
  | cons call calls ih => exact ih _ (maybeAddAuto_kept sorted qsort call.2 start call.1)

/-- One of the tokens is the user's, and two are the same. -/
theorem maybeAddAutos_kept_three :
    (maybeAddAutos .stable [[0x41, 0x42, 0x43]]
      [([0x61, 0x62, 0x63], 0), ([0x78, 0x79], 0), ([0x58, 0x59], 0)]).Kept [[0x41, 0x42, 0x43]] :=
  @maybeAddAutos_kept [[0x41, 0x42, 0x43]] (List.pairwise_singleton _ _) .stable
    [([0x61, 0x62, 0x63], 0), ([0x78, 0x79], 0), ([0x58, 0x59], 0)]

end SbFuzz.Fuzzer.MaybeAddAuto
