import SbFuzz.Fuzzer.AutoTokens
import SbFuzz.Systems.Stretches

/-! What the stage `bitflip 1/1` passes to `maybe_add_auto`, and when this is a
piece of the input. -/

set_option autoImplicit false

namespace SbFuzz.Fuzzer.AutoTokens

open Systems (OpenStretch ClosedStretch)

variable {env : Env} {input : List UInt8}

/-! ## What the collector has collected -/

/-- The bytes at these places of the input. -/
def tag (input : List UInt8) (positions : List Nat) : List Collected :=
  positions.map fun i => ⟨i, input.getD i 0⟩

def Fits (run : List Nat) : Prop := minAutoExtra ≤ run.length ∧ run.length ≤ maxAutoExtra

/-- The collector after the bytes of `done`, none of which is the end of the file: it holds the
stretch that is open, unless its checksum is the original one, and has output those that are closed. -/
structure Collects (env : Env) (input : List UInt8) (done : List Nat) (c : Collector) : Prop where
  clean : c.outBuf = input
  fresh : done = [] → c.prevCksum = env.cksum input
  idle : c.prevCksum = env.cksum input → c.aLen = 0 ∧ c.aCollect = []
  opened : done ≠ [] → ∃ run, OpenStretch (env.flipCksum input) done c.prevCksum run ∧
    (c.prevCksum ≠ env.cksum input → c.aLen = run.length ∧
      (run.length ≤ maxAutoExtra → c.aCollect = tag input run))
  autos : ∀ token, token ∈ c.autos ↔ ∃ run k, ClosedStretch (env.flipCksum input) done k run ∧
    k ≠ env.cksum input ∧ Fits run ∧ token = tag input run

theorem Collects.init (env : Env) (input : List UInt8) :
    Collects env input [] ⟨input, env.cksum input, [], 0, []⟩ where
  clean := rfl
  fresh := fun _ => rfl
  idle := fun _ => ⟨rfl, rfl⟩
  opened := fun nonempty => absurd rfl nonempty
  autos := by
    intro token
    refine iff_of_false List.not_mem_nil ?_
    rintro ⟨run, k, closed, _⟩
    exact Systems.not_closedStretch_nil closed

variable {done : List Nat} {c : Collector}

theorem Collects.nonempty (collects : Collects env input done c)
    (other : c.prevCksum ≠ env.cksum input) : done ≠ [] :=
  fun empty => other (collects.fresh empty)

/-- Every open stretch has the checksum that the collector remembers. -/
theorem Collects.prevCksum_eq (collects : Collects env input done c) {run : List Nat} {k : UInt64}
    (opened : OpenStretch (env.flipCksum input) done k run) : c.prevCksum = k := by
  have nonempty : done ≠ [] := by
    rintro rfl
    obtain ⟨before, empty, stretch⟩ := opened
    exact stretch.nonempty (List.append_eq_nil_iff.mp empty.symm).2
  obtain ⟨known, current, _⟩ := collects.opened nonempty
  exact (current.unique opened).1

/-- What would be output is the open stretch. -/
theorem Collects.pending (collects : Collects env input done c) (token : List Collected) :
    ((minAutoExtra ≤ c.aLen ∧ c.aLen ≤ maxAutoExtra) ∧ token = c.aCollect) ↔
      ∃ run k, OpenStretch (env.flipCksum input) done k run ∧ k ≠ env.cksum input ∧ Fits run ∧
        token = tag input run := by
  constructor
  · rintro ⟨⟨long, short⟩, rfl⟩
    have other : c.prevCksum ≠ env.cksum input := by
      intro original
      rw [(collects.idle original).1] at long
      exact absurd long (by decide)
    obtain ⟨run, current, held⟩ := collects.opened (collects.nonempty other)
    obtain ⟨length, bytes⟩ := held other
    rw [length] at long short
    exact ⟨run, c.prevCksum, current, other, ⟨long, short⟩, bytes short⟩
  · rintro ⟨run, k, opened, other, fits, rfl⟩
    obtain rfl := collects.prevCksum_eq opened
    obtain ⟨known, current, held⟩ := collects.opened (collects.nonempty other)
    obtain ⟨length, bytes⟩ := held other
    obtain ⟨_, rfl⟩ := current.unique opened
    rw [length]
    exact ⟨fits, (bytes fits.2).symm⟩

theorem Collector.mem_output_autos (c : Collector) (token : List Collected) :
    token ∈ c.output.autos ↔
      token ∈ c.autos ∨ ((minAutoExtra ≤ c.aLen ∧ c.aLen ≤ maxAutoExtra) ∧ token = c.aCollect) := by
  unfold Collector.output
  split
  · next fits => simp [fits]
  · next misfit => simp [misfit]

theorem Collects.autos_output (collects : Collects env input done c) (token : List Collected) :
    token ∈ c.output.autos ↔ ∃ run k, (ClosedStretch (env.flipCksum input) done k run ∨
      OpenStretch (env.flipCksum input) done k run) ∧ k ≠ env.cksum input ∧ Fits run ∧
        token = tag input run := by
  rw [c.mem_output_autos, collects.autos, collects.pending]
  simp only [or_and_right, exists_or]

/-! ## A step -/

/-- The checksum has not changed: no stretch ends. -/
theorem Collects.closed_same (collects : Collects env input done c) {i : Nat}
    (same : env.flipCksum input i = c.prevCksum) (run : List Nat) (k : UInt64) :
    ClosedStretch (env.flipCksum input) (done ++ [i]) k run ↔
      ClosedStretch (env.flipCksum input) done k run := by
  rw [Systems.closedStretch_concat]
  refine or_iff_left ?_
  rintro ⟨opened, differs⟩
  exact differs (same.trans (collects.prevCksum_eq opened))

/-- The checksum has changed: the open stretch ends. -/
theorem Collects.closed_other (collects : Collects env input done c) {i : Nat}
    (other : env.flipCksum input i ≠ c.prevCksum) (run : List Nat) (k : UInt64) :
    ClosedStretch (env.flipCksum input) (done ++ [i]) k run ↔
      ClosedStretch (env.flipCksum input) done k run ∨ OpenStretch (env.flipCksum input) done k run := by
  rw [Systems.closedStretch_concat]
  refine or_congr_right (and_iff_left_of_imp ?_)
  intro opened
  rwa [← collects.prevCksum_eq opened]

theorem Collects.opened_other (collects : Collects env input done c) {i : Nat}
    (other : env.flipCksum input i ≠ c.prevCksum) :
    OpenStretch (env.flipCksum input) (done ++ [i]) (env.flipCksum input i) [i] := by
  apply OpenStretch.singleton
  intro last member same
  have nonempty : done ≠ [] := by
    rintro rfl
    cases member
  obtain ⟨run, current, _⟩ := collects.opened nonempty
  exact other (same.symm.trans (current.getLast?_key last member))

theorem tag_concat (run : List Nat) (i : Nat) :
    tag input (run ++ [i]) = tag input run ++ [⟨i, input.getD i 0⟩] :=
  List.map_append

/-- A byte with the checksum of the open stretch. -/
theorem Collects.collect_same (collects : Collects env input done c) {i : Nat}
    (same : env.flipCksum input i = c.prevCksum) :
    Collects env input (done ++ [i])
      (if c.prevCksum ≠ env.cksum input then c.grab i else c) := by
  have nonempty : done ++ [i] ≠ [] := List.append_ne_nil_of_right_ne_nil _ (List.cons_ne_nil i [])
  split
  · next other =>
    obtain ⟨run, current, held⟩ := collects.opened (collects.nonempty other)
    obtain ⟨length, bytes⟩ := held other
    refine ⟨collects.clean, fun empty => absurd empty nonempty, fun original => absurd original other,
      fun _ => ⟨run ++ [i], current.extend same, fun _ => ⟨?_, ?_⟩⟩, ?_⟩
    · rw [Collector.grab, length, List.length_append, List.length_singleton]
    · intro short
      rw [List.length_append, List.length_singleton] at short
      have room : c.aLen < maxAutoExtra := length ▸ short
      rw [Collector.grab, if_pos room, tag_concat, bytes (Nat.le_of_lt short), collects.clean]
    · intro token
      simp only [collects.closed_same same]
      exact collects.autos token
  · next original =>
    refine ⟨collects.clean, fun empty => absurd empty nonempty, collects.idle, fun _ => ?_, ?_⟩
    · by_cases start : done = []
      · refine ⟨[i], ?_, fun other => absurd other original⟩
        rw [start, ← same]
        exact OpenStretch.singleton (fun last member => by cases member)
      · obtain ⟨run, current, _⟩ := collects.opened start
        exact ⟨run ++ [i], current.extend same, fun other => absurd other original⟩
    · intro token
      simp only [collects.closed_same same]
      exact collects.autos token

/-- A byte with another checksum. -/
theorem Collects.collect_other (collects : Collects env input done c) {i : Nat}
    (other : env.flipCksum input i ≠ c.prevCksum) :
    Collects env input (done ++ [i])
      (if env.flipCksum input i ≠ env.cksum input then
        (c.output.restart (env.flipCksum input i)).grab i
      else c.output.restart (env.flipCksum input i)) := by
  have nonempty : done ++ [i] ≠ [] := List.append_ne_nil_of_right_ne_nil _ (List.cons_ne_nil i [])
  have autos (token : List Collected) : token ∈ c.output.autos ↔
      ∃ run k, ClosedStretch (env.flipCksum input) (done ++ [i]) k run ∧ k ≠ env.cksum input ∧
        Fits run ∧ token = tag input run := by
    simp only [collects.closed_other other]
    exact collects.autos_output token
  have clean : c.output.outBuf = input := c.output_outBuf.trans collects.clean
  split
  · next changed =>
    refine ⟨clean, fun empty => absurd empty nonempty, fun original => absurd original changed,
      fun _ => ⟨[i], collects.opened_other other, fun _ => ⟨rfl, fun _ => ?_⟩⟩, autos⟩
    exact congrArg (fun buf => [Collected.mk i (buf.getD i 0)]) clean
  · next original =>
    exact ⟨clean, fun empty => absurd empty nonempty, fun _ => ⟨rfl, rfl⟩,
      fun _ => ⟨[i], collects.opened_other other, fun changed => absurd changed original⟩, autos⟩

/-- A byte that is not the last of the file. -/
theorem Collects.collect (collects : Collects env input done c) (i : Nat) :
    Collects env input (done ++ [i])
      (c.collect (env.cksum input) false i (env.flipCksum input i)) := by
  unfold Collector.collect
  by_cases same : env.flipCksum input i = c.prevCksum
  · rw [same, c.judge_same]
    exact collects.collect_same same
  · rw [Collector.judge_other same]
    exact collects.collect_other same

/-- The end of the file outputs what would stay queued up. -/
theorem Collects.collect_atEnd (collects : Collects env input done c) (i : Nat) :
    (c.collect (env.cksum input) true i (env.flipCksum input i)).autos =
      (c.collect (env.cksum input) false i (env.flipCksum input i)).output.autos := by
  unfold Collector.collect
  by_cases same : env.flipCksum input i = c.prevCksum
  · rw [same, c.judge_same, c.judge_atEnd]
    by_cases original : c.prevCksum = env.cksum input
    · have empty : c.aLen = 0 := (collects.idle original).1
      have single : (c.grab i).aLen < minAutoExtra := by
        show c.aLen + 1 < minAutoExtra
        rw [empty]
        decide
      have nothing : c.aLen < minAutoExtra := by
        rw [empty]
        decide
      rw [if_neg (not_not.mpr original), if_neg (not_not.mpr original),
        Collector.output_of_short single, Collector.output_of_short nothing]
      rfl
    · rw [if_pos original, if_pos original]
      rfl
  · rw [Collector.judge_other same, Collector.judge_other same]
    have single : (1 : Nat) < minAutoExtra := by decide
    have nothing : (0 : Nat) < minAutoExtra := by decide
    split
    · exact congrArg Collector.autos
        (Collector.output_of_short (c := (c.output.restart _).grab i) single).symm
    · exact congrArg Collector.autos
        (Collector.output_of_short (c := c.output.restart _) nothing).symm

theorem Collects.foldl {later : List Nat} (inner : ∀ i ∈ later, i + 1 ≠ input.length)
    (collects : Collects env input done c) :
    Collects env input (done ++ later) (later.foldl (env.step input) c) := by
  induction later generalizing done c with
  | nil =>
    rw [List.append_nil]
    exact collects
  | cons i later ih =>
    have next := collects.collect i
    have here : decide (i + 1 = input.length) = false :=
      decide_eq_false (inner i List.mem_cons_self)
    rw [List.foldl_cons, List.append_cons]
    refine ih (fun j member => inner j (List.mem_cons_of_mem i member)) ?_
    rw [Env.step, here]
    exact next

/-! ## The bytes that are seen -/

theorem mem_takeWhile_iff {list : List Nat} (sorted : list.Pairwise (· < ·)) (p : Nat → Bool) (b : Nat) :
    b ∈ list.takeWhile p ↔ b ∈ list ∧ ∀ a ∈ list, a ≤ b → p a := by
  induction list with
  | nil => simp
  | cons first rest ih =>
    obtain ⟨least, sorted⟩ := List.pairwise_cons.mp sorted
    by_cases passes : p first
    · rw [List.takeWhile_cons_of_pos passes, List.mem_cons, List.mem_cons, ih sorted]
      constructor
      · rintro (rfl | ⟨member, before⟩)
        · refine ⟨.inl rfl, ?_⟩
          intro a inside below
          rcases List.mem_cons.mp inside with rfl | later
          · exact passes
          · exact absurd (least a later) (Nat.not_lt_of_le below)
        · refine ⟨.inr member, ?_⟩
          intro a inside below
          rcases List.mem_cons.mp inside with rfl | later
          · exact passes
          · exact before a later below
      · rintro ⟨rfl | member, before⟩
        · exact .inl rfl
        · exact .inr ⟨member, fun a later below => before a (List.mem_cons_of_mem first later) below⟩
    · rw [List.takeWhile_cons_of_neg passes]
      refine iff_of_false List.not_mem_nil ?_
      rintro ⟨member, before⟩
      refine passes (before first List.mem_cons_self ?_)
      rcases List.mem_cons.mp member with rfl | later
      · exact Nat.le_refl b
      · exact Nat.le_of_lt (least b later)

theorem Env.mem_seenIn (env : Env) {bits i : Nat} :
    i ∈ env.seenIn (List.range bits) ↔
      8 * i + 7 < bits ∧ env.collects (8 * i + 7) ∧ ∀ a ≤ 8 * i + 7, env.interrupts a = false := by
  unfold seenIn
  simp only [List.mem_map, List.mem_filter, mem_takeWhile_iff List.pairwise_lt_range, List.mem_range,
    Bool.not_eq_true']
  constructor
  · rintro ⟨b, ⟨⟨inside, before⟩, collects⟩, rfl⟩
    have least : b % 8 = 7 := by
      simp only [Env.collects, Bool.and_eq_true, decide_eq_true_eq] at collects
      exact collects.2
    have whole : 8 * (b / 8) + 7 = b := by omega
    rw [whole]
    exact ⟨inside, collects, fun a below => before a (Nat.lt_of_le_of_lt below inside) below⟩
  · rintro ⟨inside, collects, before⟩
    refine ⟨8 * i + 7, ⟨⟨inside, fun a _ below => before a below⟩, collects⟩, ?_⟩
    omega

theorem Env.collects_iff (env : Env) (i : Nat) :
    env.collects (8 * i + 7) ↔ env.nonInstrumentedMode = false ∧ env.skipEffMap i ≠ 0 := by
  have byte : (8 * i + 7) / 8 = i := by omega
  have least : (8 * i + 7) % 8 = 7 := by omega
  simp [collects, byte, least]

theorem Env.seenIn_pairwise (env : Env) (bits : Nat) :
    (env.seenIn (List.range bits)).Pairwise (· < ·) := by
  have ordered : (((List.range bits).takeWhile fun b => !env.interrupts b).filter
      env.collects).Pairwise (· < ·) :=
    List.pairwise_lt_range.sublist ((List.filter_sublist).trans (List.takeWhile_sublist _))
  refine List.pairwise_map.mpr (ordered.imp_of_mem ?_)
  intro a b first second below
  have leastA := (List.mem_filter.mp first).2
  have leastB := (List.mem_filter.mp second).2
  simp only [collects, Bool.and_eq_true, decide_eq_true_eq] at leastA leastB
  have a7 := leastA.2
  have b7 := leastB.2
  omega

theorem Env.seen_pairwise (env : Env) (input : List UInt8) : (env.seen input).Pairwise (· < ·) := by
  unfold seen
  split
  · exact .nil
  · exact env.seenIn_pairwise _

theorem Env.lt_of_mem_seen {i : Nat} (member : i ∈ env.seen input) :
    i < input.length ∧ env.skipEffMap i ≠ 0 := by
  unfold seen at member
  split at member
  · cases member
  · obtain ⟨inside, collects, _⟩ := env.mem_seenIn.mp member
    exact ⟨by omega, ((env.collects_iff i).mp collects).2⟩

/-- Before a byte that is seen, every byte that is not skipped is seen. -/
theorem Env.mem_seen_of_lt {i j : Nat} (member : j ∈ env.seen input) (below : i < j)
    (kept : env.skipEffMap i ≠ 0) : i ∈ env.seen input := by
  unfold seen at member ⊢
  split at member
  · cases member
  · next clean =>
    rw [if_neg clean]
    obtain ⟨inside, collects, before⟩ := env.mem_seenIn.mp member
    have instrumented := ((env.collects_iff j).mp collects).1
    refine env.mem_seenIn.mpr ⟨by omega, (env.collects_iff i).mpr ⟨instrumented, kept⟩, ?_⟩
    intro a early
    exact before a (by omega)

/-! ## The tokens -/

/-- A stretch of bytes that are seen, with one checksum that is not the original one, of the length
of a token; the last one ends with the file. -/
structure Emitted (env : Env) (input : List UInt8) (run : List Nat) : Prop where
  fits : Fits run
  stretch : ∃ before after k, env.seen input = before ++ run ++ after ∧
    Systems.Stretch (env.flipCksum input) k before run after ∧ k ≠ env.cksum input ∧
    (after = [] → ∃ last ∈ run, last + 1 = input.length)

theorem emitted_iff {run : List Nat} : Emitted env input run ↔
    ∃ k, (ClosedStretch (env.flipCksum input) (env.seen input) k run ∨
      OpenStretch (env.flipCksum input) (env.seen input) k run ∧
        ∃ last ∈ run, last + 1 = input.length) ∧ k ≠ env.cksum input ∧ Fits run := by
  constructor
  · rintro ⟨fits, before, after, k, together, stretch, other, atEnd⟩
    refine ⟨k, ?_, other, fits⟩
    by_cases finished : after = []
    · subst finished
      rw [List.append_nil] at together
      exact .inr ⟨⟨before, together, stretch⟩, atEnd rfl⟩
    · exact .inl ⟨before, after, together, finished, stretch⟩
  · rintro ⟨k, ⟨before, after, together, nonempty, stretch⟩ | ⟨⟨before, together, stretch⟩, atEnd⟩,
      other, fits⟩
    · exact ⟨fits, before, after, k, together, stretch, other, fun empty => absurd empty nonempty⟩
    · refine ⟨fits, before, [], k, ?_, stretch, other, fun _ => atEnd⟩
      rw [List.append_nil]
      exact together

theorem bitflip11_eq (env : Env) (input : List UInt8) :
    bitflip11 env input =
      ((env.seen input).foldl (env.step input) ⟨input, env.cksum input, [], 0, []⟩).autos := by
  unfold bitflip11 Env.seen
  split
  · rfl
  · exact walkBits_autos (fun b member => List.mem_range.mp member) rfl

/-- The end of the file is the last byte that is seen. -/
theorem seen_concat {last : Nat} (member : last ∈ env.seen input) (atEnd : last + 1 = input.length) :
    ∃ done, env.seen input = done ++ [last] ∧ ∀ i ∈ done, i + 1 ≠ input.length := by
  have nonempty : env.seen input ≠ [] := List.ne_nil_of_mem member
  have split := List.dropLast_append_getLast nonempty
  have sorted := env.seen_pairwise input
  rw [← split] at sorted
  have ordered := (List.pairwise_append.mp sorted).2.2
  have greatest : (env.seen input).getLast nonempty = last := by
    have bound := (env.lt_of_mem_seen (List.getLast_mem nonempty)).1
    rw [← split] at member
    rcases List.mem_append.mp member with earlier | same
    · have below := ordered last earlier _ (List.mem_singleton_self _)
      omega
    · exact (List.mem_singleton.mp same).symm
  rw [greatest] at split ordered
  refine ⟨(env.seen input).dropLast, split.symm, ?_⟩
  intro i earlier
  have below := ordered i earlier last (List.mem_singleton_self last)
  omega

/-- The stage passes on exactly these stretches. -/
theorem mem_bitflip11 (token : List Collected) :
    token ∈ bitflip11 env input ↔ ∃ run, Emitted env input run ∧ token = tag input run := by
  rw [bitflip11_eq]
  simp only [emitted_iff]
  by_cases ended : ∃ last ∈ env.seen input, last + 1 = input.length
  · obtain ⟨last, member, atEnd⟩ := ended
    obtain ⟨done, seen, inner⟩ := seen_concat member atEnd
    have collects := (Collects.init env input).foldl inner
    have whole := (collects.collect last).autos_output token
    rw [← collects.collect_atEnd, List.nil_append] at whole
    have here : decide (last + 1 = input.length) = true := decide_eq_true atEnd
    rw [seen, List.foldl_append, List.foldl_cons, List.foldl_nil, Env.step, here, whole]
    constructor
    · rintro ⟨run, k, stretch, other, fits, rfl⟩
      refine ⟨run, ⟨k, stretch.imp_right fun opened => ⟨opened, last, ?_, atEnd⟩, other, fits⟩, rfl⟩
      obtain ⟨before, together, current⟩ := opened
      have final : last ∈ (before ++ run).getLast? := by
        rw [← together]
        exact List.getLast?_concat
      rw [List.getLast?_append_of_ne_nil before current.nonempty] at final
      exact List.mem_of_getLast? final
    · rintro ⟨run, ⟨k, stretch, other, fits⟩, rfl⟩
      exact ⟨run, k, stretch.imp_right And.left, other, fits, rfl⟩
  · have inner : ∀ i ∈ env.seen input, i + 1 ≠ input.length :=
      fun i member atEnd => ended ⟨i, member, atEnd⟩
    have collects := (Collects.init env input).foldl inner
    rw [collects.autos, List.nil_append]
    constructor
    · rintro ⟨run, k, closed, other, fits, rfl⟩
      exact ⟨run, ⟨k, .inl closed, other, fits⟩, rfl⟩
    · rintro ⟨run, ⟨k, closed | ⟨⟨before, together, _⟩, last, member, atEnd⟩, other, fits⟩, rfl⟩
      · exact ⟨run, k, closed, other, fits, rfl⟩
      · refine absurd ⟨last, ?_, atEnd⟩ ended
        rw [together]
        exact List.mem_append_right before member

/-! ## Contiguous tokens -/

/-- What a token is meant to be. -/
structure IsMagic (env : Env) (input : List UInt8) (token : List Collected) : Prop where
  contiguous : ∃ start, start + token.length ≤ input.length ∧
    token.map Collected.position = List.range' start token.length ∧
    token.map Collected.value = (input.drop start).take token.length
  long : minAutoExtra ≤ token.length
  short : token.length ≤ maxAutoExtra
  magic : ∃ k, k ≠ env.cksum input ∧ ∀ byte ∈ token, env.flipCksum input byte.position = k

/-- No byte between two of these is skipped. -/
def Unskipped (env : Env) (run : List Nat) : Prop :=
  ∀ first ∈ run, ∀ last ∈ run, ∀ i, first < i → i < last → env.skipEffMap i ≠ 0

/-- A list in order without gaps is a range. -/
theorem eq_range'_of_gapless {list : List Nat} (sorted : list.Pairwise (· < ·))
    (gapless : ∀ first ∈ list, ∀ last ∈ list, ∀ i, first < i → i < last → i ∈ list) :
    ∃ start, list = List.range' start list.length := by
  induction list with
  | nil => exact ⟨0, rfl⟩
  | cons first rest ih =>
    obtain ⟨least, ordered⟩ := List.pairwise_cons.mp sorted
    have inner : ∀ a ∈ rest, ∀ b ∈ rest, ∀ i, a < i → i < b → i ∈ rest := by
      intro a left b right i above below
      have member := gapless a (List.mem_cons_of_mem first left) b (List.mem_cons_of_mem first right) i
        above below
      rcases List.mem_cons.mp member with rfl | later
      · exact absurd (least a left) (Nat.lt_asymm above)
      · exact later
    obtain ⟨start, range⟩ := ih ordered inner
    cases rest with
    | nil => exact ⟨first, rfl⟩
    | cons second rest =>
      obtain ⟨rfl, _⟩ := List.cons.inj range
      have next : second = first + 1 := by
        by_contra apart
        have above : first < second := least second List.mem_cons_self
        have member := gapless first List.mem_cons_self second
          (List.mem_cons_of_mem first List.mem_cons_self) (first + 1) (Nat.lt_succ_self first) (by omega)
        rcases List.mem_cons.mp member with same | later
        · omega
        · rcases List.mem_cons.mp later with same | beyond
          · exact apart same.symm
          · have far := (List.pairwise_cons.mp ordered).1 (first + 1) beyond
            omega
      refine ⟨first, ?_⟩
      rw [List.length_cons, List.range'_succ, ← next]
      exact congrArg (first :: ·) range

theorem Emitted.sublist {run : List Nat} (emitted : Emitted env input run) :
    run.Sublist (env.seen input) := by
  obtain ⟨before, after, k, together, _⟩ := emitted.stretch
  rw [together]
  exact (List.sublist_append_right before run).trans (List.sublist_append_left _ after)

/-- A byte that is seen between two bytes of a token belongs to the token. -/
theorem Emitted.mem_of_between {run : List Nat} (emitted : Emitted env input run) {first last i : Nat}
    (left : first ∈ run) (right : last ∈ run) (above : first < i) (below : i < last)
    (seen : i ∈ env.seen input) : i ∈ run := by
  obtain ⟨before, after, k, together, _⟩ := emitted.stretch
  have sorted := env.seen_pairwise input
  rw [together] at seen sorted
  obtain ⟨front, _, later⟩ := List.pairwise_append.mp sorted
  have earlier := (List.pairwise_append.mp front).2.2
  rcases List.mem_append.mp seen with inFront | behind
  · rcases List.mem_append.mp inFront with ahead | member
    · exact absurd (earlier i ahead first left) (Nat.lt_asymm above)
    · exact member
  · exact absurd (later last (List.mem_append_right before right) i behind) (Nat.lt_asymm below)

theorem Emitted.contiguous_iff {run : List Nat} (emitted : Emitted env input run) :
    (∃ start, run = List.range' start run.length) ↔ Unskipped env run := by
  constructor
  · rintro ⟨start, range⟩ first left last right i above below
    rw [range, List.mem_range'_1] at left right
    have member : i ∈ run := by
      rw [range, List.mem_range'_1]
      omega
    exact (env.lt_of_mem_seen (emitted.sublist.subset member)).2
  · intro unskipped
    refine eq_range'_of_gapless ((env.seen_pairwise input).sublist emitted.sublist) ?_
    intro first left last right i above below
    have seen : i ∈ env.seen input :=
      env.mem_seen_of_lt (emitted.sublist.subset right) below (unskipped first left last right i above below)
    exact emitted.mem_of_between left right above below seen

theorem tag_length (input : List UInt8) (run : List Nat) : (tag input run).length = run.length :=
  List.length_map _

theorem tag_position (input : List UInt8) (run : List Nat) :
    (tag input run).map Collected.position = run := by
  rw [tag, List.map_map]
  exact List.map_id run

theorem tag_value {start length : Nat} (inside : start + length ≤ input.length) :
    (tag input (List.range' start length)).map Collected.value = (input.drop start).take length := by
  apply List.ext_getElem
  · simp [tag]
    omega
  · intro i left right
    have bound : start + i < input.length := by
      simp [tag] at left
      omega
    simp [tag, bound]

theorem Emitted.isMagic_iff {run : List Nat} (emitted : Emitted env input run) :
    IsMagic env input (tag input run) ↔ Unskipped env run := by
  rw [← emitted.contiguous_iff]
  constructor
  · intro magic
    obtain ⟨start, _, positions, _⟩ := magic.contiguous
    rw [tag_position, tag_length] at positions
    exact ⟨start, positions⟩
  · rintro ⟨start, range⟩
    obtain ⟨before, after, k, together, stretch, other, _⟩ := emitted.stretch
    have positive : 0 < run.length := Nat.lt_of_lt_of_le (by decide) emitted.fits.1
    have final : start + run.length - 1 ∈ run := by
      rw [range, List.mem_range'_1, ← range]
      omega
    have bound := (env.lt_of_mem_seen (emitted.sublist.subset final)).1
    have inside : start + run.length ≤ input.length := by omega
    refine ⟨⟨start, ?_, ?_, ?_⟩, ?_, ?_, k, other, ?_⟩
    · rw [tag_length]
      exact inside
    · rw [tag_position, tag_length]
      exact range
    · rw [tag_length]
      exact (congrArg (fun run => (tag input run).map Collected.value) range).trans (tag_value inside)
    · rw [tag_length]
      exact emitted.fits.1
    · rw [tag_length]
      exact emitted.fits.2
    · intro byte member
      obtain ⟨i, inRun, rfl⟩ := List.mem_map.mp member
      exact stretch.same i inRun

/-- Every token is a piece of the input exactly where no skipped byte lies inside a stretch that
becomes a token. -/
theorem bitflip11_isMagic_iff (env : Env) (input : List UInt8) :
    (∀ token ∈ bitflip11 env input, IsMagic env input token) ↔
      ∀ run, Emitted env input run → Unskipped env run := by
  constructor
  · intro magic run emitted
    exact emitted.isMagic_iff.mp (magic _ ((mem_bitflip11 _).mpr ⟨run, emitted, rfl⟩))
  · intro unskipped token member
    obtain ⟨run, emitted, rfl⟩ := (mem_bitflip11 token).mp member
    exact emitted.isMagic_iff.mpr (unskipped run emitted)

/-- Four bytes of five are checked together, and the third of them is skipped. -/
def skippingEnv : Env where
  cksum := fun buf => if buf.take 4 = [0x49, 0x48, 0x44, 0x52] then 1 else 2
  skipEffMap := fun i => if i = 2 then 0 else 1
  nonInstrumentedMode := false
  isDetTimeout := fun _ => false
  abandonsClean := false
  abandons := fun _ => false

/-- The token `IHR` is collected from the input `IHDR.`, of which it is no piece. -/
theorem bitflip11_not_infix :
    ∃ token ∈ bitflip11 skippingEnv [0x49, 0x48, 0x44, 0x52, 0x2e],
      ¬token.map Collected.value <:+: [0x49, 0x48, 0x44, 0x52, 0x2e] := by
  refine ⟨[⟨0, 0x49⟩, ⟨1, 0x48⟩, ⟨3, 0x52⟩], ?_, ?_⟩
  · decide +kernel
  · decide

end SbFuzz.Fuzzer.AutoTokens
