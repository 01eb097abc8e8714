import SbFuzz.QemuMode.QasanString
import Mathlib.Data.List.Range

/-! What the memory and string functions of QASan return, against the definitions of the C library,
and where they leave the objects that they are given. -/

set_option autoImplicit false

namespace SbFuzz.QemuMode.QasanString

open SbFuzz.Memory

/-! ## Copies -/

section

variable {dst src object : Region} {mem : Cells}

/-- The memory behind a copy. -/
def copied (mem : Cells) (d s n : Nat) : Cells := put mem d ((List.range n).map fun k => mem (s + k))

theorem copied_at (mem : Cells) {d s n k : Nat} (less : k < n) :
    copied mem d s n (d + k) = mem (s + k) := by
  rw [copied, put_at mem d (by rwa [List.length_map, List.length_range]), List.getElem_map,
    List.getElem_range]

theorem copied_outside (mem : Cells) {d s n address : Nat}
    (outside : address < d ∨ d + n ≤ address) : copied mem d s n address = mem address := by
  rcases outside with before | behind
  · exact put_before mem _ before
  · exact put_outside mem (by rwa [List.length_map, List.length_range])

theorem memcpy_eq {d s n : Nat} (writes : ∀ k < n, dst.Has (d + k))
    (reads : ∀ k < n, src.Has (s + k)) (apart : d + n ≤ s ∨ s + n ≤ d) :
    memcpy dst src mem d s n = some (copied mem d s n) := by
  unfold copied
  induction n generalizing mem d s with
  | zero => rw [memcpy, List.range_zero, List.map_nil, put_nil]
  | succ n ih =>
      have first : readByte mem src s = some (mem s) := readByte_inside (reads 0 (Nat.succ_pos n))
      have stored : writeByte mem dst d (mem s) = some (put mem d [mem s]) :=
        if_pos (writes 0 (Nat.succ_pos n))
      have rest := @ih (put mem d [mem s]) (d + 1) (s + 1)
        (fun k less => by
          have inside := writes (k + 1) (Nat.succ_lt_succ less)
          rwa [← Nat.add_assoc, Nat.add_right_comm] at inside)
        (fun k less => by
          have inside := reads (k + 1) (Nat.succ_lt_succ less)
          rwa [← Nat.add_assoc, Nat.add_right_comm] at inside)
        (by omega)
      have unread : (List.range n).map (fun k => put mem d [mem s] (s + 1 + k)) =
          (List.range n).map fun k => mem (s + 1 + k) := by
        refine List.map_congr_left fun k member => ?_
        have less := List.mem_range.mp member
        rcases apart with before | behind
        · exact put_outside mem (by rw [List.length_singleton]; omega)
        · exact put_before mem _ (by omega)
      have bytes : (List.range (n + 1)).map (fun k => mem (s + k)) =
          [mem s] ++ (List.range n).map fun k => mem (s + 1 + k) := by
        rw [List.range_succ_eq_map, List.map_cons, List.map_map, List.singleton_append]
        refine congrArg (mem s :: ·) (List.map_congr_left fun k _ => ?_)
        exact congrArg mem (Nat.add_right_comm s k 1)
      rw [memcpy, first]
      simp only [bind, Option.bind, stored]
      rw [rest, unread, bytes, ← put_append]
      rfl

/-- A copy that leaves the object of its destination does not end. -/
theorem memcpy_none {d s n k : Nat} (less : k < n) (outside : ¬ dst.Has (d + k)) :
    memcpy dst src mem d s n = none := by
  induction n generalizing mem d s k with
  | zero => exact absurd less (Nat.not_lt_zero k)
  | succ n ih =>
      rw [memcpy]
      cases readByte mem src s with
      | none => rfl
      | some byte =>
          simp only [bind, Option.bind]
          cases k with
          | zero =>
              rw [Nat.add_zero] at outside
              rw [writeByte, if_neg outside]
          | succ k =>
              cases stored : writeByte mem dst d byte with
              | none => rfl
              | some after =>
                  refine ih (Nat.lt_of_succ_lt_succ less) ?_
                  rwa [Nat.add_right_comm, Nat.add_assoc]

/-! ## Searches -/

theorem memchrLoop_spec {c : UInt8} {m n : Nat}
    (reads : ∀ i < n, (∀ j < i, mem (m + j) ≠ c) → object.Has (m + i)) :
    ∃ found, memchrLoop object mem c m n = some (found.map (m + ·)) ∧
      FirstOf (fun i => mem (m + i) = c) n found := by
  induction n generalizing m with
  | zero => exact ⟨none, rfl, fun i less => absurd less (Nat.not_lt_zero i)⟩
  | succ n ih =>
      have here : readByte mem object m = some (mem m) :=
        readByte_inside (reads 0 (Nat.succ_pos n) fun j less => absurd less (Nat.not_lt_zero j))
      rw [memchrLoop, here]
      by_cases same : mem m = c
      · exact ⟨some 0, by simp [same], .here same⟩
      · obtain ⟨found, result, first⟩ := @ih (m + 1) fun i less before => by
          rw [Nat.add_assoc, Nat.add_comm 1 i]
          refine reads (i + 1) (Nat.succ_lt_succ less) fun j earlier => ?_
          cases j with
          | zero => exact same
          | succ j =>
              have other := before j (Nat.lt_of_succ_lt_succ earlier)
              rwa [Nat.add_right_comm, Nat.add_assoc] at other
        refine ⟨found.map (· + 1), ?_, .later same (first.congr fun i _ => ?_)⟩
        · simp only [bind, Option.bind, if_neg same, result, map_later]
        · rw [Nat.add_right_comm, Nat.add_assoc]

/-- The search begins behind the object. -/
theorem memrchrLoop_none {c : UInt8} {m n : Nat} (outside : ¬ object.Has (m + n)) :
    memrchrLoop object mem c m n = none := by
  cases n with
  | zero =>
      rw [Nat.add_zero] at outside
      rw [memrchrLoop, readByte_outside outside]
      rfl
  | succ n =>
      rw [memrchrLoop, readByte_outside outside]
      rfl

theorem memcmp_eq_zero {first second : Region} {m1 m2 len : Nat}
    (reads : ∀ k < len, first.Has (m1 + k)) (reads' : ∀ k < len, second.Has (m2 + k)) :
    ∃ result, memcmp first second mem m1 m2 len = some result ∧
      (result = 0 ↔ ∀ k < len, mem (m1 + k) = mem (m2 + k)) := by
  induction len generalizing m1 m2 with
  | zero => exact ⟨0, rfl, iff_of_true rfl fun k less => absurd less (Nat.not_lt_zero k)⟩
  | succ len ih =>
      have here : readByte mem first m1 = some (mem m1) := readByte_inside (reads 0 (Nat.succ_pos len))
      have there : readByte mem second m2 = some (mem m2) := readByte_inside (reads' 0 (Nat.succ_pos len))
      rw [memcmp, here, there]
      by_cases same : mem m1 = mem m2
      · obtain ⟨result, compared, equal⟩ := @ih (m1 + 1) (m2 + 1)
          (fun k less => by
            rw [Nat.add_assoc, Nat.add_comm 1 k]
            exact reads (k + 1) (Nat.succ_lt_succ less))
          (fun k less => by
            rw [Nat.add_assoc, Nat.add_comm 1 k]
            exact reads' (k + 1) (Nat.succ_lt_succ less))
        refine ⟨result, by simpa [same] using compared, equal.trans ?_⟩
        constructor
        · intro rest k less
          cases k with
          | zero => exact same
          | succ k =>
              have later := rest k (Nat.lt_of_succ_lt_succ less)
              rwa [Nat.add_right_comm, Nat.add_assoc, Nat.add_right_comm, Nat.add_assoc] at later
        · intro all k less
          have later := all (k + 1) (Nat.succ_lt_succ less)
          rwa [← Nat.add_assoc, Nat.add_right_comm, ← Nat.add_assoc, Nat.add_right_comm m2] at later
      · refine ⟨if mem m1 > mem m2 then 1 else -1, by simp [same], iff_of_false ?_ fun all =>
          same (all 0 (Nat.succ_pos len))⟩
        split <;> decide

theorem memmemLoop_spec {haystack needle : Region} {needleLen h rest : Nat} (some_ : 0 < needleLen)
    (reads : ∀ k < rest + needleLen, haystack.Has (h + k))
    (reads' : ∀ k < needleLen, needle.Has (needle.start + k)) :
    ∃ found, memmemLoop haystack needle mem needleLen h rest = some (found.map (h + ·)) ∧
      FirstOf (fun i => ∀ k < needleLen, mem (h + i + k) = mem (needle.start + k)) (rest + 1)
        found := by
  have compared (h : Nat) (reads : ∀ k < needleLen, haystack.Has (h + k)) :=
    @memcmp_eq_zero mem _ _ _ _ _ reads reads'
  have there : readByte mem needle needle.start = some (mem needle.start) :=
    readByte_inside (reads' 0 some_)
  induction rest generalizing h with
  | zero =>
      have here : readByte mem haystack h = some (mem h) := readByte_inside (reads 0 (by omega))
      obtain ⟨result, compares, equal⟩ := compared h fun k less => reads k (by omega)
      rw [memmemLoop, here, there]
      by_cases all : ∀ k < needleLen, mem (h + k) = mem (needle.start + k)
      · have first : mem h = mem needle.start := all 0 some_
        exact ⟨some 0, by simp [first, compares, equal.mpr all], .here all⟩
      · refine ⟨none, ?_, fun i less => ?_⟩
        · simp only [bind, Option.bind, compares, if_neg (mt equal.mp all)]
          split <;> rfl
        · rw [Nat.lt_one_iff.mp less]
          exact all
  | succ rest ih =>
      have here : readByte mem haystack h = some (mem h) := readByte_inside (reads 0 (by omega))
      obtain ⟨result, compares, equal⟩ := compared h fun k less => reads k (by omega)
      rw [memmemLoop, here, there]
      by_cases all : ∀ k < needleLen, mem (h + k) = mem (needle.start + k)
      · have first : mem h = mem needle.start := all 0 some_
        exact ⟨some 0, by simp [first, compares, equal.mpr all], .here all⟩
      · obtain ⟨found, later, first⟩ := @ih (h + 1) fun k less => by
          rw [Nat.add_assoc, Nat.add_comm 1 k]
          exact reads (k + 1) (by omega)
        refine ⟨found.map (· + 1), ?_, .later all (first.congr fun i _ => ?_)⟩
        · simp only [bind, Option.bind, compares, if_neg (mt equal.mp all), later, map_later]
          split <;> rfl
        · rw [Nat.add_right_comm, Nat.add_assoc h i 1]

/-! ## Strings -/

/-- A string at an address of its object. -/
structure StringAt (mem : Cells) (object : Region) (s len : Nat) : Prop where
  reads : ∀ i ≤ len, object.Has (s + i)
  ends : mem (s + len) = 0
  goesOn : ∀ i < len, mem (s + i) ≠ 0

theorem StringAt.tail {s len : Nat} (string : StringAt mem object s (len + 1)) :
    StringAt mem object (s + 1) len where
  reads := fun i le => by
    rw [Nat.add_assoc, Nat.add_comm 1 i]
    exact string.reads (i + 1) (Nat.succ_le_succ le)
  ends := by
    rw [Nat.add_assoc, Nat.add_comm 1 len]
    exact string.ends
  goesOn := fun i less => by
    rw [Nat.add_assoc, Nat.add_comm 1 i]
    exact string.goesOn (i + 1) (Nat.succ_lt_succ less)

theorem StringAt.readByte {s len : Nat} (string : StringAt mem object s len) :
    Memory.readByte mem object s = some (mem s) := readByte_inside (string.reads 0 (Nat.zero_le len))

theorem strchrLoop_spec {c : UInt8} {fuel s len : Nat} (string : StringAt mem object s len)
    (enough : len < fuel) :
    ∃ found, strchrLoop object mem c fuel s = some (found.map (s + ·)) ∧
      FirstOf (fun i => mem (s + i) = c) (len + 1) found := by
  induction len generalizing s fuel with
  | zero =>
      obtain ⟨fuel, rfl⟩ := Nat.exists_eq_succ_of_ne_zero (Nat.ne_of_gt enough)
      have ends : mem s = 0 := string.ends
      rw [strchrLoop, string.readByte]
      by_cases same : mem s = c
      · exact ⟨some 0, by simp [same], .here same⟩
      · refine ⟨none, ?_, fun i less => ?_⟩
        · simp only [bind, Option.bind, if_neg same, if_pos ends]
          rfl
        · rw [Nat.lt_one_iff.mp less]
          exact same
  | succ len ih =>
      obtain ⟨fuel, rfl⟩ := Nat.exists_eq_succ_of_ne_zero (Nat.ne_of_gt (Nat.zero_lt_of_lt enough))
      have goesOn : mem s ≠ 0 := string.goesOn 0 (Nat.succ_pos len)
      rw [strchrLoop, string.readByte]
      by_cases same : mem s = c
      · exact ⟨some 0, by simp [same], .here same⟩
      · obtain ⟨found, result, first⟩ := ih string.tail (Nat.lt_of_succ_lt_succ enough)
        refine ⟨found.map (· + 1), ?_, .later same (first.congr fun i _ => ?_)⟩
        · simp only [bind, Option.bind, if_neg same, if_neg goesOn, result, map_later]
        · rw [Nat.add_right_comm, Nat.add_assoc]

theorem strrchrLoop_spec {c : UInt8} {fuel s len : Nat} (string : StringAt mem object s len)
    (enough : len < fuel) (r : Option Nat) :
    ∃ found, strrchrLoop object mem c fuel s r = some ((found.map (s + ·)).or r) ∧
      LastOf (fun i => mem (s + i) = c) (len + 1) found := by
  induction len generalizing s fuel r with
  | zero =>
      obtain ⟨fuel, rfl⟩ := Nat.exists_eq_succ_of_ne_zero (Nat.ne_of_gt enough)
      have ends : mem s = 0 := string.ends
      rw [strrchrLoop, string.readByte]
      simp only [bind, Option.bind, if_pos ends]
      by_cases same : mem s = c
      · refine ⟨some 0, by simp [same], Nat.one_pos, same, fun j behind below => by omega⟩
      · refine ⟨none, by simp [same], fun i less => ?_⟩
        rw [Nat.lt_one_iff.mp less]
        exact same
  | succ len ih =>
      obtain ⟨fuel, rfl⟩ := Nat.exists_eq_succ_of_ne_zero (Nat.ne_of_gt (Nat.zero_lt_of_lt enough))
      have goesOn : mem s ≠ 0 := string.goesOn 0 (Nat.succ_pos len)
      rw [strrchrLoop, string.readByte]
      obtain ⟨found, result, last⟩ := ih string.tail (Nat.lt_of_succ_lt_succ enough)
        (if mem s = c then some s else r)
      have later : LastOf (fun i => mem (s + (i + 1)) = c) (len + 1) found :=
        last.congr fun i _ => by rw [Nat.add_right_comm, Nat.add_assoc]
      refine ⟨_, ?_, LastOf.later (p := fun i => mem (s + i) = c) later⟩
      simp only [bind, Option.bind, if_neg goesOn, result]
      refine congrArg some ?_
      cases found with
      | some i =>
          simp only [Option.map_some, Option.some_or]
          exact congrArg some (by omega)
      | none =>
          by_cases same : mem s = c
          · simp [same]
          · simp [same]

theorem strstrMatches_spec {haystack needle : Region} {fuel h n len needleLen : Nat}
    (string : StringAt mem haystack h len) (pattern : StringAt mem needle n needleLen)
    (enough : needleLen < fuel) :
    ∃ result, strstrMatches haystack needle mem fuel h n = some result ∧
      (result = true ↔ needleLen ≤ len ∧ ∀ k < needleLen, mem (h + k) = mem (n + k)) := by
  induction needleLen generalizing fuel h n len with
  | zero =>
      obtain ⟨fuel, rfl⟩ := Nat.exists_eq_succ_of_ne_zero (Nat.ne_of_gt enough)
      have ends : mem n = 0 := pattern.ends
      refine ⟨true, ?_, iff_of_true rfl ⟨Nat.zero_le len, fun k less => by omega⟩⟩
      rw [strstrMatches, pattern.readByte]
      simp only [bind, Option.bind, if_pos ends]
      rfl
  | succ needleLen ih =>
      obtain ⟨fuel, rfl⟩ := Nat.exists_eq_succ_of_ne_zero (Nat.ne_of_gt (Nat.zero_lt_of_lt enough))
      have goesOn : mem n ≠ 0 := pattern.goesOn 0 (Nat.succ_pos needleLen)
      rw [strstrMatches, pattern.readByte]
      simp only [bind, Option.bind, if_neg goesOn, string.readByte]
      by_cases differs : mem h = 0 ∨ mem n ≠ mem h
      · refine ⟨false, if_pos differs, iff_of_false Bool.false_ne_true ?_⟩
        rintro ⟨fits, same⟩
        have head : mem h = mem n := same 0 (Nat.succ_pos needleLen)
        rcases differs with ends | other
        · exact goesOn (head.symm.trans ends)
        · exact other head.symm
      · obtain ⟨some_, same⟩ := not_or.mp differs
        have head : mem h = mem n := (not_not.mp same).symm
        cases len with
        | zero => exact absurd string.ends some_
        | succ len =>
            obtain ⟨result, matches_, equal⟩ := ih string.tail pattern.tail
              (Nat.lt_of_succ_lt_succ enough)
            refine ⟨result, (if_neg differs).trans matches_, equal.trans ?_⟩
            rw [Nat.add_le_add_iff_right]
            refine and_congr_right fun _ => ?_
            constructor
            · intro rest k less
              cases k with
              | zero => exact head
              | succ k =>
                  have later := rest k (Nat.lt_of_succ_lt_succ less)
                  rwa [Nat.add_right_comm, Nat.add_assoc, Nat.add_right_comm,
                    Nat.add_assoc] at later
            · intro all k less
              have later := all (k + 1) (Nat.succ_lt_succ less)
              rwa [← Nat.add_assoc, Nat.add_right_comm, ← Nat.add_assoc,
                Nat.add_right_comm n] at later

theorem strstrLoop_spec {haystack needle : Region} {steps h len needleLen : Nat}
    (string : StringAt mem haystack h len)
    (pattern : StringAt mem needle needle.start needleLen) (enough : len < steps)
    (short : needleLen < fuel) :
    ∃ found, strstrLoop haystack needle mem steps h = some (found.map (h + ·)) ∧
      FirstOf (fun i => i + needleLen ≤ len ∧
        ∀ k < needleLen, mem (h + i + k) = mem (needle.start + k)) (len + 1) found := by
  induction len generalizing h steps with
  | zero =>
      obtain ⟨steps, rfl⟩ := Nat.exists_eq_succ_of_ne_zero (Nat.ne_of_gt enough)
      have ends : mem h = 0 := string.ends
      obtain ⟨result, matches_, equal⟩ := strstrMatches_spec string pattern short
      rw [strstrLoop, matches_]
      cases result with
      | true =>
          obtain ⟨fits, same⟩ := equal.mp rfl
          exact ⟨some 0, rfl, .here ⟨by omega, same⟩⟩
      | false =>
          refine ⟨none, ?_, fun i less holds => ?_⟩
          · simp only [bind, Option.bind, string.readByte, if_pos ends]
            rfl
          · obtain rfl := Nat.lt_one_iff.mp less
            exact Bool.false_ne_true (equal.mpr ⟨by omega, holds.2⟩)
  | succ len ih =>
      obtain ⟨steps, rfl⟩ := Nat.exists_eq_succ_of_ne_zero (Nat.ne_of_gt (Nat.zero_lt_of_lt enough))
      have goesOn : mem h ≠ 0 := string.goesOn 0 (Nat.succ_pos len)
      obtain ⟨result, matches_, equal⟩ := strstrMatches_spec string pattern short
      rw [strstrLoop, matches_]
      cases result with
      | true =>
          obtain ⟨fits, same⟩ := equal.mp rfl
          exact ⟨some 0, rfl, .here ⟨by omega, same⟩⟩
      | false =>
          obtain ⟨found, later, first⟩ := ih string.tail (Nat.lt_of_succ_lt_succ enough)
          refine ⟨found.map (· + 1), ?_, .later (fun holds => ?_) (first.congr fun i _ => ?_)⟩
          · simp only [bind, Option.bind, string.readByte, if_neg goesOn, later, map_later]
            rfl
          · exact Bool.false_ne_true (equal.mpr ⟨by omega, holds.2⟩)
          · rw [Nat.add_right_comm, Nat.add_le_add_iff_right, Nat.add_right_comm h 1 i,
              Nat.add_assoc h i 1]

/-! ## Wide strings -/

/-- The characters of a wide string at an address of its object. -/
structure WideAt (mem : Cells) (object : Region) (s : Nat) (w : Nat → Int) (len : Nat) : Prop where
  reads : ∀ i ≤ len, loadWide mem object (s + 4 * i) = some (w i)
  ends : w len = 0
  goesOn : ∀ i < len, w i ≠ 0

section

variable {s s1 s2 len len1 len2 : Nat} {w w1 w2 : Nat → Int}

theorem WideAt.zero_iff (string : WideAt mem object s w len) {i : Nat} (within : i ≤ len) :
    w i = 0 ↔ i = len := by
  constructor
  · intro ends
    by_contra other
    exact string.goesOn i (Nat.lt_of_le_of_ne within other) ends
  · rintro rfl
    exact string.ends

theorem WideAt.tail (string : WideAt mem object s w (len + 1)) :
    WideAt mem object (s + 4) (fun i => w (i + 1)) len where
  reads := fun i le => by
    have reads := string.reads (i + 1) (Nat.succ_le_succ le)
    rwa [Nat.mul_add, Nat.add_comm (4 * i), ← Nat.add_assoc] at reads
  ends := string.ends
  goesOn := fun i less => string.goesOn (i + 1) (Nat.succ_lt_succ less)

theorem wcslen_eq (string : WideAt mem object object.start w len) {fuel at_ : Nat}
    (before : at_ ≤ len) (enough : len < at_ + fuel) :
    wcslen object mem fuel at_ = some len := by
  induction fuel generalizing at_ with
  | zero => omega
  | succ fuel ih =>
      have zero {i : Nat} (within : i ≤ len) : w i = 0 ↔ i = len := string.zero_iff within
      rw [wcslen, string.reads at_ before]
      simp only [bind, Option.bind]
      by_cases first : at_ = len
      · rw [if_pos ((zero before).mpr first), first]
        rfl
      · have later : at_ + 1 ≤ len := by omega
        simp only [if_neg (mt (zero before).mp first), string.reads _ later]
        by_cases second : at_ + 1 = len
        · rw [if_pos ((zero later).mpr second), second]
          rfl
        · have later' : at_ + 2 ≤ len := by omega
          simp only [if_neg (mt (zero later).mp second), string.reads _ later']
          by_cases third : at_ + 2 = len
          · rw [if_pos ((zero later').mpr third), third]
            rfl
          · have later'' : at_ + 3 ≤ len := by omega
            simp only [if_neg (mt (zero later').mp third), string.reads _ later'']
            by_cases fourth : at_ + 3 = len
            · rw [if_pos ((zero later'').mpr fourth), fourth]
              rfl
            · rw [if_neg (mt (zero later'').mp fourth)]
              exact ih (by omega) (by omega)

/-- The first position at which two wide strings differ or end, and its sign. -/
def Compares (w1 w2 : Nat → Int) (result : Int) : Prop :=
  ∃ i, (∀ j < i, w1 j = w2 j ∧ w1 j ≠ 0) ∧
    ((w1 i < w2 i ∧ result < 0) ∨ (w2 i < w1 i ∧ 0 < result) ∨
      (w1 i = w2 i ∧ w1 i = 0 ∧ result = 0))

theorem wcscmp_spec {first second : Region} (string1 : WideAt mem first s1 w1 len1)
    (string2 : WideAt mem second s2 w2 len2) {fuel : Nat} (enough : len2 < fuel) :
    ∃ result, wcscmp first second mem fuel s1 s2 = some result ∧ Compares w1 w2 result := by
  have load1 : loadWide mem first s1 = some (w1 0) := string1.reads 0 (Nat.zero_le _)
  have load2 : loadWide mem second s2 = some (w2 0) := string2.reads 0 (Nat.zero_le _)
  induction len2 generalizing fuel s1 s2 w1 w2 len1 with
  | zero =>
      obtain ⟨fuel, rfl⟩ := Nat.exists_eq_succ_of_ne_zero (Nat.ne_of_gt enough)
      have ends : w2 0 = 0 := string2.ends
      rw [wcscmp, load1, load2]
      simp only [bind, Option.bind, if_pos ends]
      refine ⟨w1 0 - w2 0, rfl, 0, fun j less => absurd less (Nat.not_lt_zero j), ?_⟩
      omega
  | succ len2 ih =>
      obtain ⟨fuel, rfl⟩ := Nat.exists_eq_succ_of_ne_zero (Nat.ne_of_gt (Nat.zero_lt_of_lt enough))
      have goesOn : w2 0 ≠ 0 := string2.goesOn 0 (Nat.succ_pos len2)
      rw [wcscmp, load1, load2]
      simp only [bind, Option.bind, if_neg goesOn]
      by_cases same : w1 0 = w2 0
      · cases len1 with
        | zero => exact absurd (same.symm.trans string1.ends) goesOn
        | succ len1 =>
            rw [if_pos same]
            obtain ⟨result, compared, i, before, differs⟩ := ih string1.tail string2.tail
              (Nat.lt_of_succ_lt_succ enough) (string1.tail.reads 0 (Nat.zero_le _))
              (string2.tail.reads 0 (Nat.zero_le _))
            refine ⟨result, compared, i + 1, fun j less => ?_, differs⟩
            cases j with
            | zero => exact ⟨same, same ▸ goesOn⟩
            | succ j => exact before j (Nat.lt_of_succ_lt_succ less)
      · rw [if_neg same]
        refine ⟨if w1 0 < w2 0 then -1 else 1, rfl, 0,
          fun j less => absurd less (Nat.not_lt_zero j), ?_⟩
        split <;> omega

end

end

end SbFuzz.QemuMode.QasanString
