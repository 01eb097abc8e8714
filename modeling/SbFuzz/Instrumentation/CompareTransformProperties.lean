import SbFuzz.Instrumentation.CompareTransform

/-! When an unrolled comparison has the sign of the library function's result. -/

set_option autoImplicit false

namespace SbFuzz.Instrumentation.CompareTransform

/-! ## Bytes -/

theorem sext_eq (c : UInt8) : sext c = if c.toNat < 128 then (c.toNat : Int) else c.toNat - 256 := by
  change c.toBitVec.toInt = _
  rw [BitVec.toInt_eq_toNat_cond]
  change (if 2 * c.toNat < 2 ^ 8 then (c.toNat : Int) else c.toNat - (2 ^ 8 : Nat)) = _
  split <;> split <;> omega

/-- The 8-bit difference has the sign of the difference exactly when it does not wrap. -/
theorem sext_sub_sign {a b : UInt8} (differ : a ≠ b) :
    (sext (a - b)).sign = ((a.toNat : Int) - b.toNat).sign ↔
      -128 ≤ (a.toNat : Int) - b.toNat ∧ (a.toNat : Int) - b.toNat ≤ 127 := by
  have apart : a.toNat ≠ b.toNat := fun same => differ (UInt8.toNat_inj.mp same)
  have aSmall := a.toNat_lt
  have bSmall := b.toNat_lt
  have difference := UInt8.toNat_sub a b
  rw [sext_eq, difference]
  rcases Nat.lt_or_gt_of_ne apart with less | more
  · have negative : ((a.toNat : Int) - b.toNat).sign = -1 := Int.sign_eq_neg_one_of_neg (by omega)
    rw [negative, Int.sign_eq_neg_one_iff_neg]
    split <;> omega
  · have positive : ((a.toNat : Int) - b.toNat).sign = 1 := Int.sign_eq_one_of_pos (by omega)
    rw [positive, Int.sign_eq_one_iff_pos]
    split <;> omega

theorem tolower_eq_zero (c : UInt8) : tolower c = 0 ↔ c = 0 := by
  unfold tolower
  split
  · next upper =>
    have low := UInt8.le_iff_toNat_le.mp upper.1
    have high := UInt8.le_iff_toNat_le.mp upper.2
    simp only [UInt8.reduceToNat] at low high
    rw [← UInt8.toNat_inj, ← UInt8.toNat_inj (a := c), UInt8.toNat_add]
    simp only [UInt8.reduceToNat]
    omega
  · exact Iff.rfl

theorem Callee.fold_eq_zero (callee : Callee) (c : UInt8) : callee.fold c = 0 ↔ c = 0 := by
  unfold Callee.fold
  split
  · exact tolower_eq_zero c
  · exact Iff.rfl

/-! ## Library functions -/

/-- The size, if there is one, is behind a position. -/
def Within (limit : Option Nat) (k : Nat) : Prop := ∀ n, limit = some n → k < n

section

variable {callee : Callee} {left right : List UInt8}

/-- Both arguments have a byte at a position, and the function takes them for equal. -/
def Alike (callee : Callee) (left right : List UInt8) (k : Nat) : Prop :=
  ∃ a b, left[k]? = some a ∧ right[k]? = some b ∧ callee.fold a = callee.fold b

/-- The function goes on behind a position. -/
def Passes (callee : Callee) (left right : List UInt8) (k : Nat) : Prop :=
  Alike callee left right k ∧ (callee.isMemcmp = false → left[k]? ≠ some 0)

/-- The first difference decides, or there is none up to the end. -/
inductive Compared (callee : Callee) (limit : Option Nat) (left right : List UInt8) : Int → Prop where
  | differ (k : Nat) (a b : UInt8) (within : Within limit k)
      (before : ∀ i < k, Passes callee left right i) (atLeft : left[k]? = some a)
      (atRight : right[k]? = some b) (differ : callee.fold a ≠ callee.fold b) :
      Compared callee limit left right ((callee.fold a).toNat - (callee.fold b).toNat)
  | limit (n : Nat) (size : limit = some n) (before : ∀ i < n, Passes callee left right i) :
      Compared callee limit left right 0
  | terminated (k : Nat) (within : Within limit k) (before : ∀ i < k, Passes callee left right i)
      (alike : Alike callee left right k) (isString : callee.isMemcmp = false)
      (ended : left[k]? = some 0) : Compared callee limit left right 0

theorem Within.succ {limit : Option Nat} {k : Nat} (within : Within (limit.map (· - 1)) k)
    (positive : limit ≠ some 0) : Within limit (k + 1) := by
  rintro n rfl
  have below := within (n - 1) rfl
  have nonzero : n ≠ 0 := fun zero => positive (congrArg some zero)
  omega

theorem passes_cons {a b : UInt8} (first : Passes callee (a :: left) (b :: right) 0) {k : Nat}
    (others : ∀ i < k, Passes callee left right i) :
    ∀ i < k + 1, Passes callee (a :: left) (b :: right) i := by
  rintro (_ | i) below
  · exact first
  · exact others i (Nat.lt_of_succ_lt_succ below)

/-- One byte further, the comparison ends in the same way. -/
theorem Compared.cons {limit : Option Nat} {a b : UInt8} {r : Int}
    (compared : Compared callee (limit.map (· - 1)) left right r) (positive : limit ≠ some 0)
    (first : Passes callee (a :: left) (b :: right) 0) :
    Compared callee limit (a :: left) (b :: right) r := by
  cases compared with
  | differ k a b within before atLeft atRight differ =>
      exact .differ (k + 1) a b (within.succ positive) (passes_cons first before) atLeft atRight
        differ
  | limit n size before =>
      obtain ⟨m, rfl, same⟩ := Option.map_eq_some_iff.mp size
      have nonzero : m ≠ 0 := fun zero => positive (congrArg some zero)
      have count : m = n + 1 := by omega
      exact .limit m rfl (count ▸ passes_cons first before)
  | terminated k within before alike isString ended =>
      exact .terminated (k + 1) (within.succ positive) (passes_cons first before) alike isString
        ended

theorem compareBytes_spec {limit : Option Nat} {r : Int}
    (compared : compareBytes callee limit left right = some r) :
    Compared callee limit left right r := by
  induction left generalizing limit right with
  | nil =>
      cases limit with
      | none => cases compared
      | some n =>
          cases n with
          | zero =>
              cases compared
              exact .limit 0 rfl fun i below => absurd below (Nat.not_lt_zero i)
          | succ n => cases compared
  | cons a left ih =>
      by_cases empty : limit = some 0
      · subst empty
        cases compared
        exact .limit 0 rfl fun i below => absurd below (Nat.not_lt_zero i)
      · cases right with
        | nil =>
            rw [compareBytes] at compared
            · cases compared
            · exact empty
            · rintro _ _ _ _ - ⟨⟩
        | cons b right =>
            rw [compareBytes.eq_2 _ _ _ _ _ _ empty] at compared
            have start : ∀ i < 0, Passes callee (a :: left) (b :: right) i :=
              fun i below => absurd below (Nat.not_lt_zero i)
            have inside : Within limit 0 := by
              rintro n rfl
              exact Nat.pos_of_ne_zero fun zero => empty (congrArg some zero)
            split at compared
            · next differ =>
              cases compared
              exact .differ 0 a b inside start rfl rfl differ
            · next alike =>
              have first : Alike callee (a :: left) (b :: right) 0 :=
                ⟨a, b, rfl, rfl, Decidable.not_not.mp alike⟩
              split at compared
              · next ended =>
                cases compared
                exact .terminated 0 inside start first (by simpa using ended.1)
                  (congrArg some ended.2)
              · next goesOn =>
                refine (ih compared).cons empty ⟨first, fun isString zero => goesOn ⟨?_, ?_⟩⟩
                · simp [isString]
                · exact Option.some.inj zero

theorem Alike.swap {k : Nat} (alike : Alike callee left right k) : Alike callee right left k := by
  obtain ⟨a, b, atLeft, atRight, same⟩ := alike
  exact ⟨b, a, atRight, atLeft, same.symm⟩

/-- Equal bytes are terminators in both arguments or in none. -/
theorem Alike.ended {k : Nat} (alike : Alike callee left right k) (ended : left[k]? = some 0) :
    right[k]? = some 0 := by
  obtain ⟨a, b, atLeft, atRight, same⟩ := alike
  obtain rfl : a = 0 := Option.some.inj (atLeft.symm.trans ended)
  rw [(callee.fold_eq_zero 0).mpr rfl] at same
  rw [atRight, (callee.fold_eq_zero b).mp same.symm]

theorem Passes.swap {k : Nat} (passes : Passes callee left right k) :
    Passes callee right left k :=
  ⟨passes.1.swap, fun isString ended => passes.2 isString (passes.1.swap.ended ended)⟩

theorem Compared.swap {limit : Option Nat} {r : Int} (compared : Compared callee limit left right r) :
    Compared callee limit right left (-r) := by
  cases compared with
  | differ k a b within before atLeft atRight differ =>
      rw [Int.neg_sub]
      exact .differ k b a within (fun i below => (before i below).swap) atRight atLeft
        (Ne.symm differ)
  | limit n size before => exact .limit n size fun i below => (before i below).swap
  | terminated k within before alike isString ended =>
      exact .terminated k within (fun i below => (before i below).swap) alike.swap isString
        (alike.ended ended)

end

/-- First argument minus second. -/
def Call.oriented (call : Call) (difference : Int) : Int :=
  if call.hasStr1 then difference else -difference

/-- What the library function does, from the side of the constant. -/
theorem Call.library_spec {call : Call} {other : List UInt8} {n : Nat} {r : Int}
    (result : call.library other n = some r) :
    Compared call.callee (call.callee.limit n) call.constant.memory other (call.oriented r) := by
  unfold library at result
  unfold oriented
  split at result
  · next first =>
    rw [if_pos first]
    exact compareBytes_spec result
  · next second =>
    rw [if_neg second]
    exact (compareBytes_spec result).swap

/-! ## Chains -/

section

variable {call : Call} {other : List UInt8} {n : Nat} {checked : Bool}

theorem Call.isub_eq_zero {load c : UInt8} : call.isub load c = 0 ↔ load = c := by
  unfold isub
  split
  · rw [UInt8.sub_eq_iff_eq_add, UInt8.zero_add]
    exact eq_comm
  · rw [UInt8.sub_eq_iff_eq_add, UInt8.zero_add]

theorem Call.run_cons (c : UInt8) (cs : List UInt8) (i : Nat) :
    call.run other n (blocks checked (c :: cs) i) =
      if checked = true ∧ n = i then some 0
      else other[i]?.bind fun byte =>
        if cs.isEmpty ∨ call.isub (call.callee.fold byte) c ≠ 0 then
          some (sext (call.isub (call.callee.fold byte) c))
        else call.run other n (blocks checked cs (i + 1)) := by
  cases checked with
  | false => simp [blocks, run]
  | true => simp [blocks, run]

/-- The byte of the other argument behind position `i` that belongs to a constant. -/
def Call.Equals (call : Call) (other : List UInt8) (i : Nat) (c : UInt8) : Prop :=
  ∃ byte, other[i]? = some byte ∧ call.callee.fold byte = c

/-- The first difference gives the chain its value. -/
theorem Call.run_differ {cs : List UInt8} {i k : Nat} {byte c : UInt8} (atConst : cs[k]? = some c)
    (atOther : other[i + k]? = some byte) (differ : call.callee.fold byte ≠ c)
    (before : ∀ j < k, ∀ c, cs[j]? = some c → call.Equals other (i + j) c)
    (within : checked = true → i + k < n) :
    call.run other n (blocks checked cs i) =
      some (sext (call.isub (call.callee.fold byte) c)) := by
  induction cs generalizing i k with
  | nil => cases atConst
  | cons first cs ih =>
      have inside : ¬ (checked = true ∧ n = i) := by
        rintro ⟨isChecked, rfl⟩
        exact absurd (within isChecked) (by omega)
      rw [run_cons, if_neg inside]
      cases k with
      | zero =>
          cases atConst
          have notEqual : call.isub (call.callee.fold byte) c ≠ 0 := isub_eq_zero.not.mpr differ
          rw [← Nat.add_zero i, atOther, Option.bind_some, if_pos (.inr notEqual)]
      | succ k =>
          obtain ⟨load, atFirst, equal⟩ := before 0 (Nat.succ_pos k) first rfl
          have more : cs ≠ [] := by
            rintro rfl
            cases atConst
          have goesOn : ¬ (cs.isEmpty = true ∨ call.isub (call.callee.fold load) first ≠ 0) := by
            rintro (last | notEqual)
            · exact more (List.isEmpty_iff.mp last)
            · exact notEqual (isub_eq_zero.mpr equal)
          rw [Nat.add_zero] at atFirst
          rw [atFirst, Option.bind_some, if_neg goesOn]
          have next : i + (k + 1) = i + 1 + k := by omega
          refine ih (k := k) atConst (next ▸ atOther) (fun j below c inConst => ?_) fun isChecked => ?_
          · have earlier := before (j + 1) (Nat.succ_lt_succ below) c inConst
            rwa [show i + (j + 1) = i + 1 + j by omega] at earlier
          · exact next ▸ within isChecked

/-- Without a difference the value is 0. -/
theorem Call.run_alike {cs : List UInt8} {i : Nat} (nonempty : cs ≠ [])
    (alike : ∀ j c, cs[j]? = some c → (checked = true → i + j < n) →
      call.Equals other (i + j) c) (within : checked = true → i ≤ n) :
    call.run other n (blocks checked cs i) = some 0 := by
  induction cs generalizing i with
  | nil => exact absurd rfl nonempty
  | cons first cs ih =>
      rw [run_cons]
      by_cases atLimit : checked = true ∧ n = i
      · rw [if_pos atLimit]
      · have below : checked = true → i < n := by
          intro isChecked
          exact Nat.lt_of_le_of_ne (within isChecked) fun same => atLimit ⟨isChecked, same.symm⟩
        obtain ⟨load, atFirst, equal⟩ := alike 0 first rfl below
        rw [Nat.add_zero] at atFirst
        rw [if_neg atLimit, atFirst, Option.bind_some]
        have zero : call.isub (call.callee.fold load) first = 0 := isub_eq_zero.mpr equal
        rw [zero]
        by_cases last : cs = []
        · subst last
          rfl
        · have goesOn : ¬ (cs.isEmpty = true ∨ (0 : UInt8) ≠ 0) := by
            rintro (isLast | notEqual)
            · exact last (List.isEmpty_iff.mp isLast)
            · exact notEqual rfl
          rw [if_neg goesOn]
          refine ih last (fun j c inConst inside => ?_) below
          have later := alike (j + 1) c inConst
          rw [show i + (j + 1) = i + 1 + j by omega] at later
          exact later inside

end

/-! ## The constant -/

/-- The constant argument points to the start of its array. -/
def Source.AtStart : Source → Prop
  | .literal _ => True
  | .initializer _ offset => offset = 0

/-- The string is what the memory starts with, up to its terminator. -/
theorem Source.str_spec {source : Source} (start : source.AtStart) {i : Nat} {b : UInt8}
    (inMemory : source.memory[i]? = some b) (inside : i < source.str.length + 1) :
    (source.str ++ [0])[i]? = some b := by
  cases source with
  | literal array =>
      simp only [memory, str] at inMemory inside ⊢
      rw [← List.takeWhile_append_dropWhile (p := (· ≠ 0)) (l := array)] at inMemory
      rcases Nat.lt_or_eq_of_le (Nat.le_of_lt_succ inside) with early | atEnd
      · rwa [List.getElem?_append_left early] at inMemory ⊢
      · have stopped := List.head?_dropWhile_not (· ≠ 0) array
        rw [atEnd, List.getElem?_append_right (Nat.le_refl _), Nat.sub_self] at inMemory ⊢
        rw [List.head?_eq_getElem?, inMemory] at stopped
        exact congrArg some (by simpa using stopped.symm : b = 0).symm
  | initializer array offset =>
      obtain rfl : offset = 0 := start
      simp only [memory, str, List.drop_zero] at inMemory inside ⊢
      have early := (List.getElem?_eq_some_iff.mp inMemory).1
      rw [List.getElem?_append_left early, inMemory]

theorem Callee.constStr_prefix (callee : Callee) (str : List UInt8) :
    callee.constStr str <+: str ++ [0] := by
  unfold constStr
  dsimp only
  split <;> split
  · exact List.prefix_refl _
  · exact List.prefix_append _ _
  · exact List.take_prefix _ _
  · exact (List.take_prefix _ _).trans (List.prefix_append _ _)

/-- A string has no terminator but its last byte. -/
theorem Callee.constStr_terminator {callee : Callee} {str : List UInt8} {i : Nat}
    (isString : callee.isMemcmp = false) (ended : (callee.constStr str)[i]? = some 0) :
    i + 1 = (callee.constStr str).length := by
  unfold constStr at ended ⊢
  simp only [isString, Bool.false_eq_true, if_false] at ended ⊢
  generalize (if callee.sizedValue = none ∧ str.getLast? ≠ some 0 then str ++ [0] else str) =
    bytes at ended ⊢
  obtain ⟨inside, zero⟩ := List.getElem?_eq_some_iff.mp ended
  rw [List.getElem_take] at zero
  rw [List.length_take] at inside ⊢
  have notEarlier : ¬ i < bytes.findIdx (· = 0) := fun early =>
    Bool.false_ne_true ((List.not_of_lt_findIdx early).symm.trans (decide_eq_true zero))
  omega

theorem Callee.constStr_ne_nil {callee : Callee} {str : List UInt8} (long : tooShort str = false) :
    callee.constStr str ≠ [] := by
  have nonempty : str ≠ [] := by
    rintro rfl
    cases long
  have ended : (if callee.sizedValue = none ∧ str.getLast? ≠ some 0 then str ++ [0] else str) ≠
      [] := by
    split
    · exact List.append_ne_nil_of_right_ne_nil _ (List.cons_ne_nil _ _)
    · exact nonempty
  unfold constStr
  dsimp only
  split
  · exact ended
  · exact List.take_eq_nil_iff.not.mpr (not_or.mpr ⟨Nat.succ_ne_zero _, ended⟩)

section

variable {call : Call}

theorem Call.unrolled_length_le :
    call.unrolled.length ≤ (call.callee.constStr call.constant.str).length := by
  rw [unrolled, List.length_map, List.length_take]
  exact Nat.min_le_right _ _

/-- A chain is never longer than a constant size. -/
theorem Call.unrolled_length_le_size {n : Nat} (size : call.callee.sizedValue = some (.const n)) :
    call.unrolled.length ≤ n := by
  rw [unrolled, List.length_map, List.length_take, Callee.unrollLen, size]
  dsimp only
  split
  · exact Nat.min_le_left _ _
  · next larger => exact Nat.le_trans (Nat.min_le_right _ _) (Nat.not_lt.mp larger)

theorem Call.unrolled_ne_nil (selected : call.callee.selected = true)
    (long : tooShort call.constant.str = false) : call.unrolled ≠ [] := by
  have constant : 0 < (call.callee.constStr call.constant.str).length :=
    List.length_pos_iff.mpr (Callee.constStr_ne_nil long)
  have positive : 0 < call.callee.unrollLen (call.callee.constStr call.constant.str).length := by
    unfold Callee.unrollLen
    split
    · next size known =>
      have twoAtLeast : 2 ≤ size := by
        cases named : call.callee <;> simp_all [Callee.sizedValue, Callee.selected]
      split <;> omega
    · exact constant
  rw [unrolled, ← List.length_pos_iff, List.length_map, List.length_take]
  omega

/-- What is compared with the other argument is the memory of the constant. -/
theorem Call.unrolled_memory (start : call.constant.AtStart) {k : Nat} {a : UInt8}
    (inMemory : call.constant.memory[k]? = some a) (inside : k < call.unrolled.length) :
    (call.callee.constStr call.constant.str)[k]? = some a ∧
      call.unrolled[k]? = some (call.callee.fold a) := by
  have isPrefix := call.callee.constStr_prefix call.constant.str
  have inConst := Nat.lt_of_lt_of_le inside call.unrolled_length_le
  have inStr : k < call.constant.str.length + 1 := by
    have shorter := isPrefix.length_le
    rw [List.length_append, List.length_singleton] at shorter
    exact Nat.lt_of_lt_of_le inConst shorter
  have spec := Source.str_spec start inMemory inStr
  have atConst : (call.callee.constStr call.constant.str)[k]? = some a := by
    obtain ⟨behind, split⟩ := isPrefix
    rwa [← split, List.getElem?_append_left inConst] at spec
  refine ⟨atConst, ?_⟩
  have below : k < call.callee.unrollLen (call.callee.constStr call.constant.str).length := by
    rw [unrolled, List.length_map, List.length_take] at inside
    exact Nat.lt_of_lt_of_le inside (Nat.min_le_left _ _)
  rw [unrolled, List.getElem?_map, List.getElem?_take_of_lt below, atConst, Option.map_some]

end

/-! ## Signs -/

/-- How many bytes the chain compares at most. -/
def Call.compared (call : Call) (n : Nat) : Nat :=
  match call.callee.limit n with
  | none => call.unrolled.length
  | some size => min size call.unrolled.length

/-- The first of the compared bytes that differ do so by what 8 bits can hold,
and where none differ the library function finds no difference behind them. -/
structure Call.Faithful (call : Call) (other : List UInt8) (n : Nat) : Prop where
  short : ∀ k < call.compared n, (∀ i < k, Alike call.callee call.constant.memory other i) →
    ∀ a b, call.constant.memory[k]? = some a → other[k]? = some b →
      -128 ≤ call.oriented ((call.callee.fold a).toNat - (call.callee.fold b).toNat) ∧
        call.oriented ((call.callee.fold a).toNat - (call.callee.fold b).toNat) ≤ 127
  rest : (∀ i < call.compared n, Alike call.callee call.constant.memory other i) →
    ∀ k, Within (call.callee.limit n) k →
      (∀ i < k, Passes call.callee call.constant.memory other i) →
        ∀ a b, call.constant.memory[k]? = some a → other[k]? = some b →
          call.callee.fold a = call.callee.fold b

section

variable {call : Call} {other : List UInt8} {n : Nat}

theorem Call.lt_compared {k : Nat} : k < call.compared n ↔
    k < call.unrolled.length ∧ (call.callee.sizedValue = some .runtime → k < n) := by
  unfold compared Callee.limit
  rcases known : call.callee.sizedValue with _ | size
  · simp
  · cases size with
    | const c =>
        have bound := unrolled_length_le_size known
        simp only [Option.map_some, Option.some.injEq, reduceCtorEq, false_implies, and_true]
        omega
    | runtime =>
        simp only [Option.map_some, true_implies]
        omega

theorem Call.compared_le_limit {size : Nat} (limit : call.callee.limit n = some size) :
    call.compared n ≤ size := by
  rw [compared, limit]
  exact Nat.min_le_left _ _

/-- Equal bytes add no difference. -/
theorem Alike.difference {callee : Callee} {left right : List UInt8} {k : Nat}
    (alike : Alike callee left right k) {a b : UInt8} (atLeft : left[k]? = some a)
    (atRight : right[k]? = some b) : callee.fold a = callee.fold b := by
  obtain ⟨a', b', atLeft', atRight', same⟩ := alike
  rw [atLeft] at atLeft'
  rw [atRight] at atRight'
  cases atLeft'
  cases atRight'
  exact same

theorem Call.oriented_self (call : Call) (x : Int) : call.oriented (x - x) = 0 := by
  simp [oriented]

theorem Call.oriented_eq_zero {x : Int} : call.oriented x = 0 ↔ x = 0 := by
  unfold oriented
  split
  · exact Iff.rfl
  · exact Int.neg_eq_zero

/-- The 8-bit value of a block against the difference of the bytes, whichever
argument comes first. -/
theorem Call.isub_sign {a b : UInt8} (differ : a ≠ b) {r : Int}
    (difference : call.oriented r = (a.toNat : Int) - b.toNat) :
    (sext (call.isub b a)).sign = r.sign ↔
      -128 ≤ call.oriented ((a.toNat : Int) - b.toNat) ∧
        call.oriented ((a.toNat : Int) - b.toNat) ≤ 127 := by
  unfold oriented at difference ⊢
  unfold isub
  split
  · next first =>
    rw [if_pos first] at difference
    rw [difference]
    exact sext_sub_sign differ
  · next second =>
    rw [if_neg second] at difference
    have swapped : r = (b.toNat : Int) - a.toNat := by omega
    rw [swapped, Int.neg_sub]
    exact sext_sub_sign (Ne.symm differ)

section

variable (start : call.constant.AtStart)

include start

/-- When all bytes that the chain compares are alike its value is 0. -/
theorem Call.chain_alike (nonempty : call.unrolled ≠ [])
    (alike : ∀ i < call.compared n, Alike call.callee call.constant.memory other i) :
    call.run other n (blocks (call.callee.sizedValue = some .runtime) call.unrolled 0) =
      some 0 := by
  refine run_alike nonempty (fun j c inConst within => ?_) fun _ => Nat.zero_le n
  rw [Nat.zero_add] at within ⊢
  have inside := (List.getElem?_eq_some_iff.mp inConst).1
  obtain ⟨a, b, inMemory, inOther, same⟩ :=
    alike j (lt_compared.mpr ⟨inside, fun runtime => within (decide_eq_true runtime)⟩)
  have constant := (unrolled_memory start inMemory inside).2
  rw [inConst] at constant
  cases constant
  exact ⟨b, inOther, same.symm⟩

/-- The first difference gives the chain its value. -/
theorem Call.chain_differ {k : Nat} {a b : UInt8} (inside : k < call.compared n)
    (before : ∀ i < k, Alike call.callee call.constant.memory other i)
    (inMemory : call.constant.memory[k]? = some a) (inOther : other[k]? = some b)
    (differ : call.callee.fold a ≠ call.callee.fold b) :
    call.run other n (blocks (call.callee.sizedValue = some .runtime) call.unrolled 0) =
      some (sext (call.isub (call.callee.fold b) (call.callee.fold a))) := by
  obtain ⟨inChain, inSize⟩ := lt_compared.mp inside
  refine run_differ (unrolled_memory start inMemory inChain).2 ?_ (Ne.symm differ)
    (fun j below c inConst => ?_) fun runtime => ?_
  · rwa [Nat.zero_add]
  · obtain ⟨a', b', inMemory', inOther', same⟩ := before j below
    have constant := (unrolled_memory start inMemory' (List.getElem?_eq_some_iff.mp inConst).1).2
    rw [inConst] at constant
    cases constant
    rw [Nat.zero_add]
    exact ⟨b', inOther', same.symm⟩
  · rw [Nat.zero_add]
    exact inSize (of_decide_eq_true runtime)

end

/-- Where the library function meets no difference, the chain meets none. -/
theorem Call.alike_of_passes (start : call.constant.AtStart)
    (passing : ∀ k, Within (call.callee.limit n) k →
      (∀ i < k, Passes call.callee call.constant.memory other i) →
        Alike call.callee call.constant.memory other k) :
    ∀ i < call.compared n, Alike call.callee call.constant.memory other i := by
  intro i inside
  have within {k : Nat} (below : k ≤ i) : Within (call.callee.limit n) k := by
    intro size limit
    exact Nat.lt_of_le_of_lt below (Nat.lt_of_lt_of_le inside (compared_le_limit limit))
  have passes : ∀ k ≤ i, ∀ j < k, Passes call.callee call.constant.memory other j := by
    intro k below
    induction k with
    | zero => exact fun j none => absurd none (Nat.not_lt_zero j)
    | succ k ih =>
        have earlier := ih (Nat.le_of_succ_le below)
        intro j inRange
        rcases Nat.lt_or_eq_of_le (Nat.le_of_lt_succ inRange) with before | rfl
        · exact earlier j before
        · refine ⟨passing j (within (Nat.le_of_succ_le below)) earlier, fun isString ended => ?_⟩
          -- The constant has nothing behind its terminator.
          have inChain := (lt_compared.mp inside).1
          have atConst := (unrolled_memory start ended
            (Nat.lt_of_succ_le (Nat.le_trans below (Nat.le_of_lt inChain)))).1
          have last := Callee.constStr_terminator isString atConst
          have inConst := Nat.lt_of_lt_of_le inChain call.unrolled_length_le
          omega
  exact passing i (within (Nat.le_refl i)) (passes i (Nat.le_refl i))

/-- A result of 0 leaves no difference to find. -/
theorem Compared.passing {callee : Callee} {limit : Option Nat} {left right : List UInt8}
    (compared : Compared callee limit left right 0) {k : Nat} (within : Within limit k)
    (before : ∀ i < k, Passes callee left right i) : Alike callee left right k := by
  generalize zero : (0 : Int) = result at compared
  cases compared with
  | differ first a b _ _ _ _ differ =>
      have same : (callee.fold a).toNat = (callee.fold b).toNat := by omega
      exact absurd (UInt8.toNat_inj.mp same) differ
  | limit n size all => exact (all k (within n size)).1
  | terminated last _ all alike isString ended =>
      rcases Nat.lt_trichotomy k last with early | rfl | late
      · exact (all k early).1
      · exact alike
      · exact absurd ended ((before last late).2 isString)

/-- The value of the unrolled chain has the sign of the library function's
result exactly when the chain is faithful to the arguments. -/
theorem transformCmps_sign_iff {chain : List Block} (rewritten : call.transform = some chain)
    (start : call.constant.AtStart) {r : Int} (defined : call.library other n = some r) :
    (∃ value, call.run other n chain = some value ∧ value.sign = r.sign) ↔
      call.Faithful other n := by
  unfold Call.transform at rewritten
  split at rewritten
  · cases rewritten
  · next chosen =>
    cases rewritten
    obtain ⟨selected, long⟩ := not_or.mp chosen
    have nonempty := call.unrolled_ne_nil (Bool.not_eq_false _ ▸ selected) (by simpa using long)
    have spec := Call.library_spec defined
    generalize oriented : call.oriented r = difference at spec
    by_cases zero : difference = 0
    · subst zero
      obtain rfl := Call.oriented_eq_zero.mp oriented
      have alike := call.alike_of_passes start fun k => spec.passing
      rw [call.chain_alike start nonempty alike]
      refine ⟨fun _ => ⟨?_, ?_⟩, fun _ => ⟨0, rfl, rfl⟩⟩
      · intro k inside _ a b inMemory inOther
        rw [(alike k inside).difference inMemory inOther, Call.oriented_self]
        decide
      · intro _ k within before a b inMemory inOther
        exact (spec.passing within before).difference inMemory inOther
    · cases spec with
      | limit => exact absurd rfl zero
      | terminated => exact absurd rfl zero
      | differ k a b within before inMemory inOther differ =>
          have alikeBefore : ∀ i < k, Alike call.callee call.constant.memory other i :=
            fun i below => (before i below).1
          have notAlike : ¬ Alike call.callee call.constant.memory other k :=
            fun alike => differ (alike.difference inMemory inOther)
          by_cases inside : k < call.compared n
          · rw [call.chain_differ start inside alikeBefore inMemory inOther differ]
            have sign := Call.isub_sign differ oriented
            constructor
            · rintro ⟨value, same, agrees⟩
              cases same
              refine ⟨fun i below alike a' b' inMemory' inOther' => ?_, fun alike => ?_⟩
              · rcases Nat.lt_trichotomy i k with early | rfl | late
                · rw [(alikeBefore i early).difference inMemory' inOther', Call.oriented_self]
                  decide
                · cases inMemory.symm.trans inMemory'
                  cases inOther.symm.trans inOther'
                  exact sign.mp agrees
                · exact absurd (alike k late) notAlike
              · exact absurd (alike k inside) notAlike
            · intro faithful
              exact ⟨_, rfl, sign.mpr (faithful.short k inside alikeBefore a b inMemory inOther)⟩
          · -- The chain ends in front of the difference.
            have alike : ∀ i < call.compared n, Alike call.callee call.constant.memory other i :=
              fun i below => alikeBefore i (Nat.lt_of_lt_of_le below (Nat.not_lt.mp inside))
            rw [call.chain_alike start nonempty alike]
            constructor
            · rintro ⟨value, same, agrees⟩
              cases same
              have noDifference : r = 0 := Int.sign_eq_zero_iff_zero.mp agrees.symm
              exact absurd (oriented ▸ Call.oriented_eq_zero.mpr noDifference) zero
            · intro faithful
              exact absurd (faithful.rest alike k within before a b inMemory inOther) differ

end

/-- `strcmp(x, "ab")` on `ac`. -/
def strcmpAb : Call := ⟨.strcmp, false, .literal [97, 98, 0]⟩

theorem transformCmps_sign_iff_strcmpAb :
    (∃ value, strcmpAb.run [97, 99, 0] 0 (blocks false [97, 98, 0] 0) = some value ∧
      value.sign = (1 : Int).sign) ↔ strcmpAb.Faithful [97, 99, 0] 0 :=
  @transformCmps_sign_iff strcmpAb _ _ _ rfl trivial _ rfl

/-- `memcmp(x, "abc", 4)`, the terminator included. -/
def memcmpAbc : Call := ⟨.memcmp (.const 4), false, .literal [97, 98, 99, 0]⟩

/-- `memcmp` tells `abcd` from the constant, its chain does not: the string the
pass unrolls ends in front of the terminator. -/
theorem memcmp_terminatorIgnored :
    ∃ chain, memcmpAbc.transform = some chain ∧
      memcmpAbc.library [97, 98, 99, 100] 4 = some 100 ∧
      memcmpAbc.run [97, 98, 99, 100] 4 chain = some 0 :=
  ⟨_, rfl, rfl, rfl⟩

end SbFuzz.Instrumentation.CompareTransform
