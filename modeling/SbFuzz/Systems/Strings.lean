import Mathlib.Data.List.Basic
import Mathlib.Data.Nat.Log
import Mathlib.Tactic.Ring

/-! Byte strings in the order of `strcmp`, decimal numbers padded with zeros, and
texts made of terminated pieces. -/

set_option autoImplicit false

namespace SbFuzz.Systems

/-! ## The order of strings -/

/-- `strcmp(left, right) <= 0`, on strings without a NUL. -/
def strcmpLe : List UInt8 → List UInt8 → Bool
  | [], _ => true
  | _ :: _, [] => false
  | a :: left, b :: right => a < b || (a = b && strcmpLe left right)

theorem strcmpLe_total (left right : List UInt8) :
    strcmpLe left right = true ∨ strcmpLe right left = true := by
  induction left generalizing right with
  | nil => exact .inl rfl
  | cons a left ih =>
      cases right with
      | nil => exact .inr rfl
      | cons b right =>
          simp only [strcmpLe, Bool.or_eq_true, Bool.and_eq_true, decide_eq_true_eq]
          by_cases same : a = b
          · subst same
            rcases ih right with first | second
            · exact .inl (.inr ⟨rfl, first⟩)
            · exact .inr (.inr ⟨rfl, second⟩)
          · rcases UInt8.lt_or_lt_of_ne same with less | more
            · exact .inl (.inl less)
            · exact .inr (.inl more)

theorem strcmpLe_trans {first second third : List UInt8} (low : strcmpLe first second = true)
    (high : strcmpLe second third = true) : strcmpLe first third = true := by
  induction first generalizing second third with
  | nil => rfl
  | cons a first ih =>
      cases second with
      | nil => cases low
      | cons b second =>
          cases third with
          | nil => cases high
          | cons c third =>
              simp only [strcmpLe, Bool.or_eq_true, Bool.and_eq_true, decide_eq_true_eq]
                at low high ⊢
              rcases low with less | ⟨rfl, low⟩
              · rcases high with less' | ⟨rfl, _⟩
                · exact .inl (UInt8.lt_trans less less')
                · exact .inl less
              · rcases high with less' | ⟨rfl, high⟩
                · exact .inl less'
                · exact .inr ⟨rfl, ih low high⟩

theorem strcmpLe_append (common left right : List UInt8) :
    strcmpLe (common ++ left) (common ++ right) = strcmpLe left right := by
  induction common with
  | nil => rfl
  | cons a common ih => simp [strcmpLe, ih]

/-! ## Decimal numbers -/

/-- The last `width` digits of `n`. -/
def decimalDigits : Nat → Nat → List UInt8
  | 0, _ => []
  | width + 1, n => decimalDigits width (n / 10) ++ [0x30 + UInt8.ofNat (n % 10)]

/-- `printf` with a width and a leading zero: more digits where they are needed. -/
def paddedDecimal (width n : Nat) : List UInt8 := decimalDigits (max width (Nat.log 10 n + 1)) n

@[simp] theorem length_decimalDigits (width n : Nat) : (decimalDigits width n).length = width := by
  induction width generalizing n with
  | zero => rfl
  | succ width ih => simp [decimalDigits, ih]

theorem paddedDecimal_of_lt {width n : Nat} (fits : n < 10 ^ width) (wide : 0 < width) :
    paddedDecimal width n = decimalDigits width n := by
  have few : Nat.log 10 n < width := Nat.log_lt_of_lt_pow' (Nat.ne_of_gt wide) fits
  rw [paddedDecimal, Nat.max_eq_left few]

theorem digit_lt {m n : Nat} (less : m < n) (small : n < 10) :
    0x30 + UInt8.ofNat m < 0x30 + UInt8.ofNat n := by
  rw [UInt8.lt_iff_toNat_lt]
  simp only [UInt8.toNat_add, UInt8.toNat_ofNat', UInt8.reduceToNat]
  omega

/-- Numbers of the same width are in the order of their values, whatever follows
them. -/
theorem strcmpLe_decimalDigits {width m n : Nat} (less : m < n) (fits : n < 10 ^ width)
    (left right : List UInt8) :
    strcmpLe (decimalDigits width m ++ left) (decimalDigits width n ++ right) = true ∧
      strcmpLe (decimalDigits width n ++ right) (decimalDigits width m ++ left) = false := by
  induction width generalizing m n left right with
  | zero => omega
  | succ width ih =>
      simp only [decimalDigits, List.append_assoc, List.singleton_append]
      rcases Nat.lt_or_ge (m / 10) (n / 10) with before | notBefore
      · exact ih before (by omega) _ _
      · have same : m / 10 = n / 10 := by omega
        have digit := digit_lt (show m % 10 < n % 10 by omega) (by omega)
        have other : ¬ 0x30 + UInt8.ofNat (n % 10) < 0x30 + UInt8.ofNat (m % 10) :=
          UInt8.lt_asymm digit
        rw [same, strcmpLe_append, strcmpLe_append]
        simp [strcmpLe, digit, other, UInt8.ne_of_lt digit, (UInt8.ne_of_lt digit).symm]

/-! ## Pieces that each end with the same character -/

section

universe u

variable {α : Type u}

/-- The pieces with their terminators, one after the other. -/
def terminated (ending : α) (pieces : List (List α)) : List α := pieces.flatMap (· ++ [ending])

@[simp] theorem terminated_nil (ending : α) : terminated ending [] = [] := rfl

theorem terminated_cons (ending : α) (piece : List α) (pieces : List (List α)) :
    terminated ending (piece :: pieces) = piece ++ ending :: terminated ending pieces := by
  simp [terminated]

theorem terminated_append (ending : α) (left right : List (List α)) :
    terminated ending (left ++ right) = terminated ending left ++ terminated ending right :=
  List.flatMap_append

variable [BEq α] [LawfulBEq α]

theorem terminated_splitOn (ending : α) (text : List α) :
    terminated ending (text.splitOn ending) = text ++ [ending] := by
  induction text with
  | nil => rw [List.splitOn_nil, terminated_cons, terminated_nil]
  | cons c text ih =>
      rw [List.splitOn_cons_eq_if_modifyHead]
      split
      · next ends =>
        rw [terminated_cons, ih, eq_of_beq ends]
        rfl
      · obtain ⟨piece, pieces, split⟩ :=
          List.exists_cons_of_ne_nil (List.splitOn_ne_nil ending text)
        rw [split, terminated_cons] at ih
        rw [split, List.modifyHead_cons, terminated_cons, List.cons_append, ih, List.cons_append]

theorem not_mem_of_mem_splitOn {ending : α} {text piece : List α}
    (isPiece : piece ∈ text.splitOn ending) : ending ∉ piece := by
  induction text generalizing piece with
  | nil =>
      rw [List.splitOn_nil, List.mem_singleton] at isPiece
      exact isPiece ▸ List.not_mem_nil
  | cons c text ih =>
      rw [List.splitOn_cons_eq_if_modifyHead] at isPiece
      split at isPiece
      · rcases List.mem_cons.mp isPiece with rfl | later
        · exact List.not_mem_nil
        · exact ih later
      · next other =>
        obtain ⟨first, pieces, split⟩ :=
          List.exists_cons_of_ne_nil (List.splitOn_ne_nil ending text)
        rw [split] at isPiece ih
        rw [List.modifyHead_cons] at isPiece
        rcases List.mem_cons.mp isPiece with rfl | later
        · exact List.not_mem_cons_of_ne_of_not_mem (fun ends => other (beq_iff_eq.mpr ends.symm))
            (ih List.mem_cons_self)
        · exact ih (List.mem_cons_of_mem _ later)

/-- Splitting finds the pieces again, and an empty one behind the last terminator. -/
theorem splitOn_terminated {ending : α} {pieces : List (List α)}
    (free : ∀ piece ∈ pieces, ending ∉ piece) :
    (terminated ending pieces).splitOn ending = pieces ++ [[]] := by
  induction pieces with
  | nil => rfl
  | cons piece pieces ih =>
      obtain ⟨noEnding, others⟩ := List.forall_mem_cons.mp free
      have clean : ∀ c ∈ piece, (c == ending) = false := by
        intro c inPiece
        exact beq_eq_false_iff_ne.mpr fun same => noEnding (same ▸ inPiece)
      rw [terminated_cons, List.splitOn_eq_splitOnP,
        List.splitOnP_append_cons_of_forall_mem clean ending (beq_self_eq_true ending),
        ← List.splitOn_eq_splitOnP, ih others, List.cons_append]

end

end SbFuzz.Systems
