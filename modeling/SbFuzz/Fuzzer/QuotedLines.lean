import SbFuzz.Fuzzer.LoadExtras
import Mathlib.Data.List.TakeWhile

/-! Lines of a dictionary that have no name in front of the text between the quotes, as the
loader reads them. -/

set_option autoImplicit false

namespace SbFuzz.Fuzzer

def quotedLine (body : List UInt8) : List UInt8 := quote :: body ++ [quote, newline]

/-! ## Bytes -/

theorem forall_byte {P : UInt8 → Prop} (all : ∀ n < 256, P (UInt8.ofNat n)) (c : UInt8) : P c := by
  have same : UInt8.ofNat c.toNat = c := by simp
  exact same ▸ all c.toNat c.toNat_lt

/-- A printable byte is none of those that the loader treats on its own. -/
theorem isPrint_spec (c : UInt8) (print : isPrint c = true) :
    c ≠ 0 ∧ c ≠ newline ∧ ¬ (((1 ≤ c && c ≤ 31) || 128 ≤ c) = true) := by
  revert c
  exact forall_byte (by decide +kernel)

/-! ## Reading a line -/

theorem fgets_line (file : List UInt8) {line : List UInt8} {n : Nat} (short : line.length < n)
    (single : ∀ c ∈ line, c ≠ newline) :
    fgets n (line ++ newline :: file) = (line ++ [newline], file) := by
  induction line generalizing n with
  | nil =>
      cases n with
      | zero => simp at short
      | succ n => simp [fgets]
  | cons c line ih =>
      cases n with
      | zero => simp at short
      | succ n =>
          have rest := @ih n (by simpa using short) fun d member => single d (by simp [member])
          rw [List.cons_append, fgets, if_neg (single c (by simp)), rest]
          rfl

section

variable {body : List UInt8} (print : ∀ c ∈ body, isPrint c = true)
include print

theorem fileLines_quotedLine (short : body.length + 3 < maxLine) (file : List UInt8) :
    fileLines (quotedLine body ++ file) = quotedLine body :: fileLines file := by
  have shape : quotedLine body ++ file = (quote :: body ++ [quote]) ++ newline :: file := by
    simp [quotedLine]
  have single : ∀ c ∈ quote :: body ++ [quote], c ≠ newline := by
    intro c member
    rcases List.mem_append.mp member with inside | last
    · rcases List.mem_cons.mp inside with rfl | inBody
      · decide
      · exact (isPrint_spec c (print c inBody)).2.1
    · rw [List.mem_singleton.mp last]
      decide
  have line := @fgets_line file _ (maxLine - 1) (by simp; omega) single
  rw [fileLines, dif_neg (by simp [quotedLine]), shape, line]
  simp [quotedLine]

theorem trimLine_quotedLine : trimLine (quotedLine body) = quote :: body ++ [quote] := by
  have noNul : (quote :: body ++ [quote, newline]).takeWhile (· ≠ 0) =
      quote :: body ++ [quote, newline] := by
    rw [List.takeWhile_eq_self_iff]
    intro c member
    rcases List.mem_append.mp member with inside | last
    · rcases List.mem_cons.mp inside with rfl | inBody
      · decide
      · simpa using (isPrint_spec c (print c inBody)).1
    · simp only [List.mem_cons, List.not_mem_nil, or_false] at last
      rcases last with rfl | rfl
      · decide
      · decide
  have left : (quote :: body ++ [quote, newline]).dropWhile isSpace =
      quote :: body ++ [quote, newline] := by
    rw [List.cons_append, List.dropWhile_cons_of_neg (by decide)]
  have right : trimRight (quote :: body ++ [quote, newline]) = quote :: body ++ [quote] := by
    have reversed : (quote :: body ++ [quote, newline]).reverse =
        newline :: quote :: (quote :: body).reverse := by simp
    rw [trimRight, reversed, List.dropWhile_cons_of_pos (by decide),
      List.dropWhile_cons_of_neg (by decide)]
    simp
  rw [quotedLine, trimLine, noNul, left, right]

theorem quoted_quotedLine (atoi : List UInt8 → Int) (dictLevel : Int) :
    LoadExtras.quoted atoi dictLevel (quotedLine body) = if body = [] then none else some body := by
  -- There is no name in front of the text.
  have named : LoadExtras.skipName atoi dictLevel (quote :: body) = some body := by
    have label : (quote :: body).dropWhile (fun c => isAlnum c || c = 0x5f) = quote :: body :=
      List.dropWhile_cons_of_neg (by decide)
    have level : LoadExtras.skipLevel atoi dictLevel (quote :: body) = some (quote :: body) := by
      rw [LoadExtras.skipLevel, if_neg (by decide)]
    have index : skipIndex (quote :: body) = quote :: body := by
      rw [skipIndex, if_neg (by decide)]
    have equals : (quote :: body).dropWhile (fun c => isSpace c || c = 0x3d) = quote :: body :=
      List.dropWhile_cons_of_neg (by decide)
    simp only [LoadExtras.skipName, label, level, index, equals, Option.bind_eq_bind,
      Option.bind_some, if_true]
  have started : ¬ (quote :: body ++ [quote] = [] ∨
      (quote :: body ++ [quote]).head? = some 0x23) := by
    rintro (empty | comment)
    · cases empty
    · exact absurd (Option.some.inj comment) (by decide)
  have closed : ¬ (quote :: body ++ [quote]).getLast? ≠ some quote := by
    rw [List.getLast?_concat]
    exact fun other => other rfl
  rw [LoadExtras.quoted, trimLine_quotedLine print, if_neg started, if_neg closed,
    List.dropLast_concat, named]
  rfl

theorem lineToken_quotedLine (atoi : List UInt8 → Int) (dictLevel : Int) :
    LoadExtras.lineToken atoi dictLevel (quotedLine body) =
      if body = [] then none
      else if maxDictFile < (unescape body).length then none
      else some (unescape body) := by
  rw [LoadExtras.lineToken, quoted_quotedLine print]
  by_cases empty : body = []
  · simp only [empty, if_true]
  · simp only [empty, if_false]

end

end SbFuzz.Fuzzer
