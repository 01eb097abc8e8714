import SbFuzz.Fuzzer.Dictionary
import Mathlib.Data.List.Monad

/-! `load_extras_file` with the memory of its tokens: none of them is written behind
its end, and which of them are empty. -/

set_option autoImplicit false

namespace SbFuzz.Fuzzer.LoadExtras

/-! ## Lines -/

section

-- What atoi makes of numbers that do not fit is left open.
variable (atoi : List UInt8 → Int) (dictLevel : Int)

def skipLevel (string : List UInt8) : Option (List UInt8) :=
  match string with
  | c :: rest =>
      if c = 0x40 then if dictLevel < atoi rest then none else some (rest.dropWhile isDigit)
      else some (c :: rest)
  | [] => some []

def skipName (string : List UInt8) : Option (List UInt8) := do
  let string ← skipLevel atoi dictLevel (string.dropWhile fun c => isAlnum c || c = 0x5f)
  match (skipIndex string).dropWhile fun c => isSpace c || c = 0x3d with
  | [] => none
  | c :: rest => if c = quote then some rest else none

/-- The text between the quotes of a line that has one. -/
def quoted (line : List UInt8) : Option (List UInt8) := do
  let string := trimLine line
  if string = [] ∨ string.head? = some 0x23 then none
  else if string.getLast? ≠ some quote then none
  else
    let value ← skipName atoi dictLevel string.dropLast
    if value = [] then none else some value

end

/-! ## Tokens -/

/-- `*(wptr++) = byte`, in an allocation of so many bytes. -/
def put (allocated : Nat) (written : Token) (byte : UInt8) : Option Token :=
  if written.length < allocated then some (written ++ [byte]) else none

/-- A byte that is not printed: `case 1 ... 31` and `case 128 ... 255`. -/
def nonPrinting (c : UInt8) : Bool := (1 ≤ c && c ≤ 31) || 128 ≤ c

/-- The loop that copies what is between the quotes. -/
def copyLoop (allocated : Nat) (written : Token) : List UInt8 → Option Token
  | [] => some written
  | c :: rest =>
      if nonPrinting c then copyLoop allocated written rest
      else if c = backslash then
        match rest with
        | [] => some written
        | d :: rest =>
            if d = backslash ∨ d = quote then do
              let written ← put allocated written d
              copyLoop allocated written rest
            else
              match rest with
              | h :: l :: after =>
                  if d = 0x78 ∧ isXdigit h ∧ isXdigit l then do
                    let written ← put allocated written (hexValue h <<< 4 ||| hexValue l)
                    copyLoop allocated written after
                  else copyLoop allocated written (d :: h :: l :: after)
              | [h] => copyLoop allocated written (d :: [h])
              | [] => copyLoop allocated written [d]
      else do
        let written ← put allocated written c
        copyLoop allocated written rest
termination_by string => string.length

/-- Nothing stands for a write behind the token. -/
def loadLine (atoi : List UInt8 → Int) (dictLevel : Int) (extras : List Token)
    (line : List UInt8) : Option (List Token) :=
  match quoted atoi dictLevel line with
  | none => some extras
  | some value => do
      let token ← copyLoop value.length [] value
      if maxDictFile < token.length then some extras else some (extras ++ [token])

def loadExtrasFile (atoi : List UInt8 → Int) (extras : List Token) (dictLevel : Int)
    (file : List UInt8) : Option (List Token) :=
  (fileLines file).foldlM (loadLine atoi dictLevel) extras

/-! ## Memory -/

theorem put_eq {allocated : Nat} {written : Token} (room : written.length < allocated)
    (byte : UInt8) : put allocated written byte = some (written ++ [byte]) := if_pos room

theorem copyLoop_eq {allocated : Nat} {string : List UInt8} {written : Token}
    (room : written.length + string.length ≤ allocated) :
    copyLoop allocated written string = some (written ++ unescape string) := by
  have slash : nonPrinting backslash = false := by decide
  fun_induction unescape string generalizing written with
  | case1 => simp [copyLoop]
  | case2 c rest hidden ih =>
    have skipped : nonPrinting c = true := hidden
    rw [copyLoop.eq_def]
    dsimp only
    rw [if_pos skipped]
    exact ih (by rw [List.length_cons] at room; omega)
  | case3 => simp [copyLoop.eq_def, slash]
  | case4 d rest escaped hidden ih =>
    simp only [List.length_cons] at room
    rw [copyLoop.eq_def]
    simp only [slash, Bool.false_eq_true, if_false, if_true, escaped,
      put_eq (by omega : written.length < allocated), Option.bind_eq_bind, Option.bind_some]
    rw [ih (by rw [List.length_append, List.length_singleton]; omega), List.append_assoc]
    rfl
  | case5 d other h l after hex hidden ih =>
    simp only [List.length_cons] at room
    rw [copyLoop.eq_def]
    simp only [slash, Bool.false_eq_true, if_false, if_true, hex, and_self,
      put_eq (by omega : written.length < allocated), Option.bind_eq_bind, Option.bind_some]
    rw [ih (by rw [List.length_append, List.length_singleton]; omega), List.append_assoc]
    rfl
  | case6 d other h l after plain hidden ih =>
    simp only [List.length_cons] at room ih
    rw [copyLoop.eq_def]
    simp only [slash, Bool.false_eq_true, if_false, if_true, other, plain]
    exact ih (by omega)
  | case7 d other h hidden ih =>
    simp only [List.length_cons] at room ih
    rw [copyLoop.eq_def]
    simp only [slash, Bool.false_eq_true, if_false, if_true, other]
    exact ih (by omega)
  | case8 d other hidden ih =>
    simp only [List.length_cons] at room ih
    rw [copyLoop.eq_def]
    simp only [slash, Bool.false_eq_true, if_false, if_true, other]
    exact ih (by omega)
  | case9 c rest printed other ih =>
    rw [List.length_cons] at room
    have plain : nonPrinting c = false := Bool.not_eq_true _ ▸ printed
    rw [copyLoop.eq_def]
    simp only [plain, Bool.false_eq_true, if_false, other,
      put_eq (by omega : written.length < allocated), Option.bind_eq_bind, Option.bind_some]
    rw [ih (by rw [List.length_append, List.length_singleton]; omega), List.append_assoc]
    rfl

/-! ## Empty tokens -/

/-- A text of bytes that are not printed, each behind one backslash at most. -/
def isBlank : List UInt8 → Bool
  | [] => true
  | c :: rest =>
      if nonPrinting c then isBlank rest
      else
        c = backslash &&
          match rest with
          | [] => true
          | d :: rest => nonPrinting d && isBlank rest

/-- What is copied is empty for blank texts only. -/
theorem unescape_eq_nil_iff (string : List UInt8) :
    unescape string = [] ↔ isBlank string = true := by
  have slash : nonPrinting backslash = false := by decide
  -- Behind a backslash that starts no escape, the text goes on as if it were not there.
  have behind {d : UInt8} {rest : List UInt8} (other : ¬ (d = backslash ∨ d = quote))
      (ih : unescape (d :: rest) = [] ↔ isBlank (d :: rest) = true) :
      unescape (d :: rest) = [] ↔ isBlank (backslash :: d :: rest) = true := by
    rw [ih]
    unfold isBlank
    by_cases hidden : nonPrinting d = true
    · simp [slash, hidden]
    · have different : d ≠ backslash := fun same => other (.inl same)
      simp [slash, hidden, different]
  fun_induction unescape string with
  | case1 => simp [isBlank]
  | case2 c rest hidden ih =>
    have skipped : nonPrinting c = true := hidden
    rw [isBlank.eq_def]
    dsimp only
    rw [if_pos skipped]
    exact ih
  | case3 => simp [isBlank, slash]
  | case4 d rest escaped hidden ih =>
    rcases escaped with rfl | rfl
    · simp [isBlank, slash]
    · have printed : nonPrinting quote = false := by decide
      simp [isBlank, slash, printed]
  | case5 d other h l after hex hidden ih =>
    have printed : nonPrinting d = false := hex.1 ▸ by decide
    simp [isBlank, slash, printed]
  | case6 d other h l after plain hidden ih => exact behind other ih
  | case7 d other h hidden ih => exact behind other ih
  | case8 d other hidden ih => exact behind other ih
  | case9 c rest printed other ih =>
    have plain : nonPrinting c = false := Bool.not_eq_true _ ▸ printed
    unfold isBlank
    simp [plain, other]

/-! ## Files -/

section

variable {atoi : List UInt8 → Int} {dictLevel : Int}

/-- The token of a line, if it gets one. -/
def lineToken (atoi : List UInt8 → Int) (dictLevel : Int) (line : List UInt8) : Option Token :=
  match quoted atoi dictLevel line with
  | none => none
  | some value => if maxDictFile < (unescape value).length then none else some (unescape value)

theorem loadLine_eq (extras : List Token) (line : List UInt8) :
    loadLine atoi dictLevel extras line =
      some (extras ++ (lineToken atoi dictLevel line).toList) := by
  unfold loadLine lineToken
  cases quoted atoi dictLevel line with
  | none => simp
  | some value =>
      have copied : copyLoop value.length [] value = some (unescape value) :=
        copyLoop_eq (Nat.le_of_eq (Nat.zero_add _))
      dsimp only
      rw [copied]
      simp only [Option.bind_eq_bind, Option.bind_some]
      split <;> simp

theorem loadExtrasFile_eq (extras : List Token) (file : List UInt8) :
    LoadExtras.loadExtrasFile atoi extras dictLevel file =
      some (extras ++ (fileLines file).filterMap (lineToken atoi dictLevel)) := by
  unfold LoadExtras.loadExtrasFile
  generalize fileLines file = lines
  induction lines generalizing extras with
  | nil => simp
  | cons line lines ih =>
      rw [List.foldlM_cons, loadLine_eq]
      simp only [Option.bind_eq_bind, Option.bind_some]
      rw [ih, List.append_assoc]
      cases found : lineToken atoi dictLevel line with
      | none => simp [found]
      | some token => simp [found]

theorem quoted_atoi (dictLevel : Int) (line : List UInt8) :
    parseLine dictLevel line = lineToken Fuzzer.atoi dictLevel line := by
  have same (string : List UInt8) : Fuzzer.skipName dictLevel string =
      LoadExtras.skipName Fuzzer.atoi dictLevel string := rfl
  unfold parseLine lineToken quoted
  simp only [same, Option.bind_eq_bind]
  split_ifs
  · rfl
  · rfl
  · cases LoadExtras.skipName Fuzzer.atoi dictLevel (trimLine line).dropLast with
    | none => rfl
    | some value =>
        simp only [Option.bind_some]
        split_ifs <;> simp_all

/-- No token is written behind its end, and all that are stored have a length in range, exactly
when no line is read whose text is blank. -/
theorem loadExtrasFile_inRange_iff (atoi : List UInt8 → Int) (extras : List Token) (dictLevel : Int)
    (file : List UInt8) :
    (∃ added, LoadExtras.loadExtrasFile atoi extras dictLevel file = some (extras ++ added) ∧
        ∀ token ∈ added, 1 ≤ token.length ∧ token.length ≤ maxDictFile) ↔
      ∀ line ∈ fileLines file, ∀ value, quoted atoi dictLevel line = some value →
        isBlank value = false := by
  rw [loadExtrasFile_eq]
  constructor
  · rintro ⟨added, same, lengths⟩ line member value text
    obtain rfl := List.append_cancel_left (Option.some.inj same)
    refine Bool.eq_false_iff.mpr fun blank => ?_
    have empty := (unescape_eq_nil_iff value).mpr blank
    have stored : lineToken atoi dictLevel line = some [] := by
      unfold lineToken
      rw [text]
      simp [empty]
    have bound := lengths [] (List.mem_filterMap.mpr ⟨line, member, stored⟩)
    exact absurd bound.1 (by decide)
  · intro texts
    refine ⟨_, rfl, fun token member => ?_⟩
    obtain ⟨line, there, stored⟩ := List.mem_filterMap.mp member
    unfold lineToken at stored
    cases text : quoted atoi dictLevel line with
    | none =>
        rw [text] at stored
        cases stored
    | some value =>
        rw [text] at stored
        simp only [Option.ite_none_left_eq_some, Option.some.injEq, Nat.not_lt] at stored
        obtain ⟨short, rfl⟩ := stored
        have some' : unescape value ≠ [] := fun empty =>
          absurd ((unescape_eq_nil_iff value).mp empty) (by simp [texts line there value text])
        exact ⟨List.length_pos_iff.mpr some', short⟩

end

/-- A line with one byte that is not printed between its quotes stores a token of no bytes. -/
theorem loadExtrasFile_stores_empty :
    LoadExtras.loadExtrasFile Fuzzer.atoi [] 0 [0x22, 0x80, 0x22] = some ([] ++ [[]]) ∧
      ¬ 1 ≤ ([] : Token).length := by
  have lines : fileLines [0x22, 0x80, 0x22] = [[0x22, 0x80, 0x22]] := by
    rw [fileLines, dif_neg (by decide)]
    have rest : (fgets (maxLine - 1) [0x22, 0x80, 0x22]).2 = [] := rfl
    rw [rest, fileLines, dif_pos rfl]
    rfl
  have empty : unescape [0x80] = [] := (unescape_eq_nil_iff _).mpr (by decide)
  have text : quoted Fuzzer.atoi 0 [0x22, 0x80, 0x22] = some [0x80] := by decide
  have stored : lineToken Fuzzer.atoi 0 [0x22, 0x80, 0x22] = some [] := by
    unfold lineToken
    rw [text]
    simp [empty]
  rw [loadExtrasFile_eq, lines]
  exact ⟨by simp [stored], by decide⟩

end SbFuzz.Fuzzer.LoadExtras
