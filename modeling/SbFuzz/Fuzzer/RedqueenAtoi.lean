import SbFuzz.Fuzzer.AsciiNumber
import SbFuzz.Fuzzer.Dictionary
import SbFuzz.Memory.Cells

/-! The reverse `atoi` of `cmp_extend_encoding`: a number in the input is replaced by the
text of another one. -/

set_option autoImplicit false

namespace SbFuzz.Fuzzer.RedqueenAtoi

open AsciiNumber (decimal)
open Memory (Cells put put_append put_before put_at put_set)

/-! ## `strtoll` and `strtoull` with base 0 -/

structure Numeral where
  negative : Bool
  magnitude : Nat
  /-- How many bytes it takes, with the spaces in front of it. -/
  stop : Nat

def isSign (c : UInt8) : Bool := c = 0x2d || c = 0x2b

/-- The base and where the digits start. -/
def baseOf (text : List UInt8) : Nat × List UInt8 :=
  match text with
  | zero :: x :: h :: rest =>
    if zero = 0x30 then
      if (x = 0x78 ∨ x = 0x58) ∧ isXdigit h then (16, h :: rest) else (8, text)
    else (10, text)
  | zero :: _ => if zero = 0x30 then (8, text) else (10, text)
  | [] => (10, text)

def isDigitOf (base : Nat) (c : UInt8) : Bool := isXdigit c && (hexValue c).toNat < base

def digitsValue (base : Nat) (digits : List UInt8) : Nat :=
  digits.foldl (fun value c => value * base + (hexValue c).toNat) 0

/-- Nothing stands for a text without a number. -/
def numeral (text : List UInt8) : Option Numeral :=
  let signed := text.dropWhile isSpace
  let unsigned := if signed.head?.any isSign then signed.tail else signed
  let (base, digits) := baseOf unsigned
  let run := digits.takeWhile (isDigitOf base)
  if run = [] then none
  else
    some {
      negative := signed.head? = some 0x2d
      magnitude := digitsValue base run
      stop := text.length - digits.length + run.length }

/-- The value, where it ends, and whether `errno` is set to `ERANGE`. -/
structure Converted where
  value : Int
  stop : Nat
  range : Bool

def llongMin : Int := -0x8000000000000000

def llongMax : Int := 0x7fffffffffffffff

def ullongMax : Int := 0xffffffffffffffff

def strtoll (text : List UInt8) : Converted :=
  match numeral text with
  | none => { value := 0, stop := 0, range := false }
  | some { negative, magnitude, stop } =>
    let value : Int := if negative then -magnitude else magnitude
    if value < llongMin then { value := llongMin, stop, range := true }
    else if llongMax < value then { value := llongMax, stop, range := true }
    else { value, stop, range := false }

def strtoull (text : List UInt8) : Converted :=
  match numeral text with
  | none => { value := 0, stop := 0, range := false }
  | some { negative, magnitude, stop } =>
    if ullongMax < magnitude then { value := ullongMax, stop, range := true }
    else
      { value := if negative then -(magnitude : Int) % (ullongMax + 1) else magnitude
        stop
        range := false }

/-! ## `strntoll` and `strntoull` -/

/-- What a string of so many bytes holds, and where it ends; and `errno` afterwards. -/
def strnto (convert : List UInt8 → Converted) (extreme : Int → Bool) (errno : Bool)
    (str : List UInt8) : Option (Int × Nat) × Bool :=
  let beg := str.dropWhile (· = 0x20)
  if beg = [] then (none, errno)
  else
    let ret := convert ((beg.take 63).takeWhile (· ≠ 0))
    let errno := errno || ret.range
    if extreme ret.value && errno then (none, errno)
    else (some (ret.value, str.length - beg.length + ret.stop), errno)

def strntoll (errno : Bool) (str : List UInt8) : Option (Int × Nat) × Bool :=
  strnto strtoll (fun ret => ret = llongMin || ret = llongMax) errno str

def strntoull (errno : Bool) (str : List UInt8) : Option (Int × Nat) × Bool :=
  strnto strtoull (fun ret => ret = ullongMax) errno str

/-! ## The branch -/

/-- Which of the two branches is taken, and `old_len`. -/
structure OldNumber where
  unsigned : Bool
  oldLen : Nat

def oldNumber (errno : Bool) (str : List UInt8) (pattern : UInt64) : Option OldNumber :=
  match strntoll errno str with
  | (some (num, oldLen), _) =>
    if num % 0x10000000000000000 = pattern.toNat ∨ num = 0 then some { unsigned := false, oldLen }
    else none
  | (none, errno) =>
    match (strntoull errno str).1 with
    | some (unum, oldLen) =>
      if unum = pattern.toNat ∨ unum = 0 then some { unsigned := true, oldLen } else none
    | none => none

/-- `tmp_buf`: what `%lld` or `%llu` prints. -/
def numberText (unsigned : Bool) (repl : UInt64) : List UInt8 :=
  decimal (if unsigned then repl.toNat else (repl.toNat : Int).bmod (2 ^ 64))

/-- What is assembled in the scratch buffer and what is run. -/
structure Run where
  newBuf : Cells
  candidate : List UInt8

def assemble (scratch : Cells) (buf : List UInt8) (idx : Nat) (text : List UInt8) (oldLen : Nat) :
    Run :=
  let numLen := text.length
  let newBuf := put scratch 0 (buf.take idx)
  let newBuf := put newBuf idx text
  let newBuf := put newBuf (idx + numLen) ((buf.drop (idx + oldLen)).take (buf.length - idx - oldLen))
  let newBuf := if isDigit (newBuf (idx + numLen)) then put newBuf (idx + numLen) [0x20] else newBuf
  { newBuf, candidate := (List.range buf.length).map newBuf }

/-- With what is left of earlier candidates in the scratch buffer. -/
def reverseAtoi (errno : Bool) (scratch : Cells) (buf : List UInt8) (idx : Nat)
    (pattern repl : UInt64) : Option Run :=
  (oldNumber errno (buf.drop idx) pattern).map fun { unsigned, oldLen } =>
    assemble scratch buf idx (numberText unsigned repl) oldLen

/-! ## The old number -/

theorem baseOf_length (text : List UInt8) : (baseOf text).2.length ≤ text.length := by
  unfold baseOf
  split
  · split_ifs <;> simp
  · split_ifs <;> simp
  · simp

theorem numeral_stop {text : List UInt8} {number : Numeral} (read : numeral text = some number) :
    number.stop ≤ text.length := by
  let signed := text.dropWhile isSpace
  have spaces : signed.length ≤ text.length := (List.dropWhile_suffix isSpace).length_le
  let unsigned := if signed.head?.any isSign then signed.tail else signed
  have sign : unsigned.length ≤ signed.length := by
    dsimp only [unsigned]
    split
    · exact (List.tail_suffix signed).length_le
    · exact Nat.le_refl _
  have digits := baseOf_length unsigned
  let run := (baseOf unsigned).2.takeWhile (isDigitOf (baseOf unsigned).1)
  have taken : run.length ≤ (baseOf unsigned).2.length := (List.takeWhile_prefix _).length_le
  have number_eq : number.stop = text.length - (baseOf unsigned).2.length + run.length := by
    change (if run = [] then none else some _) = some number at read
    by_cases empty : run = []
    · rw [if_pos empty] at read
      cases read
    · rw [if_neg empty] at read
      cases read
      rfl
  omega

theorem strtoll_stop (text : List UInt8) : (strtoll text).stop ≤ text.length := by
  unfold strtoll
  cases read : numeral text with
  | none => exact Nat.zero_le _
  | some number =>
      have inside := numeral_stop read
      dsimp only
      split_ifs <;> exact inside

theorem strtoull_stop (text : List UInt8) : (strtoull text).stop ≤ text.length := by
  unfold strtoull
  cases read : numeral text with
  | none => exact Nat.zero_le _
  | some number =>
      have inside := numeral_stop read
      dsimp only
      split_ifs <;> exact inside

theorem strnto_inside {convert : List UInt8 → Converted} {extreme : Int → Bool} {errno : Bool}
    {str : List UInt8} {value : Int} {stop : Nat}
    (stops : ∀ text, (convert text).stop ≤ text.length)
    (read : (strnto convert extreme errno str).1 = some (value, stop)) :
    stop ≤ str.length ∧ str ≠ [] := by
  let beg := str.dropWhile (· = 0x20)
  have spaces : beg.length ≤ str.length := (List.dropWhile_suffix _).length_le
  have text := stops ((beg.take 63).takeWhile (· ≠ 0))
  have cut : ((beg.take 63).takeWhile (· ≠ 0)).length ≤ beg.length :=
    (List.takeWhile_prefix _).length_le.trans (List.take_prefix _ _).length_le
  unfold strnto at read
  dsimp only at read
  split at read
  · cases read
  · next some' =>
    split at read
    · cases read
    · cases read
      refine ⟨?_, fun empty => some' (by rw [empty]; rfl)⟩
      change str.length - beg.length + (convert ((beg.take 63).takeWhile (· ≠ 0))).stop ≤ _
      omega

theorem oldNumber_inside {errno : Bool} {str : List UInt8} {pattern : UInt64} {old : OldNumber}
    (found : oldNumber errno str pattern = some old) : old.oldLen ≤ str.length ∧ str ≠ [] := by
  unfold oldNumber at found
  split at found
  · next num oldLen _ read =>
    split at found
    · cases found
      exact strnto_inside strtoll_stop (congrArg Prod.fst read)
    · cases found
  · next errno' _ =>
    split at found
    · next unum oldLen read =>
      split at found
      · cases found
        exact strnto_inside strtoull_stop read
      · cases found
    · cases found

/-! ## The candidate -/

/-- A digit that would continue the number in front of it gives way to a space. -/
def separated : List UInt8 → List UInt8
  | [] => []
  | c :: rest => (if isDigit c then 0x20 else c) :: rest

/-- The input with a text in place of the old number. -/
def replaced (buf : List UInt8) (idx : Nat) (text : List UInt8) (oldLen : Nat) : List UInt8 :=
  buf.take idx ++ text ++ separated (buf.drop (idx + oldLen))

theorem separated_put (scratch : Cells) (head rest : List UInt8) {pos : Nat}
    (short : pos < (head ++ separated rest).length) :
    (if isDigit (put scratch 0 (head ++ rest) head.length) then
      put (put scratch 0 (head ++ rest)) head.length [0x20]
    else put scratch 0 (head ++ rest)) pos = (head ++ separated rest)[pos] := by
  have written {bytes : List UInt8} (inside : pos < bytes.length) : put scratch 0 bytes pos = bytes[pos] := by
    have at' := put_at scratch 0 inside
    rwa [Nat.zero_add] at at'
  cases rest with
  | nil =>
      have here : pos < head.length := by simpa [separated] using short
      split
      · rw [put_before _ _ here]
        exact written short
      · exact written short
  | cons c rest =>
      have behind : head.length < (head ++ c :: rest).length := by simp
      have first : put scratch 0 (head ++ c :: rest) head.length = c := by
        have at' := put_at scratch 0 behind
        rw [Nat.zero_add] at at'
        rw [at', List.getElem_append_right (Nat.le_refl _)]
        simp
      have blank := put_set scratch 0 behind 0x20
      rw [Nat.zero_add, List.set_append_right _ _ (Nat.le_refl _), Nat.sub_self, List.set_cons_zero]
        at blank
      unfold separated at short ⊢
      rw [first, blank]
      by_cases digit : isDigit c = true
      · simp only [if_pos digit] at short ⊢
        exact written short
      · simp only [if_neg digit] at short ⊢
        exact written short

theorem assemble_newBuf (scratch : Cells) {buf : List UInt8} {idx oldLen : Nat}
    (inside : idx + oldLen ≤ buf.length) (text : List UInt8) {pos : Nat}
    (short : pos < (replaced buf idx text oldLen).length) :
    (assemble scratch buf idx text oldLen).newBuf pos = (replaced buf idx text oldLen)[pos] := by
  have before : (buf.take idx).length = idx := List.length_take_of_le (by omega)
  have suffix : (buf.drop (idx + oldLen)).take (buf.length - idx - oldLen) =
      buf.drop (idx + oldLen) :=
    List.take_of_length_le (by rw [List.length_drop]; omega)
  have two := put_append scratch 0 (buf.take idx) text
  have three := put_append scratch 0 (buf.take idx ++ text) (buf.drop (idx + oldLen))
  have length : (buf.take idx ++ text).length = idx + text.length := by
    rw [List.length_append, before]
  have whole := separated_put scratch (buf.take idx ++ text) (buf.drop (idx + oldLen)) short
  rw [Nat.zero_add, before] at two
  rw [Nat.zero_add, length] at three
  rw [length] at whole
  unfold assemble
  dsimp only
  rw [suffix, two, three]
  exact whole

/-- The scratch buffer holds the input with the new number, and the candidate is right
wherever both have a byte. -/
structure Run.Replaces (run : Run) (buf : List UInt8) (idx : Nat) (text : List UInt8)
    (oldLen : Nat) : Prop where
  inside : idx + oldLen ≤ buf.length
  newBuf : (List.range (replaced buf idx text oldLen).length).map run.newBuf =
    replaced buf idx text oldLen
  candidate : ∀ pos, pos < buf.length → pos < (replaced buf idx text oldLen).length →
    run.candidate[pos]? = (replaced buf idx text oldLen)[pos]?
  sameLength : text.length = oldLen → run.candidate = replaced buf idx text oldLen

theorem length_replaced {buf : List UInt8} {idx oldLen : Nat} (inside : idx + oldLen ≤ buf.length)
    (text : List UInt8) :
    (replaced buf idx text oldLen).length + oldLen = buf.length + text.length := by
  have kept (rest : List UInt8) : (separated rest).length = rest.length := by cases rest <;> rfl
  simp only [replaced, List.length_append, List.length_take, kept, List.length_drop]
  omega

theorem assemble_replaces (scratch : Cells) {buf : List UInt8} {idx oldLen : Nat}
    (inside : idx + oldLen ≤ buf.length) (text : List UInt8) :
    (assemble scratch buf idx text oldLen).Replaces buf idx text oldLen := by
  let run := assemble scratch buf idx text oldLen
  have bytes : (List.range (replaced buf idx text oldLen).length).map run.newBuf =
      replaced buf idx text oldLen := by
    refine List.ext_getElem (by simp) fun pos _ short => ?_
    rw [List.getElem_map, List.getElem_range]
    exact assemble_newBuf scratch inside text short
  refine ⟨inside, bytes, fun pos within short => ?_, fun same => ?_⟩
  · have there : run.candidate[pos]? = some (run.newBuf pos) := by
      change ((List.range buf.length).map run.newBuf)[pos]? = _
      rw [List.getElem?_map, List.getElem?_range within, Option.map_some]
    rw [there, List.getElem?_eq_getElem short]
    exact congrArg some (assemble_newBuf scratch inside text short)
  · have length := length_replaced inside text
    rw [show (replaced buf idx text oldLen).length = buf.length by omega] at bytes
    exact bytes

theorem reverseAtoi_replaces {errno : Bool} {scratch : Cells} {buf : List UInt8} {idx : Nat}
    {pattern repl : UInt64} {run : Run}
    (runs : reverseAtoi errno scratch buf idx pattern repl = some run) :
    ∃ old ∈ oldNumber errno (buf.drop idx) pattern,
      run.Replaces buf idx (numberText old.unsigned repl) old.oldLen := by
  obtain ⟨old, found, assembled⟩ := Option.map_eq_some_iff.mp runs
  obtain ⟨inside, some'⟩ := oldNumber_inside found
  have starts : idx < buf.length := by
    by_contra behind
    exact some' (List.drop_eq_nil_of_le (Nat.le_of_not_lt behind))
  rw [List.length_drop] at inside
  rw [← assembled]
  exact ⟨old, found, assemble_replaces scratch (by omega) _⟩

theorem reverseAtoi_replaces_longer :
    ∃ run ∈ reverseAtoi false (fun _ => 0) [0x61, 0x35, 0x62] 1 5 12,
      ∃ old ∈ oldNumber false [0x35, 0x62] 5,
        run.Replaces [0x61, 0x35, 0x62] 1 (numberText old.unsigned 12) old.oldLen := by
  have runs : (reverseAtoi false (fun _ => 0) [0x61, 0x35, 0x62] 1 5 12).isSome := by decide
  obtain ⟨run, runs⟩ := Option.isSome_iff_exists.mp runs
  exact ⟨run, runs, reverseAtoi_replaces runs⟩

/-- In "08" the octal number is "0". -/
theorem reverseAtoi_separates :
    ∃ run ∈ reverseAtoi false (fun _ => 0) [0x30, 0x38] 0 0 7,
      ∃ old ∈ oldNumber false [0x30, 0x38] 0,
        run.candidate ≠
          [0x30, 0x38].take 0 ++ numberText old.unsigned 7 ++ [0x30, 0x38].drop (0 + old.oldLen) := by
  refine ⟨_, rfl, { unsigned := false, oldLen := 1 }, rfl, ?_⟩
  decide

end SbFuzz.Fuzzer.RedqueenAtoi
