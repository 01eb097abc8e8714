import SbFuzz.Instrumentation.Dict2File

/-! The tokens that libtokencap dumps, and how the loader of dictionaries reads them back. -/

set_option autoImplicit false

namespace SbFuzz.Utils.Tokencap

open SbFuzz.Fuzzer SbFuzz.Instrumentation

def minAutoExtra : Nat := 3

def maxAutoExtra : Nat := 32

/-! ## The writer -/

def bufSize : Nat := maxAutoExtra * 4 + 1

/-- What stands in `buf` up to `pos` after `count` more bytes are written there, of which `pos`
is moved behind the first ones. Nothing stands for a write behind the end of `buf`. -/
def putBytes (buf bytes : List UInt8) (count : Nat) : Option (List UInt8) :=
  if buf.length + count ≤ bufSize then some (buf ++ bytes) else none

/-- `case 0 ... 31`, `case 127 ... 255`, the quote and the backslash. -/
def isEscaped (c : UInt8) : Bool := c ≤ 31 || 127 ≤ c || c = quote || c = backslash

/-- The loop over the bytes of the token; `sprintf` writes a NUL behind an escape. -/
def dumpLoop (isText : Bool) (buf : List UInt8) : List UInt8 → Option (List UInt8)
  | [] => some buf
  | c :: ptr =>
      if isText ∧ c = 0 then some buf
      else if isEscaped c then do
        let buf ← putBytes buf (escape c) 5
        dumpLoop isText buf ptr
      else do
        let buf ← putBytes buf [c] 1
        dumpLoop isText buf ptr

/-- `__tokencap_dump`, on the bytes of the token and what the output file holds, if there is
one. -/
def tokencapDump (outFile : Option (List UInt8)) (ptr : Token) (isText : Bool) :
    Option (Option (List UInt8)) :=
  match outFile with
  | none => some none
  | some file =>
      if ptr.length < minAutoExtra ∨ maxAutoExtra < ptr.length then some (some file)
      else do
        let buf ← dumpLoop isText [] ptr
        let buf ← putBytes buf [] 1
        some (some (file ++ quote :: buf ++ [quote, newline]))

/-! ## What is written -/

def dumped (isText : Bool) (ptr : Token) : Token :=
  if isText then ptr.takeWhile (· ≠ 0) else ptr

def body (token : Token) : List UInt8 :=
  token.flatMap fun c => if isEscaped c then escape c else [c]

theorem isEscaped_eq (c : UInt8) : isEscaped c = !isPlain c := by
  revert c
  exact forall_byte (by decide +kernel)

theorem body_cons (c : UInt8) (token : Token) :
    body (c :: token) = (if isEscaped c then escape c else [c]) ++ body token := by
  rw [body, List.flatMap_cons]
  rfl

theorem length_body_le (token : Token) : (body token).length ≤ 4 * token.length := by
  induction token with
  | nil => exact Nat.le_refl 0
  | cons c token ih =>
      rw [body_cons, List.length_append, List.length_cons]
      split
      · simp only [escape, List.length_cons, List.length_nil]
        omega
      · rw [List.length_singleton]
        omega

theorem body_isPrint (token : Token) : ∀ d ∈ body token, isPrint d = true := by
  intro d member
  obtain ⟨c, _, written⟩ := List.mem_flatMap.mp member
  split at written
  · exact escape_isPrint c d written
  · next plain =>
    obtain rfl := List.mem_singleton.mp written
    rw [isEscaped_eq, Bool.not_eq_true, Bool.not_eq_false'] at plain
    exact ((isPlain_iff d).mp plain).1

theorem unescape_body (token : Token) : unescape (body token) = token := by
  induction token with
  | nil => simp [body, unescape]
  | cons c token ih =>
      rw [body_cons]
      split
      · rw [unescape_escape, ih]
      · next plain =>
        rw [isEscaped_eq, Bool.not_eq_true, Bool.not_eq_false'] at plain
        rw [List.singleton_append, unescape_plain plain, ih]

theorem body_eq_nil_iff (token : Token) : body token = [] ↔ token = [] := by
  constructor
  · intro empty
    rw [← unescape_body token, empty, unescape]
  · intro empty
    rw [empty, body, List.flatMap_nil]

theorem dumped_cons_of_ends {isText : Bool} {c : UInt8} (ends : isText = true ∧ c = 0)
    (ptr : Token) : dumped isText (c :: ptr) = [] := by
  obtain ⟨rfl, rfl⟩ := ends
  rfl

theorem dumped_cons {isText : Bool} {c : UInt8} (goes : ¬ (isText = true ∧ c = 0)) (ptr : Token) :
    dumped isText (c :: ptr) = c :: dumped isText ptr := by
  unfold dumped
  split
  · next text =>
    have nonzero : c ≠ 0 := fun zero => goes ⟨text, zero⟩
    rw [List.takeWhile_cons_of_pos (by simpa using nonzero)]
  · rfl

theorem length_dumped_le (isText : Bool) (ptr : Token) :
    (dumped isText ptr).length ≤ ptr.length := by
  unfold dumped
  split
  · exact (List.takeWhile_sublist _).length_le
  · exact Nat.le_refl _

/-- Four bytes for each one that is left, and the NUL behind the last of them. -/
theorem dumpLoop_eq (isText : Bool) {buf : List UInt8} {ptr : Token}
    (room : buf.length + 4 * ptr.length < bufSize) :
    dumpLoop isText buf ptr = some (buf ++ body (dumped isText ptr)) := by
  induction ptr generalizing buf with
  | nil => cases isText <;> simp [dumpLoop, dumped, body]
  | cons c ptr ih =>
      rw [List.length_cons] at room
      rw [dumpLoop]
      by_cases ends : isText = true ∧ c = 0
      · rw [if_pos ends, dumped_cons_of_ends ends]
        exact congrArg some (List.append_nil buf).symm
      · rw [if_neg ends, dumped_cons ends, body_cons]
        split
        · next special =>
          have written : putBytes buf (escape c) 5 = some (buf ++ escape c) := if_pos (by omega)
          have length : (buf ++ escape c).length = buf.length + 4 := List.length_append
          simp only [written, Option.bind_eq_bind, Option.bind_some]
          rw [ih (by omega), List.append_assoc]
        · next plain =>
          have written : putBytes buf [c] 1 = some (buf ++ [c]) := if_pos (by omega)
          have length : (buf ++ [c]).length = buf.length + 1 := List.length_append
          simp only [written, Option.bind_eq_bind, Option.bind_some]
          rw [ih (by omega), List.append_assoc]

/-- The line that is written for a token, if it has a length in range. -/
def dumpedLine (isText : Bool) (ptr : Token) : List UInt8 :=
  if ptr.length < minAutoExtra ∨ maxAutoExtra < ptr.length then []
  else quotedLine (body (dumped isText ptr))

theorem tokencapDump_eq (file : List UInt8) (ptr : Token) (isText : Bool) :
    tokencapDump (some file) ptr isText = some (some (file ++ dumpedLine isText ptr)) := by
  unfold tokencapDump dumpedLine
  dsimp only
  split
  · rw [List.append_nil]
  · next inRange =>
    have long : ptr.length ≤ 32 := by
      simp only [minAutoExtra, maxAutoExtra, not_or] at inRange
      omega
    have size : bufSize = 129 := rfl
    have short := length_dumped_le isText ptr
    have written := length_body_le (dumped isText ptr)
    have loop : dumpLoop isText [] ptr = some (body (dumped isText ptr)) :=
      dumpLoop_eq isText (by rw [List.length_nil, size]; omega)
    have ended : putBytes (body (dumped isText ptr)) [] 1 = some (body (dumped isText ptr)) := by
      rw [putBytes, if_pos (by rw [size]; omega), List.append_nil]
    simp only [loop, ended, Option.bind_eq_bind, Option.bind_some]
    simp [quotedLine]

/-! ## What is read back -/

/-- The token that a dump adds to the dictionary, unless its line is left out or empty. -/
def captured (isText : Bool) (ptr : Token) : Option Token :=
  if ptr.length < minAutoExtra ∨ maxAutoExtra < ptr.length ∨ dumped isText ptr = [] then none
  else some (dumped isText ptr)

theorem fileLines_dumpedLine (isText : Bool) (ptr : Token) (file : List UInt8)
    (atoi : List UInt8 → Int) (dictLevel : Int) :
    (fileLines (dumpedLine isText ptr ++ file)).filterMap (LoadExtras.lineToken atoi dictLevel) =
      (captured isText ptr).toList ++
        (fileLines file).filterMap (LoadExtras.lineToken atoi dictLevel) := by
  unfold dumpedLine captured
  by_cases outside : ptr.length < minAutoExtra ∨ maxAutoExtra < ptr.length
  · rw [if_pos outside, if_pos (by tauto)]
    rfl
  · have long : ptr.length ≤ 32 := by
      simp only [minAutoExtra, maxAutoExtra, not_or] at outside
      omega
    have short := length_dumped_le isText ptr
    have written := length_body_le (dumped isText ptr)
    have small : ¬ maxDictFile < (dumped isText ptr).length := by
      simp only [maxDictFile]
      omega
    have print := body_isPrint (dumped isText ptr)
    rw [if_neg outside, fileLines_quotedLine print (by rw [maxLine]; omega),
      List.filterMap_cons, lineToken_quotedLine print, unescape_body, if_neg small]
    by_cases empty : dumped isText ptr = []
    · rw [if_pos ((body_eq_nil_iff _).mpr empty), if_pos (.inr (.inr empty))]
      rfl
    · rw [if_neg fun none => empty ((body_eq_nil_iff _).mp none), if_neg (by tauto)]
      rfl

/-! ## Runs -/

structure Dump where
  ptr : Token
  isText : Bool

def dumpAll (outFile : Option (List UInt8)) (dumps : List Dump) :
    Option (Option (List UInt8)) :=
  dumps.foldlM (fun outFile dump => tokencapDump outFile dump.ptr dump.isText) outFile

theorem dumpAll_eq (file : List UInt8) (dumps : List Dump) :
    dumpAll (some file) dumps =
      some (some (file ++ dumps.flatMap fun dump => dumpedLine dump.isText dump.ptr)) := by
  induction dumps generalizing file with
  | nil => simp [dumpAll]
  | cons dump dumps ih =>
      rw [dumpAll, List.foldlM_cons, tokencapDump_eq, Option.bind_eq_bind, Option.bind_some]
      exact (ih _).trans (by rw [List.flatMap_cons, List.append_assoc])

theorem filterMap_fileLines (dumps : List Dump) (atoi : List UInt8 → Int) (dictLevel : Int) :
    (fileLines (dumps.flatMap fun dump => dumpedLine dump.isText dump.ptr)).filterMap
        (LoadExtras.lineToken atoi dictLevel) =
      dumps.filterMap fun dump => captured dump.isText dump.ptr := by
  induction dumps with
  | nil =>
      rw [List.flatMap_nil, fileLines, dif_pos rfl]
      rfl
  | cons dump dumps ih =>
      rw [List.flatMap_cons, fileLines_dumpedLine, ih, List.filterMap_cons]
      cases captured dump.isText dump.ptr with
      | none => rfl
      | some token => rfl

/-- No dump of a run leaves the line buffer, and the dictionary that they write holds exactly the
tokens of at least one byte. -/
theorem dumpAll_roundTrip (dumps : List Dump) :
    ∃ file, dumpAll (some []) dumps = some (some file) ∧
      ∀ (atoi : List UInt8 → Int) (extras : List Token) (dictLevel : Int),
        LoadExtras.loadExtrasFile atoi extras dictLevel file =
          some (extras ++ dumps.filterMap fun dump => captured dump.isText dump.ptr) := by
  refine ⟨_, dumpAll_eq [] dumps, fun atoi extras dictLevel => ?_⟩
  rw [LoadExtras.loadExtrasFile_eq, List.nil_append, filterMap_fileLines]

/-- A text with a quote, up to its NUL, and three bytes of which two are written as escapes. -/
example : captured true [0x61, 0x22, 0x00, 0x62] = some [0x61, 0x22] ∧
    captured false [0xff, 0x00, 0x23] = some [0xff, 0x00, 0x23] := by decide

end SbFuzz.Utils.Tokencap
