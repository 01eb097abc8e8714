import SbFuzz.Fuzzer.QuotedLines

/-! The lines that the dict2file pass writes, read back by the loader of
dictionaries. -/

set_option autoImplicit false

namespace SbFuzz.Instrumentation

open SbFuzz.Fuzzer

/-! ## The writer -/

def hexDigit (value : UInt8) : UInt8 := if value < 10 then 0x30 + value else 0x61 + (value - 10)

/-- `sprintf(tmp, "\\x%02x", c)`. -/
def escape (c : UInt8) : List UInt8 := [backslash, 0x78, hexDigit (c >>> 4), hexDigit (c &&& 15)]

/-- The byte is written as it is. -/
def isPlain (c : UInt8) : Bool := isPrint c && c ≠ backslash && c ≠ quote

/-- The loop of `dict2file` from index `i` on. -/
def dict2fileFrom (len i : Nat) (binary : Bool) : List UInt8 → List UInt8
  | [] => []
  | c :: mem =>
      if isPlain c then c :: dict2fileFrom len (i + 1) binary mem
      else if i + 1 ≠ len ∨ c ≠ 0 ∨ binary ∨ len = 4 ∨ len = 8 then
        escape c ++ dict2fileFrom len (i + 1) true mem
      else dict2fileFrom len (i + 1) true mem

def dict2file (mem : Token) : List UInt8 :=
  quote :: dict2fileFrom mem.length 0 false mem ++ [quote, newline]

/-! ## Bytes -/

theorem hexDigit_isXdigit (c : UInt8) :
    isXdigit (hexDigit (c >>> 4)) = true ∧ isXdigit (hexDigit (c &&& 15)) = true := by
  revert c
  exact forall_byte (by decide +kernel)

theorem hexValue_hexDigit (c : UInt8) :
    hexValue (hexDigit (c >>> 4)) <<< 4 ||| hexValue (hexDigit (c &&& 15)) = c := by
  revert c
  exact forall_byte (by decide +kernel)

theorem hexDigit_isPrint (c : UInt8) :
    isPrint (hexDigit (c >>> 4)) = true ∧ isPrint (hexDigit (c &&& 15)) = true := by
  revert c
  exact forall_byte (by decide +kernel)

theorem escape_isPrint (c : UInt8) : ∀ d ∈ escape c, isPrint d = true := by
  have start : isPrint backslash = true ∧ isPrint 0x78 = true := by decide
  simp [escape, start, hexDigit_isPrint]

theorem isPlain_iff (c : UInt8) :
    isPlain c = true ↔ isPrint c = true ∧ c ≠ backslash ∧ c ≠ quote := by
  simp [isPlain, and_assoc]

/-! ## Escapes -/

theorem unescape_plain {c : UInt8} (plain : isPlain c = true) (rest : List UInt8) :
    unescape (c :: rest) = c :: unescape rest := by
  obtain ⟨print, notEscape, _⟩ := (isPlain_iff c).mp plain
  rw [unescape.eq_def]
  simp only [if_neg (isPrint_spec c print).2.2, if_neg notEscape]

theorem unescape_escape (c : UInt8) (rest : List UInt8) :
    unescape (escape c ++ rest) = c :: unescape rest := by
  obtain ⟨first, second⟩ := hexDigit_isXdigit c
  rw [escape, List.cons_append, unescape.eq_def]
  simp only [List.cons_append, List.nil_append]
  rw [if_neg (by decide), if_pos trivial, if_neg (by decide), if_pos ⟨trivial, first, second⟩,
    hexValue_hexDigit]

/-! ## The body of a line -/

/-- Plain bytes and a NUL behind them. -/
def endsInNul : List UInt8 → Bool
  | [] => false
  | [c] => c = 0
  | c :: mem => isPlain c && endsInNul mem

theorem dict2fileFrom_isPrint (len i : Nat) (binary : Bool) (mem : List UInt8) :
    ∀ d ∈ dict2fileFrom len i binary mem, isPrint d = true := by
  induction mem generalizing i binary with
  | nil => simp [dict2fileFrom]
  | cons c mem ih =>
      intro d member
      rw [dict2fileFrom] at member
      split at member
      · next plain =>
        rcases List.mem_cons.mp member with rfl | later
        · exact ((isPlain_iff d).mp plain).1
        · exact ih (i + 1) binary d later
      · split at member
        · rcases List.mem_append.mp member with here | later
          · exact escape_isPrint c d here
          · exact ih (i + 1) true d later
        · exact ih (i + 1) true d member

theorem dict2fileFrom_length (len i : Nat) (binary : Bool) (mem : List UInt8) :
    (dict2fileFrom len i binary mem).length ≤ 4 * mem.length := by
  induction mem generalizing i binary with
  | nil => simp [dict2fileFrom]
  | cons c mem ih =>
      have same := ih (i + 1) binary
      have changed := ih (i + 1) true
      rw [dict2fileFrom, List.length_cons]
      split
      · rw [List.length_cons]
        omega
      · split
        · rw [List.length_append]
          simp only [escape, List.length_cons, List.length_nil]
          omega
        · omega

/-- Reading undoes writing but for a trailing NUL, by induction on the bytes
that are still to be written. -/
theorem unescape_dict2fileFrom {len i : Nat} (binary : Bool) {mem : List UInt8}
    (whole : i + mem.length = len) : unescape (dict2fileFrom len i binary mem) =
      if binary = false ∧ len ≠ 4 ∧ len ≠ 8 ∧ endsInNul mem = true then mem.dropLast else mem := by
  induction mem generalizing i binary with
  | nil =>
      rw [dict2fileFrom, unescape]
      simp
  | cons c mem ih =>
      have rest : i + 1 + mem.length = len := by
        rw [List.length_cons] at whole
        omega
      rw [dict2fileFrom]
      split
      · next plain =>
        rw [unescape_plain plain, ih binary rest]
        cases mem with
        | nil =>
            have nonzero := (isPrint_spec c ((isPlain_iff c).mp plain).1).1
            simp [endsInNul, nonzero]
        | cons d mem =>
            have same : endsInNul (c :: d :: mem) = endsInNul (d :: mem) := by
              simp [endsInNul, plain]
            rw [same]
            split
            · rw [List.dropLast_cons_cons]
            · rfl
      · next special =>
        split
        · next written =>
          have kept : ¬ (binary = false ∧ len ≠ 4 ∧ len ≠ 8 ∧ endsInNul (c :: mem) = true) := by
            rintro ⟨text, notFour, notEight, ends⟩
            cases mem with
            | nil =>
                have zero : c = 0 := by simpa [endsInNul] using ends
                have last : i + 1 = len := rest
                rcases written with more | other | isBinary | four | eight
                · exact more last
                · exact other zero
                · cases text.symm.trans isBinary
                · exact notFour four
                · exact notEight eight
            | cons d mem => simp [endsInNul, special] at ends
          rw [unescape_escape, ih true rest, if_neg kept, if_neg fun all => by cases all.1]
        · next dropped =>
          simp only [not_or, not_not] at dropped
          obtain ⟨last, zero, text, notFour, notEight⟩ := dropped
          have none : mem = [] := List.length_eq_zero_iff.mp (by omega)
          subst none
          have text : binary = false := by simpa using text
          rw [dict2fileFrom, unescape, if_pos ⟨text, notFour, notEight, by simp [endsInNul, zero]⟩]
          rfl

/-! ## Lines -/

theorem fileLines_dict2file {mem : Token} (long : mem.length ≤ 32) (file : List UInt8) :
    fileLines (dict2file mem ++ file) = dict2file mem :: fileLines file := by
  have size := dict2fileFrom_length mem.length 0 false mem
  exact fileLines_quotedLine (dict2fileFrom_isPrint mem.length 0 false mem)
    (by simp only [maxLine]; omega) file

theorem parseLine_dict2file (dictLevel : Int) (mem : Token) :
    parseLine dictLevel (dict2file mem) =
      if dict2fileFrom mem.length 0 false mem = [] then none
      else if maxDictFile < (unescape (dict2fileFrom mem.length 0 false mem)).length then none
      else some (unescape (dict2fileFrom mem.length 0 false mem)) := by
  rw [LoadExtras.quoted_atoi]
  exact lineToken_quotedLine (dict2fileFrom_isPrint mem.length 0 false mem) _ _

/-! ## The round trip -/

theorem dict2fileFrom_ne_nil {mem : Token} (short : 1 ≤ mem.length) (named : mem ≠ [0]) :
    dict2fileFrom mem.length 0 false mem ≠ [] := by
  cases mem with
  | nil => simp at short
  | cons c mem =>
      rw [dict2fileFrom]
      split
      · simp
      · split
        · simp [escape]
        · next dropped =>
          simp only [not_or, not_not, List.length_cons] at dropped
          have none : mem = [] := List.length_eq_zero_iff.mp (by omega)
          exact absurd (by rw [none, dropped.2.1]) named

theorem endsInNul_spec {mem : Token} (ends : endsInNul mem = true) :
    mem.dropLast ++ [0] = mem ∧ ∀ c ∈ mem.dropLast, isPlain c = true := by
  induction mem with
  | nil => cases ends
  | cons c mem ih =>
      cases mem with
      | nil =>
          have zero : c = 0 := by simpa [endsInNul] using ends
          simp [zero]
      | cons d mem =>
          simp only [endsInNul, Bool.and_eq_true] at ends
          obtain ⟨same, plain⟩ := ih ends.2
          rw [List.dropLast_cons_cons, List.cons_append, same]
          refine ⟨rfl, fun e member => ?_⟩
          rcases List.mem_cons.mp member with rfl | later
          · exact ends.1
          · exact plain e later

/-- The loader reads the line of a token as this token, with all its bytes, or
without the NUL behind bytes that are all printable and no quotes or
backslashes. -/
theorem dict2file_roundTrip {mem : Token} (short : 1 ≤ mem.length) (long : mem.length ≤ 32)
    (named : mem ≠ [0]) (extras : List Token) (dictLevel : Int) (file : List UInt8) :
    ∃ token, loadExtrasFile extras dictLevel (dict2file mem ++ file) =
        loadExtrasFile (extras ++ [token]) dictLevel file ∧
      (token = mem ∨ token ++ [0] = mem ∧ ∀ c ∈ token, isPlain c = true) := by
  have reads := unescape_dict2fileFrom false (Nat.zero_add mem.length)
  refine ⟨unescape (dict2fileFrom mem.length 0 false mem), ?_, ?_⟩
  · have small : ¬ maxDictFile < (unescape (dict2fileFrom mem.length 0 false mem)).length := by
      rw [reads]
      split
      · rw [List.length_dropLast, maxDictFile]
        omega
      · rw [maxDictFile]
        omega
    rw [loadExtrasFile, fileLines_dict2file long, List.filterMap_cons, parseLine_dict2file,
      if_neg (dict2fileFrom_ne_nil short named), if_neg small, loadExtrasFile, List.append_assoc]
    rfl
  · rw [reads]
    split
    · next dropped => exact .inr (endsInNul_spec dropped.2.2.2)
    · exact .inl rfl

theorem dict2file_roundTrip_quotes :
    ∃ token, loadExtrasFile [] 0 (dict2file [0x61, 0x22, 0x00, 0xff]) = loadExtrasFile [token] 0 [] ∧
      (token = [0x61, 0x22, 0x00, 0xff] ∨
        token ++ [0] = [0x61, 0x22, 0x00, 0xff] ∧ ∀ c ∈ token, isPlain c = true) := by
  have reads := @dict2file_roundTrip [0x61, 0x22, 0x00, 0xff] (by decide) (by decide)
    (by decide) [] 0 []
  simpa using reads

/-- A single NUL is written as an empty string, which the loader skips. -/
theorem dict2file_loses_nul :
    ¬ ∀ mem : Token, 1 ≤ mem.length → mem.length ≤ 32 →
      ∃ token, loadExtrasFile [] 0 (dict2file mem) = [token] := by
  intro holds
  obtain ⟨token, reads⟩ := holds [0] (by decide) (by decide)
  have skipped : parseLine 0 (dict2file [0]) = none := by
    rw [parseLine_dict2file, if_pos (by decide)]
  have line := @fileLines_dict2file [0] (by decide) []
  rw [List.append_nil] at line
  rw [loadExtrasFile, line, List.filterMap_cons, skipped, fileLines, dif_pos rfl] at reads
  cases reads

end SbFuzz.Instrumentation
