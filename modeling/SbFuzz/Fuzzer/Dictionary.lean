import Mathlib.Data.List.Basic
import Mathlib.Data.Int.Order.Basic

/-! Dictionaries: the file format, the array of user tokens, and what is done to
it before and while it is used. -/

set_option autoImplicit false

namespace SbFuzz.Fuzzer

/-- `struct extra_data`: the bytes of a token, whose number is `len`. -/
abbrev Token := List UInt8

def maxDictFile : Nat := 128

def maxLine : Nat := 8192

/-! ## Characters of the C locale -/

def quote : UInt8 := 0x22

def backslash : UInt8 := 0x5c

def newline : UInt8 := 0x0a

def isSpace (c : UInt8) : Bool := c = 0x20 || (0x09 ≤ c && c ≤ 0x0d)

def isDigit (c : UInt8) : Bool := 0x30 ≤ c && c ≤ 0x39

def isAlpha (c : UInt8) : Bool := (0x41 ≤ c && c ≤ 0x5a) || (0x61 ≤ c && c ≤ 0x7a)

def isAlnum (c : UInt8) : Bool := isAlpha c || isDigit c

def isXdigit (c : UInt8) : Bool :=
  isDigit c || (0x41 ≤ c && c ≤ 0x46) || (0x61 ≤ c && c ≤ 0x66)

def isPrint (c : UInt8) : Bool := 0x20 ≤ c && c ≤ 0x7e

/-- `strchr(hexdigits, tolower(c)) - hexdigits`. -/
def hexValue (c : UInt8) : UInt8 :=
  if isDigit c then c - 0x30 else if 0x61 ≤ c then c - 0x61 + 10 else c - 0x41 + 10

def atoiDigits (value : Int) : List UInt8 → Int
  | [] => value
  | c :: rest => if isDigit c then atoiDigits (10 * value + (c - 0x30).toNat) rest else value

/-- `atoi` on numbers that fit. -/
def atoi (string : List UInt8) : Int :=
  match string.dropWhile isSpace with
  | [] => 0
  | c :: rest =>
      if c = 0x2d then -atoiDigits 0 rest
      else if c = 0x2b then atoiDigits 0 rest
      else atoiDigits 0 (c :: rest)

/-! ## A line of a dictionary -/

/-- The loop over the bytes between the quotes. -/
def unescape : List UInt8 → Token
  | [] => []
  | c :: rest =>
      if (1 ≤ c && c ≤ 31) || 128 ≤ c then unescape rest
      else if c = backslash then
        match rest with
        | [] => []
        | d :: rest =>
            if d = backslash ∨ d = quote then d :: unescape rest
            else
              match rest with
              | h :: l :: after =>
                  if d = 0x78 ∧ isXdigit h ∧ isXdigit l then
                    (hexValue h <<< 4 ||| hexValue l) :: unescape after
                  -- not an escape: only the backslash is dropped
                  else unescape (d :: h :: l :: after)
              | [h] => unescape (d :: [h])
              | [] => unescape [d]
      else c :: unescape rest
termination_by string => string.length

def trimRight (string : List UInt8) : List UInt8 :=
  (string.reverse.dropWhile isSpace).reverse

/-- `@number` after the label, and its level. -/
def skipLevel (dictLevel : Int) (string : List UInt8) : Option (List UInt8) :=
  match string with
  | c :: rest =>
      if c = 0x40 then if dictLevel < atoi rest then none else some (rest.dropWhile isDigit)
      else some (c :: rest)
  | [] => some []

/-- `[number]` after that. -/
def skipIndex (string : List UInt8) : List UInt8 :=
  match string with
  | c :: rest =>
      if c = 0x5b then
        match rest.dropWhile isDigit with
        | d :: rest => if d = 0x5d then rest else d :: rest
        | [] => []
      else c :: rest
  | [] => []

/-- A line without the blanks around it. -/
def trimLine (line : List UInt8) : List UInt8 :=
  trimRight ((line.takeWhile (· ≠ 0)).dropWhile isSpace)

/-- From the label to the opening quote. -/
def skipName (dictLevel : Int) (string : List UInt8) : Option (List UInt8) := do
  let string ← skipLevel dictLevel (string.dropWhile fun c => isAlnum c || c = 0x5f)
  match (skipIndex string).dropWhile fun c => isSpace c || c = 0x3d with
  | [] => none
  | c :: rest => if c = quote then some rest else none

/-- What `load_extras_file` makes of a line. -/
def parseLine (dictLevel : Int) (line : List UInt8) : Option Token := do
  let string := trimLine line
  -- empty lines and comments
  if string = [] ∨ string.head? = some 0x23 then none
  else if string.getLast? ≠ some quote then none
  else
    let value ← skipName dictLevel string.dropLast
    if value = [] then none
    else if maxDictFile < (unescape value).length then none
    else some (unescape value)

/-- `fgets` with room for `n` bytes, and the rest of the file. -/
def fgets : Nat → List UInt8 → List UInt8 × List UInt8
  | 0, file => ([], file)
  | _ + 1, [] => ([], [])
  | n + 1, c :: file =>
      if c = newline then ([c], file)
      else ((c :: (fgets n file).1), (fgets n file).2)

theorem fgets_rest_le (n : Nat) (file : List UInt8) : (fgets n file).2.length ≤ file.length := by
  induction n generalizing file with
  | zero => exact Nat.le_refl _
  | succ n ih =>
      cases file with
      | nil => exact Nat.le_refl _
      | cons c file =>
          unfold fgets
          split
          · exact Nat.le_succ _
          · exact Nat.le_trans (ih file) (Nat.le_succ _)

theorem fgets_rest_lt (n : Nat) {file : List UInt8} (more : file ≠ []) :
    (fgets (n + 1) file).2.length < file.length := by
  cases file with
  | nil => exact absurd rfl more
  | cons c file =>
      unfold fgets
      split
      · exact Nat.lt_succ_self _
      · exact Nat.lt_succ_of_le (fgets_rest_le n file)

def fileLines (file : List UInt8) : List (List UInt8) :=
  if more : file = [] then []
  else (fgets (maxLine - 1) file).1 :: fileLines (fgets (maxLine - 1) file).2
termination_by file.length
decreasing_by exact fgets_rest_lt _ more

def loadExtrasFile (extras : List Token) (dictLevel : Int) (file : List UInt8) : List Token :=
  extras ++ (fileLines file).filterMap (parseLine dictLevel)

/-! ## The array of tokens -/

def compareExtrasLen (e1 e2 : Token) : Int := e1.length - e2.length

/-- `qsort` with the comparison by length, which leaves the order of tokens of
one length open. -/
structure QSort where
  sort : List Token → List Token
  perm : ∀ extras, (sort extras).Perm extras
  sorted : ∀ extras, (sort extras).Pairwise fun e1 e2 => compareExtrasLen e1 e2 ≤ 0

/-- A file of one token a line, read up to a level, or a directory with one
token a file. -/
inductive DictSource where
  | file (dictLevel : Int) (content : List UInt8)
  | directory (files : List (List UInt8))

section

variable (qsort : QSort)

def extrasCheckAndSort (extras : List Token) : List Token :=
  if extras = [] then extras else qsort.sort extras

def loadExtras (extras : List Token) : DictSource → List Token
  | .file dictLevel content =>
      extrasCheckAndSort qsort (loadExtrasFile extras dictLevel content)
  | .directory files =>
      extrasCheckAndSort qsort
        (files.foldl (fun extras file =>
          if file = [] then extras
          else if maxDictFile < file.length then extras
          else extras ++ [file]) extras)

/-- The bytes at the indices that leave remainder `r`. -/
def everyNth (token : Token) (n r : Nat) : Token :=
  token.zipIdx.filterMap fun (byte, j) => if j % n = r then some byte else none

def zerosAt (token : Token) (p : Nat → Bool) : Nat :=
  (token.zipIdx.filter fun (byte, j) => byte = 0 && p j).length

/-- The tokens that are added for one that looks like simple unicode. -/
def deunicode (token : Token) : List Token :=
  let len := token.length
  if len < 6 ∨ 64 < len ∨ len % 2 ≠ 0 then []
  else
    let half := len / 2
    let quarter := half / 2
    let z1 := zerosAt token fun j => j % 4 = 2 || j % 4 = 0
    let z2 := zerosAt token fun j => j % 4 = 3 || j % 4 = 1
    let z3 := zerosAt token fun j => j % 4 = 2
    let z4 := zerosAt token fun j => j % 4 = 3
    if (z1 < half ∧ z2 < half) ∨ z1 + z2 = len then []
    else
      let wide :=
        if len % 4 = 0 ∧ 12 ≤ len ∧ (z3 = quarter ∨ z4 = quarter) ∧ z1 + z2 = quarter * 3 then
          if z4 < quarter then [everyNth token 4 3]
          else if z3 < quarter then [everyNth token 4 2]
          else if z2 < half then [everyNth token 4 1]
          else [everyNth token 4 0]
        else []
      wide ++ if z1 < half then [everyNth token 2 0] else [everyNth token 2 1]

def deunicodeExtras (extras : List Token) : List Token :=
  if extras = [] then extras
  else qsort.sort (extras.foldl (fun extras token => extras ++ deunicode token) extras)

/-- The inner loop of `dedup_extras` from `j` on. -/
def dedupAfter (extras : List Token) (i j : Nat) : List Token :=
  if inside : j < extras.length then
    if (extras.getD i []).length ≠ extras[j].length then extras
    else if extras.getD i [] = extras[j] then dedupAfter (extras.eraseIdx j) i j
    else dedupAfter extras i (j + 1)
  else extras
termination_by extras.length - j
decreasing_by
  · rw [List.length_eraseIdx_of_lt inside]
    omega
  · omega

theorem dedupAfter_length_le (extras : List Token) (i j : Nat) :
    (dedupAfter extras i j).length ≤ extras.length := by
  fun_induction dedupAfter extras i j with
  | case1 extras j inside longer => exact Nat.le_refl _
  | case2 extras j inside same copy ih =>
      rw [List.length_eraseIdx_of_lt inside] at ih
      omega
  | case3 extras j inside same other ih => exact ih
  | case4 extras j outside => exact Nat.le_refl _

/-- The outer loop from `i` on. -/
def dedupFrom (extras : List Token) (i : Nat) : List Token :=
  if i + 1 < extras.length then dedupFrom (dedupAfter extras i (i + 1)) (i + 1) else extras
termination_by extras.length - i
decreasing_by
  have shorter := dedupAfter_length_le extras i (i + 1)
  omega

def dedupExtras (extras : List Token) : List Token :=
  if extras.length < 2 then extras else dedupFrom extras 0

/-- The loop of `add_extra` that looks for the token. -/
def alreadyAdded (mem : Token) (found : Bool) : List Token → Bool
  | [] => false
  | extra :: extras =>
      if extra.length = mem.length then
        if extra = mem then true else alreadyAdded mem true extras
      else if found then false
      else alreadyAdded mem found extras

def addExtra (extras : List Token) (mem : Token) : List Token :=
  if alreadyAdded mem false extras then extras
  else if maxDictFile < mem.length then extras
  else qsort.sort (extras ++ [mem])

end

end SbFuzz.Fuzzer
