import SbFuzz.Fuzzer.Dictionary
import Mathlib.Data.List.Monad

/-! `deunicode_extras` with its scratch buffer: every token that is a wide string is
found, and no token makes it leave the buffer. -/

set_option autoImplicit false

namespace SbFuzz.Fuzzer.Deunicode

/-! ## The scratch buffer -/

/-- `sizeof(buf)` -/
def bufSize : Nat := 64

/-- `buf[k++] = byte`, of the bytes that are written already. -/
def put (written : Token) (byte : UInt8) : Option Token :=
  if written.length < bufSize then some (written ++ [byte]) else none

/-- The loop over the bytes of a token, of which the ones at some positions are kept. -/
def extract (keep : Nat → Bool) (token : Token) : Option Token :=
  token.zipIdx.foldlM (fun written entry =>
    if keep entry.2 then put written entry.1 else some written) []

/-- As `deunicode`, by way of the buffer. -/
def deunicodeBuf (token : Token) : Option (List Token) :=
  let len := token.length
  if len < 6 ∨ 64 < len ∨ len % 2 ≠ 0 then some []
  else
    let half := len / 2
    let quarter := half / 2
    let z1 := zerosAt token fun j => j % 4 = 2 || j % 4 = 0
    let z2 := zerosAt token fun j => j % 4 = 3 || j % 4 = 1
    let z3 := zerosAt token fun j => j % 4 = 2
    let z4 := zerosAt token fun j => j % 4 = 3
    if (z1 < half ∧ z2 < half) ∨ z1 + z2 = len then some []
    else do
      let wide ←
        if len % 4 = 0 ∧ 12 ≤ len ∧ (z3 = quarter ∨ z4 = quarter) ∧ z1 + z2 = quarter * 3 then do
          let buf ←
            if z4 < quarter then extract (· % 4 = 3) token
            else if z3 < quarter then extract (· % 4 = 2) token
            else if z2 < half then extract (· % 4 = 1) token
            else extract (· % 4 = 0) token
          pure [buf]
        else pure []
      let buf ← if z1 < half then extract (· % 2 = 0) token else extract (· % 2 = 1) token
      pure (wide ++ [buf])

/-- Nothing stands for a buffer that is left. -/
def deunicodeExtrasBuf (qsort : QSort) (extras : List Token) : Option (List Token) :=
  if extras = [] then some extras
  else do
    let all ← extras.foldlM (fun all token => do
      let added ← deunicodeBuf token
      pure (all ++ added)) extras
    pure (qsort.sort all)

theorem foldlM_put (keep : Nat → Bool) (entries : List (UInt8 × Nat)) {written : Token}
    (room : written.length + entries.length ≤ bufSize) :
    entries.foldlM (fun written entry =>
      if keep entry.2 then put written entry.1 else some written) written =
    some (written ++ entries.filterMap fun entry => if keep entry.2 then some entry.1 else none) := by
  induction entries generalizing written with
  | nil => simp
  | cons entry entries ih =>
      rw [List.length_cons] at room
      rw [List.foldlM_cons, List.filterMap_cons]
      by_cases kept : keep entry.2 = true
      · have stored : put written entry.1 = some (written ++ [entry.1]) := if_pos (by omega)
        simp only [kept, if_true, stored, Option.bind_eq_bind, Option.bind_some]
        rw [ih (by rw [List.length_append, List.length_singleton]; omega), List.append_assoc,
          List.singleton_append]
      · simp only [kept, Bool.false_eq_true, if_false, Option.bind_eq_bind, Option.bind_some]
        exact ih (by omega)

theorem extract_eq (n r : Nat) {token : Token} (short : token.length ≤ bufSize) :
    extract (· % n = r) token = some (everyNth token n r) := by
  have stored := @foldlM_put (fun j => decide (j % n = r)) token.zipIdx [] (by simpa using short)
  simpa [extract, everyNth] using stored

/-- The buffer has room for whatever is extracted. -/
theorem deunicodeBuf_eq (token : Token) : deunicodeBuf token = some (deunicode token) := by
  unfold deunicodeBuf deunicode
  dsimp only
  split
  · rfl
  · next some' =>
    have short : token.length ≤ bufSize := by
      unfold bufSize
      omega
    split
    · rfl
    · simp only [extract_eq _ _ short]
      split_ifs <;> rfl

theorem deunicodeExtrasBuf_eq (qsort : QSort) (extras : List Token) :
    deunicodeExtrasBuf qsort extras = some (deunicodeExtras qsort extras) := by
  have loop (all tokens : List Token) :
      tokens.foldlM (fun all token => do
        let added ← deunicodeBuf token
        pure (all ++ added)) all =
      some (tokens.foldl (fun extras token => extras ++ deunicode token) all) := by
    induction tokens generalizing all with
    | nil => rfl
    | cons token tokens ih =>
        rw [List.foldlM_cons, List.foldl_cons, deunicodeBuf_eq]
        exact ih _
  unfold deunicodeExtrasBuf deunicodeExtras
  split
  · rfl
  · rw [loop]
    rfl

/-! ## Wide strings -/

inductive Encoding where
  | utf16le
  | utf16be
  | utf32le
  | utf32be

/-- A character without its zero extension is its low byte. -/
def Encoding.char (encoding : Encoding) (c : UInt8) : List UInt8 :=
  match encoding with
  | .utf16le => [c, 0]
  | .utf16be => [0, c]
  | .utf32le => [c, 0, 0, 0]
  | .utf32be => [0, 0, 0, c]

def Encoding.encode (encoding : Encoding) (string : Token) : Token := string.flatMap encoding.char

section

variable {width : Nat} {char : UInt8 → List UInt8}

/-- Where every character has as many zeros at the positions of interest. -/
theorem zeros_flatMap (p : Nat → Bool) {zeros : Nat} {string : Token}
    (length : ∀ c ∈ string, (char c).length = width)
    (each : ∀ c ∈ string, ∀ m,
      (((char c).zipIdx (width * m)).filter fun (byte, j) => byte = 0 && p j).length = zeros)
    (m : Nat) :
    (((string.flatMap char).zipIdx (width * m)).filter fun (byte, j) => byte = 0 && p j).length =
      zeros * string.length := by
  induction string generalizing m with
  | nil => simp
  | cons c string ih =>
      rw [List.flatMap_cons, List.zipIdx_append, List.filter_append, List.length_append,
        length c List.mem_cons_self, ← Nat.mul_succ, each c List.mem_cons_self,
        ih (fun d member => length d (List.mem_cons_of_mem _ member))
          (fun d member => each d (List.mem_cons_of_mem _ member)), List.length_cons, Nat.mul_succ,
        Nat.add_comm]

/-- Where every character has itself at the positions of interest. -/
theorem filterMap_flatMap (keep : Nat → Bool) {string : Token}
    (length : ∀ c ∈ string, (char c).length = width)
    (each : ∀ c ∈ string, ∀ m, (((char c).zipIdx (width * m)).filterMap
      fun (byte, j) => if keep j then some byte else none) = [c]) (m : Nat) :
    (((string.flatMap char).zipIdx (width * m)).filterMap
      fun (byte, j) => if keep j then some byte else none) = string := by
  induction string generalizing m with
  | nil => simp
  | cons c string ih =>
      rw [List.flatMap_cons, List.zipIdx_append, List.filterMap_append,
        length c List.mem_cons_self, ← Nat.mul_succ, each c List.mem_cons_self,
        ih (fun d member => length d (List.mem_cons_of_mem _ member))
          (fun d member => each d (List.mem_cons_of_mem _ member))]
      rfl

end

/-! ## Detection -/

section

variable {string : Token}

theorem length_encode (encoding : Encoding) (string : Token) :
    (encoding.encode string).length = (encoding.char 0).length * string.length := by
  unfold Encoding.encode
  induction string with
  | nil => rfl
  | cons c string ih =>
      rw [List.flatMap_cons, List.length_append, ih, List.length_cons, Nat.mul_succ, Nat.add_comm]
      cases encoding <;> rfl

theorem zerosAt_encode (encoding : Encoding) (noNul : 0 ∉ string) (p : Nat → Bool) {zeros : Nat}
    (each : ∀ c, c ≠ 0 → ∀ m, (((encoding.char c).zipIdx ((encoding.char 0).length * m)).filter
      fun (byte, j) => byte = 0 && p j).length = zeros) :
    zerosAt (encoding.encode string) p = zeros * string.length := by
  have counted := @zeros_flatMap (encoding.char 0).length encoding.char p zeros string
    (fun c _ => by cases encoding <;> rfl)
    (fun c member => each c fun zero => noNul (zero ▸ member)) 0
  rwa [Nat.mul_zero] at counted

theorem everyNth_encode (encoding : Encoding) (n r : Nat)
    (each : ∀ c m, (((encoding.char c).zipIdx ((encoding.char 0).length * m)).filterMap
      fun (byte, j) => if j % n = r then some byte else none) = [c]) :
    everyNth (encoding.encode string) n r = string := by
  have kept := @filterMap_flatMap (encoding.char 0).length encoding.char
    (fun j => decide (j % n = r)) string (fun c _ => by cases encoding <;> rfl)
    (fun c _ m => by simpa using each c m) 0
  rw [Nat.mul_zero] at kept
  unfold everyNth Encoding.encode
  simpa using kept

/-- The string is among what is extracted from its encodings, which are long enough. -/
theorem mem_deunicode (encoding : Encoding) (noNul : 0 ∉ string) (long : 3 ≤ string.length)
    (fits : (encoding.encode string).length ≤ 64) :
    string ∈ deunicode (encoding.encode string) := by
  have length := length_encode encoding string
  have even (m : Nat) : (2 * m % 4 = 2 ∨ 2 * m % 4 = 0) ∧ ¬ (2 * m % 4 = 3 ∨ 2 * m % 4 = 1) := by
    omega
  have odd (m : Nat) : ((2 * m + 1) % 4 = 3 ∨ (2 * m + 1) % 4 = 1) ∧
      ¬ ((2 * m + 1) % 4 = 2 ∨ (2 * m + 1) % 4 = 0) := by omega
  unfold deunicode
  dsimp only
  cases encoding with
  | utf16le =>
      change _ = 2 * string.length at length
      have z1 := @zerosAt_encode string .utf16le noNul (fun j => j % 4 = 2 || j % 4 = 0) 0
        fun c nonzero m => by simp [Encoding.char, nonzero, odd]
      have z2 := @zerosAt_encode string .utf16le noNul (fun j => j % 4 = 3 || j % 4 = 1) 1
        fun c nonzero m => by simp [Encoding.char, nonzero, odd]
      have found := @everyNth_encode string .utf16le 2 0 fun c m => by simp [Encoding.char]
      rw [z1, z2, if_neg (by omega), if_neg (by omega)]
      refine List.mem_append_right _ ?_
      rw [if_pos (by omega), found]
      exact List.mem_singleton_self _
  | utf16be =>
      change _ = 2 * string.length at length
      have z1 := @zerosAt_encode string .utf16be noNul (fun j => j % 4 = 2 || j % 4 = 0) 1
        fun c nonzero m => by simp [Encoding.char, nonzero, even]
      have z2 := @zerosAt_encode string .utf16be noNul (fun j => j % 4 = 3 || j % 4 = 1) 0
        fun c nonzero m => by simp [Encoding.char, nonzero, even]
      have found := @everyNth_encode string .utf16be 2 1 fun c m => by simp [Encoding.char]
      rw [z1, z2, if_neg (by omega), if_neg (by omega)]
      refine List.mem_append_right _ ?_
      rw [if_neg (by omega), found]
      exact List.mem_singleton_self _
  | utf32le =>
      change _ = 4 * string.length at length
      have z1 := @zerosAt_encode string .utf32le noNul (fun j => j % 4 = 2 || j % 4 = 0) 1
        fun c nonzero m => by simp [Encoding.char, nonzero, Nat.add_assoc]
      have z2 := @zerosAt_encode string .utf32le noNul (fun j => j % 4 = 3 || j % 4 = 1) 2
        fun c nonzero m => by simp [Encoding.char, nonzero, Nat.add_assoc]
      have z3 := @zerosAt_encode string .utf32le noNul (fun j => j % 4 = 2) 1
        fun c nonzero m => by simp [Encoding.char, nonzero, Nat.add_assoc]
      have z4 := @zerosAt_encode string .utf32le noNul (fun j => j % 4 = 3) 1
        fun c nonzero m => by simp [Encoding.char, nonzero, Nat.add_assoc]
      have found := @everyNth_encode string .utf32le 4 0
        fun c m => by simp [Encoding.char, Nat.add_assoc]
      rw [z1, z2, z3, z4, if_neg (by omega), if_neg (by omega)]
      refine List.mem_append_left _ ?_
      rw [if_pos (by omega), if_neg (by omega), if_neg (by omega), if_neg (by omega), found]
      exact List.mem_singleton_self _
  | utf32be =>
      change _ = 4 * string.length at length
      have z1 := @zerosAt_encode string .utf32be noNul (fun j => j % 4 = 2 || j % 4 = 0) 2
        fun c nonzero m => by simp [Encoding.char, nonzero, Nat.add_assoc]
      have z2 := @zerosAt_encode string .utf32be noNul (fun j => j % 4 = 3 || j % 4 = 1) 1
        fun c nonzero m => by simp [Encoding.char, nonzero, Nat.add_assoc]
      have z3 := @zerosAt_encode string .utf32be noNul (fun j => j % 4 = 2) 1
        fun c nonzero m => by simp [Encoding.char, nonzero, Nat.add_assoc]
      have z4 := @zerosAt_encode string .utf32be noNul (fun j => j % 4 = 3) 0
        fun c nonzero m => by simp [Encoding.char, nonzero, Nat.add_assoc]
      have found := @everyNth_encode string .utf32be 4 3
        fun c m => by simp [Encoding.char, Nat.add_assoc]
      rw [z1, z2, z3, z4, if_neg (by omega), if_neg (by omega)]
      refine List.mem_append_left _ ?_
      rw [if_pos (by omega), if_pos (by omega), found]
      exact List.mem_singleton_self _

/-! ## The dictionary -/

theorem mem_deunicodeExtras {qsort : QSort} {extras : List Token} {token : Token}
    (member : token ∈ extras) (found : string ∈ deunicode token) :
    string ∈ deunicodeExtras qsort extras := by
  have loop (all tokens : List Token) (here : string ∈ all ∨ token ∈ tokens) :
      string ∈ tokens.foldl (fun extras token => extras ++ deunicode token) all := by
    induction tokens generalizing all with
    | nil => exact here.resolve_right List.not_mem_nil
    | cons head tokens ih =>
        rw [List.foldl_cons]
        refine ih _ ?_
        rcases here with old | there
        · exact .inl (List.mem_append_left _ old)
        · rcases List.mem_cons.mp there with rfl | later
          · exact .inl (List.mem_append_right _ found)
          · exact .inr later
  unfold deunicodeExtras
  rw [if_neg (List.ne_nil_of_mem member)]
  exact (qsort.perm _).mem_iff.mpr (loop extras extras (.inr member))

end

/-- For any dictionary the scratch buffer has room, and every string whose encoding has up to 64
bytes is in the dictionary next to it. -/
theorem deunicodeExtras_finds (qsort : QSort) (extras : List Token) :
    ∃ after, deunicodeExtrasBuf qsort extras = some after ∧
      ∀ (encoding : Encoding) (string : Token), 3 ≤ string.length → 0 ∉ string →
        encoding.encode string ∈ extras → 6 ≤ (encoding.encode string).length →
        (encoding.encode string).length ≤ 64 → string ∈ after := by
  refine ⟨_, deunicodeExtrasBuf_eq qsort extras, ?_⟩
  intro encoding string long noNul member _ fits
  exact mem_deunicodeExtras member (mem_deunicode encoding noNul long fits)

end SbFuzz.Fuzzer.Deunicode
