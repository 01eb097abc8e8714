import SbFuzz.Memory.Bytes

/-! Logs in a fixed area: what counts lies below a mark, a writer fills cells above the mark and
then moves it, and may stop after any of these writes. -/

set_option autoImplicit false

namespace SbFuzz.Systems

structure Area (Cell : Type) where
  cells : List Cell
  used : Nat

namespace Area

variable {Cell : Type}

inductive Write (Cell : Type) where
  | put (i : Nat) (values : List Cell)
  | commit (used : Nat)

def overwrite (cells : List Cell) (i : Nat) (values : List Cell) : List Cell :=
  cells.take i ++ values ++ cells.drop (i + values.length)

def perform (area : Area Cell) : Write Cell → Area Cell
  | .put i values => { area with cells := overwrite area.cells i values }
  | .commit used => { area with used := used }

def performAll (area : Area Cell) (writes : List (Write Cell)) : Area Cell :=
  writes.foldl perform area

theorem performAll_append (area : Area Cell) (first second : List (Write Cell)) :
    area.performAll (first ++ second) = (area.performAll first).performAll second :=
  List.foldl_append

def puts (i : Nat) : List (List Cell) → List (Write Cell)
  | [] => []
  | part :: parts => .put i part :: puts (i + part.length) parts

/-- What is put counts from the last write on. -/
def appending (used : Nat) (parts : List (List Cell)) : List (Write Cell) :=
  puts used parts ++ [.commit (used + parts.flatten.length)]

theorem length_puts (i : Nat) (parts : List (List Cell)) : (puts i parts).length = parts.length := by
  induction parts generalizing i with
  | nil => rfl
  | cons part parts ih => rw [puts, List.length_cons, ih, List.length_cons]

@[simp] theorem length_appending (used : Nat) (parts : List (List Cell)) :
    (appending used parts).length = parts.length + 1 := by
  rw [appending, List.length_append, length_puts, List.length_singleton]

theorem take_puts (i k : Nat) (parts : List (List Cell)) :
    (puts i parts).take k = puts i (parts.take k) := by
  induction parts generalizing i k with
  | nil => rw [puts, List.take_nil, List.take_nil, puts]
  | cons part parts ih =>
      cases k with
      | zero => rfl
      | succ k => rw [puts, List.take_succ_cons, List.take_succ_cons, ih, puts]

structure Holds (area : Area Cell) (capacity : Nat) (content : List Cell) : Prop where
  length : area.cells.length = capacity
  used : area.used = content.length
  stored : ∃ rest, area.cells = content ++ rest

variable {area : Area Cell} {capacity : Nat} {content : List Cell}

theorem Holds.fits (holds : area.Holds capacity content) : content.length ≤ capacity := by
  obtain ⟨rest, stored⟩ := holds.stored
  rw [← holds.length, stored, List.length_append]
  exact Nat.le_add_right _ _

theorem overwrite_append (written above values : List Cell) :
    overwrite (content ++ written ++ above) (content.length + written.length) values =
      content ++ (written ++ values) ++ above.drop values.length := by
  rw [overwrite, ← List.length_append, List.take_left, List.drop_append, List.append_assoc]
  simp

theorem performAll_puts {cells : List Cell} (used : Nat) (parts : List (List Cell))
    (written above : List Cell) (stored : cells = content ++ written ++ above) :
    ({ cells := cells, used := used } : Area Cell).performAll
        (puts (content.length + written.length) parts) =
      { cells := content ++ (written ++ parts.flatten) ++ above.drop parts.flatten.length,
        used := used } := by
  induction parts generalizing cells written above with
  | nil => simp [puts, performAll, stored]
  | cons part parts ih =>
      have next := ih (written ++ part) (above.drop part.length) rfl
      rw [List.length_append, ← Nat.add_assoc] at next
      rw [puts, performAll, List.foldl_cons, perform, stored, overwrite_append]
      rw [performAll] at next
      rw [next, List.flatten_cons, List.append_assoc written, List.drop_drop, List.length_append]

/-- A writer that stops before the mark is moved has appended nothing, one that stops after it
everything. -/
theorem Holds.appending (holds : area.Holds capacity content) (parts : List (List Cell))
    (fits : content.length + parts.flatten.length ≤ capacity) (k : Nat) :
    (area.performAll ((Area.appending area.used parts).take k)).Holds capacity
      (if parts.length < k then content ++ parts.flatten else content) := by
  obtain ⟨rest, stored⟩ := holds.stored
  have length := holds.length
  rw [stored, List.length_append] at length
  have room : parts.flatten.length ≤ rest.length := by omega
  have start : area.cells = content ++ [] ++ rest := by rw [List.append_nil, stored]
  rw [Area.appending, List.take_append, length_puts, take_puts, performAll_append, holds.used]
  split
  · next all =>
    have last : (1 : Nat) ≤ k - parts.length := Nat.le_sub_of_add_le' all
    have puts := performAll_puts area.used parts [] rest start
    rw [List.length_nil, Nat.add_zero] at puts
    rw [List.take_of_length_le (Nat.le_of_lt all),
      List.take_of_length_le (show ([.commit _] : List (Write Cell)).length ≤ _ from last), puts]
    constructor
    · simp only [performAll, List.foldl_cons, List.foldl_nil, perform, List.length_append,
        List.length_drop, List.nil_append]
      omega
    · simp [performAll, perform]
    · exact ⟨rest.drop parts.flatten.length, rfl⟩
  · next before =>
    have less : (parts.take k).flatten.length ≤ parts.flatten.length := by
      have whole := congrArg (fun parts => parts.flatten.length) (List.take_append_drop k parts)
      simp only [List.flatten_append, List.length_append] at whole
      omega
    have puts := performAll_puts area.used (parts.take k) [] rest start
    rw [List.length_nil, Nat.add_zero] at puts
    rw [Nat.sub_eq_zero_of_le (Nat.le_of_not_lt before), puts]
    constructor
    · simp only [List.take_zero, performAll, List.foldl_nil, List.length_append,
        List.length_drop, List.nil_append]
      omega
    · exact holds.used
    · exact ⟨(parts.take k).flatten ++ rest.drop (parts.take k).flatten.length, by
        simp [performAll]⟩

theorem Holds.clear (holds : area.Holds capacity content) :
    (area.perform (.commit 0)).Holds capacity [] where
  length := holds.length
  used := rfl
  stored := ⟨area.cells, rfl⟩

end Area

/-! ## Frames -/

def littleEndian : Nat → Nat → List UInt8
  | 0, _ => []
  | n + 1, value => .ofNat value :: littleEndian n (value / 2 ^ 8)

@[simp] theorem length_littleEndian (n value : Nat) : (littleEndian n value).length = n := by
  induction n generalizing value with
  | zero => rfl
  | succ n ih => rw [littleEndian, List.length_cons, ih]

theorem load_cons (n i : Nat) (byte : UInt8) (bytes : List UInt8) :
    Memory.load n (byte :: bytes) (i + 1) = Memory.load n bytes i := by
  induction n generalizing i with
  | zero => rfl
  | succ n ih => rw [Memory.load, Memory.load, ih, List.getD_cons_succ]

theorem load_append (n : Nat) (before bytes : List UInt8) :
    Memory.load n (before ++ bytes) before.length = Memory.load n bytes 0 := by
  induction before with
  | nil => rfl
  | cons byte before ih => rw [List.cons_append, List.length_cons, load_cons, ih]

theorem load_littleEndian (n value : Nat) (after : List UInt8) :
    Memory.load n (littleEndian n value ++ after) 0 = value % 2 ^ (8 * n) := by
  induction n generalizing value with
  | zero => simp [Memory.load, Nat.mod_one]
  | succ n ih =>
      have word : 2 ^ (8 * (n + 1)) = 2 ^ 8 * 2 ^ (8 * n) := by
        rw [← Nat.pow_add]
        congr 1
        omega
      rw [littleEndian, List.cons_append, Memory.load, load_cons, ih, List.getD_cons_zero,
        UInt8.toNat_ofNat', word, Nat.mod_mul]

/-- A payload behind a word of `n` bytes with its length. -/
def frame (n : Nat) (payload : List UInt8) : List UInt8 :=
  littleEndian n payload.length ++ payload

theorem length_frame (n : Nat) (payload : List UInt8) :
    (frame n payload).length = n + payload.length := by
  rw [frame, List.length_append, length_littleEndian]

theorem load_frame {n : Nat} {payload : List UInt8} (fits : payload.length < 2 ^ (8 * n))
    (before after : List UInt8) :
    Memory.load n (before ++ (frame n payload ++ after)) before.length = payload.length := by
  rw [load_append, frame, List.append_assoc, load_littleEndian, Nat.mod_eq_of_lt fits]

theorem payload_frame (n : Nat) (payload before after : List UInt8) :
    ((before ++ (frame n payload ++ after)).drop (before.length + n)).take payload.length =
      payload := by
  rw [List.drop_append, List.drop_eq_nil_of_le (Nat.le_add_right _ _), List.nil_append,
    Nat.add_sub_cancel_left, frame, List.append_assoc,
    List.drop_left' (length_littleEndian n payload.length), List.take_left]

/-- The length is put by one write and counts before the payload does, which is put byte by
byte. -/
def framing (n used : Nat) (payload : List UInt8) : List (Area.Write UInt8) :=
  Area.appending used [littleEndian n payload.length] ++
    Area.appending (used + n) (payload.map fun byte => [byte])

@[simp] theorem length_framing (n used : Nat) (payload : List UInt8) :
    (framing n used payload).length = payload.length + 3 := by
  rw [framing, List.length_append, Area.length_appending, Area.length_appending,
    List.length_map, List.length_singleton]
  omega

/-- A writer of a frame that stops leaves all of it or at most its length. -/
theorem Area.Holds.framing {area : Area UInt8} {capacity : Nat} {content : List UInt8}
    (holds : area.Holds capacity content) {n : Nat} {payload : List UInt8}
    (fits : content.length + (n + payload.length) ≤ capacity) (k : Nat) :
    ∃ torn, (area.performAll ((framing n area.used payload).take k)).Holds capacity
        (content ++ torn) ∧
      if (framing n area.used payload).length ≤ k then torn = frame n payload
      else torn.length ≤ n := by
  have header := holds.appending [littleEndian n payload.length]
    (by simp only [List.flatten_singleton, length_littleEndian]; omega) k
  rw [length_framing, Systems.framing, List.take_append, Area.performAll_append,
    Area.length_appending]
  rw [List.length_singleton] at header ⊢
  by_cases counted : 1 < k
  · rw [if_pos counted, List.flatten_singleton] at header
    have mark := header.used
    rw [List.length_append, length_littleEndian, ← holds.used] at mark
    have bytes : (payload.map fun byte => [byte]).flatten = payload := by
      rw [← List.flatMap_def]
      exact List.flatMap_singleton' payload
    have whole := header.appending (payload.map fun byte => [byte])
      (by rw [bytes, List.length_append, length_littleEndian]; omega) (k - (1 + 1))
    rw [mark, bytes, List.length_map] at whole
    by_cases all : payload.length + 3 ≤ k
    · rw [if_pos (by omega), List.append_assoc] at whole
      exact ⟨frame n payload, whole, by rw [if_pos all]⟩
    · rw [if_neg (by omega)] at whole
      exact ⟨littleEndian n payload.length, whole, by rw [if_neg all, length_littleEndian]⟩
  · rw [if_neg counted] at header
    rw [Nat.sub_eq_zero_of_le (by omega)]
    exact ⟨[], by rw [List.append_nil]; exact header,
      by rw [if_neg (by omega)]; exact Nat.zero_le n⟩

end SbFuzz.Systems
