import SbFuzz.Fuzzer.RedqueenScale
import SbFuzz.Systems.Programs

/-! Executions of redqueen: a patch of the test buffer is run and taken back. -/

set_option autoImplicit false

namespace SbFuzz.Fuzzer.Redqueen

open Systems Systems.Program

/-- The buffers that were executed, the last one first. -/
abbrev History := List (List UInt8)

/-- What the executions do, each after the ones before it. -/
structure Target where
  /-- What `common_fuzz_stuff` returns. -/
  aborts : History → Bool
  /-- Whether it adds to `queued_items + saved_crashes`. -/
  finds : History → Bool

structure TestState where
  buf : List UInt8
  cbuf : List UInt8
  status : UInt8
  hshape : Nat
  executed : History

inductive Stop where
  | outOfFuel
  | aborted

/-- A return of 1 is a stop. -/
abbrev Run := Program TestState Stop

def itsFuzz (target : Target) (buf : List UInt8) : Run Unit := do
  update fun st => { st with executed := buf :: st.executed }
  let st ← look
  if target.aborts st.executed then stop .aborted
  else update fun st => { st with status := if target.finds st.executed then 1 else 2 }

/-- Bytes are written to the buffer, run, kept in `cbuf` if they find something, and the
bytes that were there are written back. -/
def tryBytes (target : Target) (idx : Nat) (bytes : List UInt8) : Run Unit := do
  let before ← look
  update fun st => { st with buf := overwrite st.buf idx bytes }
  let patched ← look
  itsFuzz target patched.buf
  update fun st =>
    { st with
      buf := overwrite st.buf idx ((before.buf.drop idx).take bytes.length)
      cbuf := if st.status = 1 then overwrite st.cbuf idx bytes else st.cbuf }

/-! ## Buffers -/

theorem length_leBytes (n value : Nat) : (leBytes n value).length = n := by
  induction n generalizing value with
  | zero => rfl
  | succ n ih => rw [leBytes, List.length_cons, ih]

theorem overwrite_nil (buf : List UInt8) (idx : Nat) : overwrite buf idx [] = buf := by
  rw [overwrite, List.append_nil]
  exact List.take_append_drop idx buf

theorem overwrite_inside {buf bytes : List UInt8} {idx p : Nat}
    (fits : idx + bytes.length ≤ buf.length) (after : idx ≤ p) (before : p < idx + bytes.length) :
    (overwrite buf idx bytes)[p]? = bytes[p - idx]? := by
  have head : (buf.take idx).length = idx := List.length_take_of_le (by omega)
  rw [overwrite, List.append_assoc, List.getElem?_append_right (by omega), head,
    List.getElem?_append_left (by omega)]

theorem overwrite_outside {buf bytes : List UInt8} {idx p : Nat}
    (fits : idx + bytes.length ≤ buf.length) (outside : p < idx ∨ idx + bytes.length ≤ p) :
    (overwrite buf idx bytes)[p]? = buf[p]? := by
  have head : (buf.take idx ++ bytes).length = idx + bytes.length := by
    rw [List.length_append, List.length_take_of_le (by omega)]
  rcases outside with before | behind
  · rw [overwrite, List.append_assoc,
      List.getElem?_append_left (by rw [List.length_take_of_le (by omega)]; exact before),
      List.getElem?_take_of_lt before]
  · rw [overwrite, List.getElem?_append_right (by omega), head, List.getElem?_drop,
      Nat.add_sub_cancel' behind]

theorem length_overwrite {buf bytes : List UInt8} {idx : Nat}
    (fits : idx + bytes.length ≤ buf.length) : (overwrite buf idx bytes).length = buf.length := by
  simp only [overwrite, List.length_append, List.length_take, List.length_drop]
  omega

theorem overwrite_same {buf : List UInt8} {idx n : Nat} :
    overwrite buf idx ((buf.drop idx).take n) = buf := by
  rcases Nat.lt_or_ge n (buf.drop idx).length with part | whole
  · have length : ((buf.drop idx).take n).length = n := List.length_take_of_le (Nat.le_of_lt part)
    rw [overwrite, length, List.append_assoc, ← List.drop_drop, List.take_append_drop,
      List.take_append_drop]
  · rw [overwrite, List.take_of_length_le whole, List.append_assoc, ← List.drop_drop,
      List.drop_length, List.append_nil, List.take_append_drop]

/-- Of the bytes written before, those behind the bytes written now are left. -/
theorem overwrite_overwrite {buf first second : List UInt8} {idx : Nat} (inside : idx ≤ buf.length) :
    overwrite (overwrite buf idx first) idx second =
      overwrite buf idx (second ++ first.drop second.length) := by
  have head : (buf.take idx).length = idx := List.length_take_of_le inside
  have front : (overwrite buf idx first).take idx = buf.take idx := by
    rw [overwrite, List.append_assoc, List.take_left' head]
  have rest : (overwrite buf idx first).drop (idx + second.length) =
      first.drop second.length ++ buf.drop (idx + (second ++ first.drop second.length).length) := by
    rw [overwrite, List.append_assoc, ← List.drop_drop, List.drop_left' head, List.drop_append,
      List.drop_drop, List.length_append, List.length_drop]
    congr 2
    omega
  rw [overwrite, front, rest, overwrite, ← List.append_assoc, List.append_assoc (buf.take idx)]

theorem overwrite_back {buf bytes : List UInt8} {idx : Nat}
    (room : bytes.length ≤ buf.length - idx) :
    overwrite (overwrite buf idx bytes) idx ((buf.drop idx).take bytes.length) = buf := by
  rcases Nat.eq_zero_or_pos bytes.length with empty | some'
  · rw [List.length_eq_zero_iff.mp empty, List.length_nil, List.take_zero, overwrite_nil,
      overwrite_nil]
  have back : ((buf.drop idx).take bytes.length).length = bytes.length :=
    List.length_take_of_le (by rw [List.length_drop]; omega)
  rw [overwrite_overwrite (by omega), back, List.drop_length, List.append_nil, overwrite_same]

/-! ## Executions -/

variable {target : Target} {buf : List UInt8}

/-- An execution leaves the buffers alone. -/
theorem itsFuzz_ensures {pre : TestState → Prop} {stopped : Stop → TestState → Prop}
    (kept : ∀ st executed status, pre st → pre { st with executed, status })
    (stops : ∀ st, pre st → stopped .aborted st) :
    Ensures pre (itsFuzz target buf) (fun _ => pre) stopped := by
  refine .bind (fun _ => pre) (.update fun st holds => kept st _ _ holds) fun _ => ?_
  refine .bind (fun _ => pre) (.look fun _ holds => holds) fun st => ?_
  exact .ite (fun _ => .stop stops) fun _ => .update fun st holds => kept st _ _ holds

/-- The program gives the buffer back unless it is aborted. -/
def Restores (buf : List UInt8) (program : Run Unit) : Prop :=
  Ensures (fun st => st.buf = buf) program (fun _ st => st.buf = buf)
    (fun reason _ => reason = .aborted)

theorem Restores.nothing : Restores buf (pure ()) := .pure fun _ same => same

theorem Restores.ite {condition : Prop} [Decidable condition] {program other : Run Unit}
    (yes : condition → Restores buf program) (no : ¬condition → Restores buf other) :
    Restores buf (if condition then program else other) :=
  Ensures.ite yes no

theorem Restores.andThen {α : Type} {first : Run α} {next : α → Run Unit}
    (start : Ensures (fun st => st.buf = buf) first (fun _ st => st.buf = buf)
      (fun reason _ => reason = .aborted))
    (later : ∀ value, Restores buf (next value)) : Restores buf (first >>= next) :=
  .bind _ start later

theorem Restores.looking {next : TestState → Run Unit}
    (later : ∀ st, st.buf = buf → Restores buf (next st)) : Restores buf (look >>= next) := by
  refine .bind (fun seen st => seen.buf = buf ∧ st.buf = buf) (.look fun _ same => ⟨same, same⟩)
    fun seen => .fixed fun st holds => ?_
  exact (later seen holds.1).of fun _ same => same ▸ holds.2

theorem tryBytes_restores {idx : Nat} {bytes : List UInt8}
    (room : bytes.length ≤ buf.length - idx) :
    Restores buf (tryBytes target idx bytes) := by
  let patched := overwrite buf idx bytes
  refine .looking fun before same => ?_
  refine .bind (fun _ st => st.buf = patched)
    (.update fun st same => congrArg (overwrite · idx bytes) same) fun _ => ?_
  refine .bind (fun _ st => st.buf = patched) (.look fun _ same => same) fun seen => ?_
  refine .bind (fun _ st => st.buf = patched)
    (itsFuzz_ensures (fun _ _ _ same => same) fun _ _ => rfl) fun _ => ?_
  refine .update fun st same' => ?_
  dsimp only
  rw [same', same]
  exact overwrite_back room

end SbFuzz.Fuzzer.Redqueen
