import SbFuzz.Fuzzer.RedqueenEncoding

/-! The candidates for a comparison come to an end and are all taken back. -/

set_option autoImplicit false

namespace SbFuzz.Fuzzer.RedqueenEncoding

open Redqueen (Restores Run itsFuzz_ensures tryBytes_restores length_leBytes TestState)
open Systems Systems.Program

/-! ## Nesting -/

/-- No call was made for this comparison with a changed value. -/
def Fresh (attr : UInt8) : Prop := attr ≠ isFpMod ∧ attr ≠ isIntMod ∧ attr ≠ isTransform

instance (attr : UInt8) : Decidable (Fresh attr) := inferInstanceAs (Decidable (_ ∧ _))

/-- How deep the calls can be nested below one with these arguments. -/
def rank (attr : UInt8) (doReverse : Bool) : Nat :=
  (if Fresh attr then 2 else 0) + if doReverse then 1 else 0

theorem not_fresh_isFpMod : ¬Fresh isFpMod := fun fresh => fresh.1 rfl

theorem not_fresh_isIntMod : ¬Fresh isIntMod := fun fresh => fresh.2.1 rfl

theorem not_fresh_isTransform : ¬Fresh isTransform := fun fresh => fresh.2.2 rfl

theorem rank_lt (attr : UInt8) (doReverse : Bool) : rank attr doReverse < 4 := by
  unfold rank
  split <;> split <;> decide

theorem fresh_of_isEqual {attr : UInt8} (small : attr ≤ isEqual) : Fresh attr := by
  unfold Fresh isFpMod isIntMod isTransform
  unfold isEqual at small
  grind

theorem fresh_of_ordered {attr : UInt8} (ordered : attr &&& (isGreater ||| isLesser) ≠ 0)
    (original : attr ≠ isTransform) : Fresh attr := by
  refine ⟨?_, ?_, original⟩
  · rintro rfl
    exact ordered (by decide)
  · rintro rfl
    exact ordered (by decide)

section

variable {call : Call} {recurse : Args → Run Unit} {args : Args} {buf : List UInt8}

structure Nested (recurse : Args → Run Unit) (args : Args) (buf : List UInt8) : Prop where
  changed : Fresh args.attr → ∀ inner, ¬Fresh inner.attr → Restores buf (recurse inner)
  reversed : args.doReverse → ∀ inner, inner.attr = args.attr → inner.doReverse = false →
    Restores buf (recurse inner)

/-! ## Parts -/

theorem unlessFound_restores {program : Run Unit} (restores : Restores buf program) :
    Restores buf (unlessFound program) :=
  .looking fun _ _ => .ite (fun _ => .nothing) fun _ => restores

theorem atoi_restores : Restores buf (atoi call args) := by
  refine .looking fun st _ => ?_
  split
  · exact .nothing
  · exact itsFuzz_ensures (fun _ _ _ same => same) fun _ _ => rfl

theorem tryTransform_restores (nested : Nested recurse args buf) (fresh : Fresh args.attr)
    (applies : Bool) (newRepl : UInt64) : Restores buf (tryTransform recurse args applies newRepl) :=
  .ite (fun _ => nested.changed fresh _ not_fresh_isTransform) fun _ => .nothing

theorem transforms_restores (nested : Nested recurse args buf) (fresh : Fresh args.attr)
    (bVal oBVal mask : UInt64) : Restores buf (transforms recurse args bVal oBVal mask) := by
  have tried (applies : Bool) (newRepl : UInt64) :=
    tryTransform_restores nested fresh applies newRepl
  refine .andThen (tried _ _) fun _ => ?_
  refine .andThen (unlessFound_restores (tried _ _)) fun _ => ?_
  refine .andThen (unlessFound_restores (tried _ _)) fun _ => ?_
  refine .andThen (unlessFound_restores (tried _ _)) fun _ => ?_
  exact .update fun _ same => same

theorem enableTransform_restores (nested : Nested recurse args buf) (bytes : Nat) :
    Restores buf (enableTransform call recurse args bytes) := by
  refine .ite (fun _ => ?_) fun _ => .nothing
  refine .andThen atoi_restores fun _ => .looking fun st _ => ?_
  refine .ite (fun applies => ?_) fun _ => .nothing
  exact transforms_restores nested (fresh_of_isEqual applies.2.2) _ _ _

theorem tryBytes_itsLen {st : TestState} {bytes : List UInt8} (same : st.buf = buf)
    (room : bytes.length ≤ call.itsLen st) :
    Restores buf (Redqueen.tryBytes call.target call.idx bytes) := by
  refine tryBytes_restores ?_
  rw [← same]
  exact Nat.le_trans room (Nat.min_le_left _ _)

theorem tryInteger_restores (width : Nat) : Restores buf (tryInteger call args width) :=
  .looking fun _ same => .ite
    (fun fits => tryBytes_itsLen same (by rw [length_leBytes]; exact fits.1)) fun _ => .nothing

theorem integer_restores (nested : Nested recurse args buf) (width : Nat) :
    Restores buf (integer call recurse args width) := by
  refine .looking fun _ _ => .ite (fun _ => ?_) fun _ => .nothing
  refine .andThen (tryInteger_restores width) fun _ => ?_
  exact unlessFound_restores
    (.ite (fun reverse => nested.reversed reverse _ rfl rfl) fun _ => .nothing)

theorem integers_restores (nested : Nested recurse args buf) :
    Restores buf (integers call recurse args) := by
  refine .ite (fun _ => ?_) fun _ => .nothing
  refine .andThen (integer_restores nested 8) fun _ => ?_
  exact .andThen (integer_restores nested 4) fun _ => integer_restores nested 2

theorem scale_restores : Restores buf (scale call args) := by
  refine .looking fun st same => .ite (fun _ => ?_) fun _ => .nothing
  split
  · exact .nothing
  · refine .ite (fun fits => ?_) fun _ => .nothing
    exact tryBytes_itsLen same (by rw [length_leBytes]; exact fits.1)

theorem floats_restores (nested : Nested recurse args buf) (fresh : Fresh args.attr) (greater : Bool) :
    Restores buf (floats call recurse args greater) := by
  have modified (repl : UInt64) : Restores buf (recurse (args.stepped repl isFpMod)) :=
    nested.changed fresh _ not_fresh_isFpMod
  refine .looking fun _ _ => .ite (fun _ => ?_) fun _ => .nothing
  refine .andThen (modified _) fun _ => .looking fun _ _ => .ite (fun _ => ?_) fun _ => .nothing
  refine .andThen (.update fun _ same => same) fun _ => ?_
  exact .always (modified _) (fun _ _ same => same) fun _ _ aborted => aborted

theorem arithmetic_restores (nested : Nested recurse args buf) :
    Restores buf (arithmetic call recurse args) := by
  refine .looking fun _ _ => .ite (fun _ => .nothing) fun enabled => ?_
  refine .ite (fun _ => .nothing) fun ordered => ?_
  have fresh : Fresh args.attr :=
    fresh_of_ordered (fun none => ordered (.inl none)) fun transformed => enabled (.inr (.inr transformed))
  refine .ite (fun _ => floats_restores nested fresh _) fun _ => .ite (fun _ => ?_) fun _ => .nothing
  exact nested.changed fresh _ not_fresh_isIntMod

end

/-! ## The functions -/

theorem cmpExtendEncoding_restores (call : Call) {depth : Nat} {args : Args} (buf : List UInt8)
    (deep : rank args.attr args.doReverse < depth) :
    Restores buf (cmpExtendEncoding call depth args) := by
  induction depth generalizing args with
  | zero => exact absurd deep (Nat.not_lt_zero _)
  | succ depth ih =>
      have nested : Nested (cmpExtendEncoding call depth) args buf := by
        refine ⟨fun fresh inner settled => ih ?_, fun reverse inner attr forward => ih ?_⟩
        · rw [rank, if_pos fresh] at deep
          rw [rank, if_neg settled]
          split <;> omega
        · rw [rank, if_pos reverse] at deep
          rw [rank, attr, forward]
          exact Nat.lt_of_succ_lt_succ deep
      refine .looking fun _ _ => .ite (fun _ => .nothing) fun _ => ?_
      refine .andThen (enableTransform_restores nested _) fun _ => ?_
      refine .ite (fun _ => .nothing) fun _ => ?_
      refine .andThen (integers_restores nested) fun _ => ?_
      exact .andThen scale_restores fun _ => arithmetic_restores nested

theorem tryN_restores {call : Call} {args : ArgsN} {buf : List UInt8} :
    Restores buf (tryN call args) := by
  refine .looking fun st same => .ite (fun compared => ?_) fun _ => .nothing
  have length := congrArg List.length compared.1
  refine tryBytes_restores ?_
  rw [length_leBytes, List.length_take, List.length_drop] at length
  rw [length_leBytes, ← same, ← length]
  exact Nat.min_le_right _ _

theorem scaleN_restores {call : Call} {args : ArgsN} {buf : List UInt8} :
    Restores buf (scaleN call args) := by
  refine .looking fun st same => .ite (fun _ => ?_) fun _ => .nothing
  split
  · exact .nothing
  · exact .ite (fun fits => tryBytes_itsLen same (by rw [length_leBytes]; exact fits)) fun _ =>
      .nothing

theorem cmpExtendEncodingN_restores (call : Call) {depth : Nat} {args : ArgsN} (buf : List UInt8)
    (deep : (if args.doReverse then 1 else 0) < depth) :
    Restores buf (cmpExtendEncodingN call depth args) := by
  induction depth generalizing args with
  | zero => exact absurd deep (Nat.not_lt_zero _)
  | succ depth ih =>
      refine .looking fun st same => .ite (fun fits => ?_) fun _ => .nothing
      refine .andThen tryN_restores fun _ => ?_
      refine .andThen (unlessFound_restores (.ite (fun reverse => ih ?_) fun _ => .nothing)) fun _ =>
        scaleN_restores
      rw [if_pos reverse] at deep
      exact Nat.lt_of_succ_lt_succ deep

/-- Four nested calls are enough for one comparison, two for one of 128 bits. A return
gives the buffer back, and the only other end is an abort. -/
theorem encodings_restore (call : Call) (args : Args) (argsN : ArgsN) (buf : List UInt8) :
    Restores buf (cmpExtendEncoding call 4 args) ∧ Restores buf (cmpExtendEncodingN call 2 argsN) := by
  refine ⟨cmpExtendEncoding_restores call buf (rank_lt _ _), cmpExtendEncodingN_restores call buf ?_⟩
  split <;> decide

end SbFuzz.Fuzzer.RedqueenEncoding
