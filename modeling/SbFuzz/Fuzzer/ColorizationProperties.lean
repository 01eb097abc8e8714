import SbFuzz.Fuzzer.Colorization
import SbFuzz.Fuzzer.RedqueenItsFuzz
import Mathlib.Data.List.Perm.Basic

/-! What the search of `colorization` keeps in every round, and what its taint is. -/

set_option autoImplicit false

namespace SbFuzz.Fuzzer.Colorization

open Redqueen (overwrite overwrite_back overwrite_inside overwrite_outside length_overwrite)
open Systems Systems.Program

/-! ## Ranges -/

def Range.Has (range : Range) (p : Nat) : Prop := range.start ≤ p ∧ p ≤ range.last

def Range.Apart (first second : Range) : Prop :=
  first.last < second.start ∨ second.last < first.start

/-- The change of a single byte failed, in a buffer with the right checksum. -/
def Rejected (env : Env) (orig changed : List UInt8) (executed : History) (p : Nat) : Prop :=
  ∃ base older, env.cksum base = env.cksum orig ∧
    overwrite base p ((changed.drop p).take 1) :: older <:+ executed ∧
    (env.cksum (overwrite base p ((changed.drop p).take 1)) ≠ env.cksum orig ∨
      env.tooSlow (overwrite base p ((changed.drop p).take 1) :: older))

/-- The state between two rounds. Pending ranges have `ok = 0`, accepted ones `ok = 1`. -/
structure Colors (env : Env) (orig changed : List UInt8) (buf : List UInt8)
    (ranges : List Range) (executed : History) : Prop where
  length : buf.length = orig.length
  apart : ranges.Pairwise Range.Apart
  inside : ∀ range ∈ ranges, range.start ≤ range.last ∧ range.last < orig.length ∧ range.ok ≤ 1
  covered : ∀ p < orig.length,
    (∃ range ∈ ranges, range.Has p) ∨ Rejected env orig changed executed p
  accepted : ∀ range ∈ ranges, range.ok = 1 → ∀ p, range.Has p → buf[p]? = changed[p]?
  original : ∀ p, (∀ range ∈ ranges, range.ok = 1 → ¬range.Has p) → buf[p]? = orig[p]?
  cksum : env.cksum buf = env.cksum orig

theorem Range.Apart.symm {first second : Range} (apart : first.Apart second) :
    second.Apart first := Or.symm apart

theorem biggest_spec {all ranges : List Range} {k max : Nat} {found : Option (Nat × Range)}
    (rest : all.drop k = ranges) {j : Nat} {rng : Range}
    (picked : biggest max found ranges k = some (j, rng)) :
    found = some (j, rng) ∨ all[j]? = some rng ∧ rng.ok = 0 := by
  induction ranges generalizing k max found with
  | nil => exact .inl picked
  | cons range ranges ih =>
      have next : all.drop (k + 1) = ranges := by
        rw [← List.drop_drop, rest, List.drop_one, List.tail_cons]
      have here : all[k]? = some range := by
        rw [← List.head?_drop, rest, List.head?_cons]
      unfold biggest at picked
      split at picked
      · next bigger =>
        rcases ih next picked with same | later
        · cases same
          exact .inr ⟨here, bigger.1⟩
        · exact .inr later
      · exact ih next picked

theorem popBiggestRange_spec {ranges : List Range} {k : Nat} {rng : Range}
    (picked : popBiggestRange ranges = some (k, rng)) : ranges[k]? = some rng ∧ rng.ok = 0 :=
  (biggest_spec List.drop_zero picked).resolve_left nofun

section

variable {env : Env} {orig changed buf : List UInt8} {ranges others : List Range}
  {executed : History} {rng : Range}

theorem Colors.perm (colors : Colors env orig changed buf ranges executed)
    (same : ranges.Perm others) : Colors env orig changed buf others executed where
  length := colors.length
  apart := (same.pairwise_iff Range.Apart.symm).mp colors.apart
  inside range member := colors.inside range (same.mem_iff.mpr member)
  covered p before := (colors.covered p before).imp_left fun ⟨range, member, has⟩ =>
    ⟨range, same.mem_iff.mp member, has⟩
  accepted range member := colors.accepted range (same.mem_iff.mpr member)
  original p none := colors.original p fun range member => none range (same.mem_iff.mp member)
  cksum := colors.cksum

theorem Rejected.mono {p : Nat} (rejected : Rejected env orig changed executed p)
    (buf : List UInt8) : Rejected env orig changed (buf :: executed) p := by
  obtain ⟨base, older, same, there, failed⟩ := rejected
  exact ⟨base, older, same, there.trans (List.suffix_cons buf executed), failed⟩

def part (rng : Range) (bytes : List UInt8) : List UInt8 := (bytes.drop rng.start).take rng.size

theorem length_part {bytes : List UInt8} (ordered : rng.start ≤ rng.last)
    (inside : rng.last < bytes.length) : (part rng bytes).length = rng.size := by
  rw [part, List.length_take_of_le]
  rw [List.length_drop, Range.size]
  omega

theorem Range.size_eq (ordered : rng.start ≤ rng.last) : rng.start + rng.size = rng.last + 1 := by
  unfold Range.size
  omega

/-! ## A round -/

theorem Colors.executed_cons (colors : Colors env orig changed buf ranges executed)
    (run : List UInt8) : Colors env orig changed buf ranges (run :: executed) where
  length := colors.length
  apart := colors.apart
  inside := colors.inside
  covered p before := (colors.covered p before).imp_right fun rejected => rejected.mono run
  accepted := colors.accepted
  original := colors.original
  cksum := colors.cksum

theorem Colors.part_buf (colors : Colors env orig changed buf (rng :: others) executed)
    (pending : rng.ok = 0) : part rng buf = part rng orig := by
  obtain ⟨apart, _⟩ := List.pairwise_cons.mp colors.apart
  refine List.ext_getElem? fun i => ?_
  unfold part
  rw [List.getElem?_take, List.getElem?_take]
  split
  · next within =>
    rw [List.getElem?_drop, List.getElem?_drop]
    refine colors.original _ fun range member accepted has => ?_
    unfold Range.size at within
    unfold Range.Has at has
    rcases List.mem_cons.mp member with rfl | other
    · omega
    · have distinct := apart range other
      unfold Range.Apart at distinct
      omega
  · rfl

section

variable (colors : Colors env orig changed buf (rng :: others) executed)
  (sameLength : changed.length = orig.length) (pending : rng.ok = 0)

include colors sameLength

theorem Colors.fits : rng.start + (part rng changed).length ≤ buf.length := by
  obtain ⟨ordered, inside, _⟩ := colors.inside rng List.mem_cons_self
  rw [length_part ordered (by omega), Range.size_eq ordered, colors.length]
  exact inside

include pending in
theorem Colors.restored :
    overwrite (overwrite buf rng.start (part rng changed)) rng.start (part rng orig) = buf := by
  obtain ⟨ordered, inside, _⟩ := colors.inside rng List.mem_cons_self
  have fits := colors.fits sameLength
  have back : part rng orig = (buf.drop rng.start).take (part rng changed).length := by
    rw [← colors.part_buf pending, length_part ordered (by omega)]
    rfl
  rw [back]
  exact overwrite_back (by omega)

theorem Colors.accept
    (cksum : env.cksum (overwrite buf rng.start (part rng changed)) = env.cksum orig) :
    Colors env orig changed (overwrite buf rng.start (part rng changed))
      ({ rng with ok := 1 } :: others) executed := by
  obtain ⟨ordered, inside, _⟩ := colors.inside rng List.mem_cons_self
  obtain ⟨apart, others'⟩ := List.pairwise_cons.mp colors.apart
  have fits := colors.fits sameLength
  have size := Range.size_eq ordered
  have length : (part rng changed).length = rng.size := length_part ordered (by omega)
  have outside {p : Nat} (none : ¬rng.Has p) :
      (overwrite buf rng.start (part rng changed))[p]? = buf[p]? := by
    unfold Range.Has at none
    exact overwrite_outside fits (by omega)
  refine ⟨?_, ?_, ?_, ?_, ?_, ?_, cksum⟩
  · rw [length_overwrite fits, colors.length]
  · exact List.pairwise_cons.mpr ⟨apart, others'⟩
  · intro range member
    rcases List.mem_cons.mp member with rfl | other
    · exact ⟨ordered, inside, Nat.le_refl 1⟩
    · exact colors.inside range (List.mem_cons_of_mem _ other)
  · intro p before
    refine (colors.covered p before).imp_left fun ⟨range, member, has⟩ => ?_
    rcases List.mem_cons.mp member with rfl | other
    · exact ⟨_, List.mem_cons_self, has⟩
    · exact ⟨range, List.mem_cons_of_mem _ other, has⟩
  · intro range member accepted p has
    rcases List.mem_cons.mp member with rfl | other
    · change rng.start ≤ p ∧ p ≤ rng.last at has
      rw [overwrite_inside fits has.1 (by omega), part, List.getElem?_take_of_lt (by omega),
        List.getElem?_drop, Nat.add_sub_cancel' has.1]
    · have distinct := apart range other
      unfold Range.Apart at distinct
      unfold Range.Has at has
      rw [outside (by unfold Range.Has; omega)]
      exact colors.accepted range (List.mem_cons_of_mem _ other) accepted p has
  · intro p none
    rw [outside fun has => none _ List.mem_cons_self rfl has]
    refine colors.original p fun range member accepted has => ?_
    rcases List.mem_cons.mp member with rfl | other
    · exact none _ List.mem_cons_self rfl has
    · exact none range (List.mem_cons_of_mem _ other) accepted has

end

/-- A range that is not accepted gives way to others that cover it, or to none. -/
theorem Colors.replace (pieces : List Range)
    (colors : Colors env orig changed buf (rng :: others) executed) (pending : rng.ok = 0)
    (apart : pieces.Pairwise Range.Apart)
    (pieces_spec : ∀ piece ∈ pieces,
      rng.start ≤ piece.start ∧ piece.start ≤ piece.last ∧ piece.last ≤ rng.last ∧ piece.ok = 0)
    (covered : ∀ p, rng.Has p →
      (∃ piece ∈ pieces, piece.Has p) ∨ Rejected env orig changed executed p) :
    Colors env orig changed buf (pieces ++ others) executed := by
  obtain ⟨_, inside, _⟩ := colors.inside rng List.mem_cons_self
  obtain ⟨apartOthers, others'⟩ := List.pairwise_cons.mp colors.apart
  refine ⟨colors.length, ?_, ?_, ?_, ?_, ?_, colors.cksum⟩
  · refine List.pairwise_append.mpr ⟨apart, others', fun piece member range other => ?_⟩
    have distinct := apartOthers range other
    have within := pieces_spec piece member
    unfold Range.Apart at distinct ⊢
    omega
  · intro range member
    rcases List.mem_append.mp member with piece | other
    · have within := pieces_spec range piece
      omega
    · exact colors.inside range (List.mem_cons_of_mem _ other)
  · intro p before
    rcases colors.covered p before with ⟨range, member, has⟩ | rejected
    · rcases List.mem_cons.mp member with rfl | other
      · exact (covered p has).imp_left fun ⟨piece, there, has⟩ =>
          ⟨piece, List.mem_append_left _ there, has⟩
      · exact .inl ⟨range, List.mem_append_right _ other, has⟩
    · exact .inr rejected
  · intro range member accepted
    rcases List.mem_append.mp member with piece | other
    · have within := pieces_spec range piece
      omega
    · exact colors.accepted range (List.mem_cons_of_mem _ other) accepted
  · intro p none
    refine colors.original p fun range member accepted => ?_
    rcases List.mem_cons.mp member with rfl | other
    · omega
    · exact none range (List.mem_append_right _ other) accepted

theorem Colors.split (colors : Colors env orig changed buf (rng :: others) executed)
    (pending : rng.ok = 0) (large : 1 < rng.size) :
    Colors env orig changed buf
      (addRange (addRange others rng.start (rng.start + rng.size / 2 - 1))
        (rng.start + rng.size / 2) rng.last) executed := by
  have size := Range.size_eq (colors.inside rng List.mem_cons_self).1
  let halves : List Range :=
    [{ start := rng.start + rng.size / 2, last := rng.last, ok := 0 },
      { start := rng.start, last := rng.start + rng.size / 2 - 1, ok := 0 }]
  refine colors.replace halves pending ?_ ?_ fun p has => .inl ?_
  · refine List.pairwise_pair.mpr (.inr ?_)
    dsimp only
    omega
  · intro piece member
    rcases List.mem_pair.mp member with rfl | rfl
    · dsimp only
      omega
    · dsimp only
      omega
  · unfold Range.Has at has
    by_cases first : p < rng.start + rng.size / 2
    · refine ⟨_, List.mem_cons_of_mem _ List.mem_cons_self, has.1, ?_⟩
      dsimp only
      omega
    · exact ⟨_, List.mem_cons_self, Nat.le_of_not_lt first, has.2⟩

theorem Colors.drop (colors : Colors env orig changed buf (rng :: others) executed)
    (pending : rng.ok = 0) (single : rng.size = 1)
    (rejected : Rejected env orig changed executed rng.start) :
    Colors env orig changed buf others executed := by
  have size := Range.size_eq (colors.inside rng List.mem_cons_self).1
  refine colors.replace [] pending .nil nofun fun p has => .inr ?_
  have same : p = rng.start := by
    unfold Range.Has at has
    omega
  rw [same]
  exact rejected

def Holds (env : Env) (orig changed : List UInt8) (st : State) : Prop :=
  Colors env orig changed st.buf st.ranges st.executed

theorem getExecChecksum_ensures (st : State) :
    Ensures (· = st) (getExecChecksum env)
      (fun cksum after => cksum = env.cksum st.buf ∧
        after = { st with executed := st.buf :: st.executed })
      (fun reason _ => reason = .aborted) := by
  let run : State := { st with executed := st.buf :: st.executed }
  refine .bind (fun _ after => after = run) (.update fun _ same => same ▸ rfl) fun _ => ?_
  refine .bind (fun seen after => seen = run ∧ after = run)
    (.look fun _ same => ⟨same, same⟩) fun seen => ?_
  exact .ite (fun _ => .stop fun _ _ => rfl) fun _ =>
    .pure fun after same => ⟨by rw [same.1], same.2⟩

theorem splitRange_colors {k : Nat}
    (colors : Colors env orig changed buf (rng :: ranges.eraseIdx k) executed)
    (pending : rng.ok = 0)
    (rejected : rng.size = 1 → Rejected env orig changed executed rng.start) :
    Colors env orig changed buf (splitRange ranges k rng) executed := by
  have size := Range.size_eq (colors.inside rng List.mem_cons_self).1
  have ordered := (colors.inside rng List.mem_cons_self).1
  unfold splitRange
  split
  · next large => exact colors.split pending large
  · have single : rng.size = 1 := by omega
    exact colors.drop pending single (rejected single)

theorem colorRange_ensures (sameLength : changed.length = orig.length) (k : Nat) (rng : Range) :
    Ensures (fun st => Holds env orig changed st ∧ st.ranges[k]? = some rng ∧ rng.ok = 0)
      (colorRange env orig changed (env.cksum orig) k rng) (fun _ => Holds env orig changed)
      (fun reason _ => reason = .aborted) := by
  refine .fixed fun st ⟨holds, there, pending⟩ => ?_
  obtain ⟨inside, here⟩ := List.getElem?_eq_some_iff.mp there
  have swap (other : Range) := List.set_perm_cons_eraseIdx inside other
  have colors : Colors env orig changed st.buf (rng :: st.ranges.eraseIdx k) st.executed :=
    holds.perm (here ▸ (List.getElem_cons_eraseIdx_perm inside).symm)
  let patched := overwrite st.buf rng.start (part rng changed)
  let run : State := { st with buf := patched, executed := patched :: st.executed }
  refine .bind (fun _ after => after = { st with buf := patched })
    (.update fun _ same => by rw [same]; rfl) fun _ => ?_
  refine .bind _ (getExecChecksum_ensures { st with buf := patched }) fun cksum => ?_
  refine .bind (fun seen after => cksum = env.cksum patched ∧ seen = run ∧ after = run)
    (.look fun _ same => ⟨same.1, same.2, same.2⟩) fun seen => ?_
  have ran := colors.executed_cons patched
  refine .ite (fun failed => .update ?_) fun passed => .update ?_
  · rintro _ ⟨value, seen', rfl⟩
    rw [value, seen'] at failed
    unfold Holds
    dsimp only [run]
    have back : overwrite patched rng.start (part rng orig) = st.buf :=
      colors.restored sameLength pending
    rw [show (orig.drop rng.start).take rng.size = part rng orig from rfl, back]
    refine splitRange_colors ran pending fun single => ?_
    refine ⟨st.buf, st.executed, colors.cksum, ?_, ?_⟩
    · rw [← single]
      exact List.suffix_rfl
    · rw [← single]
      exact failed
  · rintro _ ⟨value, seen', rfl⟩
    have same : env.cksum patched = env.cksum orig := by
      rw [← value]
      exact not_not.mp fun differs => passed (.inl differs)
    exact (ran.accept sameLength same).perm (swap _).symm

theorem colorLoop_ensures (sameLength : changed.length = orig.length) (rounds : Nat) :
    Ensures (Holds env orig changed) (colorLoop env orig changed (env.cksum orig) rounds)
      (fun _ => Holds env orig changed) (fun reason _ => reason = .aborted) := by
  induction rounds with
  | zero => exact .pure fun _ holds => holds
  | succ rounds ih =>
      refine .bind (fun seen st => seen = st ∧ Holds env orig changed st)
        (.look fun _ holds => ⟨rfl, holds⟩) fun seen => ?_
      split
      · exact .pure fun _ holds => holds.2
      · next k rng picked =>
        refine .bind (fun _ => Holds env orig changed) ?_ fun _ => ih
        refine (colorRange_ensures sameLength k rng).of ?_
        rintro st ⟨rfl, holds⟩
        exact ⟨holds, popBiggestRange_spec picked⟩

end

end SbFuzz.Fuzzer.Colorization
