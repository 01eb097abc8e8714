import SbFuzz.Fuzzer.SkipDet

/-! `skip_deterministic_stage` comes to an end, its marks are sound, and it gives the
test case back. -/

set_option autoImplicit false

namespace SbFuzz.Fuzzer.SkipDet

open Systems Systems.Program

/-! ## Buffers and maps -/

theorem flipRange_flipRange (input : List UInt8) (pos size : Nat) :
    flipRange (flipRange input pos size) pos size = input := by
  refine List.ext_getElem (by simp [flipRange]) fun k _ _ => ?_
  simp only [flipRange, List.getElem_mapIdx]
  split
  · rw [UInt8.xor_assoc, UInt8.xor_self, UInt8.xor_zero]
  · rfl

theorem set_set_getD {buf : List UInt8} {pos : Nat} (byte : UInt8) :
    (buf.set pos byte).set pos (buf.getD pos 0) = buf := by
  rw [List.set_set]
  by_cases inside : pos < buf.length
  · rw [List.getD_eq_getElem?_getD, List.getElem?_eq_getElem inside, Option.getD_some,
      List.set_getElem_self]
  · exact List.set_eq_of_length_le (Nat.le_of_not_lt inside)

section

variable (env : Env) (input : List UInt8)

/-- The inversion of a block leaves the checksum as it is. -/
def Unchanged (pos size : Nat) : Prop :=
  env.cksum (flipRange input pos size) = env.cksum input

/-- Every byte that is marked as ineffective lies in a block whose inversion changes nothing. -/
def MarksSound (map : List Bool) : Prop := ∀ k, map[k]? = some false →
  ∃ pos size, pos ≤ k ∧ k < pos + size ∧ pos + size ≤ input.length ∧ Unchanged env input pos size

variable {env input} {map : List Bool}

theorem marksSound_unmarked (len : Nat) : MarksSound env input (List.replicate len true) := by
  intro k marked
  rw [List.getElem?_replicate] at marked
  split at marked <;> cases marked

theorem MarksSound.fill {pos size : Nat} (sound : MarksSound env input map)
    (inside : pos + size ≤ input.length) (unchanged : Unchanged env input pos size) :
    MarksSound env input (fillMap map pos size false) := by
  intro k marked
  rw [fillMap, List.getElem?_mapIdx, Option.map_eq_some_iff] at marked
  obtain ⟨mark, there, value⟩ := marked
  by_cases block : pos ≤ k ∧ k < pos + size
  · exact ⟨pos, size, block.1, block.2, inside, unchanged⟩
  · rw [if_neg block] at value
    exact sound k (by rw [there, value])

theorem blockSize_inside {len pos : Nat} (before : pos < len) (size : Nat) :
    pos + blockSize len pos size ≤ len := by
  unfold blockSize
  split <;> omega

/-! ## Inference -/

theorem commonFuzzStuff_ensures {pre : State → Prop} (buf : List UInt8)
    (kept : ∀ st executed, pre st → pre { st with executed }) :
    Ensures pre (commonFuzzStuff env buf) (fun _ => pre) (fun reason st => reason = .aborted ∧ pre st) := by
  refine .bind (fun _ => pre) (.update fun st holds => kept st _ holds) fun _ => ?_
  refine .bind (fun _ => pre) (.look fun _ holds => holds) fun st => ?_
  exact .ite (fun _ => .stop fun _ holds => ⟨rfl, holds⟩) fun _ => .pure fun _ holds => holds

/-- The test case is in its buffer, and the marks are these. -/
def Clean (input : List UInt8) (map : List Bool) (st : State) : Prop :=
  st.outBuf = input ∧ st.infEffMap = map

theorem tryBlock_ensures (env : Env) (pos size : Nat) :
    Ensures (Clean input map) (tryBlock env (env.cksum input) pos size)
      (fun same st => (same = true → Unchanged env input pos size) ∧ Clean input map st)
      (fun reason st => reason = .aborted ∧ st.infEffMap = map) := by
  let flipped := flipRange input pos size
  refine .bind (fun _ => Clean flipped map)
    (.update fun st clean => ⟨congrArg (flipRange · pos size) clean.1, clean.2⟩) fun _ => ?_
  refine .bind (fun seen st => seen.outBuf = flipped ∧ Clean flipped map st)
    (.look fun st clean => ⟨clean.1, clean⟩) fun seen => ?_
  refine .bind (fun _ st => seen.outBuf = flipped ∧ Clean flipped map st)
    ((commonFuzzStuff_ensures seen.outBuf fun _ _ clean => clean).mono (fun _ _ clean => clean)
      fun _ _ stopped => ⟨stopped.1, stopped.2.2.2⟩) fun _ => ?_
  refine .bind (fun _ st => seen.outBuf = flipped ∧ Clean input map st)
    (.update fun st clean => ⟨clean.1, ?_, clean.2.2⟩) fun _ => .pure fun st clean => ⟨?_, clean.2⟩
  · dsimp only
    rw [clean.2.1, flipRange_flipRange]
  · intro same
    rw [clean.1] at same
    exact eq_of_beq same

/-- The last block that was tried, if any, changes nothing. -/
def Grown (env : Env) (input : List UInt8) (pos size : Nat) : Prop :=
  size = minimalBlockSize ∨
    minimalBlockSize ≤ size / 2 ∧ Unchanged env input pos (blockSize input.length pos (size / 2))

theorem growBlock_ensures (env : Env) (maxBlockSize pos : Nat) {fuel size : Nat} (some' : 0 < fuel)
    (enough : maxBlockSize < fuel + size) (large : minimalBlockSize ≤ size) :
    Ensures (fun st => Grown env input pos size ∧ Clean input map st)
      (growBlock env (env.cksum input) input.length maxBlockSize pos fuel size)
      (fun grown st => Grown env input pos grown ∧ minimalBlockSize ≤ grown ∧ Clean input map st)
      (fun reason st => reason ≠ .outOfFuel ∧ st.infEffMap = map) := by
  have minimal : 0 < minimalBlockSize := by decide
  induction fuel generalizing size with
  | zero => exact absurd some' (Nat.lt_irrefl 0)
  | succ fuel ih =>
      unfold growBlock
      refine .ite (fun below => ?_) fun _ => .pure fun st start => ⟨start.1, large, start.2⟩
      refine .bind
        (fun same st => (same = true → Unchanged env input pos (blockSize input.length pos size)) ∧
          Grown env input pos size ∧ Clean input map st) ?_ fun same => ?_
      · refine .fixed fun st start => ?_
        have tried := (tryBlock_ensures env pos (blockSize input.length pos size)).of
          fun last (same : last = st) => same ▸ start.2
        exact tried.mono (fun _ _ tried => ⟨tried.1, start.1, tried.2⟩)
          fun _ _ stopped => ⟨stopped.1 ▸ nofun, stopped.2⟩
      · have doubled (unchanged : Unchanged env input pos (blockSize input.length pos size)) :
            Grown env input pos (size * 2) := by
          rw [Grown, Nat.mul_div_cancel size Nat.two_pos]
          exact .inr ⟨large, unchanged⟩
        refine .ite (fun yes => .ite (fun _ => .pure fun st holds => ?_) fun _ => ?_)
          fun _ => .pure fun st holds => ⟨holds.2.1, large, holds.2.2⟩
        · exact ⟨doubled (holds.1 yes), by omega, holds.2.2⟩
        · exact (ih (by omega) (by omega) (by omega)).of fun st holds =>
            ⟨doubled (holds.1 yes), holds.2.2⟩

theorem infer_ensures {fuel : Nat} (enough : input.length ≤ fuel) (rounds pos : Nat)
    (some' : 0 < rounds) (left : input.length ≤ pos + rounds) :
    Ensures (fun st => st.outBuf = input ∧ MarksSound env input st.infEffMap)
      (infer env (env.cksum input) input.length fuel rounds pos)
      (fun _ st => st.outBuf = input ∧ MarksSound env input st.infEffMap)
      (fun reason st => reason ≠ .outOfFuel ∧ MarksSound env input st.infEffMap) := by
  have minimal : 0 < minimalBlockSize := by decide
  induction rounds generalizing pos with
  | zero => exact absurd some' (Nat.lt_irrefl 0)
  | succ rounds ih =>
      unfold infer
      refine .ite (fun before => ?_) fun _ => .pure fun _ holds => holds
      refine .bind
        (fun grown st => Grown env input pos grown ∧ minimalBlockSize ≤ grown ∧
          st.outBuf = input ∧ MarksSound env input st.infEffMap) ?_ fun grown => ?_
      · refine .fixed fun st start => ?_
        have grows := (growBlock_ensures env (input.length / 8) pos (by omega)
          (by omega : input.length / 8 < fuel + minimalBlockSize) (Nat.le_refl _)).of
          fun last (same : last = st) =>
            ⟨.inl rfl, same ▸ start.1, congrArg State.infEffMap same⟩
        exact grows.mono
          (fun _ _ grown => ⟨grown.1, grown.2.1, grown.2.2.1, grown.2.2.2 ▸ start.2⟩)
          fun _ _ stopped => ⟨stopped.1, stopped.2 ▸ start.2⟩
      · refine .ite (fun early => ?_) fun grew => ?_
        · exact (ih (pos + grown) (by omega) (by omega)).of fun _ holds => holds.2.2
        · have inside := blockSize_inside (Nat.lt_of_lt_pred before) (grown / 2)
          refine .bind
            (fun _ st => minimalBlockSize ≤ grown / 2 ∧ st.outBuf = input ∧
              MarksSound env input st.infEffMap)
            (.update fun st holds => ?_) fun _ => ?_
          · obtain ⟨half, unchanged⟩ := holds.1.resolve_left grew
            exact ⟨half, holds.2.2.1, holds.2.2.2.fill inside unchanged⟩
          · refine .fixed fun st holds => ?_
            have progress : 0 < blockSize input.length pos (grown / 2) := by
              unfold blockSize
              split <;> omega
            exact (ih _ (by omega) (by omega)).of fun _ same => same ▸ holds.2

theorem inference_ensures {fuel : Nat} (enough : input.length ≤ fuel) :
    Ensures (fun st => st.outBuf = input) (inference env fuel input)
      (fun _ st => st.outBuf = input ∧ MarksSound env input st.infEffMap)
      (fun reason st => reason ≠ .outOfFuel ∧ MarksSound env input st.infEffMap) := by
  let inv := fun st : State => st.outBuf = input ∧ MarksSound env input st.infEffMap
  refine .bind (fun _ => inv)
    (.update fun st same => ⟨same, marksSound_unmarked input.length⟩) fun _ => ?_
  refine .bind (fun _ => inv)
    ((commonFuzzStuff_ensures input fun _ _ holds => holds).mono (fun _ _ holds => holds)
      fun _ _ stopped => ⟨stopped.1 ▸ nofun, stopped.2.2⟩) fun _ => ?_
  refine .ite (fun large => infer_ensures enough fuel 0 (by omega) (by omega)) fun _ => ?_
  exact .update fun st holds => ⟨holds.1, marksSound_unmarked input.length⟩

/-! ## Quick effective map -/

theorem drawOther_ensures {pre : State → Prop} (orig : UInt8)
    (kept : ∀ st random, pre st → pre { st with random }) :
    Ensures pre (drawOther orig) (fun _ => pre) (fun reason st => reason = .outOfChoices ∧ pre st) := by
  refine .bind (fun _ => pre) (.look fun _ holds => holds) fun st => ?_
  split
  · exact .stop fun _ holds => ⟨rfl, holds⟩
  · exact .bind (fun _ => pre) (.update fun st holds => kept st _ holds) fun _ =>
      .pure fun _ holds => holds

theorem tryByte_ensures (prevCksum : UInt64) (pos : Nat) :
    Ensures (Clean input map) (tryByte env prevCksum pos) (fun _ => Clean input map)
      (fun reason st => reason ≠ .outOfFuel ∧ st.infEffMap = map) := by
  refine .bind (fun before st => before.outBuf = input ∧ Clean input map st)
    (.look fun _ clean => ⟨clean.1, clean⟩) fun before => ?_
  refine .bind (fun _ st => before.outBuf = input ∧ Clean input map st)
    ((drawOther_ensures _ fun _ _ holds => holds).mono (fun _ _ holds => holds)
      fun _ _ stopped => ⟨stopped.1 ▸ nofun, stopped.2.2.2⟩) fun replace => ?_
  let changed := input.set pos replace
  refine .bind (fun _ st => before.outBuf = input ∧ Clean changed map st)
    (.update fun st holds => ⟨holds.1, congrArg (·.set pos replace) holds.2.1, holds.2.2⟩)
    fun _ => ?_
  refine .bind (fun _ st => before.outBuf = input ∧ Clean changed map st)
    (.look fun _ holds => holds) fun seen => ?_
  refine .bind (fun _ st => before.outBuf = input ∧ Clean changed map st)
    ((commonFuzzStuff_ensures seen.outBuf fun _ _ holds => holds).mono (fun _ _ holds => holds)
      fun _ _ stopped => ⟨stopped.1 ▸ nofun, stopped.2.2.2⟩) fun _ => ?_
  refine .bind (fun _ => Clean input map) (.update fun st holds => ⟨?_, holds.2.2⟩) fun _ => ?_
  · dsimp only
    rw [holds.2.1, holds.1]
    exact set_set_getD replace
  · exact .bind (fun _ => Clean input map) (.look fun _ clean => clean) fun _ =>
      .pure fun _ clean => clean

theorem quickRound_ensures (prevCksum : UInt64) (left pos : Nat) (round : Round) :
    Ensures (Clean input map) (quickRound env prevCksum left pos round) (fun _ => Clean input map)
      (fun reason st => reason ≠ .outOfFuel ∧ st.infEffMap = map) := by
  induction left generalizing pos round with
  | zero => exact .pure fun _ clean => clean
  | succ left ih =>
      unfold quickRound
      refine .ite (fun _ => ?_) fun _ => .pure fun _ clean => clean
      refine .bind (fun _ => Clean input map) (.look fun _ clean => clean) fun st => ?_
      refine .ite (fun _ => ih _ _) fun _ => .ite (fun _ => .pure fun _ clean => clean) fun _ => ?_
      refine .bind (fun _ => Clean input map) (tryByte_ensures prevCksum pos) fun found => ?_
      exact .bind (fun _ => Clean input map) (.update fun _ clean => clean) fun _ => ih _ _

theorem quickRounds_ensures (prevCksum : UInt64) (len rounds pos : Nat) (doneEff : Bool) :
    Ensures (Clean input map) (quickRounds env prevCksum len rounds pos doneEff)
      (fun _ => Clean input map) (fun reason st => reason ≠ .outOfFuel ∧ st.infEffMap = map) := by
  induction rounds generalizing pos doneEff with
  | zero => exact .pure fun _ clean => clean
  | succ rounds ih =>
      unfold quickRounds
      refine .bind (fun _ => Clean input map) (quickRound_ensures prevCksum _ pos _) fun done => ?_
      cases done with
      | none => exact .pure fun _ clean => clean
      | some round => exact .ite (fun _ => ih 0 true) fun _ => .pure fun _ clean => clean

theorem quickCksum_ensures (origBuf : List UInt8) :
    Ensures (Clean input map) (quickCksum env origBuf) (fun _ => Clean input map)
      (fun reason st => reason ≠ .outOfFuel ∧ st.infEffMap = map) := by
  refine .ite (fun _ => ?_) fun _ => .pure fun _ clean => clean
  refine .bind (fun _ => Clean input map) (.update fun _ clean => clean) fun _ => ?_
  refine .bind (fun _ => Clean input map) (.look fun _ clean => clean) fun st => ?_
  exact .bind (fun _ => Clean input map)
    ((commonFuzzStuff_ensures st.outBuf fun _ _ holds => holds).mono (fun _ _ holds => holds)
      fun _ _ stopped => ⟨stopped.1 ▸ nofun, stopped.2.2⟩) fun _ => .pure fun _ clean => clean

theorem quickEff_ensures (origBuf : List UInt8) :
    Ensures (Clean input map) (quickEff env origBuf) (fun _ => Clean input map)
      (fun reason st => reason ≠ .outOfFuel ∧ st.infEffMap = map) := by
  refine .bind (fun _ => Clean input map) (.look fun _ clean => clean) fun st => ?_
  refine .bind (fun _ => Clean input map) (.update fun _ clean => clean) fun _ => ?_
  refine .bind (fun _ => Clean input map) (quickCksum_ensures origBuf) fun prevCksum => ?_
  refine .bind (fun _ => Clean input map) (quickRounds_ensures prevCksum _ 8 _ false) fun doneEff => ?_
  exact .update fun _ clean => clean

/-! ## The stage -/

/-- Whatever the checksums, the random numbers and the aborts are: the inference comes to
its end, its marks are sound, and a return gives the test case back. -/
theorem skipDeterministicStage_sound (env : Env) {fuel : Nat} (enough : input.length ≤ fuel) :
    Ensures (Clean input []) (skipDeterministicStage env fuel input)
      (fun _ st => st.outBuf = input ∧ MarksSound env input st.infEffMap)
      (fun reason st => reason ≠ .outOfFuel ∧ MarksSound env input st.infEffMap) := by
  have early (st : State) (clean : Clean input [] st) :
      st.outBuf = input ∧ MarksSound env input st.infEffMap :=
    ⟨clean.1, clean.2 ▸ marksSound_unmarked 0⟩
  refine .bind (fun _ => Clean input []) (.look fun _ clean => clean) fun st => ?_
  refine .ite (fun _ => .pure early) fun _ => .ite (fun _ => ?_) fun _ => .pure early
  refine .bind (fun _ st => st.outBuf = input ∧ MarksSound env input st.infEffMap)
    ((inference_ensures enough).of fun _ clean => clean.1) fun _ => ?_
  refine .fixed fun st inferred => ?_
  have quick : Ensures (Clean input st.infEffMap) (quickEff env input)
      (fun _ after => after.outBuf = input ∧ MarksSound env input after.infEffMap)
      (fun reason after => reason ≠ .outOfFuel ∧ MarksSound env input after.infEffMap) :=
    (quickEff_ensures input).mono (fun _ _ clean => ⟨clean.1, clean.2 ▸ inferred.2⟩)
      fun _ _ stopped => ⟨stopped.1, stopped.2 ▸ inferred.2⟩
  refine quick.of fun _ same => ?_
  rw [same]
  exact ⟨inferred.1, rfl⟩

end

def firstByteEnv : Env where
  cksum buf := (buf.headD 0).toUInt64
  aborts _ := false
  queuedItems _ := 0
  isDetTimeout _ := false
  shouldDetFuzz := true
  repeatEff := false
  fuzzNearby := false

theorem skipDeterministicStage_sound_firstByte :
    Ensures (Clean (List.replicate 1024 0) [])
      (skipDeterministicStage firstByteEnv 1024 (List.replicate 1024 0))
      (fun _ st => st.outBuf = List.replicate 1024 0 ∧
        MarksSound firstByteEnv (List.replicate 1024 0) st.infEffMap)
      (fun reason st => reason ≠ .outOfFuel ∧
        MarksSound firstByteEnv (List.replicate 1024 0) st.infEffMap) :=
  skipDeterministicStage_sound firstByteEnv (Nat.le_of_eq List.length_replicate)

end SbFuzz.Fuzzer.SkipDet
