import SbFuzz.Fuzzer.DeterministicProperties

/-! The collector of syntax tokens in the stage `bitflip 1/1`, and the bytes whose
checksums it sees. -/

set_option autoImplicit false

namespace SbFuzz.Fuzzer.AutoTokens

open Deterministic (flipBit)

/-! ## The stage -/

def minAutoExtra : Nat := 3

def maxAutoExtra : Nat := 32

/-- `cksum` is the hash of the trace that a buffer leaves; the others are asked
for every `stage_cur`. -/
structure Env where
  cksum : List UInt8 → UInt64
  skipEffMap : Nat → UInt8
  nonInstrumentedMode : Bool
  isDetTimeout : Nat → Bool
  abandonsClean : Bool
  abandons : Nat → Bool

/-- A byte of `a_collect`; its place in the input is kept for the proofs. -/
structure Collected where
  position : Nat
  value : UInt8
deriving DecidableEq, Repr

structure Collector where
  outBuf : List UInt8
  prevCksum : UInt64
  aCollect : List Collected
  aLen : Nat
  /-- The calls of `maybe_add_auto`. -/
  autos : List (List Collected)

def Collector.grab (c : Collector) (i : Nat) : Collector :=
  { c with
    aCollect := if c.aLen < maxAutoExtra then c.aCollect ++ [⟨i, c.outBuf.getD i 0⟩] else c.aCollect
    aLen := c.aLen + 1 }

def Collector.output (c : Collector) : Collector :=
  if minAutoExtra ≤ c.aLen ∧ c.aLen ≤ maxAutoExtra then { c with autos := c.autos ++ [c.aCollect] }
  else c

def Collector.restart (c : Collector) (cksum : UInt64) : Collector :=
  { c with aCollect := [], aLen := 0, prevCksum := cksum }

/-- At the end of the file the final character is grabbed and output forced;
otherwise what is queued up is output when the checksum has changed. -/
def Collector.judge (c : Collector) (atEnd : Bool) (i : Nat) (cksum : UInt64) : Collector :=
  if atEnd ∧ cksum = c.prevCksum then (c.grab i).output
  else if cksum ≠ c.prevCksum then c.output.restart cksum
  else c

/-- What is done with the checksum for byte `i`. -/
def Collector.collect (c : Collector) (origCksum : UInt64) (atEnd : Bool) (i : Nat) (cksum : UInt64) :
    Collector :=
  if cksum ≠ origCksum then (c.judge atEnd i cksum).grab i else c.judge atEnd i cksum

def walkBits (env : Env) (origCksum : UInt64) (stageMax : Nat) : List Nat → Collector → Collector
  | [], c => c
  | stageCur :: rest, c =>
    if env.skipEffMap (stageCur / 8) = 0 then walkBits env origCksum stageMax rest c
    else if env.isDetTimeout stageCur then c
    else
      let flipped := flipBit c.outBuf stageCur
      if env.abandons stageCur then { c with outBuf := flipped }
      else
        let restored := { c with outBuf := flipBit flipped stageCur }
        if !env.nonInstrumentedMode && stageCur % 8 = 7 then
          walkBits env origCksum stageMax rest
            (restored.collect origCksum (stageCur = stageMax - 1) (stageCur / 8) (env.cksum flipped))
        else walkBits env origCksum stageMax rest restored

/-- The tokens of the stage. -/
def bitflip11 (env : Env) (outBuf : List UInt8) : List (List Collected) :=
  if env.abandonsClean then []
  else
    let prevCksum := env.cksum outBuf
    let stageMax := 8 * outBuf.length
    (walkBits env prevCksum stageMax (List.range stageMax) ⟨outBuf, prevCksum, [], 0, []⟩).autos

/-! ## What the collector sees -/

/-- The checksum for a byte. -/
def Env.flipCksum (env : Env) (input : List UInt8) (i : Nat) : UInt64 :=
  env.cksum (flipBit input (8 * i + 7))

def Env.interrupts (env : Env) (stageCur : Nat) : Bool :=
  env.skipEffMap (stageCur / 8) ≠ 0 && (env.isDetTimeout stageCur || env.abandons stageCur)

/-- Where `stage_cur` is at the least significant bit of a byte that is not skipped. -/
def Env.collects (env : Env) (stageCur : Nat) : Bool :=
  !env.nonInstrumentedMode && env.skipEffMap (stageCur / 8) ≠ 0 && stageCur % 8 = 7

def Env.seenIn (env : Env) (stages : List Nat) : List Nat :=
  ((stages.takeWhile fun stageCur => !env.interrupts stageCur).filter env.collects).map (· / 8)

/-- The bytes whose checksum the collector sees. -/
def Env.seen (env : Env) (input : List UInt8) : List Nat :=
  if env.abandonsClean then [] else env.seenIn (List.range (8 * input.length))

/-- A step of the collector. -/
def Env.step (env : Env) (input : List UInt8) (c : Collector) (i : Nat) : Collector :=
  c.collect (env.cksum input) (i + 1 = input.length) i (env.flipCksum input i)

variable {env : Env} {input : List UInt8}

@[simp] theorem Collector.grab_outBuf (c : Collector) (i : Nat) : (c.grab i).outBuf = c.outBuf := rfl

@[simp] theorem Collector.output_outBuf (c : Collector) : c.output.outBuf = c.outBuf := by
  unfold Collector.output
  split <;> rfl

theorem Collector.output_of_short {c : Collector} (short : c.aLen < minAutoExtra) : c.output = c :=
  if_neg fun fits => absurd fits.1 (Nat.not_le_of_lt short)

theorem Collector.judge_same (c : Collector) (i : Nat) : c.judge false i c.prevCksum = c := by
  simp [judge]

theorem Collector.judge_atEnd (c : Collector) (i : Nat) :
    c.judge true i c.prevCksum = (c.grab i).output :=
  if_pos ⟨rfl, rfl⟩

theorem Collector.judge_other {c : Collector} {cksum : UInt64} (other : cksum ≠ c.prevCksum)
    (atEnd : Bool) (i : Nat) : c.judge atEnd i cksum = c.output.restart cksum := by
  rw [judge, if_neg (fun same => other same.2), if_pos other]

@[simp] theorem Collector.judge_outBuf (c : Collector) (atEnd : Bool) (i : Nat) (cksum : UInt64) :
    (c.judge atEnd i cksum).outBuf = c.outBuf := by
  unfold Collector.judge
  split
  · rw [output_outBuf, grab_outBuf]
  · split
    · exact c.output_outBuf
    · rfl

@[simp] theorem Collector.collect_outBuf (c : Collector) (origCksum : UInt64) (atEnd : Bool) (i : Nat)
    (cksum : UInt64) : (c.collect origCksum atEnd i cksum).outBuf = c.outBuf := by
  unfold Collector.collect
  split
  · rw [grab_outBuf, judge_outBuf]
  · exact c.judge_outBuf atEnd i cksum

theorem flipBit_flipBit {b : Nat} (inside : b < 8 * input.length) :
    flipBit (flipBit input b) b = input :=
  Deterministic.flipBits_flipBits (show b + 1 ≤ 8 * input.length from inside)

theorem Env.seenIn_interrupted {stageCur : Nat} (stops : env.interrupts stageCur) (rest : List Nat) :
    env.seenIn (stageCur :: rest) = [] := by
  simp [seenIn, stops]

theorem Env.seenIn_collected {stageCur : Nat} (passes : env.interrupts stageCur = false)
    (collects : env.collects stageCur) (rest : List Nat) :
    env.seenIn (stageCur :: rest) = stageCur / 8 :: env.seenIn rest := by
  simp [seenIn, passes, collects]

theorem Env.seenIn_passed {stageCur : Nat} (passes : env.interrupts stageCur = false)
    (ignored : env.collects stageCur = false) (rest : List Nat) :
    env.seenIn (stageCur :: rest) = env.seenIn rest := by
  simp [seenIn, passes, ignored]

/-- The loop over the bits is a loop over the bytes that are seen. -/
theorem walkBits_autos {stages : List Nat} (inside : ∀ b ∈ stages, b < 8 * input.length)
    {c : Collector} (clean : c.outBuf = input) :
    (walkBits env (env.cksum input) (8 * input.length) stages c).autos =
      ((env.seenIn stages).foldl (env.step input) c).autos := by
  induction stages generalizing c with
  | nil => rfl
  | cons stageCur rest ih =>
    have here : stageCur < 8 * input.length := inside stageCur List.mem_cons_self
    have later : ∀ b ∈ rest, b < 8 * input.length := fun b member =>
      inside b (List.mem_cons_of_mem _ member)
    have restored : flipBit (flipBit c.outBuf stageCur) stageCur = c.outBuf := by
      rw [clean]
      exact flipBit_flipBit here
    unfold walkBits
    by_cases skipped : env.skipEffMap (stageCur / 8) = 0
    · have passes : env.interrupts stageCur = false := by simp [Env.interrupts, skipped]
      have ignored : env.collects stageCur = false := by simp [Env.collects, skipped]
      rw [if_pos skipped, ih later clean, Env.seenIn_passed passes ignored]
    · rw [if_neg skipped]
      by_cases stopped : env.isDetTimeout stageCur || env.abandons stageCur
      · have stops : env.interrupts stageCur = true := by
          unfold Env.interrupts
          rw [stopped, decide_eq_true skipped]
          rfl
        rw [Env.seenIn_interrupted stops]
        rcases Bool.or_eq_true_iff.mp stopped with timeout | abandoned
        · rw [if_pos timeout]
          rfl
        · simp only [abandoned, if_true]
          split <;> rfl
      · obtain ⟨inTime, kept⟩ : env.isDetTimeout stageCur = false ∧ env.abandons stageCur = false := by
          simpa using stopped
        have passes : env.interrupts stageCur = false := by simp [Env.interrupts, inTime, kept]
        have judged : env.collects stageCur =
            (!env.nonInstrumentedMode && decide (stageCur % 8 = 7)) := by
          simp [Env.collects, skipped]
        simp only [inTime, kept, Bool.false_eq_true, if_false, restored]
        split
        · next least =>
          obtain ⟨_, position⟩ : env.nonInstrumentedMode = false ∧ stageCur % 8 = 7 := by
            simpa using least
          have whole : 8 * (stageCur / 8) + 7 = stageCur := by omega
          have atEnd : (stageCur = 8 * input.length - 1) = (stageCur / 8 + 1 = input.length) := by
            apply propext
            omega
          rw [Env.seenIn_collected passes (judged.trans least), List.foldl_cons,
            ih later ((Collector.collect_outBuf ..).trans clean)]
          simp only [Env.step, Env.flipCksum, whole, atEnd, clean]
        · next other =>
          rw [ih later clean, Env.seenIn_passed passes (judged.trans (Bool.eq_false_iff.mpr other))]

end SbFuzz.Fuzzer.AutoTokens
