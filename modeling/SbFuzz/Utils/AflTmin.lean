import SbFuzz.Fuzzer.TrimCase

/-! Test case minimization (`afl-tmin`): what a run of the target says about a
candidate, and the passes over the input. -/

set_option autoImplicit false

namespace SbFuzz.Utils.AflTmin

open Fuzzer.TrimCase (lenPow2)

/-! ## Runs of the target -/

inductive RunResult where
  | ok
  | tmout
  | crash
  | error
  | noinst
deriving DecidableEq, Repr

/-- `cksum` is the hash of the trace, classified and masked. -/
structure Execution where
  ret : RunResult
  cksum : UInt64

structure Mode where
  hangMode : Bool
  crashMode : Bool
  exactMode : Bool
  origCksum : UInt64

/-- Whether the changes are kept; `none` is a fatal error. The counters of missed runs are left out. -/
def tminRunTarget (mode : Mode) (run : Execution) : Option Bool :=
  match run.ret with
  | .error => none
  | .tmout => some mode.hangMode
  | .crash =>
    if mode.hangMode then some false
    else if mode.crashMode then
      if !mode.exactMode then some true else some (mode.origCksum = run.cksum)
    else some false
  | .ok =>
    if mode.hangMode || mode.crashMode then some false else some (mode.origCksum = run.cksum)
  | .noinst =>
    if mode.hangMode || mode.crashMode then some false else none

/-- What the first run of the target settles. -/
def firstRun (mode : Mode) (run : Execution) : Mode :=
  if mode.hangMode then mode
  else
    match run.ret with
    | .ok => { mode with origCksum := run.cksum }
    | .crash =>
      if mode.exactMode then { mode with crashMode := true, origCksum := run.cksum }
      else { mode with crashMode := true }
    | .tmout => mode
    | .error => mode
    | .noinst => mode

/-- The checks of `main` around the first run. -/
def dryRun (hangMode exactMode : Bool) (run : Execution) : Option Mode :=
  let mode := firstRun ⟨hangMode, false, exactMode, 0⟩ run
  if (tminRunTarget mode run).isNone then none
  else if hangMode && run.ret ≠ .tmout then none
  else if run.ret = .tmout && !hangMode then none
  else some mode

/-- What the target says about a buffer once the mode is settled. -/
def tminAccepts (mode : Mode) (target : List UInt8 → Execution) (mem : List UInt8) : Bool :=
  tminRunTarget mode (target mem) = some true

/-- The minimization starts from an input that is accepted. -/
theorem tminAccepts_dryRun {hangMode exactMode : Bool} {target : List UInt8 → Execution}
    {inData : List UInt8} {mode : Mode} (settled : dryRun hangMode exactMode (target inData) = some mode) :
    tminAccepts mode target inData := by
  unfold tminAccepts
  generalize target inData = run at settled ⊢
  obtain ⟨ret, cksum⟩ := run
  cases hangMode with
  | true =>
    cases ret <;> simp [dryRun, firstRun, tminRunTarget] at settled ⊢
    simp [← settled]
  | false =>
    cases ret <;> cases exactMode <;>
      simp [dryRun, firstRun, tminRunTarget] at settled ⊢ <;> simp [← settled]

/-! ## Numbers -/

def tminMaxFile : Nat := 10 * 1024 * 1024

def tminSetMinSize : Nat := 4

def tminSetSteps : Nat := 128

def trimStartSteps : Nat := 16

/-- The value of `-l`. -/
structure DelLenLimit where
  value : Nat
  positive : 1 ≤ value
  small : value ≤ tminMaxFile

/-- Without `-l`. -/
def DelLenLimit.default : DelLenLimit := ⟨1, Nat.le_refl 1, by decide⟩

/-- The character that takes the place of others. -/
def zeroChar : UInt8 := 0x30

/-! ## The passes -/

structure Test where
  inData : List UInt8
  changedAny : Bool

section

variable (accepts : List UInt8 → Bool)

/-- What is tried is kept if the target accepts it. -/
def Test.attempt (test : Test) (tmpBuf : List UInt8) : Test :=
  if accepts tmpBuf then ⟨tmpBuf, true⟩ else test

/-- The loop of the one-time block normalization, which does not look at `changed_any`. -/
def normalizeBlocks (setLen : Nat) (positive : 0 < setLen) (setPos : Nat) (inData : List UInt8) :
    List UInt8 :=
  if inside : setPos < inData.length then
    let useLen := min setLen (inData.length - setPos)
    let block := (inData.drop setPos).take useLen
    let tmpBuf := inData.take setPos ++ List.replicate useLen zeroChar ++ inData.drop (setPos + useLen)
    if block.all (· = zeroChar) then normalizeBlocks setLen positive (setPos + setLen) inData
    else if accepts tmpBuf then
      have same : tmpBuf.length = inData.length := by
        simp only [tmpBuf, useLen, List.length_append, List.length_take, List.length_replicate,
          List.length_drop]
        omega
      normalizeBlocks setLen positive (setPos + setLen) tmpBuf
    else normalizeBlocks setLen positive (setPos + setLen) inData
  else inData
termination_by inData.length - setPos

/-- Whether the block at `delPos` is the same as the one before it. -/
def sameAsBefore (inData : List UInt8) (delPos delLen : Nat) : Bool :=
  (inData.drop (delPos - delLen)).take delLen = (inData.drop delPos).take delLen

/-- The loop over the blocks of one length. -/
def deleteBlocks (delLen : Nat) (positive : 0 < delLen) (delPos : Nat) (prevDel : Bool) (test : Test) :
    Test :=
  if inside : delPos < test.inData.length then
    let tailLen := test.inData.length - delPos - delLen
    -- Nothing is gained from a block like the one before it, which had to stay.
    if !prevDel ∧ tailLen ≠ 0 ∧ sameAsBefore test.inData delPos delLen then
      deleteBlocks delLen positive (delPos + delLen) prevDel test
    else
      let tmpBuf := test.inData.take delPos ++ test.inData.drop (delPos + delLen)
      if accepts tmpBuf then
        have shorter : tmpBuf.length < test.inData.length := by
          simp only [tmpBuf, List.length_append, List.length_take, List.length_drop]
          omega
        deleteBlocks delLen positive delPos true ⟨tmpBuf, true⟩
      else deleteBlocks delLen positive (delPos + delLen) false test
  else test
termination_by test.inData.length - delPos

/-- From the label `next_del_blksize` on: blocks of shrinking lengths. -/
def removeBlocks (limit : DelLenLimit) (delLen : Nat) (test : Test) : Test :=
  let useLen := max delLen 1
  let removed := deleteBlocks accepts useLen (Nat.le_max_right delLen 1) 0 true test
  if useLen > limit.value ∧ removed.inData.length ≥ 1 then removeBlocks limit (useLen / 2) removed
  else removed
termination_by delLen
decreasing_by
  have positive := limit.positive
  omega

/-- All occurrences of a symbol that was counted are replaced. -/
def minimizeSymbol (alphaMap : UInt8 → Nat) (test : Test) (i : UInt8) : Test :=
  if i = zeroChar ∨ alphaMap i = 0 then test
  else test.attempt accepts (test.inData.map fun byte => if byte = i then zeroChar else byte)

def minimizeAlphabet (test : Test) : Test :=
  ((List.range 256).map UInt8.ofNat).foldl
    (minimizeSymbol accepts fun i => test.inData.count i) test

/-- A step of the character minimization, which keeps its changes in `tmp_buf` too. -/
def minimizeCharacter (state : Test × List UInt8) (i : Nat) : Test × List UInt8 :=
  let orig := state.2.getD i 0
  let changed := state.2.set i zeroChar
  if orig = zeroChar then state
  else if accepts changed then (⟨state.1.inData.set i zeroChar, true⟩, changed)
  else (state.1, changed.set i orig)

def minimizeCharacters (test : Test) : Test :=
  ((List.range test.inData.length).foldl (minimizeCharacter accepts) (test, test.inData)).1

/-- A pass: after the first one, nothing more is tried if no block could be deleted. -/
def pass (limit : DelLenLimit) (curPass : Nat) (inData : List UInt8) : Test :=
  let removed := removeBlocks accepts limit (lenPow2 (inData.length / trimStartSteps)) ⟨inData, false⟩
  if curPass > 1 ∧ !removed.changedAny then removed
  else minimizeCharacters accepts (minimizeAlphabet accepts removed)

/-- From the label `next_pass` on; `none` where the fuel for the jumps back does not do. -/
def nextPass (limit : DelLenLimit) (fuel : Nat) (curPass : Nat) (inData : List UInt8) :
    Option (List UInt8) :=
  let test := pass accepts limit curPass inData
  if test.changedAny then
    match fuel with
    | 0 => none
    | fuel + 1 => nextPass limit fuel (curPass + 1) test.inData
  else some test.inData

def minimize (limit : DelLenLimit) (fuel : Nat) (inData : List UInt8) : Option (List UInt8) :=
  let setLen := max (lenPow2 (inData.length / tminSetSteps)) tminSetMinSize
  let positive : 0 < setLen := Nat.lt_of_lt_of_le (by decide) (Nat.le_max_right _ tminSetMinSize)
  nextPass accepts limit fuel 1 (normalizeBlocks accepts setLen positive 0 inData)

end

end SbFuzz.Utils.AflTmin
