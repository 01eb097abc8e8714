import SbFuzz.Memory.Bytes

/-! The deterministic stages of `fuzz_one_original`: walking bit flips, small
arithmetics and interesting values, and the predicates by which the later stages
leave out what others are said to cover. Every byte is effective, nothing is
aborted, and an input has a byte at least. -/

set_option autoImplicit false

namespace SbFuzz.Fuzzer.Deterministic

open Memory

/-! ## Numbers -/

def arithMax : Nat := 35

def interesting8 : List Int := [-128, -1, 0, 1, 16, 32, 64, 100, 127]

def interesting16 : List Int :=
  interesting8 ++ [-32768, -129, 128, 255, 256, 512, 1000, 1024, 4096, 32767]

def interesting32 : List Int :=
  interesting16 ++ [-2147483648, -100663046, -32769, 32768, 65535, 65536, 100663045, 2139095040,
    2147483647]

/-- The conversion to an unsigned type of so many bits. -/
def unsigned (bits : Nat) (v : Int) : Nat := (v % 2 ^ bits).toNat

def swap16 (x : Nat) : Nat := (((x % 2 ^ 16) <<< 8) ||| ((x % 2 ^ 16) >>> 8)) % 2 ^ 16

def swap32 (x : Nat) : Nat :=
  (((x % 2 ^ 32) <<< 24) ||| ((x % 2 ^ 32) >>> 24) ||| (((x % 2 ^ 32) <<< 8) &&& 0x00ff0000) |||
    (((x % 2 ^ 32) >>> 8) &&& 0x0000ff00)) % 2 ^ 32

/-! ## What others could have produced -/

/-- The lowest bits that are not set are shifted out. The caller keeps 0 out. -/
def shiftOut (sh xorVal : Nat) : Nat × Nat :=
  if xorVal = 0 ∨ xorVal % 2 = 1 then (sh, xorVal) else shiftOut (sh + 1) (xorVal / 2)
termination_by xorVal
decreasing_by omega

def couldBeBitflip (xorVal : Nat) : Bool :=
  if xorVal = 0 then true
  else
    match shiftOut 0 xorVal with
    | (sh, xorVal) =>
        -- 1-, 2- and 4-bit patterns are said to be fine anywhere.
        if xorVal = 1 ∨ xorVal = 3 ∨ xorVal = 15 then true
        else if sh % 8 ≠ 0 then false
        else decide (xorVal = 0xff ∨ xorVal = 0xffff ∨ xorVal = 0xffffffff)

/-- Unit `i` of so many bits. -/
def unit (bits i value : Nat) : Nat := (value >>> (bits * i)) % 2 ^ bits

/-- The units that differ, the old value and the new one: `diffs` is their number,
`ov` and `nv` the last of them. -/
def differing (bits count oldVal newVal : Nat) : List (Nat × Nat) :=
  ((List.range count).map fun i => (unit bits i oldVal, unit bits i newVal)).filter
    fun (a, b) => a ≠ b

/-- One is the other plus or minus `ARITH_MAX` at most. -/
def near (bits ov nv : Nat) : Bool :=
  (ov + 2 ^ bits - nv) % 2 ^ bits ≤ arithMax || (nv + 2 ^ bits - ov) % 2 ^ bits ≤ arithMax

def couldBeArith (oldVal newVal blen : Nat) : Bool :=
  oldVal == newVal ||
  (match differing 8 blen oldVal newVal with
    | [(ov, nv)] => near 8 ov nv
    | _ => false) ||
  (blen != 1 &&
    ((match differing 16 (blen / 2) oldVal newVal with
      | [(ov, nv)] => near 16 ov nv || near 16 (swap16 ov) (swap16 nv)
      | _ => false) ||
    (blen == 4 && (near 32 oldVal newVal || near 32 (swap32 oldVal) (swap32 newVal)))))

/-- `(old_val & ~(mask << (i * 8))) | (v << (i * 8))`. -/
def insertion (n oldVal i v : Nat) : Nat :=
  (oldVal &&& ((2 ^ 32 - 1) ^^^ ((2 ^ (8 * n) - 1) <<< (8 * i)))) ||| (v <<< (8 * i))

def couldBeInterest (oldVal newVal blen : Nat) (checkLe : Bool) : Bool :=
  oldVal == newVal ||
  ((List.range blen).any fun i => interesting8.any fun v =>
    newVal == insertion 1 oldVal i (unsigned 8 v)) ||
  (!(blen == 2 && !checkLe) &&
    (((List.range (blen - 1)).any fun i => interesting16.any fun v =>
      newVal == insertion 2 oldVal i (unsigned 16 v) ||
        (decide (2 < blen) && newVal == insertion 2 oldVal i (swap16 (unsigned 16 v)))) ||
    (blen == 4 && checkLe && interesting32.any fun v => newVal == unsigned 32 v)))

/-! ## Stages -/

/-- A buffer that a stage comes to. -/
inductive Attempt where
  | executed (buf : List UInt8)
  /-- Said to be covered. -/
  | skipped (buf : List UInt8)

structure State where
  outBuf : List UInt8
  attempts : List Attempt

def commonFuzzStuff (s : State) : State :=
  { s with attempts := s.attempts ++ [.executed s.outBuf] }

/-- `FLIP_BIT`. -/
def flipBit (ar : List UInt8) (b : Nat) : List UInt8 :=
  store 1 ar (b / 8) (load 1 ar (b / 8) ^^^ (128 >>> (b % 8)))

def flipBits (count : Nat) (ar : List UInt8) (b : Nat) : List UInt8 :=
  (List.range count).foldl (fun ar k => flipBit ar (b + k)) ar

/-- So many walking bits. -/
def walkingBits (count : Nat) (s : State) : State :=
  (List.range (8 * s.outBuf.length - (count - 1))).foldl
    (fun s stageCur =>
      let ran := commonFuzzStuff { s with outBuf := flipBits count s.outBuf stageCur }
      { ran with outBuf := flipBits count ran.outBuf stageCur }) s

/-- The word is xored with ones. -/
def flipWord (n : Nat) (buf : List UInt8) (i : Nat) : List UInt8 :=
  store n buf i (load n buf i ^^^ (2 ^ (8 * n) - 1))

/-- So many walking bytes; there is nothing to do in a shorter input. -/
def walkingBytes (n : Nat) (s : State) : State :=
  (List.range (s.outBuf.length + 1 - n)).foldl
    (fun s i =>
      let ran := commonFuzzStuff { s with outBuf := flipWord n s.outBuf i }
      { ran with outBuf := flipWord n ran.outBuf i }) s

/-- A value to put in place of a word. -/
structure Try where
  value : Nat
  covered : Bool

def attempt (n i : Nat) (s : State) (candidate : Try) : State :=
  if candidate.covered then
    { s with attempts := s.attempts ++ [.skipped (store n s.outBuf i candidate.value)] }
  else commonFuzzStuff { s with outBuf := store n s.outBuf i candidate.value }

/-- At every position the word is replaced by what `tries` makes of it, and put
back; there is nothing to do in a shorter input. -/
def replaceWords (n : Nat) (tries : Nat → List Try) (s : State) : State :=
  (List.range (s.outBuf.length + 1 - n)).foldl
    (fun s i =>
      let tried := (tries (load n s.outBuf i)).foldl (attempt n i) s
      { tried with outBuf := store n tried.outBuf i (load n s.outBuf i) }) s

/-- A result that is tried where it affects more than a smaller unit, unless it
could be a product of a bit flip. -/
def arithTry (orig : Nat) (affects : Bool) (value : Nat) : List Try :=
  if affects then [⟨value, couldBeBitflip (orig ^^^ value)⟩] else []

def arith8 (orig : Nat) : List Try :=
  (List.range' 1 arithMax).flatMap fun j =>
    arithTry orig true ((orig + j) % 2 ^ 8) ++ arithTry orig true ((orig + 2 ^ 8 - j) % 2 ^ 8)

def arith16 (orig : Nat) : List Try :=
  (List.range' 1 arithMax).flatMap fun j =>
    arithTry orig (decide ((orig &&& 0xff) + j > 0xff)) ((orig + j) % 2 ^ 16) ++
    arithTry orig (decide ((orig &&& 0xff) < j)) ((orig + 2 ^ 16 - j) % 2 ^ 16) ++
    arithTry orig (decide ((orig >>> 8) + j > 0xff)) (swap16 (swap16 orig + j)) ++
    arithTry orig (decide ((orig >>> 8) < j)) (swap16 (swap16 orig + 2 ^ 16 - j))

def arith32 (orig : Nat) : List Try :=
  (List.range' 1 arithMax).flatMap fun j =>
    arithTry orig (decide ((orig &&& 0xffff) + j > 0xffff)) ((orig + j) % 2 ^ 32) ++
    arithTry orig (decide ((orig &&& 0xffff) < j)) ((orig + 2 ^ 32 - j) % 2 ^ 32) ++
    arithTry orig (decide ((swap32 orig &&& 0xffff) + j > 0xffff)) (swap32 (swap32 orig + j)) ++
    arithTry orig (decide ((swap32 orig &&& 0xffff) < j)) (swap32 (swap32 orig + 2 ^ 32 - j))

def int8 (orig : Nat) : List Try :=
  interesting8.map fun v =>
    ⟨unsigned 8 v, couldBeBitflip (orig ^^^ unsigned 8 v) || couldBeArith orig (unsigned 8 v) 1⟩

/-- A value that is tried unless it could be a product of the stages before. -/
def interestTry (orig blen : Nat) (checkLe : Bool) (value : Nat) : Try :=
  ⟨value, couldBeBitflip (orig ^^^ value) || couldBeArith orig value blen ||
    couldBeInterest orig value blen checkLe⟩

def int16 (orig : Nat) : List Try :=
  interesting16.flatMap fun v =>
    interestTry orig 2 false (unsigned 16 v) ::
      if unsigned 16 v ≠ swap16 (unsigned 16 v) then
        [interestTry orig 2 true (swap16 (unsigned 16 v))]
      else []

def int32 (orig : Nat) : List Try :=
  interesting32.flatMap fun v =>
    interestTry orig 4 false (unsigned 32 v) ::
      if unsigned 32 v ≠ swap32 (unsigned 32 v) then
        [interestTry orig 4 true (swap32 (unsigned 32 v))]
      else []

/-- The run for a clean checksum and the bit flips. -/
def simpleBitflip (s : State) : State :=
  walkingBytes 4 (walkingBytes 2 (walkingBytes 1
    (walkingBits 4 (walkingBits 2 (walkingBits 1 (commonFuzzStuff s))))))

def arithmeticIncDec (noArith : Bool) (s : State) : State :=
  if noArith then s else replaceWords 4 arith32 (replaceWords 2 arith16 (replaceWords 1 arith8 s))

def interestingValues (noArith : Bool) (s : State) : State :=
  if noArith then replaceWords 1 int8 s
  else replaceWords 4 int32 (replaceWords 2 int16 (replaceWords 1 int8 s))

/-- All that the deterministic stages come to; `no_arith` is `AFL_NO_ARITH`. -/
def attempts (noArith : Bool) (input : List UInt8) : List Attempt :=
  (interestingValues noArith (arithmeticIncDec noArith (simpleBitflip ⟨input, []⟩))).attempts

end SbFuzz.Fuzzer.Deterministic
