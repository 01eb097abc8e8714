import SbFuzz.Instrumentation.SplitCompares

/-! The split-compares pass on floating-point numbers: a comparison becomes comparisons
of the signs, the exponents and the fractions. -/

set_option autoImplicit false

namespace SbFuzz.Instrumentation

open SbFuzz.Systems.ControlFlow

/-! ## The layout of a format -/

section

variable (sizeInBits : Nat)

def precision : Nat :=
  if sizeInBits = 32 then 24
  else if sizeInBits = 64 then 53
  else if sizeInBits = 128 then 113
  else if sizeInBits = 16 then 11
  else if sizeInBits = 80 then 65
  else sizeInBits - 8

def shiftRExponent : Nat := precision sizeInBits - 1

def maskFraction : Nat :=
  1 <<< (shiftRExponent sizeInBits - 1) ||| (1 <<< (shiftRExponent sizeInBits - 1) - 1)

def maskExponent : Nat := 1 <<< (sizeInBits - precision sizeInBits) - 1

def exTySizeBytes : Nat := (sizeInBits - precision sizeInBits + 7) >>> 3

def frTySizeBytes : Nat := (precision sizeInBits - 1 + 7) >>> 3

/-- Of sizes from 1 to 256 bytes. -/
def nextPowerOfTwo (size : Nat) : Nat :=
  let size := size - 1
  let size := size ||| size >>> 1
  let size := size ||| size >>> 2
  let size := size ||| size >>> 4
  size + 1

def intExponentTy : Nat := nextPowerOfTwo (exTySizeBytes sizeInBits) <<< 3

def intFractionTy : Nat := nextPowerOfTwo (frTySizeBytes sizeInBits) <<< 3

def nanLowend : Nat := maskExponent sizeInBits <<< precision sizeInBits

def minusZero : Nat := 1 <<< (sizeInBits - 1)

end

/-! ## The parts of an operand -/

section

variable {w : Nat}

def isOperandNan (bpre : Value w w) : Value w 1 :=
  .icmp .ugt (.shl bpre 1) (.const (.ofNat w (nanLowend w)))

/-- The operand with zero for minus zero. -/
def bOp (bpre : Value w w) : Value w w :=
  .select (.icmp .eq bpre (.const (.ofNat w (minusZero w)))) (.const 0) bpre

def signOf (bpre : Value w w) : Value w 1 := .trunc (.lshr (bOp bpre) (w - 1)) 1

def exponentOf (bpre : Value w w) : Value w (intExponentTy w) :=
  let truncated := .trunc (.lshr (bOp bpre) (shiftRExponent w)) (intExponentTy w)
  if w - precision w < exTySizeBytes w * 8 then
    .and truncated (.ofNat (intExponentTy w) (maskExponent w))
  else truncated

def maskedFraction (bpre : Value w w) : Value w w :=
  if precision w - 1 < frTySizeBytes w * 8 then .and (bOp bpre) (.ofNat w (maskFraction w))
  else bOp bpre

def compareExponents (pred : ICmp) : Inst w :=
  .icmp pred (exponentOf .operand0) (exponentOf .operand1)

def compareFractions (pred : ICmp) : Inst w :=
  if intFractionTy w < w then
    .icmp pred (.trunc (maskedFraction .operand0) (intFractionTy w))
      (.trunc (maskedFraction .operand1) (intFractionTy w))
  else .icmp pred (maskedFraction .operand0) (maskedFraction .operand1)

def isNan : Inst w := .bit (.or (isOperandNan .operand0) (isOperandNan .operand1))

end

/-! ## The comparisons -/

def FCmp.nanResult (pred : FCmp) : Bool := pred = .one || pred = .une

section

variable {w : Nat} (bb endBb : Label) (fresh : Reg)

/-- The code of `nonan_bb`: `t_s0`, `t_s1` and `icmp_sign_bit`. -/
def signCode : List (Reg × Inst w) :=
  [(fresh + 1, .bit (signOf .operand0)), (fresh + 2, .bit (signOf .operand1)),
    (fresh + 3, .icmp .eq (signOf .operand0) (signOf .operand1))]

/-- The blocks are `end_bb`, `nonan_bb`, `signequal_bb` and `middle_bb`. -/
def floatEqualityRegion (pred : FCmp) (equal : Bool) : Region (Inst w) where
  code := [(fresh, isNan)]
  exit := .branch fresh endBb (endBb + 1)
  nodes :=
    [⟨none, signCode fresh, .branch (fresh + 3) (endBb + 2) endBb⟩,
      ⟨none, [(fresh + 4, compareExponents (if equal then .eq else .ne))],
        if equal then .branch (fresh + 4) (endBb + 3) endBb
        else .branch (fresh + 4) endBb (endBb + 3)⟩,
      ⟨none, [(fresh + 5, compareFractions (if equal then .eq else .ne))], .goto endBb⟩]
  incoming :=
    [(endBb + 1, .const !equal), (endBb + 2, if equal then .const false else .reg (fresh + 4)),
      (endBb + 3, .reg (fresh + 5)), (bb, .const pred.nanResult)]
  regs := 6

/-- The blocks are `end_bb`, `nonan_bb`, `signequal_bb`, `middle_bb`, `signequal2_bb`,
`middle2_bb`, `negative_bb` and `positive_bb`. -/
def floatOrderRegion (pred : FCmp) (greater : Bool) : Region (Inst w) where
  code := [(fresh, isNan)]
  exit := .branch fresh endBb (endBb + 1)
  nodes :=
    [⟨none, signCode fresh, .branch (fresh + 3) (endBb + 2) endBb⟩,
      ⟨none, [(fresh + 4, compareExponents .eq)], .branch (fresh + 4) (endBb + 3) (endBb + 4)⟩,
      ⟨none, [], .branch (fresh + 1) (endBb + 6) (endBb + 7)⟩,
      ⟨none, [(fresh + 5, .bit (.xor (.icmp (if greater then .ugt else .ult)
        (exponentOf .operand0) (exponentOf .operand1)) (signOf .operand0)))], .goto endBb⟩,
      ⟨some ⟨fresh + 8, [(endBb + 6, .reg (fresh + 6)), (endBb + 7, .reg (fresh + 7))]⟩, [],
        .goto endBb⟩,
      ⟨none, [(fresh + 6, compareFractions (if greater then .ult else .ugt))], .goto (endBb + 5)⟩,
      ⟨none, [(fresh + 7, compareFractions (if greater then .ugt else .ult))], .goto (endBb + 5)⟩]
  incoming :=
    [(endBb + 1, .reg (if greater then fresh + 2 else fresh + 1)), (endBb + 4, .reg (fresh + 5)),
      (endBb + 5, .reg (fresh + 8)), (bb, .const pred.nanResult)]
  regs := 9

/-- Nothing for the predicates that are left for `simplifyFPCompares`. -/
def floatRegion (pred : FCmp) : Option (Region (Inst w)) :=
  match pred with
  | .ueq | .oeq => some (floatEqualityRegion bb endBb fresh pred true)
  | .one | .une => some (floatEqualityRegion bb endBb fresh pred false)
  | .ogt | .ugt => some (floatOrderRegion bb endBb fresh pred true)
  | .olt | .ult => some (floatOrderRegion bb endBb fresh pred false)
  | _ => none

end

/-! ## The pass -/

def FCmp.orEquals : FCmp → Option FCmp
  | .uge => some .ugt
  | .oge => some .ogt
  | .ule => some .ult
  | .ole => some .olt
  | _ => none

section

variable {w : Nat}

/-- The comparisons with a predicate that is asked for, in the order of the code. -/
def fcomps (wanted : FCmp → Bool) (g : Graph (Inst w)) : List Reg :=
  (g.nodes.flatMap Node.code).filterMap fun inst =>
    match inst.2 with
    | .fcmp pred => if wanted pred then some inst.1 else none
    | _ => none

/-- Replaces a comparison by the region that is made for its block and its predicate. -/
def replaceFcmp (region : Label → Label → Reg → FCmp → Option (Region (Inst w)))
    (g : Graph (Inst w)) (c : Reg) : Graph (Inst w) :=
  match g.parent c, g.inst c with
  | some bb, some (.fcmp pred) =>
      match region bb g.nodes.length g.freshReg pred with
      | some region => g.expand bb c region
      | none => g
  | _, _ => g

def orEqualsFloatRegion (bb endBb : Label) (fresh : Reg) (pred : FCmp) :
    Option (Region (Inst w)) :=
  pred.orEquals.map fun newPred =>
    orEqualsRegion bb endBb fresh (.fcmp newPred) (.fcmp .oeq)

/-- Only comparisons of which one operand is a constant are taken. -/
def simplifyFPCompares (oneConstant : Bool) (g : Graph (Inst w)) : Graph (Inst w) :=
  if oneConstant then
    (fcomps (fun pred => pred.orEquals.isSome) g).foldl (replaceFcmp orEqualsFloatRegion) g
  else g

/-- Numbers of more than 64 bits are left alone. -/
def splitFPCompares (g : Graph (Inst w)) : Graph (Inst w) :=
  if 64 < w then g
  else (fcomps (fun pred => pred.orEquals.isNone) g).foldl (replaceFcmp floatRegion) g

/-- The part of the pass that `AFL_LLVM_LAF_SPLIT_FLOATS` asks for. -/
def splitFloats (oneConstant : Bool) (g : Graph (Inst w)) : Graph (Inst w) :=
  splitFPCompares (simplifyFPCompares oneConstant g)

end

end SbFuzz.Instrumentation
