import SbFuzz.Instrumentation.CompareInstructions

/-! The split-compares pass on integers: a comparison is simplified to an unsigned or
an equality one, which is split into comparisons of halves until they are narrow. -/

set_option autoImplicit false

namespace SbFuzz.Instrumentation

open SbFuzz.Systems.ControlFlow

section

variable {w : Nat}

/-- The last element of the worklist is the head of the list. -/
abbrev CmpWorklist := List Reg

/-- `none` where the function returns false and the comparison stays. -/
def ICmp.orEquals : ICmp → Option ICmp
  | .uge => some .ugt
  | .sge => some .sgt
  | .ule => some .ult
  | .sle => some .slt
  | _ => none

/-- The blocks are `end_bb`, where the code goes on, and `middle_bb`. -/
def orEqualsRegion {Op : Type} (bb endBb : Label) (fresh : Reg) (icmpNp icmpEq : Op) :
    Region Op where
  code := [(fresh, icmpNp)]
  exit := .branch fresh endBb (endBb + 1)
  nodes := [⟨none, [(fresh + 1, icmpEq)], .goto endBb⟩]
  incoming := [(endBb + 1, .reg (fresh + 1)), (bb, .const true)]
  regs := 2

/-- The blocks are `end_bb`, `sign_bb` and `middle_bb`. -/
def signedRegion {n : Nat} (endBb : Label) (fresh : Reg) (pred : ICmp) (left right : Value w n) :
    Region (Inst w) where
  code := [(fresh, .icmp .eq (.trunc (.lshr left (n - 1)) 1) (.trunc (.lshr right (n - 1)) 1))]
  exit := .branch fresh (endBb + 2) (endBb + 1)
  nodes :=
    [⟨none, [(fresh + 1, .icmp (if pred = .sgt then .ult else .ugt)
        (.trunc (.lshr left (n - 1)) 1) (.trunc (.lshr right (n - 1)) 1))], .goto endBb⟩,
      ⟨none, [(fresh + 2, .icmp (if pred = .sgt then .ugt else .ult) left right)], .goto endBb⟩]
  incoming := [(endBb + 2, .reg (fresh + 2)), (endBb + 1, .reg (fresh + 1))]
  regs := 3

def simplifySignedCompare (g : Graph (Inst w)) (icmpInst : Reg) (worklist : CmpWorklist) :
    Option (Graph (Inst w) × CmpWorklist) :=
  (g.parent icmpInst).bind fun bb =>
    (g.inst icmpInst).bind fun inst =>
      match inst with
      | .icmp pred left right =>
          some (g.expand bb icmpInst (signedRegion g.nodes.length g.freshReg pred left right),
            (g.freshReg + 2) :: worklist)
      | _ => none

def simplifyOrEqualsCompare (g : Graph (Inst w)) (icmpInst : Reg) (worklist : CmpWorklist) :
    Option (Graph (Inst w) × CmpWorklist) :=
  (g.parent icmpInst).bind fun bb =>
    (g.inst icmpInst).bind fun inst =>
      match inst with
      | .icmp pred left right =>
          pred.orEquals.bind fun newPred =>
            let icmpNp := g.freshReg
            let icmpEq := g.freshReg + 1
            let split := g.expand bb icmpInst (orEqualsRegion bb g.nodes.length g.freshReg
              (.icmp newPred left right) (.icmp .eq left right))
            if newPred = .sgt ∨ newPred = .slt then
              (simplifySignedCompare split icmpNp worklist).map
                fun (simplified, worklist) => (simplified, icmpEq :: worklist)
            else some (split, icmpEq :: worklist)
      | _ => none

section

variable {n : Nat} (left right : Value w n)

def Value.high (value : Value w n) : Value w (n / 2) := .trunc (.lshr value (n / 2)) (n / 2)

def Value.low (value : Value w n) : Value w (n / 2) := .trunc value (n / 2)

/-- For `==` and `!=`; the blocks are `end_bb` and `cmp_low_bb`. -/
def equalityRegion (bb endBb : Label) (fresh : Reg) (pred : ICmp) : Region (Inst w) where
  code := [(fresh, .icmp pred left.high right.high)]
  exit := if pred = .eq then .branch fresh (endBb + 1) endBb else .branch fresh endBb (endBb + 1)
  nodes := [⟨none, [(fresh + 1, .icmp pred left.low right.low)], .goto endBb⟩]
  incoming := [(endBb + 1, .reg (fresh + 1)), (bb, .const (pred ≠ .eq))]
  regs := 2

/-- For `<` and `>`, of which `inverse` is the other one; the blocks are `end_bb`,
`inv_cmp_bb` and `cmp_low_bb`. -/
def orderRegion (bb endBb : Label) (fresh : Reg) (pred inverse : ICmp) : Region (Inst w) where
  code := [(fresh, .icmp pred left.high right.high)]
  exit := .branch fresh endBb (endBb + 1)
  nodes :=
    [⟨none, [(fresh + 1, .icmp inverse left.high right.high)], .branch (fresh + 1) endBb (endBb + 2)⟩,
      ⟨none, [(fresh + 2, .icmp pred left.low right.low)], .goto endBb⟩]
  incoming := [(endBb + 2, .reg (fresh + 2)), (bb, .const true), (endBb + 1, .const false)]
  regs := 3

end

/-- Without an inverse the pass would insert a null instruction. -/
def ICmp.inverse : ICmp → Option ICmp
  | .ugt => some .ult
  | .ult => some .ugt
  | _ => none

/-- The halves, when they are to be split on; the comparison of the low ones is last. -/
def pushHalves (targetBitwidth n : Nat) (icmpHigh icmpLow : Reg) (worklist : CmpWorklist) :
    CmpWorklist :=
  if targetBitwidth < n / 2 then icmpLow :: icmpHigh :: worklist else worklist

/-- No result stands for an instruction that the pass cannot split. -/
def splitCompare (targetBitwidth : Nat) (g : Graph (Inst w)) (cmpInst : Reg)
    (worklist : CmpWorklist) : Option (Graph (Inst w) × CmpWorklist) :=
  (g.parent cmpInst).bind fun bb =>
    (g.inst cmpInst).bind fun inst =>
      match inst with
      | @Inst.icmp _ n pred left right =>
          if n = targetBitwidth then some (g, worklist)
          else if pred = .eq ∨ pred = .ne then
            some (g.expand bb cmpInst
                (equalityRegion left right bb g.nodes.length g.freshReg pred),
              pushHalves targetBitwidth n g.freshReg (g.freshReg + 1) worklist)
          else
            pred.inverse.map fun inverse =>
              (g.expand bb cmpInst
                  (orderRegion left right bb g.nodes.length g.freshReg pred inverse),
                pushHalves targetBitwidth n g.freshReg (g.freshReg + 2)
                  ((g.freshReg + 1) :: worklist))
      | _ => none

/-- The loop over the worklist; `none` also when the fuel runs out. -/
def splitLoop (targetBitwidth bitw : Nat) :
    Nat → Graph (Inst w) → CmpWorklist → Option (Graph (Inst w))
  | _, g, [] => some g
  | 0, _, _ :: _ => none
  | fuel + 1, g, cmp :: worklist =>
      if targetBitwidth < bitw then
        (splitCompare targetBitwidth g cmp worklist).bind fun (g, worklist) =>
          splitLoop targetBitwidth bitw fuel g worklist
      else splitLoop targetBitwidth bitw fuel g worklist

/-- What is left of the comparison before it is split. -/
def simplify (g : Graph (Inst w)) (i : Reg) : Option (Graph (Inst w) × CmpWorklist) :=
  (g.inst i).bind fun inst =>
    match inst with
    | .icmp pred _ _ =>
        if pred = .uge ∨ pred = .sge ∨ pred = .ule ∨ pred = .sle then
          simplifyOrEqualsCompare g i []
        else if pred = .sgt ∨ pred = .slt then simplifySignedCompare g i []
        else some (g, [i])
    | _ => none

def simplifyAndSplit (targetBitwidth fuel : Nat) (g : Graph (Inst w)) (i : Reg) :
    Option (Graph (Inst w)) :=
  (g.inst i).bind fun inst =>
    match inst with
    | @Inst.icmp _ bitw _ _ _ =>
        (simplify g i).bind fun (g, worklist) => splitLoop targetBitwidth bitw fuel g worklist
    | _ => some g

/-- A function of one comparison, whose result is in register 0. -/
def compareFunction (inst : Inst w) : Graph (Inst w) := ⟨[⟨none, [(0, inst)], .ret⟩], 1⟩

end

end SbFuzz.Instrumentation
