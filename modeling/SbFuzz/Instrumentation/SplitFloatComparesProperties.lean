import SbFuzz.Instrumentation.SplitComparesProperties
import SbFuzz.Instrumentation.SplitFloatCompares

/-! What the pass puts in the place of a floating-point comparison. -/

set_option autoImplicit false

namespace SbFuzz.Instrumentation

open SbFuzz.Systems.ControlFlow SbFuzz.Numeric

/-! ## Layouts -/

/-- What the pass computes for a size is the layout of the format. -/
structure Layout (format : FloatFormat) : Prop where
  small : format.width ≤ 64
  exponents : 0 < format.exponentBits
  fractions : 0 < format.fractionBits
  exponentSize : format.width - precision format.width = format.exponentBits
  shiftR : shiftRExponent format.width = format.fractionBits
  maskFraction : maskFraction format.width = 2 ^ format.fractionBits - 1
  maskExponent : maskExponent format.width = 2 ^ format.exponentBits - 1
  nanLowend : nanLowend format.width =
    (2 ^ format.exponentBits - 1) * 2 ^ (format.fractionBits + 1)
  minusZero : minusZero format.width = 2 ^ (format.exponentBits + format.fractionBits)
  exponentTy : format.exponentBits ≤ intExponentTy format.width
  exponentMask : format.exponentBits < exTySizeBytes format.width * 8 ∨
    intExponentTy format.width = format.exponentBits
  fractionTy : ¬ intFractionTy format.width < format.width
  fractionMask : precision format.width - 1 < frTySizeBytes format.width * 8

theorem layout_half : Layout .half := by
  constructor <;> decide

theorem layout_float : Layout .float := by
  constructor <;> decide

theorem layout_double : Layout .double := by
  constructor <;> decide

/-! ## The parts of an operand -/

section

variable {format : FloatFormat}

/-- The pattern with zero for minus zero. -/
def normal (format : FloatFormat) (bits : Nat) : Nat :=
  if bits = 2 ^ (format.exponentBits + format.fractionBits) then 0 else bits

variable (layout : Layout format) {x y : BitVec format.width}

theorem width_eq : format.width = format.exponentBits + format.fractionBits + 1 := by
  unfold FloatFormat.width
  omega

theorem two_pow_width :
    2 ^ format.width = 2 * 2 ^ (format.exponentBits + format.fractionBits) := by
  rw [width_eq, Nat.pow_succ']

include layout in
theorem bOp_toNat (bpre : Value format.width format.width) :
    ((bOp bpre).eval x y).toNat = normal format (bpre.eval x y).toNat := by
  have zero : 2 ^ (format.exponentBits + format.fractionBits) < 2 ^ format.width :=
    Nat.pow_lt_pow_right (by decide) (by rw [width_eq]; omega)
  have same : bpre.eval x y = BitVec.ofNat format.width (minusZero format.width) ↔
      (bpre.eval x y).toNat = 2 ^ (format.exponentBits + format.fractionBits) := by
    rw [← BitVec.toNat_inj, BitVec.toNat_ofNat, layout.minusZero, Nat.mod_eq_of_lt zero]
  simp only [bOp, Value.eval, ICmp.holds, normal, same]
  split <;> split <;> simp_all

theorem normal_lt (format : FloatFormat) {bits : Nat} (below : bits < 2 ^ format.width) :
    normal format bits < 2 ^ format.width := by
  unfold normal
  split
  · exact Nat.two_pow_pos _
  · exact below

include layout in
theorem isOperandNan_eval (bpre : Value format.width format.width) :
    (isOperandNan bpre).eval x y = .ofBool (format.isNaN (bpre.eval x y).toNat) := by
  have exponents := Nat.two_pow_pos format.exponentBits
  have below : (2 ^ format.exponentBits - 1) * 2 ^ (format.fractionBits + 1) < 2 ^ format.width := by
    have product : 2 ^ format.width = 2 ^ format.exponentBits * 2 ^ (format.fractionBits + 1) := by
      rw [width_eq, ← Nat.pow_add, Nat.add_assoc]
    rw [product]
    exact Nat.mul_lt_mul_of_pos_right (Nat.sub_one_lt (Nat.ne_of_gt exponents)) (Nat.two_pow_pos _)
  have shifted : ((bpre.eval x y) <<< 1).toNat = 2 * format.unsigned (bpre.eval x y).toNat := by
    rw [BitVec.toNat_shiftLeft, Nat.shiftLeft_eq, two_pow_width, Nat.pow_one, Nat.mul_comm,
      Nat.mul_mod_mul_left]
    rfl
  simp only [isOperandNan, Value.eval, icmp_ugt, FloatFormat.isNaN_eq, shifted, BitVec.toNat_ofNat,
    layout.nanLowend, Nat.mod_eq_of_lt below]
  refine congrArg BitVec.ofBool (decide_eq_decide.mpr ?_)
  rw [FloatFormat.infinity, Nat.pow_succ', Nat.mul_left_comm, Nat.mul_lt_mul_left (by decide)]

include layout in
theorem signOf_toNat (bpre : Value format.width format.width) :
    ((signOf bpre).eval x y).toNat =
      if format.negative (normal format (bpre.eval x y).toNat) then 1 else 0 := by
  have wide : 0 < format.width := by rw [width_eq]; exact Nat.succ_pos _
  have below := normal_lt format (bpre.eval x y).isLt
  rw [two_pow_width, ← Nat.pow_succ'] at below
  have size : format.width - 1 = format.exponentBits + format.fractionBits := by
    rw [width_eq, Nat.add_sub_cancel]
  rw [signOf, sign_toNat wide, bOp_toNat layout, FloatFormat.negative_eq below, size]
  simp only [decide_eq_true_eq]

include layout in
theorem exponentOf_toNat (bpre : Value format.width format.width) :
    ((exponentOf bpre).eval x y).toNat =
      format.exponent (normal format (bpre.eval x y).toNat) := by
  have mask : 2 ^ format.exponentBits - 1 < 2 ^ intExponentTy format.width :=
    Nat.lt_of_lt_of_le (Nat.sub_one_lt (Nat.ne_of_gt (Nat.two_pow_pos _)))
      (Nat.pow_le_pow_right (by decide) layout.exponentTy)
  unfold exponentOf
  rw [layout.exponentSize]
  split
  · simp only [Value.eval, BitVec.toNat_and, BitVec.toNat_setWidth, BitVec.toNat_ushiftRight,
      bOp_toNat layout, layout.shiftR, layout.maskExponent, BitVec.toNat_ofNat,
      Nat.mod_eq_of_lt mask, Nat.and_two_pow_sub_one_eq_mod, Nat.shiftRight_eq_div_pow]
    exact Nat.mod_mod_of_dvd _ (Nat.pow_dvd_pow 2 layout.exponentTy)
  · next unmasked =>
    have exactly := layout.exponentMask.resolve_left unmasked
    simp only [Value.eval, BitVec.toNat_setWidth, BitVec.toNat_ushiftRight, bOp_toNat layout,
      layout.shiftR, Nat.shiftRight_eq_div_pow, exactly]
    rfl

include layout in
theorem maskedFraction_toNat (bpre : Value format.width format.width) :
    ((maskedFraction bpre).eval x y).toNat =
      format.fraction (normal format (bpre.eval x y).toNat) := by
  have mask : 2 ^ format.fractionBits - 1 < 2 ^ format.width :=
    Nat.lt_of_lt_of_le (Nat.sub_one_lt (Nat.ne_of_gt (Nat.two_pow_pos _)))
      (Nat.pow_le_pow_right (by decide) (Nat.le_add_left _ _))
  simp only [maskedFraction, if_pos layout.fractionMask, Value.eval, BitVec.toNat_and,
    bOp_toNat layout, layout.maskFraction, BitVec.toNat_ofNat, Nat.mod_eq_of_lt mask,
    Nat.and_two_pow_sub_one_eq_mod]
  rfl

end

/-! ## What the regions deliver -/

section

variable {w : Nat} {eval : Inst w → Bool} {g : Graph (Inst w)} {bb : Label} {c : Reg}
  {node : Node (Inst w)} {pred : FCmp}

def sameSigns : Inst w := .icmp .eq (signOf .operand0) (signOf .operand1)

def equalityValue (eval : Inst w → Bool) (pred : FCmp) (equal : Bool) : Bool :=
  if eval isNan then pred.nanResult
  else if eval sameSigns then
    if equal then eval (compareExponents .eq) && eval (compareFractions .eq)
    else eval (compareExponents .ne) || eval (compareFractions .ne)
  else !equal

theorem floatEquality_delivers (found : g.nodes[bb]? = some node) (equal : Bool) :
    (floatEqualityRegion bb g.nodes.length g.freshReg pred equal).Delivers eval
      (g.expand bb c (floatEqualityRegion bb g.nodes.length g.freshReg pred equal)) bb
      g.nodes.length g.freshReg (equalityValue eval pred equal) := by
  have known := (List.getElem?_eq_some_iff.mp found).1
  have away1 : bb ≠ g.nodes.length + 1 := Nat.ne_of_lt (Nat.lt_add_right 1 known)
  have away2 : bb ≠ g.nodes.length + 2 := Nat.ne_of_lt (Nat.lt_add_right 2 known)
  have away3 : bb ≠ g.nodes.length + 3 := Nat.ne_of_lt (Nat.lt_add_right 3 known)
  intro env
  cases nan : eval isNan with
  | true =>
      refine ⟨g.nodes.length, bb, _, ?_, .refl, ?_, agree_exec ?_⟩
      · simp [floatEqualityRegion, Exit.next, exec, nan]
      · simp [floatEqualityRegion, equalityValue, Source.get, away1, away2, away3, nan]
      · simp [floatEqualityRegion]
  | false =>
      cases signs : eval sameSigns with
      | false =>
          refine ⟨g.nodes.length + 1, g.nodes.length + 1, _, ?_,
            Graph.steps_plain (Graph.expand_region found 0) ?_ .refl, ?_,
            (agree_exec ?_).trans (agree_exec ?_)⟩
          · simp [floatEqualityRegion, Exit.next, exec, nan]
          · rw [sameSigns] at signs
            simp [signCode, Exit.next, exec, signs]
          · simp [floatEqualityRegion, equalityValue, Source.get, nan, signs]
          · simp [floatEqualityRegion]
          · simp [signCode]
      | true =>
          rw [sameSigns] at signs
          -- The fractions are compared unless the exponents decide.
          by_cases decided : eval (compareExponents (if equal then .eq else .ne)) = !equal
          · refine ⟨g.nodes.length + 1, g.nodes.length + 2, _, ?_,
              Graph.steps_plain (Graph.expand_region found 0) ?_
                (Graph.steps_plain (Graph.expand_region found 1) ?_ .refl), ?_,
              ((agree_exec ?_).trans (agree_exec ?_)).trans (agree_exec ?_)⟩
            · simp [floatEqualityRegion, Exit.next, exec, nan]
            · simp [signCode, Exit.next, exec, signs]
            · cases equal <;> simp_all [Exit.next, exec]
            · cases equal <;>
                simp_all [floatEqualityRegion, equalityValue, sameSigns, Source.get, exec]
            · simp [floatEqualityRegion]
            · simp [signCode]
            · simp
          · refine ⟨g.nodes.length + 1, g.nodes.length + 3, _, ?_,
              Graph.steps_plain (Graph.expand_region found 0) ?_
                (Graph.steps_plain (Graph.expand_region found 1) ?_
                  (Graph.steps_plain (Graph.expand_region found 2) rfl .refl)), ?_,
              (((agree_exec ?_).trans (agree_exec ?_)).trans (agree_exec ?_)).trans
                (agree_exec ?_)⟩
            · simp [floatEqualityRegion, Exit.next, exec, nan]
            · simp [signCode, Exit.next, exec, signs]
            · cases equal <;> simp_all [Exit.next, exec]
            · cases equal <;>
                simp_all [floatEqualityRegion, equalityValue, sameSigns, Source.get, exec]
            · simp [floatEqualityRegion]
            · simp [signCode]
            · simp
            · simp

def orderValue (eval : Inst w → Bool) (pred : FCmp) (greater : Bool) : Bool :=
  if eval isNan then pred.nanResult
  else if eval sameSigns then
    if eval (compareExponents .eq) then
      if eval (.bit (signOf .operand0)) then
        eval (compareFractions (if greater then .ult else .ugt))
      else eval (compareFractions (if greater then .ugt else .ult))
    else eval (.bit (.xor (.icmp (if greater then .ugt else .ult) (exponentOf .operand0)
      (exponentOf .operand1)) (signOf .operand0)))
  else eval (.bit (signOf (if greater then .operand1 else .operand0)))

theorem floatOrder_delivers (found : g.nodes[bb]? = some node) (greater : Bool) :
    (floatOrderRegion bb g.nodes.length g.freshReg pred greater).Delivers eval
      (g.expand bb c (floatOrderRegion bb g.nodes.length g.freshReg pred greater)) bb
      g.nodes.length g.freshReg (orderValue eval pred greater) := by
  have known := (List.getElem?_eq_some_iff.mp found).1
  have away1 : bb ≠ g.nodes.length + 1 := Nat.ne_of_lt (Nat.lt_add_right 1 known)
  have away4 : bb ≠ g.nodes.length + 4 := Nat.ne_of_lt (Nat.lt_add_right 4 known)
  have away5 : bb ≠ g.nodes.length + 5 := Nat.ne_of_lt (Nat.lt_add_right 5 known)
  intro env
  cases nan : eval isNan with
  | true =>
      refine ⟨g.nodes.length, bb, _, ?_, .refl, ?_, agree_exec ?_⟩
      · simp [floatOrderRegion, Exit.next, exec, nan]
      · simp [floatOrderRegion, orderValue, Source.get, away1, away4, away5, nan]
      · simp [floatOrderRegion]
  | false =>
      cases signs : eval sameSigns with
      | false =>
          refine ⟨g.nodes.length + 1, g.nodes.length + 1, _, ?_,
            Graph.steps_plain (Graph.expand_region found 0) ?_ .refl, ?_,
            (agree_exec ?_).trans (agree_exec ?_)⟩
          · simp [floatOrderRegion, Exit.next, exec, nan]
          · rw [sameSigns] at signs
            simp [signCode, Exit.next, exec, signs]
          · cases greater <;>
              simp [floatOrderRegion, orderValue, Source.get, signCode, exec, nan, signs]
          · simp [floatOrderRegion]
          · simp [signCode]
      | true =>
          rw [sameSigns] at signs
          cases exponents : eval (compareExponents .eq) with
          | false =>
              refine ⟨g.nodes.length + 1, g.nodes.length + 4, _, ?_,
                Graph.steps_plain (Graph.expand_region found 0) ?_
                  (Graph.steps_plain (Graph.expand_region found 1) ?_
                    (Graph.steps_plain (Graph.expand_region found 3) rfl .refl)), ?_,
                (((agree_exec ?_).trans (agree_exec ?_)).trans (agree_exec ?_)).trans
                  (agree_exec ?_)⟩
              · simp [floatOrderRegion, Exit.next, exec, nan]
              · simp [signCode, Exit.next, exec, signs]
              · simp [Exit.next, exec, exponents]
              · simp [floatOrderRegion, orderValue, sameSigns, Source.get, exec, nan, signs, exponents]
              · simp [floatOrderRegion]
              · simp [signCode]
              · simp
              · simp
          | true =>
              cases negative : eval (.bit (signOf .operand0)) with
              | true =>
                  refine ⟨g.nodes.length + 1, g.nodes.length + 5, _, ?_,
                    Graph.steps_plain (Graph.expand_region found 0) ?_
                      (Graph.steps_plain (Graph.expand_region found 1) ?_
                        (Graph.steps_plain (Graph.expand_region found 2) ?_
                          (Graph.steps_plain (Graph.expand_region found 5) rfl
                            (Graph.steps_phi (eval (compareFractions (if greater then .ult else .ugt)))
                              (Graph.expand_region found 4) ?_ rfl .refl)))),
                    ?_, (((((agree_exec ?_).trans (agree_exec ?_)).trans (agree_exec ?_)).trans
                      (agree_exec ?_)).trans (agree_exec ?_)).trans (agree_update ?_)⟩
                  · simp [floatOrderRegion, Exit.next, exec, nan]
                  · simp [signCode, Exit.next, exec, signs]
                  · simp [Exit.next, exec, exponents]
                  · simp [floatOrderRegion, signCode, Exit.next, exec, negative]
                  · simp [Source.get, exec]
                  · simp [floatOrderRegion, orderValue, sameSigns, Source.get, exec, nan, signs,
                      exponents, negative]
                  · simp [floatOrderRegion]
                  · simp [signCode]
                  · simp
                  · simp
                  · simp
                  · exact Nat.le_add_right _ _
              | false =>
                  refine ⟨g.nodes.length + 1, g.nodes.length + 5, _, ?_,
                    Graph.steps_plain (Graph.expand_region found 0) ?_
                      (Graph.steps_plain (Graph.expand_region found 1) ?_
                        (Graph.steps_plain (Graph.expand_region found 2) ?_
                          (Graph.steps_plain (Graph.expand_region found 6) rfl
                            (Graph.steps_phi (eval (compareFractions (if greater then .ugt else .ult)))
                              (Graph.expand_region found 4) ?_ rfl .refl)))),
                    ?_, (((((agree_exec ?_).trans (agree_exec ?_)).trans (agree_exec ?_)).trans
                      (agree_exec ?_)).trans (agree_exec ?_)).trans (agree_update ?_)⟩
                  · simp [floatOrderRegion, Exit.next, exec, nan]
                  · simp [signCode, Exit.next, exec, signs]
                  · simp [Exit.next, exec, exponents]
                  · simp [floatOrderRegion, signCode, Exit.next, exec, negative]
                  · simp [Source.get, exec]
                  · simp [floatOrderRegion, orderValue, sameSigns, Source.get, exec, nan, signs,
                      exponents, negative]
                  · simp [floatOrderRegion]
                  · simp [signCode]
                  · simp
                  · simp
                  · simp
                  · exact Nat.le_add_right _ _

end

/-! ## The values of the regions -/

/-- What the pass makes of a comparison: a NaN makes only the two inequalities true. -/
def FCmp.splitHolds (format : FloatFormat) (x y : Nat) (pred : FCmp) : Bool :=
  if format.isNaN x || format.isNaN y then pred.nanResult
  else pred.compares (format.value x) (format.value y)

def splitEval {format : FloatFormat} (x y : BitVec format.width) : Inst format.width → Bool
  | .fcmp pred => pred.splitHolds format x.toNat y.toNat
  | .icmp pred left right => (Inst.icmp pred left right).eval x y format
  | .bit value => (Inst.bit value).eval x y format

section

variable {format : FloatFormat} (layout : Layout format) {x y : BitVec format.width}

theorem rank_normal (bits : Nat) : format.rank (normal format bits) = format.rank bits := by
  have one : 2 ^ (format.exponentBits + format.fractionBits) /
      2 ^ (format.exponentBits + format.fractionBits) = 1 := Nat.div_self (Nat.two_pow_pos _)
  unfold normal
  split
  · next minusZero =>
    simp [FloatFormat.rank, FloatFormat.negative, FloatFormat.unsigned, minusZero, one]
  · rfl

theorem normal_plain (format : FloatFormat) {bits : Nat} (below : bits < 2 ^ format.width) :
    FloatFormat.NoMinusZero format (normal format bits) := by
  unfold FloatFormat.NoMinusZero normal
  rw [two_pow_width] at below
  split
  · intro negative
    simp [FloatFormat.negative] at negative
  · next notMinusZero =>
    intro negative
    rw [FloatFormat.negative_eq (by rwa [Nat.pow_succ'])] at negative
    have high := of_decide_eq_true negative
    rw [FloatFormat.unsigned, Nat.mod_eq_sub_mod high, Nat.mod_eq_of_lt (by omega)]
    omega

include layout in
theorem isNan_eval : splitEval x y isNan =
    (format.isNaN x.toNat || format.isNaN y.toNat) := by
  simp only [isNan, splitEval, Inst.eval, Value.eval, isOperandNan_eval layout]
  cases format.isNaN x.toNat <;> cases format.isNaN y.toNat <;> rfl

theorem bit_inj (a b : Bool) : ((if a then 1 else 0) = if b then 1 else 0) ↔ a = b := by
  cases a <;> cases b <;> simp

include layout in
theorem sameSigns_eval : splitEval x y sameSigns =
    decide (format.negative (normal format x.toNat) = format.negative (normal format y.toNat)) := by
  simp only [sameSigns, splitEval, Inst.eval, icmp_eq, signOf_toNat layout, Value.eval]
  exact decide_eq_decide.mpr (bit_inj _ _)

include layout in
theorem signOf_bit (bpre : Value format.width format.width) :
    (signOf bpre).eval x y = .ofBool (format.negative (normal format (bpre.eval x y).toNat)) := by
  have sign := @signOf_toNat format layout x y bpre
  rw [← BitVec.toNat_inj, sign]
  cases format.negative (normal format (bpre.eval x y).toNat) <;> rfl

include layout in
theorem signOf_eval (bpre : Value format.width format.width) :
    splitEval x y (.bit (signOf bpre)) =
      format.negative (normal format (bpre.eval x y).toNat) := by
  simp only [splitEval, Inst.eval, signOf_bit layout]
  cases format.negative (normal format (bpre.eval x y).toNat) <;> rfl

include layout in
theorem exponentResult_eval (pred : ICmp) :
    splitEval x y (.bit (.xor (.icmp pred (exponentOf .operand0) (exponentOf .operand1))
      (signOf .operand0))) =
      (pred.holds ((exponentOf .operand0).eval x y) ((exponentOf .operand1).eval x y) ^^
        format.negative (normal format x.toNat)) := by
  simp only [splitEval, Inst.eval, Value.eval, signOf_bit layout]
  cases pred.holds ((exponentOf .operand0).eval x y) ((exponentOf .operand1).eval x y) <;>
    cases format.negative (normal format x.toNat) <;> rfl

theorem compareExponents_eval (pred : ICmp) : splitEval x y (compareExponents pred) =
    pred.holds ((exponentOf .operand0).eval x y) ((exponentOf .operand1).eval x y) := rfl

include layout in
theorem compareFractions_eval (pred : ICmp) : splitEval x y (compareFractions pred) =
    pred.holds ((maskedFraction .operand0).eval x y) ((maskedFraction .operand1).eval x y) := by
  rw [compareFractions, if_neg layout.fractionTy]
  rfl

include layout in
theorem equalityValue_eq (pred : FCmp) (equal : Bool) :
    equalityValue (splitEval x y) pred equal =
      if format.isNaN x.toNat || format.isNaN y.toNat then pred.nanResult
      else decide (format.rank x.toNat = format.rank y.toNat) == equal := by
  have ranks := FloatFormat.rank_eq_iff (normal_plain format x.isLt)
    (normal_plain format y.isLt)
  rw [rank_normal, rank_normal] at ranks
  simp only [equalityValue, isNan_eval layout, sameSigns_eval layout, compareExponents_eval,
    compareFractions_eval layout, icmp_eq, icmp_ne, exponentOf_toNat layout,
    maskedFraction_toNat layout, Value.eval, ranks]
  split
  · rfl
  · split
    · next signs =>
      have signs := of_decide_eq_true signs
      cases equal <;> simp [signs]
    · next signs =>
      have signs := of_decide_eq_false (Bool.eq_false_iff.mpr signs)
      cases equal <;> simp [signs]

include layout in
theorem orderValue_eq (pred : FCmp) (greater : Bool) :
    orderValue (splitEval x y) pred greater =
      if format.isNaN x.toNat || format.isNaN y.toNat then pred.nanResult
      else if greater then decide (format.rank y.toNat < format.rank x.toNat)
      else decide (format.rank x.toNat < format.rank y.toNat) := by
  have plainX := normal_plain format x.isLt
  have plainY := normal_plain format y.isLt
  have less := FloatFormat.rank_lt_iff plainX plainY
  have more := FloatFormat.rank_lt_iff plainY plainX
  rw [rank_normal, rank_normal] at less more
  simp only [orderValue, isNan_eval layout, sameSigns_eval layout, compareExponents_eval,
    compareFractions_eval layout, exponentResult_eval layout, signOf_eval layout, icmp_eq,
    exponentOf_toNat layout, Value.eval]
  split
  · rfl
  · cases greater with
    | false =>
        simp only [Bool.false_eq_true, if_false, icmp_ugt, icmp_ult, exponentOf_toNat layout,
          maskedFraction_toNat layout, Value.eval, decide_eq_true_eq]
        rw [Bool.eq_iff_iff, decide_eq_true_eq, less]
        by_cases signs : format.negative (normal format x.toNat) =
          format.negative (normal format y.toNat)
        · by_cases exponents : format.exponent (normal format x.toNat) =
            format.exponent (normal format y.toNat)
          · simp only [if_pos signs, if_pos exponents]
            split <;> exact decide_eq_true_iff
          · simp only [if_pos signs, if_neg exponents]
        · simp only [if_neg signs]
    | true =>
        simp only [if_true, icmp_ugt, icmp_ult, exponentOf_toNat layout,
          maskedFraction_toNat layout, Value.eval, decide_eq_true_eq]
        rw [Bool.eq_iff_iff, decide_eq_true_eq, more]
        by_cases signs : format.negative (normal format x.toNat) =
          format.negative (normal format y.toNat)
        · by_cases exponents : format.exponent (normal format x.toNat) =
            format.exponent (normal format y.toNat)
          · simp only [signs, if_true, if_pos exponents, if_pos exponents.symm]
            split <;> exact decide_eq_true_iff
          · simp only [signs, if_true, if_neg exponents, if_neg (Ne.symm exponents)]
        · simp only [if_neg signs, if_neg (Ne.symm signs)]

end

/-! ## The values of the regions and of the comparisons -/

section

variable {format : FloatFormat} (layout : Layout format) {x y : BitVec format.width}

theorem splitHolds_number {bitsX bitsY : Nat} {pred : FCmp}
    (numbers : ¬(format.isNaN bitsX || format.isNaN bitsY) = true) :
    pred.splitHolds format bitsX bitsY = pred.compares (format.value bitsX) (format.value bitsY) :=
  if_neg numbers

include layout in
theorem compares_rank {bitsX bitsY : Nat}
    (numbers : ¬(format.isNaN bitsX || format.isNaN bitsY) = true) :
    (format.value bitsX < format.value bitsY ↔ format.rank bitsX < format.rank bitsY) ∧
      (format.value bitsY < format.value bitsX ↔ format.rank bitsY < format.rank bitsX) ∧
      (format.value bitsX = format.value bitsY ↔ format.rank bitsX = format.rank bitsY) := by
  obtain ⟨numberX, numberY⟩ := Bool.or_eq_false_iff.mp (Bool.eq_false_iff.mpr numbers)
  have forth := FloatFormat.value_compare layout.exponents numberX numberY
  exact ⟨forth.1, (FloatFormat.value_compare layout.exponents numberY numberX).1, forth.2⟩

include layout in
theorem equality_splitHolds {pred : FCmp} {equal : Bool}
    (equality : (pred = .oeq ∨ pred = .ueq) ∧ equal = true ∨
      (pred = .one ∨ pred = .une) ∧ equal = false) :
    equalityValue (splitEval x y) pred equal = pred.splitHolds format x.toNat y.toNat := by
  rw [equalityValue_eq layout]
  split
  · next nan => exact (if_pos nan).symm
  · next numbers =>
    rw [splitHolds_number numbers]
    have same := (compares_rank layout numbers).2.2
    rcases equality with ⟨rfl | rfl, rfl⟩ | ⟨rfl | rfl, rfl⟩ <;> simp [FCmp.compares, same]

include layout in
theorem order_splitHolds {pred : FCmp} {greater : Bool}
    (order : (pred = .ogt ∨ pred = .ugt) ∧ greater = true ∨
      (pred = .olt ∨ pred = .ult) ∧ greater = false) :
    orderValue (splitEval x y) pred greater = pred.splitHolds format x.toNat y.toNat := by
  rw [orderValue_eq layout]
  split
  · next nan => exact (if_pos nan).symm
  · next numbers =>
    rw [splitHolds_number numbers]
    obtain ⟨less, more, _⟩ := compares_rank layout numbers
    rcases order with ⟨rfl | rfl, rfl⟩ | ⟨rfl | rfl, rfl⟩ <;> simp [FCmp.compares, less, more]

theorem orEquals_splitHolds {pred newPred : FCmp} (simplifies : pred.orEquals = some newPred) :
    (newPred.splitHolds format x.toNat y.toNat || FCmp.oeq.splitHolds format x.toNat y.toNat) =
      pred.splitHolds format x.toNat y.toNat := by
  unfold FCmp.splitHolds
  split
  · cases pred <;> cases simplifies <;> rfl
  · rw [Bool.eq_iff_iff]
    cases pred <;> cases simplifies <;>
      simp [FCmp.compares, Number.le_iff_lt_or_eq, eq_comm (a := format.value x.toNat)]

/-! ## The regions of the pass -/

variable {bb labels regs : Nat} {pred newPred : FCmp} {region : Region (Inst format.width)}

theorem floatRegion_cases (made : floatRegion bb labels regs pred = some region) :
    (∃ equal, ((pred = .oeq ∨ pred = .ueq) ∧ equal = true ∨
        (pred = .one ∨ pred = .une) ∧ equal = false) ∧
      region = floatEqualityRegion bb labels regs pred equal) ∨
    ∃ greater, ((pred = .ogt ∨ pred = .ugt) ∧ greater = true ∨
        (pred = .olt ∨ pred = .ult) ∧ greater = false) ∧
      region = floatOrderRegion bb labels regs pred greater := by
  unfold floatRegion at made
  split at made
  · exact .inl ⟨true, .inl ⟨.inr rfl, rfl⟩, (Option.some.inj made).symm⟩
  · exact .inl ⟨true, .inl ⟨.inl rfl, rfl⟩, (Option.some.inj made).symm⟩
  · exact .inl ⟨false, .inr ⟨.inl rfl, rfl⟩, (Option.some.inj made).symm⟩
  · exact .inl ⟨false, .inr ⟨.inr rfl, rfl⟩, (Option.some.inj made).symm⟩
  · exact .inr ⟨true, .inl ⟨.inl rfl, rfl⟩, (Option.some.inj made).symm⟩
  · exact .inr ⟨true, .inl ⟨.inr rfl, rfl⟩, (Option.some.inj made).symm⟩
  · exact .inr ⟨false, .inr ⟨.inl rfl, rfl⟩, (Option.some.inj made).symm⟩
  · exact .inr ⟨false, .inr ⟨.inr rfl, rfl⟩, (Option.some.inj made).symm⟩
  · cases made

theorem floatRegion_valid (known : bb < labels)
    (made : floatRegion bb labels regs pred = some region) : region.WellFormed labels regs := by
  rcases floatRegion_cases made with ⟨equal, _, rfl⟩ | ⟨greater, _, rfl⟩
  · have more : bb < labels + 1 + 3 := Nat.lt_add_right 4 known
    refine ⟨?_, ?_, ?_, ?_, ?_⟩
    · simp [Region.insts, floatEqualityRegion, signCode]
    · simp [Region.insts, floatEqualityRegion, signCode]
    · simp [floatEqualityRegion, Exit.Below]
    · simp only [floatEqualityRegion, List.forall_mem_cons]
      refine ⟨⟨by simp, by simp [signCode], by simp [Exit.Below]⟩, ⟨by simp, by simp, ?_⟩,
        ⟨by simp, by simp, trivial⟩, List.forall_mem_nil _⟩
      cases equal <;> simp [Exit.Below]
    · cases equal <;> simp [floatEqualityRegion, Source.Below, more]
  · have more : bb < labels + 1 + 7 := Nat.lt_add_right 8 known
    refine ⟨?_, ?_, ?_, ?_, ?_⟩
    · simp [Region.insts, floatOrderRegion, signCode]
    · simp [Region.insts, floatOrderRegion, signCode]
    · simp [floatOrderRegion, Exit.Below]
    · simp only [floatOrderRegion, List.forall_mem_cons]
      refine ⟨⟨by simp, by simp [signCode], by simp [Exit.Below]⟩,
        ⟨by simp, by simp, by simp [Exit.Below]⟩, ⟨by simp, by simp, by simp [Exit.Below]⟩,
        ⟨by simp, by simp, trivial⟩, ⟨?_, by simp, trivial⟩, ⟨by simp, by simp, trivial⟩,
        ⟨by simp, by simp, trivial⟩, List.forall_mem_nil _⟩
      rintro phi ⟨⟩
      simp only [List.forall_mem_cons, Source.Below]
      exact ⟨by simp, ⟨by simp, by simp⟩, ⟨by simp, by simp⟩, List.forall_mem_nil _⟩
    · cases greater <;> simp [floatOrderRegion, Source.Below, more]

include layout in
theorem floatRegion_delivers {g : Graph (Inst format.width)} {node : Node (Inst format.width)}
    {c : Reg} (found : g.nodes[bb]? = some node)
    (made : floatRegion bb g.nodes.length g.freshReg pred = some region) :
    region.Delivers (splitEval x y) (g.expand bb c region) bb g.nodes.length g.freshReg
      (splitEval x y (.fcmp pred)) := by
  have value : splitEval x y (.fcmp pred) = pred.splitHolds format x.toNat y.toNat := rfl
  rcases floatRegion_cases made with ⟨equal, equality, rfl⟩ | ⟨greater, order, rfl⟩
  · rw [value, ← equality_splitHolds layout equality]
    exact floatEquality_delivers found equal
  · rw [value, ← order_splitHolds layout order]
    exact floatOrder_delivers found greater

/-! ## Which comparisons are left -/

def Inst.isFcmp {w : Nat} : Inst w → Bool
  | .fcmp _ => true
  | _ => false

theorem floatRegion_integer (made : floatRegion bb labels regs pred = some region) :
    ∀ inst ∈ region.insts, inst.2.isFcmp = false := by
  have fractions : ∀ pred, (compareFractions pred : Inst format.width).isFcmp = false := by
    intro pred
    unfold compareFractions
    split <;> rfl
  rcases floatRegion_cases made with ⟨equal, _, rfl⟩ | ⟨greater, _, rfl⟩
  · simp only [Region.insts, floatEqualityRegion, signCode, List.flatMap_cons, List.flatMap_nil,
      List.cons_append, List.nil_append, List.append_nil, List.forall_mem_cons, fractions]
    exact ⟨rfl, rfl, rfl, rfl, rfl, trivial, List.forall_mem_nil _⟩
  · simp only [Region.insts, floatOrderRegion, signCode, List.flatMap_cons, List.flatMap_nil,
      List.cons_append, List.nil_append, List.append_nil, List.forall_mem_cons, fractions]
    exact ⟨rfl, rfl, rfl, rfl, rfl, rfl, trivial, trivial, List.forall_mem_nil _⟩

end

/-! ## The pass over one comparison -/

section

variable {w : Nat}

def Node.Integer (node : Node (Inst w)) : Prop := ∀ inst ∈ node.code, inst.2.isFcmp = false

/-- The blocks that are asked for compare integers only. -/
def IntegerAt (labels : Label → Prop) (g : Graph (Inst w)) : Prop :=
  ∀ label node, labels label → g.nodes[label]? = some node → Node.Integer node

theorem IntegerAt.expand {g : Graph (Inst w)} {block : Label} {c : Reg} {region : Region (Inst w)}
    {node : Node (Inst w)} {labels : Label → Prop} (found : g.nodes[block]? = some node)
    (others : IntegerAt (fun label => labels label ∧ label ≠ block) g)
    (before : ∀ inst ∈ node.before c, inst.2.isFcmp = false)
    (after : ∀ inst ∈ node.after c, inst.2.isFcmp = false)
    (integer : ∀ inst ∈ region.insts, inst.2.isFcmp = false) :
    IntegerAt labels (g.expand block c region) := by
  intro label current asked there
  rcases Nat.lt_trichotomy label g.nodes.length with old | rfl | new
  · rcases eq_or_ne label block with rfl | away
    · rw [Graph.expand_block found] at there
      obtain rfl := Option.some.inj there
      exact List.forall_mem_append.mpr
        ⟨before, fun inst inCode => integer inst (List.mem_append_left _ inCode)⟩
    · have here := List.getElem?_eq_getElem old
      rw [Graph.expand_other found away here] at there
      obtain rfl := Option.some.inj there
      have kept : Node.Integer g.nodes[label] := others label _ ⟨asked, away⟩ here
      exact kept
  · rw [Graph.expand_stop found] at there
    obtain rfl := Option.some.inj there
    exact after
  · obtain ⟨i, rfl⟩ := Nat.exists_eq_add_of_le (Nat.succ_le_of_lt new)
    have inRegion : region.nodes[i]? = some current := (Graph.expand_region found i).symm.trans there
    exact fun inst inCode => integer inst (List.mem_append_right _
      (List.mem_flatMap.mpr ⟨current, List.mem_of_getElem? inRegion, inCode⟩))

/-- What the simplification makes of a function of one comparison. -/
def simplifiedFunction (newPred : FCmp) : Graph (Inst w) :=
  ⟨[⟨none, [(1, .fcmp newPred)], .branch 1 1 2⟩,
    ⟨some ⟨0, [(2, .reg 2), (0, .const true)]⟩, [], .ret⟩,
    ⟨none, [(2, .fcmp .oeq)], .goto 1⟩], 3⟩

theorem simplifyFPCompares_compare {pred newPred : FCmp}
    (simplifies : pred.orEquals = some newPred) :
    simplifyFPCompares true (compareFunction (.fcmp pred : Inst w)) =
      simplifiedFunction newPred := by
  cases pred <;> cases simplifies <;> rfl

theorem simplifyFPCompares_other {pred : FCmp} {oneConstant : Bool}
    (stays : pred.orEquals = none ∨ oneConstant = false) :
    simplifyFPCompares oneConstant (compareFunction (.fcmp pred : Inst w)) =
      compareFunction (.fcmp pred) := by
  rcases stays with none | rfl
  · cases oneConstant
    · rfl
    · cases pred <;> cases none <;> rfl
  · rfl

end

section

variable {format : FloatFormat} (layout : Layout format)

def splitEvals (operands : BitVec format.width × BitVec format.width) :
    Inst format.width → Bool := splitEval operands.1 operands.2

include layout in
theorem replaces_float {g : Graph (Inst format.width)} {c : Reg} {pred : FCmp}
    {region : Region (Inst format.width)} (wellFormed : g.WellFormed)
    (defines : g.Defines c (.fcmp pred)) {bb : Label} {node : Node (Inst format.width)}
    (found : g.nodes[bb]? = some node) (here : (c, .fcmp pred) ∈ node.code)
    (made : floatRegion bb g.nodes.length g.freshReg pred = some region) :
    Replaces splitEvals g c region (g.expand bb c region) :=
  replaces_expand wellFormed defines found here
    (floatRegion_valid (List.getElem?_eq_some_iff.mp found).1 made)
    fun _ => floatRegion_delivers layout found made

theorem floatRegion_some {w : Nat} {pred : FCmp} (splits : pred.orEquals = none) (bb endBb : Label)
    (fresh : Reg) : ∃ region : Region (Inst w), floatRegion bb endBb fresh pred = some region := by
  cases pred <;> first | exact ⟨_, rfl⟩ | cases splits

include layout in
/-- The comparisons that are split at once. -/
theorem splitFPCompares_compare {pred : FCmp} (splits : pred.orEquals = none) :
    Keeps splitEvals (compareFunction (.fcmp pred : Inst format.width))
        (splitFPCompares (compareFunction (.fcmp pred))) ∧
      IntegerAt (fun _ => True) (splitFPCompares (compareFunction (.fcmp pred : Inst format.width))) := by
  obtain ⟨region, made⟩ := @floatRegion_some format.width pred splits 0 1 1
  have result : splitFPCompares (compareFunction (.fcmp pred : Inst format.width)) =
      (compareFunction (.fcmp pred)).expand 0 0 region := by
    rw [splitFPCompares, if_neg (Nat.not_lt.mpr layout.small)]
    cases pred <;> cases splits <;> cases made <;> rfl
  rw [result]
  constructor
  · exact (replaces_float layout (compareFunction_wellFormed _) (compareFunction_defines _) rfl
      (List.mem_singleton_self _) made).keeps
  · refine IntegerAt.expand rfl ?_ (List.forall_mem_nil _) (List.forall_mem_nil _)
      (floatRegion_integer made)
    rintro label node ⟨_, away⟩ there
    have one := (List.getElem?_eq_some_iff.mp there).1
    exact absurd (Nat.lt_one_iff.mp one) away

include layout in
/-- The comparisons that are simplified first. -/
theorem splitFPCompares_simplified {pred newPred : FCmp}
    (simplifies : pred.orEquals = some newPred) :
    Keeps splitEvals (compareFunction (.fcmp pred : Inst format.width))
        (splitFPCompares (simplifiedFunction newPred)) ∧
      IntegerAt (fun _ => True)
        (splitFPCompares (simplifiedFunction newPred : Graph (Inst format.width))) := by
  have splits : newPred.orEquals = none := by
    cases pred <;> cases simplifies <;> rfl
  have valid : (orEqualsRegion 0 1 1 (Inst.fcmp newPred : Inst format.width) (.fcmp .oeq)).WellFormed
      1 1 := orEquals_valid (by decide) _ _
  have delivers : ∀ operands, Region.Delivers (splitEvals operands) (orEqualsRegion 0 1 1
      (Inst.fcmp newPred) (.fcmp .oeq)) (simplifiedFunction newPred) 0 1 1
      (splitEvals operands (.fcmp pred)) := fun operands =>
    @orEquals_delivers _ _ (compareFunction (.fcmp pred : Inst format.width)) 0 0 _ rfl
      _ _ _ (orEquals_splitHolds simplifies)
  have found : (compareFunction (.fcmp pred : Inst format.width)).nodes[0]? =
      some ⟨none, [(0, .fcmp pred)], .ret⟩ := rfl
  have simplified : Replaces splitEvals (compareFunction (.fcmp pred : Inst format.width)) 0
      (orEqualsRegion 0 1 1 (.fcmp newPred) (.fcmp .oeq)) (simplifiedFunction newPred) :=
    replaces_expand (compareFunction_wellFormed _) (compareFunction_defines _) found
      (List.mem_singleton_self _) valid delivers
  have np := simplified.adds 1 (.fcmp newPred) (by simp [Region.insts, orEqualsRegion])
  have eq := simplified.adds 2 (.fcmp .oeq) (by simp [Region.insts, orEqualsRegion])
  obtain ⟨first, madeFirst⟩ := @floatRegion_some format.width newPred splits 0 3 3
  have atFirst : (simplifiedFunction newPred : Graph (Inst format.width)).nodes[0]? =
      some ⟨none, [(1, .fcmp newPred)], .branch 1 1 2⟩ := rfl
  have replacedFirst := replaces_float layout simplified.keeps.wellFormed np atFirst
    (List.mem_singleton_self _) madeFirst
  have atSecond : ((simplifiedFunction newPred).expand 0 1 first).nodes[2]? =
      some ⟨none, [(2, .fcmp .oeq)], .goto 1⟩ := rfl
  obtain ⟨second, madeSecond⟩ := @floatRegion_some format.width .oeq rfl 2
    ((simplifiedFunction newPred).expand 0 1 first).nodes.length
    ((simplifiedFunction newPred).expand 0 1 first).freshReg
  have replacedSecond := replaces_float layout replacedFirst.keeps.wellFormed
    (replacedFirst.others 2 _ (by decide) eq) atSecond (List.mem_singleton_self _) madeSecond
  have result : splitFPCompares (simplifiedFunction newPred : Graph (Inst format.width)) =
      ((simplifiedFunction newPred).expand 0 1 first).expand 2 2 second := by
    rw [splitFPCompares, if_neg (Nat.not_lt.mpr layout.small)]
    cases madeSecond
    cases pred <;> cases simplifies <;> cases madeFirst <;> rfl
  rw [result]
  refine ⟨(simplified.keeps.trans replacedFirst.keeps).trans replacedSecond.keeps, ?_⟩
  refine IntegerAt.expand atSecond ?_ (List.forall_mem_nil _) (List.forall_mem_nil _)
    (floatRegion_integer madeSecond)
  refine IntegerAt.expand atFirst ?_ (List.forall_mem_nil _) (List.forall_mem_nil _)
    (floatRegion_integer madeFirst)
  rintro label node ⟨⟨_, notSecond⟩, notFirst⟩ there
  obtain _ | _ | _ | label := label
  · exact absurd rfl notFirst
  · obtain rfl := Option.some.inj there
    exact List.forall_mem_nil _
  · exact absurd rfl notSecond
  · cases there

/-- Every run leaves the value in register 0. -/
def Computes (format : FloatFormat) (g : Graph (Inst format.width)) (x y : BitVec format.width)
    (value : Bool) : Prop :=
  ∀ env, ∃ final, g.Runs (Inst.eval x y format) (.entry env) final ∧ final 0 = value

theorem Computes.unique {g : Graph (Inst format.width)} {x y : BitVec format.width}
    {one two : Bool} (first : Computes format g x y one) (second : Computes format g x y two) :
    one = two := by
  obtain ⟨final, runs, rfl⟩ := first fun _ => false
  obtain ⟨final', runs', rfl⟩ := second fun _ => false
  rw [runs.unique runs']

theorem keeps_computes {after : Graph (Inst format.width)} {pred : FCmp}
    (keeps : Keeps splitEvals (compareFunction (.fcmp pred : Inst format.width)) after)
    (integer : IntegerAt (fun _ => True) after) (x y : BitVec format.width) :
    Computes format after x y (pred.splitHolds format x.toNat y.toNat) := by
  intro env
  obtain ⟨final, runs, agree⟩ := keeps.simulates (x, y) env _ (compareFunction_runs _ env)
  refine ⟨final, runs.congr fun node member inst inCode => ?_, ?_⟩
  · obtain ⟨label, there⟩ := List.mem_iff_getElem?.mp member
    have plain := integer label node trivial there inst inCode
    obtain ⟨r, inst⟩ := inst
    cases inst with
    | fcmp pred => cases plain
    | _ => rfl
  · exact (agree 0 Nat.one_pos).symm.trans (Function.update_self _ _ _)

include layout in
theorem splitFloats_computes {pred : FCmp} {oneConstant : Bool}
    (rewritten : pred.orEquals = none ∨ oneConstant = true) (x y : BitVec format.width) :
    Computes format (splitFloats oneConstant (compareFunction (.fcmp pred))) x y
      (pred.splitHolds format x.toNat y.toNat) := by
  cases simplifies : pred.orEquals with
  | none =>
      rw [splitFloats, simplifyFPCompares_other (.inl simplifies)]
      obtain ⟨keeps, integer⟩ := splitFPCompares_compare layout simplifies
      exact keeps_computes keeps integer x y
  | some newPred =>
      obtain rfl : oneConstant = true := by simpa [simplifies] using rewritten
      rw [splitFloats, simplifyFPCompares_compare simplifies]
      obtain ⟨keeps, integer⟩ := splitFPCompares_simplified layout simplifies
      exact keeps_computes keeps integer x y

theorem splitFloats_leaves {pred : FCmp} (simplifies : pred.orEquals.isSome)
    (x y : BitVec format.width) :
    Computes format (splitFloats false (compareFunction (.fcmp pred))) x y
      (pred.holds format x.toNat y.toNat) := by
  have same : splitFloats false (compareFunction (.fcmp pred : Inst format.width)) =
      compareFunction (.fcmp pred) := by
    unfold splitFloats splitFPCompares
    split
    · rfl
    · cases pred <;> cases simplifies <;> rfl
  intro env
  rw [same]
  exact ⟨_, compareFunction_runs _ env, Function.update_self _ _ _⟩

theorem splitHolds_iff (format : FloatFormat) (bitsX bitsY : Nat) (pred : FCmp) :
    pred.splitHolds format bitsX bitsY = pred.holds format bitsX bitsY ↔
      format.isNaN bitsX = false ∧ format.isNaN bitsY = false ∨
        pred ∈ [.oeq, .une, .ogt, .olt, .oge, .ole] := by
  unfold FCmp.splitHolds FCmp.holds
  by_cases nan : (format.isNaN bitsX || format.isNaN bitsY) = true
  · have notNumbers : ¬ (format.isNaN bitsX = false ∧ format.isNaN bitsY = false) :=
      fun numbers => by simp [numbers] at nan
    rw [if_pos nan, if_pos nan, or_iff_right notNumbers]
    cases pred <;> decide
  · rw [if_neg nan, if_neg nan]
    exact iff_of_true rfl (.inl (Bool.or_eq_false_iff.mp (Bool.eq_false_iff.mpr nan)))

/-- The pass keeps the meaning of a comparison exactly when no operand is a NaN, when the
predicate is one of C's operators, or when the comparison is not taken. -/
theorem splitFloats_exact_iff {format : FloatFormat}
    (known : format ∈ [FloatFormat.half, .float, .double]) (oneConstant : Bool) (pred : FCmp)
    (x y : BitVec format.width) :
    Computes format (splitFloats oneConstant (compareFunction (.fcmp pred))) x y
        (pred.holds format x.toNat y.toNat) ↔
      format.isNaN x.toNat = false ∧ format.isNaN y.toNat = false ∨
        pred ∈ [.oeq, .une, .ogt, .olt, .oge, .ole] ∨
          pred.orEquals.isSome = true ∧ oneConstant = false := by
  have layout : Layout format := by
    simp only [List.mem_cons, List.not_mem_nil, or_false] at known
    rcases known with rfl | rfl | rfl
    · exact layout_half
    · exact layout_float
    · exact layout_double
  by_cases left : pred.orEquals.isSome = true ∧ oneConstant = false
  · obtain ⟨simplifies, rfl⟩ := left
    exact iff_of_true (splitFloats_leaves simplifies x y) (.inr (.inr ⟨simplifies, rfl⟩))
  · have rewritten : pred.orEquals = none ∨ oneConstant = true := by
      cases oneConstant
      · exact .inl (Option.not_isSome_iff_eq_none.mp fun simplifies => left ⟨simplifies, rfl⟩)
      · exact .inr rfl
    have computes := splitFloats_computes layout rewritten x y
    have exactly := splitHolds_iff format x.toNat y.toNat pred
    constructor
    · intro right
      rcases exactly.mp (computes.unique right) with numbers | operator
      · exact .inl numbers
      · exact .inr (.inl operator)
    · intro condition
      have same := exactly.mpr (condition.imp id fun rest => rest.resolve_right left)
      exact same ▸ computes

theorem splitFloats_exact_iff_one :
    Computes .half (splitFloats true (compareFunction (.fcmp .oge))) 0x3c00 0x7e00
        (FCmp.oge.holds .half 0x3c00 0x7e00) ↔
      FloatFormat.half.isNaN 0x3c00 = false ∧ FloatFormat.half.isNaN 0x7e00 = false ∨
        FCmp.oge ∈ [FCmp.oeq, .une, .ogt, .olt, .oge, .ole] ∨
          FCmp.oge.orEquals.isSome = true ∧ true = false :=
  splitFloats_exact_iff (by decide) true .oge 0x3c00 0x7e00

/-- "Equal or unordered" is true of a NaN and of zero; the code makes it false. -/
theorem splitFloats_ueq_nan :
    ¬ Computes .half (splitFloats true (compareFunction (.fcmp .ueq))) 0x7e00 0
      (FCmp.ueq.holds .half 0x7e00 0) := by
  intro right
  have wrong : Computes .half _ 0x7e00 0 (FCmp.ueq.splitHolds .half 0x7e00 0) :=
    splitFloats_computes layout_half (.inr rfl) 0x7e00 0
  have same := wrong.unique right
  exact absurd ((splitHolds_iff .half 0x7e00 0 .ueq).mp same) (by decide)

end

end SbFuzz.Instrumentation
