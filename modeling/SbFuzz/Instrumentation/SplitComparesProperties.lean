import SbFuzz.Instrumentation.SplitCompares

/-! What the pass puts in the place of an integer comparison computes the comparison. -/

set_option autoImplicit false

namespace SbFuzz.Instrumentation

open SbFuzz.Systems.ControlFlow SbFuzz.Numeric

/-! ## Halves and signs -/

section

variable {w n : Nat} {x y : BitVec w}

theorem high_toNat (even : n % 2 = 0) (value : Value w n) :
    (value.high.eval x y).toNat = (value.eval x y).toNat / 2 ^ (n / 2) := by
  have small : (value.eval x y).toNat / 2 ^ (n / 2) < 2 ^ (n / 2) := by
    rw [Nat.div_lt_iff_lt_mul (Nat.two_pow_pos _), ← Nat.pow_add,
      show n / 2 + n / 2 = n by omega]
    exact (value.eval x y).isLt
  simp only [Value.high, Value.eval, BitVec.toNat_setWidth, BitVec.toNat_ushiftRight,
    Nat.shiftRight_eq_div_pow]
  exact Nat.mod_eq_of_lt small

theorem low_toNat (value : Value w n) :
    (value.low.eval x y).toNat = (value.eval x y).toNat % 2 ^ (n / 2) := by
  simp only [Value.low, Value.eval, BitVec.toNat_setWidth]

theorem lt_iff_halves (a b h : Nat) : a < b ↔ a / h < b / h ∨ a / h = b / h ∧ a % h < b % h := by
  constructor
  · intro less
    rcases Nat.lt_or_eq_of_le (Nat.div_le_div_right (c := h) (Nat.le_of_lt less)) with high | same
    · exact .inl high
    · refine .inr ⟨same, ?_⟩
      rw [← Nat.div_add_mod a h, ← Nat.div_add_mod b h, same] at less
      exact Nat.lt_of_add_lt_add_left less
  · rintro (high | ⟨same, low⟩)
    · by_contra notLess
      exact absurd (Nat.div_le_div_right (c := h) (Nat.le_of_not_lt notLess)) (Nat.not_le.mpr high)
    · rw [← Nat.div_add_mod a h, ← Nat.div_add_mod b h, same]
      exact Nat.add_lt_add_left low _

theorem eq_iff_halves (a b h : Nat) : a = b ↔ a / h = b / h ∧ a % h = b % h := by
  constructor
  · rintro rfl
    exact ⟨rfl, rfl⟩
  · rintro ⟨high, low⟩
    rw [← Nat.div_add_mod a h, ← Nat.div_add_mod b h, high, low]

theorem decide_lt_halves (a b h : Nat) :
    (decide (a / h < b / h) || !decide (b / h < a / h) && decide (a % h < b % h)) =
      decide (a < b) := by
  rw [Bool.eq_iff_iff]
  simp only [Bool.or_eq_true, Bool.and_eq_true, Bool.not_eq_true', decide_eq_true_eq,
    decide_eq_false_iff_not, lt_iff_halves a b h]
  omega

theorem icmp_eq {a b : BitVec n} : ICmp.eq.holds a b = decide (a.toNat = b.toNat) :=
  decide_eq_decide.mpr BitVec.toNat_inj.symm

theorem icmp_ne {a b : BitVec n} : ICmp.ne.holds a b = !decide (a.toNat = b.toNat) := by
  rw [← icmp_eq]
  simp [ICmp.holds]

theorem icmp_ugt {a b : BitVec n} : ICmp.ugt.holds a b = decide (b.toNat < a.toNat) := rfl

theorem icmp_ult {a b : BitVec n} : ICmp.ult.holds a b = decide (a.toNat < b.toNat) := rfl

theorem icmp_sgt {a b : BitVec n} : ICmp.sgt.holds a b = decide (b.toInt < a.toInt) := rfl

theorem icmp_slt {a b : BitVec n} : ICmp.slt.holds a b = decide (a.toInt < b.toInt) := rfl

/-- The four predicates that are split. -/
def ICmp.splits (pred : ICmp) : Prop := pred = .eq ∨ pred = .ne ∨ pred = .ugt ∨ pred = .ult

theorem equality_halves (even : n % 2 = 0) {pred : ICmp} (equality : pred = .eq ∨ pred = .ne)
    {format : FloatFormat} (left right : Value w n) :
    (if pred = .eq then
      (Inst.icmp pred left.high right.high).eval x y format &&
        (Inst.icmp pred left.low right.low).eval x y format
    else (Inst.icmp pred left.high right.high).eval x y format ||
      (Inst.icmp pred left.low right.low).eval x y format) =
      (Inst.icmp pred left right).eval x y format := by
  have halves := eq_iff_halves (left.eval x y).toNat (right.eval x y).toNat (2 ^ (n / 2))
  rcases equality with rfl | rfl
  · simp only [Inst.eval, icmp_eq, high_toNat even, low_toNat, if_true]
    rw [← Bool.decide_and]
    exact decide_eq_decide.mpr halves.symm
  · simp only [Inst.eval, icmp_ne, high_toNat even, low_toNat, reduceCtorEq, if_false]
    rw [← Bool.not_and, ← Bool.decide_and]
    exact congrArg _ (decide_eq_decide.mpr halves.symm)

theorem order_halves (even : n % 2 = 0) {pred inverse : ICmp} (order : pred.inverse = some inverse)
    {format : FloatFormat} (left right : Value w n) :
    ((Inst.icmp pred left.high right.high).eval x y format ||
      !(Inst.icmp inverse left.high right.high).eval x y format &&
        (Inst.icmp pred left.low right.low).eval x y format) =
      (Inst.icmp pred left right).eval x y format := by
  cases pred with
  | ugt =>
      obtain rfl := Option.some.inj order
      simp only [Inst.eval, icmp_ugt, icmp_ult, high_toNat even, low_toNat]
      exact decide_lt_halves _ _ _
  | ult =>
      obtain rfl := Option.some.inj order
      simp only [Inst.eval, icmp_ugt, icmp_ult, high_toNat even, low_toNat]
      exact decide_lt_halves _ _ _
  | _ => cases order

theorem orEquals_value {pred newPred : ICmp} (simplifies : pred.orEquals = some newPred)
    {format : FloatFormat} (left right : Value w n) :
    ((Inst.icmp newPred left right).eval x y format ||
      (Inst.icmp .eq left right).eval x y format) = (Inst.icmp pred left right).eval x y format := by
  simp only [Inst.eval]
  rw [Bool.eq_iff_iff]
  cases pred with
  | uge =>
      obtain rfl := Option.some.inj simplifies
      simp only [ICmp.holds, Bool.or_eq_true, decide_eq_true_eq, BitVec.lt_def, BitVec.le_def,
        ← BitVec.toNat_inj]
      omega
  | ule =>
      obtain rfl := Option.some.inj simplifies
      simp only [ICmp.holds, Bool.or_eq_true, decide_eq_true_eq, BitVec.lt_def, BitVec.le_def,
        ← BitVec.toNat_inj]
      omega
  | sge =>
      obtain rfl := Option.some.inj simplifies
      simp only [ICmp.holds, Bool.or_eq_true, decide_eq_true_eq, ← BitVec.toInt_inj]
      omega
  | sle =>
      obtain rfl := Option.some.inj simplifies
      simp only [ICmp.holds, Bool.or_eq_true, decide_eq_true_eq, ← BitVec.toInt_inj]
      omega
  | _ => cases simplifies

theorem two_pow_double (wide : 0 < n) : 2 ^ n = 2 * 2 ^ (n - 1) := by
  rw [Nat.mul_comm, Nat.two_pow_pred_mul_two wide]

theorem sign_toNat (wide : 0 < n) (value : Value w n) :
    ((Value.trunc (.lshr value (n - 1)) 1).eval x y).toNat =
      if 2 ^ (n - 1) ≤ (value.eval x y).toNat then 1 else 0 := by
  have bound := (value.eval x y).isLt
  have double := two_pow_double wide
  simp only [Value.eval, BitVec.toNat_setWidth, BitVec.toNat_ushiftRight,
    Nat.shiftRight_eq_div_pow]
  split
  · next set =>
    rw [Nat.div_eq_of_lt_le (k := 1) (by omega) (by omega)]
  · next clear =>
    rw [Nat.div_eq_of_lt (by omega)]

theorem toInt_sign (wide : 0 < n) (a : BitVec n) :
    a.toInt = if 2 ^ (n - 1) ≤ a.toNat then (a.toNat : ℤ) - 2 * 2 ^ (n - 1) else a.toNat := by
  have double := two_pow_double wide
  rw [BitVec.toInt_eq_toNat_cond, double]
  push_cast
  split <;> split <;> omega

/-- Of numbers below `2 * p`, the ones from `p` on stand for negative ones. -/
theorem decide_lt_signs {p a b : Nat} (boundA : a < 2 * p) (boundB : b < 2 * p) :
    (if decide ((if p ≤ a then 1 else 0) = if p ≤ b then 1 else 0) = true then decide (a < b)
      else decide ((if p ≤ b then 1 else 0) < if p ≤ a then 1 else 0)) =
      decide ((if p ≤ a then (a : ℤ) - 2 * p else a) < if p ≤ b then (b : ℤ) - 2 * p else b) := by
  rw [Bool.eq_iff_iff]
  by_cases negA : p ≤ a <;> by_cases negB : p ≤ b <;> simp [negA, negB] <;> omega

theorem signed_value (wide : 0 < n) {pred : ICmp} (signed : pred = .sgt ∨ pred = .slt)
    {format : FloatFormat} (left right : Value w n) :
    (if (Inst.icmp .eq (.trunc (.lshr left (n - 1)) 1) (.trunc (.lshr right (n - 1)) 1)).eval x y
        format
      then (Inst.icmp (if pred = .sgt then .ugt else .ult) left right).eval x y format
      else (Inst.icmp (if pred = .sgt then .ult else .ugt) (.trunc (.lshr left (n - 1)) 1)
        (.trunc (.lshr right (n - 1)) 1)).eval x y format) =
      (Inst.icmp pred left right).eval x y format := by
  have double := two_pow_double wide
  have boundLeft : (left.eval x y).toNat < 2 * 2 ^ (n - 1) := double ▸ (left.eval x y).isLt
  have boundRight : (right.eval x y).toNat < 2 * 2 ^ (n - 1) := double ▸ (right.eval x y).isLt
  rcases signed with rfl | rfl
  · have ordered := decide_lt_signs boundRight boundLeft
    simp only [Inst.eval, icmp_eq, if_true, icmp_ugt, icmp_ult, icmp_sgt, sign_toNat wide,
      toInt_sign wide]
    push_cast at ordered
    rw [← ordered, decide_eq_decide.mpr eq_comm]
  · have ordered := decide_lt_signs boundLeft boundRight
    simp only [Inst.eval, icmp_eq, reduceCtorEq, if_false, icmp_ugt, icmp_ult, icmp_slt,
      sign_toNat wide, toInt_sign wide]
    push_cast at ordered
    exact ordered

end

/-! ## What the regions deliver -/

section

variable {Op : Type} {eval : Op → Bool} {g : Graph Op} {bb : Label} {c : Reg} {node : Node Op}

theorem orEquals_delivers (found : g.nodes[bb]? = some node) {icmpNp icmpEq : Op} {value : Bool}
    (same : (eval icmpNp || eval icmpEq) = value) :
    (orEqualsRegion bb g.nodes.length g.freshReg icmpNp icmpEq).Delivers eval
      (g.expand bb c (orEqualsRegion bb g.nodes.length g.freshReg icmpNp icmpEq)) bb
      g.nodes.length g.freshReg value := by
  have known : bb ≠ g.nodes.length + 1 :=
    Nat.ne_of_lt (Nat.lt_succ_of_lt (List.getElem?_eq_some_iff.mp found).1)
  intro env
  cases np : eval icmpNp with
  | true =>
      refine ⟨g.nodes.length, bb, _, ?_, .refl, ?_, agree_exec ?_⟩
      · simp [orEqualsRegion, Exit.next, exec, np]
      · simp [orEqualsRegion, known, Source.get, ← same, np]
      · simp [orEqualsRegion]
  | false =>
      refine ⟨g.nodes.length + 1, g.nodes.length + 1, _, ?_,
        Graph.steps_plain (Graph.expand_region found 0) rfl .refl, ?_,
        (agree_exec ?_).trans (agree_exec ?_)⟩
      · simp [orEqualsRegion, Exit.next, exec, np]
      · simp [orEqualsRegion, Source.get, exec, ← same, np]
      · simp [orEqualsRegion]
      · simp

end

section

variable {w n : Nat} {eval : Inst w → Bool} {g : Graph (Inst w)} {bb : Label} {c : Reg}
  {node : Node (Inst w)} {left right : Value w n} {pred inverse : ICmp} {value : Bool}

theorem signed_delivers (found : g.nodes[bb]? = some node)
    (same : (if eval (.icmp .eq (.trunc (.lshr left (n - 1)) 1) (.trunc (.lshr right (n - 1)) 1))
      then eval (.icmp (if pred = .sgt then .ugt else .ult) left right)
      else eval (.icmp (if pred = .sgt then .ult else .ugt) (.trunc (.lshr left (n - 1)) 1)
        (.trunc (.lshr right (n - 1)) 1))) = value) :
    (signedRegion g.nodes.length g.freshReg pred left right).Delivers eval
      (g.expand bb c (signedRegion g.nodes.length g.freshReg pred left right)) bb g.nodes.length
      g.freshReg value := by
  intro env
  cases sign : eval (.icmp .eq (.trunc (.lshr left (n - 1)) 1)
    (.trunc (.lshr right (n - 1)) 1)) with
  | true =>
      refine ⟨g.nodes.length + 2, g.nodes.length + 2, _, ?_,
        Graph.steps_plain (Graph.expand_region found 1) rfl .refl, ?_,
        (agree_exec ?_).trans (agree_exec ?_)⟩
      · simp [signedRegion, Exit.next, exec, sign]
      · simp [signedRegion, Source.get, exec, ← same, sign]
      · simp [signedRegion]
      · simp
  | false =>
      refine ⟨g.nodes.length + 1, g.nodes.length + 1, _, ?_,
        Graph.steps_plain (Graph.expand_region found 0) rfl .refl, ?_,
        (agree_exec ?_).trans (agree_exec ?_)⟩
      · simp [signedRegion, Exit.next, exec, sign]
      · simp [signedRegion, Source.get, exec, ← same, sign]
      · simp [signedRegion]
      · simp

theorem equality_delivers (found : g.nodes[bb]? = some node)
    (same : (if pred = .eq
      then eval (.icmp pred left.high right.high) && eval (.icmp pred left.low right.low)
      else eval (.icmp pred left.high right.high) || eval (.icmp pred left.low right.low)) =
        value) :
    (equalityRegion left right bb g.nodes.length g.freshReg pred).Delivers eval
      (g.expand bb c (equalityRegion left right bb g.nodes.length g.freshReg pred)) bb
      g.nodes.length g.freshReg value := by
  have known : bb ≠ g.nodes.length + 1 :=
    Nat.ne_of_lt (Nat.lt_succ_of_lt (List.getElem?_eq_some_iff.mp found).1)
  intro env
  -- The low halves are compared unless the high ones decide.
  by_cases decided : eval (.icmp pred left.high right.high) = decide (pred ≠ .eq)
  · refine ⟨g.nodes.length, bb, _, ?_, .refl, ?_, agree_exec ?_⟩
    · by_cases equal : pred = .eq <;> simp_all [equalityRegion, Exit.next, exec]
    · by_cases equal : pred = .eq <;> simp_all [equalityRegion, Source.get]
    · simp [equalityRegion]
  · refine ⟨g.nodes.length + 1, g.nodes.length + 1, _, ?_,
      Graph.steps_plain (Graph.expand_region found 0) rfl .refl, ?_,
      (agree_exec ?_).trans (agree_exec ?_)⟩
    · by_cases equal : pred = .eq <;> simp_all [equalityRegion, Exit.next, exec]
    · by_cases equal : pred = .eq <;> simp_all [equalityRegion, Source.get, exec]
    · simp [equalityRegion]
    · simp

theorem order_delivers (found : g.nodes[bb]? = some node)
    (same : (eval (.icmp pred left.high right.high) ||
      !eval (.icmp inverse left.high right.high) && eval (.icmp pred left.low right.low)) = value) :
    (orderRegion left right bb g.nodes.length g.freshReg pred inverse).Delivers eval
      (g.expand bb c (orderRegion left right bb g.nodes.length g.freshReg pred inverse)) bb
      g.nodes.length g.freshReg value := by
  have known := (List.getElem?_eq_some_iff.mp found).1
  have notInv : bb ≠ g.nodes.length + 1 := Nat.ne_of_lt (Nat.lt_succ_of_lt known)
  have notLow : bb ≠ g.nodes.length + 2 := Nat.ne_of_lt (Nat.lt_add_right 2 known)
  intro env
  cases high : eval (.icmp pred left.high right.high) with
  | true =>
      refine ⟨g.nodes.length, bb, _, ?_, .refl, ?_, agree_exec ?_⟩
      · simp [orderRegion, Exit.next, exec, high]
      · simp [orderRegion, Source.get, notLow, ← same, high]
      · simp [orderRegion]
  | false =>
      cases inv : eval (.icmp inverse left.high right.high) with
      | true =>
          refine ⟨g.nodes.length + 1, g.nodes.length + 1, _, ?_,
            Graph.steps_plain (Graph.expand_region found 0) ?_ .refl, ?_,
            (agree_exec ?_).trans (agree_exec ?_)⟩
          · simp [orderRegion, Exit.next, exec, high]
          · simp [Exit.next, exec, inv]
          · simp [orderRegion, Source.get, notInv.symm, ← same, high, inv]
          · simp [orderRegion]
          · simp
      | false =>
          refine ⟨g.nodes.length + 1, g.nodes.length + 2, _, ?_,
            Graph.steps_plain (Graph.expand_region found 0) ?_
              (Graph.steps_plain (Graph.expand_region found 1) rfl .refl), ?_,
            ((agree_exec ?_).trans (agree_exec ?_)).trans (agree_exec ?_)⟩
          · simp [orderRegion, Exit.next, exec, high]
          · simp [Exit.next, exec, inv]
          · simp [orderRegion, Source.get, exec, ← same, high, inv]
          · simp [orderRegion]
          · simp
          · simp

end
/-! ## The regions are well-formed -/

section

variable {w n labels regs : Nat} {bb : Label} {left right : Value w n} {pred inverse : ICmp}

theorem orEquals_valid {Op : Type} (known : bb < labels) (icmpNp icmpEq : Op) :
    (orEqualsRegion bb labels regs icmpNp icmpEq).WellFormed labels regs := by
  refine ⟨?_, ?_, ?_, ?_, ?_⟩
  · simp [Region.insts, orEqualsRegion]
  · simp [Region.insts, orEqualsRegion]
  · simp [orEqualsRegion, Exit.Below]
  · simp only [orEqualsRegion, List.forall_mem_singleton]
    exact ⟨by simp, by simp, trivial⟩
  · have more : bb < labels + 1 + 1 := Nat.lt_add_right 2 known
    simp only [orEqualsRegion, List.forall_mem_cons, List.length_singleton]
    exact ⟨⟨Nat.lt_succ_self _, Nat.lt_succ_self _⟩, ⟨more, trivial⟩, List.forall_mem_nil _⟩

theorem signed_valid : (signedRegion labels regs pred left right).WellFormed labels regs := by
  refine ⟨?_, ?_, ?_, ?_, ?_⟩
  · simp [Region.insts, signedRegion]
  · simp [Region.insts, signedRegion]
  · simp [signedRegion, Exit.Below]
  · simp only [signedRegion, List.forall_mem_cons]
    exact ⟨⟨by simp, by simp, trivial⟩, ⟨by simp, by simp, trivial⟩, List.forall_mem_nil _⟩
  · simp [signedRegion, Source.Below]

theorem equality_valid (known : bb < labels) :
    (equalityRegion left right bb labels regs pred).WellFormed labels regs := by
  refine ⟨?_, ?_, ?_, ?_, ?_⟩
  · simp [Region.insts, equalityRegion]
  · simp [Region.insts, equalityRegion]
  · simp only [equalityRegion]
    split <;> simp [Exit.Below]
  · simp only [equalityRegion, List.forall_mem_singleton]
    exact ⟨by simp, by simp, trivial⟩
  · have more : bb < labels + 1 + 1 := Nat.lt_add_right 2 known
    simp only [equalityRegion, List.forall_mem_cons, List.length_singleton]
    exact ⟨⟨Nat.lt_succ_self _, Nat.lt_succ_self _⟩, ⟨more, trivial⟩, List.forall_mem_nil _⟩

theorem order_valid (known : bb < labels) :
    (orderRegion left right bb labels regs pred inverse).WellFormed labels regs := by
  refine ⟨?_, ?_, ?_, ?_, ?_⟩
  · simp [Region.insts, orderRegion]
  · simp [Region.insts, orderRegion]
  · simp [orderRegion, Exit.Below]
  · simp only [orderRegion, List.forall_mem_cons]
    exact ⟨⟨by simp, by simp, by simp [Exit.Below]⟩, ⟨by simp, by simp, trivial⟩,
      List.forall_mem_nil _⟩
  · have more : bb < labels + 1 + 2 := Nat.lt_add_right 3 known
    simp [orderRegion, Source.Below, more]

end

/-! ## Rounds of the worklist -/

section

variable {w : Nat} {g after : Graph (Inst w)} {targetBitwidth : Nat}

/-- For all operands, and whatever a floating-point comparison is. -/
def instEvals (operands : BitVec w × BitVec w × FloatFormat) : Inst w → Bool :=
  Inst.eval operands.1 operands.2.1 operands.2.2

theorem replaces_insts (wellFormed : g.WellFormed) {c : Reg} {inst : Inst w}
    (defines : g.Defines c inst) {bb : Label} {node : Node (Inst w)}
    (found : g.nodes[bb]? = some node) (here : (c, inst) ∈ node.code) {region : Region (Inst w)}
    (valid : region.WellFormed g.nodes.length g.freshReg)
    (delivers : ∀ x y format, region.Delivers (Inst.eval x y format) (g.expand bb c region) bb
      g.nodes.length g.freshReg (inst.eval x y format)) :
    Replaces instEvals g c region (g.expand bb c region) :=
  replaces_expand wellFormed defines found here valid fun _ => delivers _ _ _

/-- A comparison that is to be split `size` times more. -/
def Pending (g : Graph (Inst w)) (targetBitwidth : Nat) (c : Reg) (size : Nat) : Prop :=
  ∃ (n : Nat) (pred : ICmp) (left right : Value w n), g.Defines c (.icmp pred left right) ∧
    pred.splits ∧ n = targetBitwidth * 2 ^ size

/-- What a round does with the worklist. -/
structure Round (g : Graph (Inst w)) (targetBitwidth : Nat) (c : Reg) (size : Nat)
    (after : Graph (Inst w)) (pushed : List Reg) : Prop where
  keeps : Keeps instEvals g after
  others : ∀ r op, r ≠ c → g.Defines r op → after.Defines r op
  pending : ∃ sizes, List.Forall₂ (Pending after targetBitwidth) pushed sizes ∧
    (sizes.map (4 ^ ·)).sum < 4 ^ size
  new : ∀ r ∈ pushed, g.freshReg ≤ r
  nodup : pushed.Nodup

theorem half_width {n size : Nat} (width : n = targetBitwidth * 2 ^ (size + 1)) :
    n % 2 = 0 ∧ n / 2 = targetBitwidth * 2 ^ size := by
  have double : n = 2 * (targetBitwidth * 2 ^ size) := by
    rw [width, Nat.pow_succ', Nat.mul_left_comm]
  omega

def halves (targetBitwidth n : Nat) (icmpHigh icmpLow : Reg) : List Reg :=
  if targetBitwidth < n / 2 then [icmpLow, icmpHigh] else []

theorem pushHalves_eq (n : Nat) (icmpHigh icmpLow : Reg) (worklist : CmpWorklist) :
    pushHalves targetBitwidth n icmpHigh icmpLow worklist =
      halves targetBitwidth n icmpHigh icmpLow ++ worklist := by
  unfold pushHalves halves
  split <;> rfl

theorem halves_pending {n size : Nat} {pred : ICmp} {left right : Value w n} {high low : Reg}
    (half : n / 2 = targetBitwidth * 2 ^ size) (splits : pred.splits)
    (isHigh : after.Defines high (.icmp pred left.high right.high))
    (isLow : after.Defines low (.icmp pred left.low right.low)) :
    ∃ sizes, List.Forall₂ (Pending after targetBitwidth) (halves targetBitwidth n high low) sizes ∧
      (sizes.map (4 ^ ·)).sum ≤ 2 * 4 ^ size := by
  unfold halves
  split
  · refine ⟨[size, size], .cons ⟨_, pred, _, _, isLow, splits, half⟩
      (.cons ⟨_, pred, _, _, isHigh, splits, half⟩ .nil), ?_⟩
    simp
    omega
  · exact ⟨[], .nil, Nat.zero_le _⟩

theorem splitCompare_round (positive : 0 < targetBitwidth) (wellFormed : g.WellFormed) {c : Reg}
    {size : Nat} (pending : Pending g targetBitwidth c size) (worklist : List Reg) :
    ∃ after pushed, splitCompare targetBitwidth g c worklist = some (after, pushed ++ worklist) ∧
      Round g targetBitwidth c size after pushed := by
  obtain ⟨n, pred, left, right, defines, splits, width⟩ := pending
  obtain ⟨bb, node, parent, found, here⟩ := defines.parent
  have known : bb < g.nodes.length := (List.getElem?_eq_some_iff.mp found).1
  simp only [splitCompare, parent, defines.inst, Option.bind_some]
  cases size with
  | zero =>
      have narrow : n = targetBitwidth := by rw [width, Nat.pow_zero, Nat.mul_one]
      exact ⟨g, [], if_pos narrow, .refl wellFormed, fun _ _ _ defined => defined,
        ⟨[], .nil, by simp⟩, by simp, List.nodup_nil⟩
  | succ size =>
      obtain ⟨even, half⟩ := half_width width
      have wide : n ≠ targetBitwidth := by
        have more := Nat.le_mul_of_pos_right targetBitwidth (Nat.two_pow_pos size)
        omega
      rw [if_neg wide]
      split
      · next equality =>
        have valid : (equalityRegion left right bb g.nodes.length g.freshReg pred).WellFormed
            g.nodes.length g.freshReg := equality_valid known
        have replaced := replaces_insts wellFormed defines found here valid fun x y format =>
          equality_delivers found (equality_halves even equality left right)
        have isHigh := replaced.adds g.freshReg (.icmp pred left.high right.high)
          (by simp [Region.insts, equalityRegion])
        have isLow := replaced.adds (g.freshReg + 1) (.icmp pred left.low right.low)
          (by simp [Region.insts, equalityRegion])
        obtain ⟨sizes, pendings, less⟩ := halves_pending half splits isHigh isLow
        refine ⟨_, halves targetBitwidth n g.freshReg (g.freshReg + 1), ?_, replaced.keeps,
          replaced.others, ⟨sizes, pendings, ?_⟩, ?_, ?_⟩
        · rw [pushHalves_eq]
        · have positive := Nat.pow_pos (n := size) (show 0 < 4 by decide)
          rw [Nat.pow_succ]
          omega
        · unfold halves
          split <;> simp
        · unfold halves
          split <;> simp
      · next order =>
        obtain ⟨inverse, isInverse, inverseSplits⟩ :
            ∃ inverse, pred.inverse = some inverse ∧ inverse.splits := by
          rcases splits with rfl | rfl | rfl | rfl
          · exact absurd (.inl rfl) order
          · exact absurd (.inr rfl) order
          · exact ⟨.ult, rfl, .inr (.inr (.inr rfl))⟩
          · exact ⟨.ugt, rfl, .inr (.inr (.inl rfl))⟩
        have valid : (orderRegion left right bb g.nodes.length g.freshReg pred inverse).WellFormed
            g.nodes.length g.freshReg := order_valid known
        have replaced := replaces_insts wellFormed defines found here valid fun x y format =>
          order_delivers found (order_halves even isInverse left right)
        have isHigh := replaced.adds g.freshReg (.icmp pred left.high right.high)
          (by simp [Region.insts, orderRegion])
        have isInv := replaced.adds (g.freshReg + 1) (.icmp inverse left.high right.high)
          (by simp [Region.insts, orderRegion])
        have isLow := replaced.adds (g.freshReg + 2) (.icmp pred left.low right.low)
          (by simp [Region.insts, orderRegion])
        obtain ⟨sizes, pendings, less⟩ := halves_pending half splits isHigh isLow
        refine ⟨_, halves targetBitwidth n g.freshReg (g.freshReg + 2) ++ [g.freshReg + 1], ?_,
          replaced.keeps, replaced.others, ⟨sizes ++ [size], ?_, ?_⟩, ?_, ?_⟩
        · rw [isInverse, Option.map_some, pushHalves_eq, List.append_assoc, List.singleton_append]
        · exact List.rel_append pendings (.cons ⟨_, inverse, _, _, isInv, inverseSplits, half⟩ .nil)
        · have positive := Nat.pow_pos (n := size) (show 0 < 4 by decide)
          rw [List.map_append, List.sum_append, Nat.pow_succ]
          simp only [List.map_cons, List.map_nil, List.sum_cons, List.sum_nil]
          omega
        · unfold halves
          split <;> simp
        · unfold halves
          split <;> simp

/-! ## The loop -/

theorem pending_below (wellFormed : g.WellFormed) {worklist : CmpWorklist} {sizes : List Nat}
    (pending : List.Forall₂ (Pending g targetBitwidth) worklist sizes) :
    ∀ r ∈ worklist, r < g.freshReg := by
  induction pending with
  | nil => exact List.forall_mem_nil _
  | cons first _ ih =>
      obtain ⟨_, _, _, _, ⟨⟨node, inGraph, inCode⟩, _⟩, _⟩ := first
      exact List.forall_mem_cons.mpr ⟨(wellFormed node inGraph).code _ inCode, ih⟩

theorem pending_mono {c : Reg} (others : ∀ r op, r ≠ c → g.Defines r op → after.Defines r op)
    {worklist : CmpWorklist} {sizes : List Nat} (notLater : c ∉ worklist)
    (pending : List.Forall₂ (Pending g targetBitwidth) worklist sizes) :
    List.Forall₂ (Pending after targetBitwidth) worklist sizes := by
  induction pending with
  | nil => exact .nil
  | cons first _ ih =>
      obtain ⟨notFirst, notLater⟩ := not_or.mp (fun either => notLater (List.mem_cons.mpr either))
      obtain ⟨n, pred, left, right, defines, rest⟩ := first
      exact .cons ⟨n, pred, left, right, others _ _ (Ne.symm notFirst) defines, rest⟩ (ih notLater)

/-- The worklist of the next round. -/
theorem Round.worklist {c : Reg} {size : Nat} {pushed worklist : List Reg} {sizes : List Nat}
    (round : Round g targetBitwidth c size after pushed) (wellFormed : g.WellFormed)
    (later : List.Forall₂ (Pending g targetBitwidth) worklist sizes)
    (nodup : (c :: worklist).Nodup) :
    ∃ more, List.Forall₂ (Pending after targetBitwidth) (pushed ++ worklist) (more ++ sizes) ∧
      (more.map (4 ^ ·)).sum < 4 ^ size ∧ (pushed ++ worklist).Nodup := by
  obtain ⟨more, pushedPending, less⟩ := round.pending
  obtain ⟨notLater, nodupLater⟩ := List.nodup_cons.mp nodup
  have old := pending_below wellFormed later
  have laterPending := pending_mono round.others notLater later
  refine ⟨more, List.rel_append pushedPending laterPending, less, ?_⟩
  refine List.nodup_append.mpr ⟨round.nodup, nodupLater, fun r inPushed s inLater => ?_⟩
  rintro rfl
  exact absurd (round.new r inPushed) (Nat.not_le.mpr (old r inLater))

/-- With fuel for all rounds the loop ends, and the code does what it did. -/
theorem splitLoop_keeps (positive : 0 < targetBitwidth) {bitw : Nat} (wide : targetBitwidth < bitw)
    (bound : Nat) {worklist : CmpWorklist} {sizes : List Nat} (wellFormed : g.WellFormed)
    (pending : List.Forall₂ (Pending g targetBitwidth) worklist sizes) (nodup : worklist.Nodup)
    (rounds : (sizes.map (4 ^ ·)).sum ≤ bound) :
    ∃ after, (∀ fuel, bound ≤ fuel →
      splitLoop targetBitwidth bitw fuel g worklist = some after) ∧ Keeps instEvals g after := by
  induction bound generalizing g worklist sizes with
  | zero =>
      cases pending with
      | nil => exact ⟨g, fun fuel _ => by cases fuel <;> rfl, .refl wellFormed⟩
      | @cons _ size _ sizes _ _ =>
          have some := Nat.pow_pos (n := size) (show 0 < 4 by decide)
          rw [List.map_cons, List.sum_cons] at rounds
          omega
  | succ bound ih =>
      cases pending with
      | nil => exact ⟨g, fun fuel _ => by cases fuel <;> rfl, .refl wellFormed⟩
      | @cons c size worklist sizes first later =>
          obtain ⟨middle, pushed, result, round⟩ :=
            splitCompare_round positive wellFormed first worklist
          obtain ⟨more, allPending, less, nodupAll⟩ := round.worklist wellFormed later nodup
          rw [List.map_cons, List.sum_cons] at rounds
          obtain ⟨after, ends, keeps⟩ := ih round.keeps.wellFormed allPending nodupAll (by
            rw [List.map_append, List.sum_append]
            omega)
          refine ⟨after, fun fuel enough => ?_, round.keeps.trans keeps⟩
          match fuel, enough with
          | fuel + 1, enough =>
              rw [splitLoop, if_pos wide, result, Option.bind_some]
              exact ends fuel (Nat.le_of_succ_le_succ enough)

/-! ## The simplification -/

/-- The worklist holds comparisons of the width that can be split. -/
structure Simplified (g : Graph (Inst w)) (n : Nat) (after : Graph (Inst w))
    (worklist : CmpWorklist) : Prop where
  keeps : Keeps instEvals g after
  ready : ∀ r ∈ worklist, ∃ (pred : ICmp) (left right : Value w n),
    after.Defines r (.icmp pred left right) ∧ pred.splits
  nodup : worklist.Nodup

theorem simplifySignedCompare_spec {n : Nat} (wide : 0 < n) (wellFormed : g.WellFormed)
    {c : Reg} {pred : ICmp} (signed : pred = .sgt ∨ pred = .slt) {left right : Value w n}
    (defines : g.Defines c (.icmp pred left right)) (worklist : CmpWorklist) :
    ∃ after region, simplifySignedCompare g c worklist =
        some (after, (g.freshReg + 2) :: worklist) ∧ Replaces instEvals g c region after ∧
      ∃ new : ICmp, new.splits ∧ after.Defines (g.freshReg + 2) (.icmp new left right) := by
  obtain ⟨bb, node, parent, found, here⟩ := defines.parent
  have valid : (signedRegion g.nodes.length g.freshReg pred left right).WellFormed
      g.nodes.length g.freshReg := signed_valid
  have replaced := replaces_insts wellFormed defines found here valid fun x y format =>
    signed_delivers found (signed_value wide signed left right)
  have new := replaced.adds (g.freshReg + 2) (.icmp (if pred = .sgt then .ugt else .ult) left right)
    (by simp [Region.insts, signedRegion])
  refine ⟨_, _, ?_, replaced, _, ?_, new⟩
  · simp only [simplifySignedCompare, parent, defines.inst, Option.bind_some]
  · split
    · exact .inr (.inr (.inl rfl))
    · exact .inr (.inr (.inr rfl))

theorem simplifyOrEqualsCompare_spec {n : Nat} (wide : 0 < n) (wellFormed : g.WellFormed)
    {c : Reg} {pred newPred : ICmp} (orEquals : pred.orEquals = some newPred)
    {left right : Value w n} (defines : g.Defines c (.icmp pred left right)) :
    ∃ after worklist, simplifyOrEqualsCompare g c [] = some (after, worklist) ∧
      Simplified g n after worklist := by
  obtain ⟨bb, node, parent, found, here⟩ := defines.parent
  have known : bb < g.nodes.length := (List.getElem?_eq_some_iff.mp found).1
  have valid : (orEqualsRegion bb g.nodes.length g.freshReg (Inst.icmp newPred left right)
      (.icmp .eq left right)).WellFormed g.nodes.length g.freshReg := orEquals_valid known _ _
  have replaced := replaces_insts wellFormed defines found here valid fun x y format =>
    orEquals_delivers found (orEquals_value orEquals left right)
  have np := replaced.adds g.freshReg (.icmp newPred left right)
    (by simp [Region.insts, orEqualsRegion])
  have eq := replaced.adds (g.freshReg + 1) (.icmp .eq left right)
    (by simp [Region.insts, orEqualsRegion])
  simp only [simplifyOrEqualsCompare, parent, defines.inst, Option.bind_some, orEquals]
  split
  · next signed =>
    obtain ⟨after, region, result, signedReplaced, new, splits, isNew⟩ :=
      simplifySignedCompare_spec wide replaced.keeps.wellFormed signed np []
    have stays := signedReplaced.others _ _ (Nat.succ_ne_self g.freshReg) eq
    rw [result]
    refine ⟨_, _, rfl, replaced.keeps.trans signedReplaced.keeps, ?_, ?_⟩
    · rw [List.forall_mem_cons, List.forall_mem_singleton]
      exact ⟨⟨.eq, left, right, stays, .inl rfl⟩, new, left, right, isNew, splits⟩
    · have size : (g.expand bb c (orEqualsRegion bb g.nodes.length g.freshReg
          (Inst.icmp newPred left right) (.icmp .eq left right))).freshReg = g.freshReg + 2 :=
        Graph.expand_freshReg found
      simp [size]
  · refine ⟨_, _, rfl, replaced.keeps, ?_, List.nodup_singleton _⟩
    rw [List.forall_mem_singleton]
    exact ⟨.eq, left, right, eq, .inl rfl⟩

theorem simplify_spec {n : Nat} (wide : 0 < n) (wellFormed : g.WellFormed) {c : Reg}
    {pred : ICmp} {left right : Value w n} (defines : g.Defines c (.icmp pred left right)) :
    ∃ after worklist, simplify g c = some (after, worklist) ∧ Simplified g n after worklist := by
  simp only [simplify, defines.inst, Option.bind_some]
  split
  · next orEquals =>
    obtain ⟨newPred, result⟩ : ∃ newPred, pred.orEquals = some newPred := by
      rcases orEquals with rfl | rfl | rfl | rfl <;> exact ⟨_, rfl⟩
    exact simplifyOrEqualsCompare_spec wide wellFormed result defines
  · next notOrEquals =>
    split
    · next signed =>
      obtain ⟨after, region, result, replaced, new, splits, isNew⟩ :=
        simplifySignedCompare_spec wide wellFormed signed defines []
      refine ⟨after, _, result, replaced.keeps, ?_, List.nodup_singleton _⟩
      rw [List.forall_mem_singleton]
      exact ⟨new, left, right, isNew, splits⟩
    · next notSigned =>
      refine ⟨g, [c], rfl, .refl wellFormed, ?_, List.nodup_singleton _⟩
      rw [List.forall_mem_singleton]
      refine ⟨pred, left, right, defines, ?_⟩
      cases pred <;> simp_all [ICmp.splits]

theorem Simplified.pending {a b : Nat} {worklist : CmpWorklist}
    (spec : Simplified g (2 ^ a) after worklist) (below : b < a) :
    List.Forall₂ (Pending after (2 ^ b)) worklist (worklist.map fun _ => a - b) := by
  have width : 2 ^ a = 2 ^ b * 2 ^ (a - b) := by
    rw [← Nat.pow_add, Nat.add_sub_cancel' (Nat.le_of_lt below)]
  rw [List.forall₂_map_right_iff, List.forall₂_same]
  intro r member
  obtain ⟨pred, left, right, isDefined, splits⟩ := spec.ready r member
  exact ⟨_, pred, left, right, isDefined, splits, width⟩

/-! ## The whole pass over a comparison -/

theorem simplifyAndSplit_eq {n : Nat} {c : Reg} {pred : ICmp} {left right : Value w n}
    {worklist : CmpWorklist} (defines : g.Defines c (.icmp pred left right))
    (result : simplify g c = some (after, worklist)) (fuel : Nat) :
    simplifyAndSplit targetBitwidth fuel g c =
      splitLoop targetBitwidth n fuel after worklist := by
  simp only [simplifyAndSplit, defines.inst, Option.bind_some, result]

theorem splitLoop_narrow {bitw : Nat} (narrow : ¬ targetBitwidth < bitw)
    (worklist : CmpWorklist) {fuel : Nat} (enough : worklist.length ≤ fuel) :
    splitLoop targetBitwidth bitw fuel g worklist = some g := by
  induction worklist generalizing fuel with
  | nil => cases fuel <;> rfl
  | cons c worklist ih =>
      match fuel, enough with
      | fuel + 1, enough =>
          rw [splitLoop, if_neg narrow]
          exact ih (Nat.le_of_succ_le_succ enough)

/-- In any function: the worklist runs empty, and every run of the function leaves in its
registers what it did. -/
theorem simplifyAndSplit_keeps {a b : Nat} (wellFormed : g.WellFormed) {c : Reg} {pred : ICmp}
    {left right : Value w (2 ^ a)} (defines : g.Defines c (.icmp pred left right)) :
    ∃ enough after, (∀ fuel, enough ≤ fuel → simplifyAndSplit (2 ^ b) fuel g c = some after) ∧
      Keeps instEvals g after := by
  obtain ⟨simplified, worklist, result, spec⟩ :=
    simplify_spec (Nat.two_pow_pos a) wellFormed defines
  by_cases wide : 2 ^ b < 2 ^ a
  · have below : b < a := (Nat.pow_lt_pow_iff_right (by decide)).mp wide
    obtain ⟨after, ends, keeps⟩ := splitLoop_keeps (Nat.two_pow_pos b) wide _ spec.keeps.wellFormed
      (spec.pending below) spec.nodup (Nat.le_refl _)
    exact ⟨_, after, fun fuel enough => (simplifyAndSplit_eq defines result fuel).trans
      (ends fuel enough), spec.keeps.trans keeps⟩
  · exact ⟨worklist.length, simplified, fun fuel enough =>
      (simplifyAndSplit_eq defines result fuel).trans (splitLoop_narrow wide worklist enough),
      spec.keeps⟩

theorem compareFunction_wellFormed (inst : Inst w) : (compareFunction inst).WellFormed := by
  simp only [Graph.WellFormed, compareFunction, List.forall_mem_singleton]
  exact ⟨by simp, by simp, trivial⟩

theorem compareFunction_defines (inst : Inst w) : (compareFunction inst).Defines 0 inst :=
  ⟨⟨_, List.mem_singleton_self _, List.mem_singleton_self _⟩, by simp [compareFunction]⟩

theorem compareFunction_runs (inst : Inst w) {eval : Inst w → Bool} (env : Env) :
    (compareFunction inst).Runs eval (.entry env) (Function.update env 0 (eval inst)) :=
  ⟨_, .refl, rfl⟩

/-- Widths and target widths are powers of two from 8 on. -/
theorem simplifyAndSplit_computes (a b : Nat) (pred : ICmp) :
    ∃ enough after, (∀ fuel, enough ≤ fuel → simplifyAndSplit (2 ^ (b + 3)) fuel
        (compareFunction (.icmp pred .operand0 .operand1 : Inst (2 ^ (a + 3)))) 0 = some after) ∧
      ∀ (x y : BitVec (2 ^ (a + 3))) format env,
        ∃ final, after.Runs (Inst.eval x y format) (.entry env) final ∧
          final 0 = pred.holds x y ∧
          ∀ other, after.Runs (Inst.eval x y format) (.entry env) other → other = final := by
  obtain ⟨enough, after, ends, keeps⟩ := simplifyAndSplit_keeps
    (compareFunction_wellFormed (.icmp pred .operand0 .operand1 : Inst (2 ^ (a + 3))))
    (compareFunction_defines _)
  refine ⟨enough, after, ends, fun x y format env => ?_⟩
  obtain ⟨final, runs, agree⟩ := keeps.simulates (x, y, format) env _ (compareFunction_runs _ env)
  refine ⟨final, runs, ?_, fun other otherRuns => otherRuns.unique runs⟩
  exact (agree 0 Nat.one_pos).symm.trans (Function.update_self _ _ _)

end

end SbFuzz.Instrumentation
