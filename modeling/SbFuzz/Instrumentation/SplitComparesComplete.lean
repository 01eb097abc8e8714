import SbFuzz.Instrumentation.SplitComparesProperties

/-! Which comparisons the pass leaves wider than the target width. -/

set_option autoImplicit false

namespace SbFuzz.Instrumentation

open SbFuzz.Systems.ControlFlow

def Inst.bitWidth {w : Nat} : Inst w → Nat
  | @Inst.icmp _ n _ _ _ => n
  | _ => 0

section

variable {w : Nat} {g after : Graph (Inst w)} {targetBitwidth : Nat}

/-- What stands for `c`, which was an instruction of `g`, is no wider than the target width. -/
def IsSplit (g : Graph (Inst w)) (c : Reg) (targetBitwidth : Nat) (after : Graph (Inst w)) : Prop :=
  ∀ r inst, after.Has r inst → r = c ∨ g.freshReg ≤ r → inst.bitWidth ≤ targetBitwidth

/-! ## Rounds -/

/-- What stands for `c` and is wider than the target width is on the worklist. -/
structure Covers (base c : Reg) (targetBitwidth : Nat) (g : Graph (Inst w))
    (worklist : CmpWorklist) : Prop where
  single : g.Single
  wide : ∀ r inst, g.Has r inst → r = c ∨ base ≤ r → targetBitwidth < inst.bitWidth →
    r ∈ worklist

section

variable {base c i : Reg} {worklist : CmpWorklist}

theorem covers_initial (wellFormed : g.WellFormed) (single : g.Single) :
    Covers g.freshReg c targetBitwidth g [c] := by
  refine ⟨single, fun r inst has named _ => ?_⟩
  rcases named with rfl | new
  · exact List.mem_singleton_self r
  · obtain ⟨node, inGraph, inCode⟩ := has
    have below := (wellFormed node inGraph).code _ inCode
    exact absurd new (Nat.not_le.mpr below)

theorem Covers.expand {later : CmpWorklist} {inst : Inst w} {bb : Label}
    {node : Node (Inst w)} {region : Region (Inst w)}
    (covers : Covers base c targetBitwidth g worklist) (wellFormed : g.WellFormed)
    (defines : g.Defines i inst) (found : g.nodes[bb]? = some node) (here : (i, inst) ∈ node.code)
    (valid : region.WellFormed g.nodes.length g.freshReg)
    (rest : ∀ r ∈ worklist, r ≠ i → r ∈ later)
    (new : ∀ inst ∈ region.insts, targetBitwidth < inst.2.bitWidth → inst.1 ∈ later) :
    Covers base c targetBitwidth (g.expand bb i region) later := by
  obtain ⟨single, origin⟩ := covers.single.expand wellFormed defines found here valid
  refine ⟨single, fun r other has named wide => ?_⟩
  cases origin r other has with
  | inl old => exact rest r (covers.wide r other old.1 named wide) old.2
  | inr added => exact new _ added wide

theorem Covers.isSplit (covers : Covers g.freshReg c targetBitwidth after worklist)
    (narrow : ∀ r ∈ worklist, ∃ inst, after.Defines r inst ∧ inst.bitWidth ≤ targetBitwidth) :
    IsSplit g c targetBitwidth after := by
  intro r inst has named
  by_contra wide
  obtain ⟨only, defines, small⟩ := narrow r (covers.wide r inst has named (Nat.not_le.mp wide))
  obtain ⟨node, inGraph, inCode⟩ := has
  rw [defines.only node inGraph inst inCode] at wide
  exact wide small

/-- A round that pushes all that it makes and that is still too wide. -/
theorem Covers.round {size : Nat} {pushed : CmpWorklist} (wellFormed : g.WellFormed)
    (pending : Pending g targetBitwidth i size)
    (covers : Covers base c targetBitwidth g (i :: worklist))
    (result : splitCompare targetBitwidth g i worklist = some (after, pushed ++ worklist)) :
    Covers base c targetBitwidth after (pushed ++ worklist) := by
  obtain ⟨n, pred, left, right, defines, splits, width⟩ := pending
  obtain ⟨bb, node, parent, found, here⟩ := defines.parent
  have known : bb < g.nodes.length := (List.getElem?_eq_some_iff.mp found).1
  have rest : ∀ r ∈ i :: worklist, r ≠ i → r ∈ pushed ++ worklist := by
    intro r member away
    exact List.mem_append_right _ (List.mem_of_ne_of_mem away member)
  simp only [splitCompare, parent, defines.inst, Option.bind_some] at result
  split at result
  · next narrow =>
    obtain ⟨rfl, same⟩ := Prod.mk.inj (Option.some.inj result)
    refine ⟨covers.single, fun r inst has named wide => ?_⟩
    have member := covers.wide r inst has named wide
    refine rest r member fun isHead => ?_
    -- The comparison itself is as wide as it may be.
    subst isHead
    obtain ⟨current, inGraph, inCode⟩ := has
    rw [defines.only current inGraph inst inCode] at wide
    exact absurd narrow (Nat.ne_of_gt wide)
  · split at result
    · obtain ⟨rfl, same⟩ := Prod.mk.inj (Option.some.inj result)
      refine covers.expand wellFormed defines found here (equality_valid known) rest ?_
      rw [← same, pushHalves_eq]
      intro inst added wide
      simp only [Region.insts, equalityRegion, List.flatMap_cons, List.flatMap_nil,
        List.singleton_append, List.mem_cons, List.append_nil, List.not_mem_nil, or_false] at added
      have further : targetBitwidth < n / 2 := by
        rcases added with rfl | rfl <;> exact wide
      rw [halves, if_pos further]
      rcases added with rfl | rfl <;> simp
    · obtain ⟨inverse, isInverse, pair⟩ := Option.map_eq_some_iff.mp result
      obtain ⟨rfl, same⟩ := Prod.mk.inj pair
      refine covers.expand wellFormed defines found here (order_valid known) rest ?_
      rw [← same, pushHalves_eq]
      intro inst added wide
      simp only [Region.insts, orderRegion, List.flatMap_cons, List.flatMap_nil,
        List.singleton_append, List.mem_cons, List.append_nil, List.not_mem_nil, or_false] at added
      have further : targetBitwidth < n / 2 := by
        rcases added with rfl | rfl | rfl <;> exact wide
      rw [halves, if_pos further]
      rcases added with rfl | rfl | rfl <;> simp

/-- What every round keeps holds of the graph that the loop ends with. -/
theorem splitLoop_run {bitw : Nat} (positive : 0 < targetBitwidth) (wide : targetBitwidth < bitw)
    {Inv : Graph (Inst w) → CmpWorklist → Prop}
    (step : ∀ g i size worklist after pushed, g.WellFormed → Pending g targetBitwidth i size →
      splitCompare targetBitwidth g i worklist = some (after, pushed ++ worklist) →
      Round g targetBitwidth i size after pushed → Inv g (i :: worklist) →
        Inv after (pushed ++ worklist))
    (fuel : Nat) {sizes : List Nat} (wellFormed : g.WellFormed)
    (pending : List.Forall₂ (Pending g targetBitwidth) worklist sizes) (nodup : worklist.Nodup)
    (result : splitLoop targetBitwidth bitw fuel g worklist = some after)
    (holds : Inv g worklist) : Inv after [] := by
  induction fuel generalizing g worklist sizes with
  | zero =>
      cases pending with
      | nil =>
          obtain rfl := Option.some.inj result
          exact holds
      | cons _ _ => cases result
  | succ fuel ih =>
      cases pending with
      | nil =>
          obtain rfl := Option.some.inj result
          exact holds
      | @cons i size worklist sizes first later =>
          obtain ⟨middle, pushed, stepped, round⟩ :=
            splitCompare_round positive wellFormed first worklist
          obtain ⟨more, allPending, _, nodupAll⟩ := round.worklist wellFormed later nodup
          rw [splitLoop, if_pos wide, stepped, Option.bind_some] at result
          exact ih round.keeps.wellFormed allPending nodupAll result
            (step g i size worklist middle pushed wellFormed first stepped round holds)

/-! ## The simplification -/

variable {n : Nat} {pred : ICmp} {left right : Value w n}

theorem Covers.signed (positive : 0 < targetBitwidth) (wellFormed : g.WellFormed)
    (defines : g.Defines i (.icmp pred left right))
    (covers : Covers base c targetBitwidth g (i :: worklist)) {earlier later : CmpWorklist}
    (result : simplifySignedCompare g i earlier = some (after, later)) :
    Covers base c targetBitwidth after (worklist ++ later) := by
  obtain ⟨bb, node, parent, found, here⟩ := defines.parent
  simp only [simplifySignedCompare, parent, defines.inst, Option.bind_some] at result
  obtain ⟨rfl, rfl⟩ := Prod.mk.inj (Option.some.inj result)
  refine covers.expand wellFormed defines found here signed_valid ?_ ?_
  · intro r member away
    exact List.mem_append_left _ (List.mem_of_ne_of_mem away member)
  · intro inst added wide
    simp only [Region.insts, signedRegion, List.flatMap_cons, List.flatMap_nil,
      List.singleton_append, List.mem_cons, List.append_nil, List.not_mem_nil, or_false] at added
    rcases added with rfl | rfl | rfl
    · exact absurd wide (Nat.not_lt.mpr positive)
    · exact absurd wide (Nat.not_lt.mpr positive)
    · exact List.mem_append_right _ List.mem_cons_self

/-- The strict comparison that is tried first. -/
theorem orEquals_defines {bb : Label} {node : Node (Inst w)} (wellFormed : g.WellFormed)
    (found : g.nodes[bb]? = some node) (c : Reg) (newPred : ICmp) (left right : Value w n) :
    (g.expand bb c (orEqualsRegion bb g.nodes.length g.freshReg (Inst.icmp newPred left right)
      (.icmp .eq left right))).Defines g.freshReg (.icmp newPred left right) := by
  have known : bb < g.nodes.length := (List.getElem?_eq_some_iff.mp found).1
  refine Graph.expand_defines wellFormed found (orEquals_valid known _ _) ?_
  simp [Region.insts, orEqualsRegion]

/-- All that is made is on the worklist, except for the strict comparison of two predicates. -/
theorem simplify_covers (positive : 0 < targetBitwidth) (wellFormed : g.WellFormed)
    (single : g.Single) (defines : g.Defines c (.icmp pred left right))
    (result : simplify g c = some (after, worklist)) :
    if pred = .uge ∨ pred = .ule then
      Covers g.freshReg c targetBitwidth after (g.freshReg :: worklist)
    else Covers g.freshReg c targetBitwidth after worklist := by
  have initial : Covers g.freshReg c targetBitwidth g [c] := covers_initial wellFormed single
  simp only [simplify, defines.inst, Option.bind_some] at result
  split at result
  · next orEquals =>
    obtain ⟨newPred, isNew⟩ : ∃ newPred, pred.orEquals = some newPred := by
      rcases orEquals with rfl | rfl | rfl | rfl <;> exact ⟨_, rfl⟩
    obtain ⟨bb, node, parent, found, here⟩ := defines.parent
    have known : bb < g.nodes.length := (List.getElem?_eq_some_iff.mp found).1
    simp only [simplifyOrEqualsCompare, parent, defines.inst, Option.bind_some, isNew] at result
    have valid : (orEqualsRegion bb g.nodes.length g.freshReg (Inst.icmp newPred left right)
        (.icmp .eq left right)).WellFormed g.nodes.length g.freshReg := orEquals_valid known _ _
    have covered : Covers g.freshReg c targetBitwidth (g.expand bb c (orEqualsRegion bb
        g.nodes.length g.freshReg (Inst.icmp newPred left right) (.icmp .eq left right)))
        (g.freshReg :: [g.freshReg + 1]) :=
      initial.expand wellFormed defines found here valid (by simp)
        (by simp [Region.insts, orEqualsRegion])
    split at result
    · next signed =>
      have notUnsigned : ¬ (pred = .uge ∨ pred = .ule) := by
        rintro (rfl | rfl) <;> cases isNew <;> simp at signed
      rw [if_neg notUnsigned]
      obtain ⟨⟨middle, later⟩, second, pair⟩ := Option.map_eq_some_iff.mp result
      obtain ⟨rfl, rfl⟩ := Prod.mk.inj pair
      have halfway := Graph.expand_wellFormed wellFormed found here valid
      have np := orEquals_defines wellFormed found c newPred left right
      exact covered.signed positive halfway np second
    · next notSigned =>
      have unsigned : pred = .uge ∨ pred = .ule := by
        rcases orEquals with rfl | rfl | rfl | rfl <;> cases isNew <;> simp at notSigned ⊢
      obtain ⟨rfl, rfl⟩ := Prod.mk.inj (Option.some.inj result)
      rw [if_pos unsigned]
      exact covered
  · next strict =>
    have notUnsigned : ¬ (pred = .uge ∨ pred = .ule) := by
      rintro (rfl | rfl) <;> simp at strict
    rw [if_neg notUnsigned]
    split at result
    · exact Covers.signed positive wellFormed defines initial result
    · obtain ⟨rfl, rfl⟩ := Prod.mk.inj (Option.some.inj result)
      exact initial

/-- An instruction that is not on the worklist. -/
structure Bystander (r : Reg) (inst : Inst w) (g : Graph (Inst w)) (worklist : CmpWorklist) :
    Prop where
  defines : g.Defines r inst
  old : r < g.freshReg
  away : r ∉ worklist

/-- Only the equality is pushed: the strict comparison that is tried first stays. -/
theorem simplify_unsigned (wellFormed : g.WellFormed)
    (defines : g.Defines c (.icmp pred left right)) (unsigned : pred = .uge ∨ pred = .ule)
    (result : simplify g c = some (after, worklist)) :
    ∃ newPred, Bystander g.freshReg (.icmp newPred left right) after worklist := by
  obtain ⟨newPred, isNew, notSigned⟩ :
      ∃ newPred, pred.orEquals = some newPred ∧ ¬ (newPred = .sgt ∨ newPred = .slt) := by
    rcases unsigned with rfl | rfl
    · exact ⟨.ugt, rfl, by simp⟩
    · exact ⟨.ult, rfl, by simp⟩
  have orEquals : pred = .uge ∨ pred = .sge ∨ pred = .ule ∨ pred = .sle := by
    rcases unsigned with rfl | rfl <;> simp
  obtain ⟨bb, node, parent, found, here⟩ := defines.parent
  simp only [simplify, simplifyOrEqualsCompare, parent, defines.inst, Option.bind_some,
    if_pos orEquals, isNew, if_neg notSigned] at result
  obtain ⟨rfl, rfl⟩ := Prod.mk.inj (Option.some.inj result)
  have np := orEquals_defines wellFormed found c newPred left right
  refine ⟨newPred, np, ?_, by simp⟩
  rw [Graph.expand_freshReg found]
  exact Nat.lt_add_of_pos_right Nat.two_pos

theorem bystander_round {r : Reg} {inst : Inst w} (g : Graph (Inst w)) (i size : Nat)
    (worklist : CmpWorklist) (after : Graph (Inst w)) (pushed : CmpWorklist) (_ : g.WellFormed)
    (_ : Pending g targetBitwidth i size)
    (_ : splitCompare targetBitwidth g i worklist = some (after, pushed ++ worklist))
    (round : Round g targetBitwidth i size after pushed)
    (bystander : Bystander r inst g (i :: worklist)) :
    Bystander r inst after (pushed ++ worklist) := by
  obtain ⟨notHead, notLater⟩ := not_or.mp fun either =>
    bystander.away (List.mem_cons.mpr either)
  refine ⟨round.others r inst notHead bystander.defines,
    Nat.lt_of_lt_of_le bystander.old round.keeps.more, fun member => ?_⟩
  rcases List.mem_append.mp member with isNew | isOld
  · exact absurd bystander.old (Nat.not_lt.mpr (round.new r isNew))
  · exact notLater isOld

/-! ## The whole pass -/

/-- The comparison is split completely except by the two unsigned predicates that allow
equality. -/
theorem simplifyAndSplit_splits_iff {a b : Nat} {left right : Value w (2 ^ (a + 3))}
    (wellFormed : g.WellFormed) (single : g.Single) (defines : g.Defines c (.icmp pred left right)) :
    ∃ enough after, (∀ fuel, enough ≤ fuel →
        simplifyAndSplit (2 ^ (b + 3)) fuel g c = some after) ∧
      (IsSplit g c (2 ^ (b + 3)) after ↔ ¬ ((pred = .uge ∨ pred = .ule) ∧ b < a)) := by
  have positive : 0 < 2 ^ (b + 3) := Nat.two_pow_pos _
  obtain ⟨simplified, worklist, result, spec⟩ :=
    simplify_spec (Nat.two_pow_pos (a + 3)) wellFormed defines
  have covers := simplify_covers positive wellFormed single defines result
  by_cases wide : b < a
  · have pending := spec.pending (Nat.add_lt_add_right wide 3)
    have wider : 2 ^ (b + 3) < 2 ^ (a + 3) :=
      Nat.pow_lt_pow_right (by decide) (Nat.add_lt_add_right wide 3)
    obtain ⟨after, ends, _⟩ := splitLoop_keeps positive wider _ spec.keeps.wellFormed pending
      spec.nodup (Nat.le_refl _)
    have last := ends _ (Nat.le_refl _)
    refine ⟨_, after, fun fuel enough => (simplifyAndSplit_eq defines result fuel).trans
      (ends fuel enough), ?_⟩
    by_cases unsigned : pred = .uge ∨ pred = .ule
    · obtain ⟨newPred, bystander⟩ := simplify_unsigned wellFormed defines unsigned result
      have stays := splitLoop_run positive wider bystander_round _ spec.keeps.wellFormed pending
        spec.nodup last bystander
      refine iff_of_false (fun isSplit => ?_) (not_not_intro ⟨unsigned, wide⟩)
      exact absurd (isSplit _ _ stays.defines.here (.inr (Nat.le_refl _))) (Nat.not_le.mpr wider)
    · rw [if_neg unsigned] at covers
      have done := splitLoop_run positive wider (fun _ _ _ _ _ _ wellFormed pending stepped _ covers =>
        Covers.round wellFormed pending covers stepped) _ spec.keeps.wellFormed pending spec.nodup
        last covers
      exact iff_of_true (done.isSplit (List.forall_mem_nil _)) fun both => unsigned both.1
  · have narrow : 2 ^ (a + 3) ≤ 2 ^ (b + 3) :=
      Nat.pow_le_pow_right (by decide) (Nat.add_le_add_right (Nat.le_of_not_lt wide) 3)
    refine ⟨worklist.length, simplified, fun fuel enough =>
      (simplifyAndSplit_eq defines result fuel).trans
        (splitLoop_narrow (Nat.not_lt.mpr narrow) worklist enough), ?_⟩
    have small : ∀ r ∈ worklist, ∃ inst : Inst w,
        simplified.Defines r inst ∧ inst.bitWidth ≤ 2 ^ (b + 3) := by
      intro r member
      obtain ⟨newPred, left, right, isDefined, _⟩ := spec.ready r member
      exact ⟨_, isDefined, narrow⟩
    refine iff_of_true ?_ fun both => wide both.2
    split at covers
    · next unsigned =>
      obtain ⟨newPred, bystander⟩ := simplify_unsigned wellFormed defines unsigned result
      exact covers.isSplit (List.forall_mem_cons.mpr ⟨⟨_, bystander.defines, narrow⟩, small⟩)
    · exact covers.isSplit small

theorem compareFunction_single (inst : Inst w) : (compareFunction inst).Single := by
  simp [Graph.Single, Graph.insts, compareFunction]

end

theorem simplifyAndSplit_splits_iff_uge :
    ∃ enough after, (∀ fuel, enough ≤ fuel → simplifyAndSplit (2 ^ (0 + 3)) fuel
        (compareFunction (.icmp .uge .operand0 .operand1 : Inst (2 ^ (1 + 3)))) 0 = some after) ∧
      (IsSplit (compareFunction (.icmp .uge .operand0 .operand1 : Inst (2 ^ (1 + 3)))) 0
        (2 ^ (0 + 3)) after ↔ ¬ ((ICmp.uge = .uge ∨ ICmp.uge = .ule) ∧ 0 < 1)) :=
  simplifyAndSplit_splits_iff (compareFunction_wellFormed _) (compareFunction_single _)
    (compareFunction_defines _)

/-- Of `x >= y` at 16 bits, `x > y` stays. -/
theorem simplifyAndSplit_leaves_ugt :
    ∃ after, simplifyAndSplit 8 1 (compareFunction (.icmp .uge .operand0 .operand1 : Inst 16)) 0 =
        some after ∧
      after.Has 1 (.icmp .ugt .operand0 .operand1) ∧
      ¬ IsSplit (compareFunction (.icmp .uge .operand0 .operand1 : Inst 16)) 0 8 after := by
  have stays : ∃ after, simplifyAndSplit 8 1
      (compareFunction (.icmp .uge .operand0 .operand1 : Inst 16)) 0 = some after ∧
      after.Has 1 (.icmp .ugt .operand0 .operand1) :=
    ⟨_, rfl, _, List.mem_cons_self, List.mem_cons_self⟩
  obtain ⟨after, result, has⟩ := stays
  refine ⟨after, result, has, fun isSplit => ?_⟩
  exact absurd (isSplit 1 _ has (.inr (Nat.le_refl 1))) (by simp [Inst.bitWidth])

end

end SbFuzz.Instrumentation
