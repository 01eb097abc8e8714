import SbFuzz.Instrumentation.SplitSwitches

/-! The tree of a split switch goes where the switch went, and the phi nodes there
receive what they received. -/

set_option autoImplicit false

namespace SbFuzz.Instrumentation

section

variable {w : Nat} {V PhiNode : Type}

/-! ## Bytes -/

theorem caseByte_eq_mod (val : BitVec w) (i : Nat) :
    caseByte val i = val.toNat >>> (i * 8) % 2 ^ 8 := Nat.and_two_pow_sub_one_eq_mod _ 8

theorem truncByte_eq (val : BitVec w) (i : Nat) : truncByte val i = caseByte val i := by
  rw [caseByte_eq_mod, truncByte, BitVec.toNat_setWidth, BitVec.toNat_ushiftRight]

/-- Values with the same bytes are the same. -/
theorem eq_of_caseBytes {n : Nat} (wide : w ≤ 8 * n) {left right : BitVec w}
    (same : ∀ i < n, caseByte left i = caseByte right i) : left = right := by
  apply BitVec.eq_of_getLsbD_eq
  intro j below
  have byte := congrArg (fun value => value.testBit (j % 8)) (same (j / 8) (by omega))
  have position : j / 8 * 8 + j % 8 = j := by omega
  simp only [caseByte_eq_mod, Nat.testBit_mod_two_pow, Nat.testBit_shiftRight, position,
    Nat.mod_lt j (show 8 > 0 by decide), decide_true, Bool.true_and] at byte
  exact byte

/-! ## Routes -/

def Branch.next (val : BitVec w) : Branch → Block
  | .byteMatch i .eq byte yes no => if truncByte val i = byte then yes else no
  | .byteMatch i .ult byte yes no => if truncByte val i < byte then yes else no
  | .goto dest => dest

/-- Control runs from a block through blocks of the tree; the last edge is taken from
`pred` to `dest`. -/
inductive Routes (branches : Block → Option Branch) (val : BitVec w) :
    Block → Block → Block → Prop where
  | edge {block branch} : branches block = some branch →
      Routes branches val block block (branch.next val)
  | step {block branch pred dest} : branches block = some branch →
      Routes branches val (branch.next val) pred dest → Routes branches val block pred dest

theorem Routes.mono {branches more : Block → Option Branch} {val : BitVec w}
    {block pred dest : Block} (routes : Routes branches val block pred dest)
    (grows : ∀ b branch, branches b = some branch → more b = some branch) :
    Routes more val block pred dest := by
  induction routes with
  | edge found => exact .edge (grows _ _ found)
  | step found _ ih => exact .step (grows _ _ found) ih

theorem Routes.snoc {branches : Block → Option Branch} {val : BitVec w}
    {block pred dest : Block} {branch : Branch} (routes : Routes branches val block pred dest)
    (found : branches dest = some branch) :
    Routes branches val block dest (branch.next val) := by
  induction routes with
  | edge first => exact .step first (.edge found)
  | step first _ ih => exact .step first (ih found)

/-! ## Phi nodes -/

def Phi.countFrom (phi : Phi V) (block : Block) : Nat := phi.countP fun entry => entry.1 = block

/-- Entries for the block of the switch may have become entries for new blocks. -/
structure Moved (orig lo : Block) (before after : Phi V) : Prop where
  entries : ∀ entry ∈ after, entry ∈ before ∨ lo ≤ entry.1 ∧ (orig, entry.2) ∈ before
  kept : ∀ entry ∈ before, entry.1 ≠ orig → entry ∈ after
  others : ∀ pred < lo, pred ≠ orig → after.incoming pred = before.incoming pred

variable {orig lo new : Block} {first second third : Phi V}

theorem Moved.refl (orig lo : Block) (phi : Phi V) : Moved orig lo phi phi :=
  ⟨fun _ member => .inl member, fun _ member _ => member, fun _ _ _ => rfl⟩

theorem Moved.mono {more : Block} (moved : Moved orig more first second) (below : lo ≤ more) :
    Moved orig lo first second := by
  refine ⟨fun entry member => ?_, moved.kept,
    fun pred less => moved.others pred (Nat.lt_of_lt_of_le less below)⟩
  exact (moved.entries entry member).imp id fun both => ⟨Nat.le_trans below both.1, both.2⟩

theorem Moved.trans (known : orig < lo) (one : Moved orig lo first second)
    (two : Moved orig lo second third) : Moved orig lo first third := by
  have back : ∀ value, (orig, value) ∈ second → (orig, value) ∈ first := by
    intro value member
    rcases one.entries _ member with same | ⟨fresh, _⟩
    · exact same
    · exact absurd known (Nat.not_lt.mpr fresh)
  refine ⟨fun entry member => ?_, fun entry member other =>
    two.kept entry (one.kept entry member other) other, fun pred below other =>
    (two.others pred below other).trans (one.others pred below other)⟩
  rcases two.entries entry member with same | ⟨fresh, origin⟩
  · exact one.entries entry same
  · exact .inr ⟨fresh, back _ origin⟩

theorem Moved.updateFirst (phi : Phi V) (fresh : lo ≤ new) :
    Moved orig lo phi (phi.updateFirst orig new) := by
  induction phi with
  | nil => exact .refl orig lo []
  | cons entry phi ih =>
      rw [Phi.updateFirst]
      split
      · next here =>
        refine ⟨fun other member => ?_, fun other member away => ?_, fun pred below away => ?_⟩
        · rcases List.mem_cons.mp member with rfl | later
          · exact .inr ⟨fresh, by simp [← here]⟩
          · exact .inl (List.mem_cons_of_mem _ later)
        · rcases List.mem_cons.mp member with rfl | later
          · exact absurd here away
          · exact List.mem_cons_of_mem _ later
        · have notNew : new ≠ pred := Nat.ne_of_gt (Nat.lt_of_lt_of_le below fresh)
          have notHere : entry.1 ≠ pred := fun same => away (same.symm.trans here)
          simp [Phi.incoming, notNew, notHere]
      · next elsewhere =>
        refine ⟨fun other member => ?_, fun other member away => ?_, fun pred below away => ?_⟩
        · rcases List.mem_cons.mp member with rfl | later
          · exact .inl List.mem_cons_self
          · exact (ih.entries other later).imp (List.mem_cons_of_mem _)
              fun both => ⟨both.1, List.mem_cons_of_mem _ both.2⟩
        · rcases List.mem_cons.mp member with rfl | later
          · exact List.mem_cons_self
          · exact List.mem_cons_of_mem _ (ih.kept other later away)
        · have same := ih.others pred below away
          simp only [Phi.incoming, List.find?_cons] at same ⊢
          split
          · rfl
          · exact same

/-- Of the entries for the block one is used up. -/
theorem updateFirst_spec (phi : Phi V) (other : new ≠ orig) (some : 0 < phi.countFrom orig) :
    (phi.updateFirst orig new).countFrom orig + 1 = phi.countFrom orig ∧
      ∃ value, (new, value) ∈ phi.updateFirst orig new := by
  induction phi with
  | nil => cases some
  | cons entry phi ih =>
      rw [Phi.updateFirst]
      split
      · next here =>
        exact ⟨by simp [Phi.countFrom, here, other], entry.2, List.mem_cons_self⟩
      · next elsewhere =>
        have later : 0 < Phi.countFrom phi orig := by simpa [Phi.countFrom, elsewhere] using some
        obtain ⟨count, value, member⟩ := ih later
        refine ⟨?_, value, List.mem_cons_of_mem _ member⟩
        simpa [Phi.countFrom, elsewhere] using count

/-! ## Calls of `switchConvert` -/

def edges (cases : List (CaseExpr w)) (block : Block) : Nat :=
  cases.countP fun other => other.bb = block

/-- The cases of a call agree on the bytes that were checked on the way to it. -/
structure Consistent (cases : List (CaseExpr w)) (bytesChecked : List Bool) : Prop where
  some : cases ≠ []
  distinct : (cases.map CaseExpr.val).Nodup
  agree : ∀ i < bytesChecked.length, bytesChecked.getD i true = true →
    ∀ one ∈ cases, ∀ two ∈ cases, caseByte one.val i = caseByte two.val i
  wide : w ≤ 8 * bytesChecked.length
  unchecked : ∃ i < bytesChecked.length, bytesChecked.getD i true = false

theorem Consistent.smallest {cases : List (CaseExpr w)} {bytesChecked : List Bool}
    (consistent : Consistent cases bytesChecked) :
    bytesChecked.getD (smallest cases bytesChecked).1 true = false := by
  rcases smallest_spec cases bytesChecked with all | found
  · obtain ⟨i, below, unchecked⟩ := consistent.unchecked
    rw [all i below] at unchecked
    cases unchecked
  · exact found.1

theorem getD_set (bytesChecked : List Bool) (index i : Nat) :
    (bytesChecked.set index true).getD i true = if i = index then true else bytesChecked.getD i true := by
  rw [List.getD_eq_getElem?_getD, List.getD_eq_getElem?_getD, List.getElem?_set]
  rcases eq_or_ne index i with rfl | other
  · rw [if_pos rfl, if_pos rfl]
    split <;> rfl
  · rw [if_neg other, if_neg other.symm]

/-- A set of one byte: all cases have it. -/
theorem byteSet_single {cases : List (CaseExpr w)} {i : Nat}
    (single : (byteSet cases i).length = 1) {other : CaseExpr w} (member : other ∈ cases) :
    caseByte other.val i = (byteSet cases i).headD 0 := by
  have inSet : caseByte other.val i ∈ byteSet cases i :=
    mem_byteSet.mpr ⟨Nat.lt_succ_of_le Nat.and_le_right, other, member, rfl⟩
  obtain ⟨byte, same⟩ := List.length_eq_one_iff.mp single
  rw [same] at inSet ⊢
  exact List.mem_singleton.mp inSet

variable {cases : List (CaseExpr w)} {bytesChecked : List Bool}

/-- A byte on which all cases agree is checked off. -/
theorem Consistent.check (consistent : Consistent cases bytesChecked) {index : Nat}
    (same : ∀ one ∈ cases, ∀ two ∈ cases, caseByte one.val index = caseByte two.val index)
    (more : (bytesChecked.set index true).all id = false) :
    Consistent cases (bytesChecked.set index true) := by
  refine ⟨consistent.some, consistent.distinct, fun i below checked => ?_, ?_, ?_⟩
  · rw [List.length_set] at below
    rw [getD_set] at checked
    split at checked
    · next here => exact here ▸ same
    · exact consistent.agree i below checked
  · rw [List.length_set]
    exact consistent.wide
  · obtain ⟨byte, member, unchecked⟩ := List.all_eq_false.mp more
    obtain ⟨i, below, found⟩ := List.mem_iff_getElem.mp member
    refine ⟨i, below, ?_⟩
    rw [List.getD_eq_getElem _ _ below, found]
    simpa using unchecked

theorem Consistent.sublist (consistent : Consistent cases bytesChecked)
    {part : List (CaseExpr w)} (sub : part.Sublist cases) (some : part ≠ []) :
    Consistent part bytesChecked :=
  ⟨some, consistent.distinct.sublist (sub.map _), fun i below checked one first two second =>
    consistent.agree i below checked one (sub.subset first) two (sub.subset second),
    consistent.wide, consistent.unchecked⟩

/-- Cases that agree on all bytes are one. -/
theorem Consistent.eq_of_all (consistent : Consistent cases bytesChecked) {index : Nat}
    (all : (bytesChecked.set index true).all id = true) {value : BitVec w} {one : CaseExpr w}
    (agrees : ∀ i < bytesChecked.length, bytesChecked.getD i true = true →
      caseByte value i = caseByte one.val i) (here : caseByte value index = caseByte one.val index) :
    value = one.val := by
  apply eq_of_caseBytes consistent.wide
  intro i below
  rcases eq_or_ne i index with rfl | other
  · exact here
  · apply agrees i below
    have checked := getD_set bytesChecked index i
    rw [if_neg other] at checked
    have inside : i < (bytesChecked.set index true).length := by rwa [List.length_set]
    rw [← checked, List.getD_eq_getElem _ _ inside]
    exact List.all_eq_true.mp all _ (List.getElem_mem inside)

end

section

variable {w : Nat} {V PhiNode : Type} {home : PhiNode → Block} {orig newDefault : Block}
  {cfg after : Cfg V PhiNode} {cases : List (CaseExpr w)} {bytesChecked : List Bool} {block : Block}

/-! ## What a call does -/

/-- There is an entry for each edge that a call is to make. -/
structure Ready (home : PhiNode → Block) (orig : Block) (cfg : Cfg V PhiNode)
    (cases : List (CaseExpr w)) : Prop where
  known : orig < cfg.fresh
  clean : ∀ b, cfg.fresh ≤ b → cfg.branches b = none
  entries : ∀ node, edges cases (home node) ≤ (cfg.phis node).countFrom orig

/-- The tree whose root is `block` decides between the cases. -/
structure Converted (home : PhiNode → Block) (orig newDefault : Block) (cfg : Cfg V PhiNode)
    (cases : List (CaseExpr w)) (bytesChecked : List Bool) (block : Block)
    (after : Cfg V PhiNode) : Prop where
  low : cfg.fresh ≤ block
  high : block < after.fresh
  old : ∀ b < cfg.fresh, after.branches b = cfg.branches b
  clean : ∀ b, after.fresh ≤ b → after.branches b = none
  moved : ∀ node, Moved orig cfg.fresh (cfg.phis node) (after.phis node)
  count : ∀ node, (after.phis node).countFrom orig + edges cases (home node) =
    (cfg.phis node).countFrom orig
  hit : ∀ one ∈ cases, ∃ pred, cfg.fresh ≤ pred ∧
    Routes after.branches one.val block pred one.bb ∧
    ∀ node, home node = one.bb → ∃ value, (pred, value) ∈ after.phis node
  miss : ∀ val, (∀ i < bytesChecked.length, bytesChecked.getD i true = true →
      ∀ one ∈ cases, caseByte val i = caseByte one.val i) →
    (∀ one ∈ cases, val ≠ one.val) →
    ∃ pred, cfg.fresh ≤ pred ∧ Routes after.branches val block pred newDefault

theorem Ready.newBlock (ready : Ready home orig cfg cases) :
    Ready home orig cfg.newBlock.2 cases :=
  ⟨Nat.lt_succ_of_lt ready.known, fun b above => ready.clean b (Nat.le_of_succ_le above),
    ready.entries⟩

theorem Ready.of_le (ready : Ready home orig cfg cases) {part : List (CaseExpr w)}
    (fewer : ∀ b, edges part b ≤ edges cases b) : Ready home orig cfg part :=
  ⟨ready.known, ready.clean, fun node => Nat.le_trans (fewer (home node)) (ready.entries node)⟩

theorem terminate_of_ne {branch : Branch} {b : Block} (other : b ≠ block) :
    (cfg.terminate block branch).branches b = cfg.branches b := by
  simp only [Cfg.terminate]
  exact Function.update_of_ne other _ _

theorem terminate_self {branch : Branch} :
    (cfg.terminate block branch).branches block = some branch := by
  simp only [Cfg.terminate]
  exact Function.update_self _ _ _

/-- A block that had no branch is given one: routes stay. -/
theorem Routes.terminate {val : BitVec w} {start pred dest : Block} {branch : Branch}
    (routes : Routes cfg.branches val start pred dest) (empty : cfg.branches block = none) :
    Routes (cfg.terminate block branch).branches val start pred dest := by
  apply routes.mono
  intro b found known
  have other : b ≠ block := by
    rintro rfl
    rw [empty] at known
    cases known
  rwa [terminate_of_ne other]

variable {index byte : Nat}

/-- The last byte of the only case. -/
theorem converted_leaf {first : CaseExpr w} (ready : Ready home orig cfg [first])
    (consistent : Consistent [first] bytesChecked)
    (all : (bytesChecked.set index true).all id = true) (here : caseByte first.val index = byte) :
    Converted home orig newDefault cfg [first] bytesChecked cfg.fresh
      ((cfg.newBlock.2.terminate cfg.fresh (.byteMatch index .eq byte first.bb newDefault)).updatePhis
        home first.bb orig cfg.fresh) := by
  have other : cfg.fresh ≠ orig := Nat.ne_of_gt ready.known
  have branch : ((cfg.newBlock.2.terminate cfg.fresh
      (.byteMatch index .eq byte first.bb newDefault)).updatePhis home first.bb orig
        cfg.fresh).branches cfg.fresh = some (.byteMatch index .eq byte first.bb newDefault) :=
    terminate_self
  have entry : ∀ node, home node = first.bb →
      (Phi.updateFirst (cfg.phis node) orig cfg.fresh).countFrom orig + 1 =
        (cfg.phis node).countFrom orig ∧
      ∃ value, (cfg.fresh, value) ∈ Phi.updateFirst (cfg.phis node) orig cfg.fresh := by
    intro node lives
    have one := ready.entries node
    simp only [edges, lives, List.countP_singleton, decide_true, if_true] at one
    exact updateFirst_spec _ other one
  refine ⟨Nat.le_refl _, Nat.lt_succ_self _, fun b below => terminate_of_ne (Nat.ne_of_lt below),
    fun b above => ?_, fun node => ?_, fun node => ?_, fun one member => ?_,
    fun val agrees misses => ?_⟩
  · have above : cfg.fresh + 1 ≤ b := above
    exact (terminate_of_ne (Nat.ne_of_gt above)).trans (ready.clean b (Nat.le_of_succ_le above))
  · simp only [Cfg.updatePhis]
    split
    · exact Moved.updateFirst _ (Nat.le_refl _)
    · exact Moved.refl _ _ _
  · by_cases lives : home node = first.bb
    · simp only [Cfg.updatePhis, edges, lives, List.countP_singleton, decide_true,
        if_true]
      exact (entry node lives).1
    · simp [Cfg.updatePhis, lives, edges, Ne.symm lives, Cfg.terminate, Cfg.newBlock]
  · obtain rfl := List.mem_singleton.mp member
    refine ⟨cfg.fresh, Nat.le_refl _, ?_, fun node lives => ?_⟩
    · have route : Routes _ one.val _ _ _ := Routes.edge branch
      rwa [Branch.next, truncByte_eq, if_pos here] at route
    · simp only [Cfg.updatePhis, if_pos lives]
      exact (entry node lives).2
  · have notHere : caseByte val index ≠ byte := by
      intro same
      apply misses first List.mem_cons_self
      exact consistent.eq_of_all all (fun i below checked =>
        agrees i below checked first List.mem_cons_self) (same.trans here.symm)
    have route : Routes _ val _ _ _ := Routes.edge branch
    rw [Branch.next, truncByte_eq, if_neg notHere] at route
    exact ⟨cfg.fresh, Nat.le_refl _, route⟩

theorem Converted.root (child : Converted home orig newDefault cfg.newBlock.2 cases bytesChecked
    block after) : cfg.fresh < after.fresh :=
  Nat.lt_of_succ_le (Nat.le_of_lt (Nat.lt_of_le_of_lt child.low child.high))

/-- All cases have the byte: a value with another one goes to the default. -/
theorem converted_match (ready : Ready home orig cfg cases)
    (child : Converted home orig newDefault cfg.newBlock.2 cases (bytesChecked.set index true)
      block after) (here : ∀ one ∈ cases, caseByte one.val index = byte) :
    Converted home orig newDefault cfg cases bytesChecked cfg.fresh
      (after.terminate cfg.fresh (.byteMatch index .eq byte block newDefault)) := by
  have empty : after.branches cfg.fresh = none :=
    (child.old _ (Nat.lt_succ_self _)).trans (ready.clean _ (Nat.le_refl _))
  have inner : ∀ {val : BitVec w} {pred dest}, caseByte val index = byte →
      Routes after.branches val block pred dest →
      Routes (after.terminate cfg.fresh (.byteMatch index .eq byte block newDefault)).branches
        val cfg.fresh pred dest := by
    intro val pred dest same routes
    apply Routes.step terminate_self
    rw [Branch.next, truncByte_eq, if_pos same]
    exact routes.terminate empty
  refine ⟨Nat.le_refl _, child.root, fun b below => ?_, fun b above => ?_, fun node => ?_,
    child.count, fun one member => ?_, fun val agrees misses => ?_⟩
  · exact (terminate_of_ne (Nat.ne_of_lt below)).trans (child.old b (Nat.lt_succ_of_lt below))
  · exact (terminate_of_ne (Nat.ne_of_gt (Nat.lt_of_lt_of_le child.root above))).trans
      (child.clean b above)
  · exact (child.moved node).mono (Nat.le_succ _)
  · obtain ⟨pred, low, routes, given⟩ := child.hit one member
    exact ⟨pred, Nat.le_of_succ_le low, inner (here one member) routes, given⟩
  · by_cases same : caseByte val index = byte
    · obtain ⟨pred, low, routes⟩ := child.miss val (fun i below checked one member => by
        rw [List.length_set] at below
        rw [getD_set] at checked
        split at checked
        · next isIndex => rw [isIndex, same, here one member]
        · exact agrees i below checked one member) misses
      exact ⟨pred, Nat.le_of_succ_le low, inner same routes⟩
    · have branch : (after.terminate cfg.fresh (.byteMatch index .eq byte block newDefault)).branches
          cfg.fresh = some (.byteMatch index .eq byte block newDefault) := terminate_self
      have route : Routes _ val _ _ _ := Routes.edge branch
      rw [Branch.next, truncByte_eq, if_neg same] at route
      exact ⟨cfg.fresh, Nat.le_refl _, route⟩

theorem lowCases_sublist (cases : List (CaseExpr w)) (i pivot : Nat) :
    (lowCases cases i pivot).Sublist cases := List.filter_sublist

theorem highCases_sublist (cases : List (CaseExpr w)) (i pivot : Nat) :
    (highCases cases i pivot).Sublist cases := List.filter_sublist

theorem edges_split (cases : List (CaseExpr w)) (i pivot : Nat) (b : Block) :
    edges cases b = edges (lowCases cases i pivot) b + edges (highCases cases i pivot) b := by
  have both := List.countP_eq_countP_filter_add cases (fun other => decide (other.bb = b))
    fun other => decide (caseByte other.val i < pivot)
  simpa only [edges, lowCases, highCases, decide_not] using both

theorem Converted.ready_high (ready : Ready home orig cfg cases) {pivot : Nat}
    (low : Converted home orig newDefault cfg.newBlock.2 (lowCases cases index pivot) bytesChecked
      block after) : Ready home orig after (highCases cases index pivot) := by
  refine ⟨Nat.lt_trans ready.known low.root, low.clean, fun node => ?_⟩
  have entries := ready.entries node
  rw [edges_split cases index pivot] at entries
  have count := low.count node
  have same : (cfg.newBlock.2.phis node).countFrom orig = (cfg.phis node).countFrom orig := rfl
  omega

/-- The cases are divided by a byte, and the two trees are built one after the other. -/
theorem converted_split {pivot : Nat} {lbb rbb : Block} {between : Cfg V PhiNode}
    (ready : Ready home orig cfg cases)
    (low : Converted home orig newDefault cfg.newBlock.2 (lowCases cases index pivot) bytesChecked
      lbb between)
    (high : Converted home orig newDefault between (highCases cases index pivot) bytesChecked
      rbb after) :
    Converted home orig newDefault cfg cases bytesChecked cfg.fresh
      (after.terminate cfg.fresh (.byteMatch index .ult pivot lbb rbb)) := by
  have grown : between.fresh < after.fresh := Nat.lt_of_le_of_lt high.low high.high
  have empty : after.branches cfg.fresh = none :=
    (high.old _ low.root).trans ((low.old _ (Nat.lt_succ_self _)).trans
      (ready.clean _ (Nat.le_refl _)))
  have goLow : ∀ {val : BitVec w} {pred dest}, caseByte val index < pivot →
      Routes between.branches val lbb pred dest →
      Routes (after.terminate cfg.fresh (.byteMatch index .ult pivot lbb rbb)).branches
        val cfg.fresh pred dest := by
    intro val pred dest less routes
    apply Routes.step terminate_self
    rw [Branch.next, truncByte_eq, if_pos less]
    refine Routes.terminate (routes.mono fun b branch found => ?_) empty
    have made : b < between.fresh := by
      by_contra above
      rw [low.clean b (Nat.le_of_not_lt above)] at found
      cases found
    rwa [high.old b made]
  have goHigh : ∀ {val : BitVec w} {pred dest}, ¬ caseByte val index < pivot →
      Routes after.branches val rbb pred dest →
      Routes (after.terminate cfg.fresh (.byteMatch index .ult pivot lbb rbb)).branches
        val cfg.fresh pred dest := by
    intro val pred dest notLess routes
    apply Routes.step terminate_self
    rw [Branch.next, truncByte_eq, if_neg notLess]
    exact routes.terminate empty
  refine ⟨Nat.le_refl _, Nat.lt_trans low.root grown, fun b below => ?_, fun b above => ?_,
    fun node => ?_, fun node => ?_, fun one member => ?_, fun val agrees misses => ?_⟩
  · refine (terminate_of_ne (Nat.ne_of_lt below)).trans ?_
    exact (high.old b (Nat.lt_trans below low.root)).trans (low.old b (Nat.lt_succ_of_lt below))
  · have other : b ≠ cfg.fresh :=
      Nat.ne_of_gt (Nat.lt_of_lt_of_le (Nat.lt_trans low.root grown) above)
    exact (terminate_of_ne other).trans (high.clean b above)
  · exact Moved.trans ready.known ((low.moved node).mono (Nat.le_succ _))
      ((high.moved node).mono (Nat.le_of_lt low.root))
  · have first := low.count node
    have second := high.count node
    rw [edges_split cases index pivot]
    have same : (cfg.newBlock.2.phis node).countFrom orig = (cfg.phis node).countFrom orig := rfl
    have kept : ((after.terminate cfg.fresh (.byteMatch index .ult pivot lbb rbb)).phis
      node).countFrom orig = (after.phis node).countFrom orig := rfl
    omega
  · by_cases less : caseByte one.val index < pivot
    · have inLow : one ∈ lowCases cases index pivot :=
        List.mem_filter.mpr ⟨member, decide_eq_true less⟩
      obtain ⟨pred, above, routes, given⟩ := low.hit one inLow
      refine ⟨pred, Nat.le_of_succ_le above, goLow less routes, fun node lives => ?_⟩
      obtain ⟨value, entry⟩ := given node lives
      have notOrig : pred ≠ orig :=
        Nat.ne_of_gt (Nat.lt_of_lt_of_le ready.known (Nat.le_of_succ_le above))
      exact ⟨value, (high.moved node).kept _ entry notOrig⟩
    · have inHigh : one ∈ highCases cases index pivot :=
        List.mem_filter.mpr ⟨member, decide_eq_true less⟩
      obtain ⟨pred, above, routes, given⟩ := high.hit one inHigh
      exact ⟨pred, Nat.le_trans (Nat.le_of_lt low.root) above, goHigh less routes, given⟩
  · have lowSub := (lowCases_sublist cases index pivot).subset
    have highSub := (highCases_sublist cases index pivot).subset
    by_cases less : caseByte val index < pivot
    · obtain ⟨pred, above, routes⟩ := low.miss val
        (fun i below checked one member => agrees i below checked one (lowSub member))
        fun one member => misses one (lowSub member)
      exact ⟨pred, Nat.le_of_succ_le above, goLow less routes⟩
    · obtain ⟨pred, above, routes⟩ := high.miss val
        (fun i below checked one member => agrees i below checked one (highSub member))
        fun one member => misses one (highSub member)
      exact ⟨pred, Nat.le_trans (Nat.le_of_lt low.root) above, goHigh less routes⟩

theorem switchConvert_spec (ready : Ready home orig cfg cases)
    (consistent : Consistent cases bytesChecked) :
    ∃ block after, switchConvert home orig newDefault cfg cases bytesChecked = some (block, after) ∧
      Converted home orig newDefault cfg cases bytesChecked block after := by
  induction size : bytesChecked.count false + cases.length using Nat.strongRecOn
    generalizing cfg cases bytesChecked with
  | ind size ih =>
  subst size
  match cases, ready, consistent with
  | [], _, consistent => exact absurd rfl consistent.some
  | first :: rest, ready, consistent =>
    have unchecked := consistent.smallest
    rw [switchConvert]
    simp only [dif_pos unchecked]
    split
    · next single =>
      have one := (smallest_size unchecked).symm.trans single
      have here : ∀ other ∈ first :: rest, caseByte other.val _ = _ := fun other member =>
        byteSet_single one member
      split
      · next all =>
        have alone : rest = [] := by
          cases rest with
          | nil => rfl
          | cons second rest =>
              have same : second.val = first.val := consistent.eq_of_all all
                (fun i below checked => consistent.agree i below checked _ (by simp) _ (by simp))
                ((here second (by simp)).trans (here first (by simp)).symm)
              have distinct := consistent.distinct
              simp [same] at distinct
        subst alone
        rw [if_pos rfl]
        exact ⟨_, _, rfl, converted_leaf ready consistent all (here first List.mem_cons_self)⟩
      · next more =>
        have more := Bool.eq_false_iff.mpr more
        obtain ⟨block, after, result, child⟩ := ih _
          (Nat.add_lt_add_right (count_set_lt unchecked) _) ready.newBlock
          (consistent.check (fun one first two second =>
            (here one first).trans (here two second).symm) more) rfl
        rw [result]
        exact ⟨_, _, rfl, converted_match ready child here⟩
    · next several =>
      have two := byteSet_two unchecked several
      obtain ⟨⟨less, lessMember, isLess⟩, greater, greaterMember, isGreater⟩ := pivot_splits two
      have lowSome : lowCases (first :: rest) _ _ ≠ [] :=
        List.ne_nil_of_mem (List.mem_filter.mpr ⟨lessMember, decide_eq_true isLess⟩)
      have highSome : highCases (first :: rest) _ _ ≠ [] :=
        List.ne_nil_of_mem (List.mem_filter.mpr
          ⟨greaterMember, decide_eq_true (Nat.not_lt.mpr isGreater)⟩)
      obtain ⟨lbb, between, lowResult, low⟩ := ih _
        (Nat.add_lt_add_left (lowCases_length_lt two) _)
        (ready.newBlock.of_le fun b => (lowCases_sublist _ _ _).countP_le)
        (consistent.sublist (lowCases_sublist _ _ _) lowSome) rfl
      obtain ⟨rbb, after, highResult, high⟩ := ih _
        (Nat.add_lt_add_left (highCases_length_lt two) _) (low.ready_high ready)
        (consistent.sublist (highCases_sublist _ _ _) highSome) rfl
      rw [lowResult, Option.bind_some, highResult]
      exact ⟨_, _, rfl, converted_split ready low high⟩

/-! ## The pass -/

def Switch.dest (switch : Switch w) (val : BitVec w) : Block :=
  ((switch.cases.find? fun other => other.val = val).map CaseExpr.bb).getD switch.defaultDest

/-- Valid code: each phi node has an entry for each edge of the switch to its block, all
with one value, and the destinations are blocks of the program. -/
structure Switch.WellFormed (home : PhiNode → Block) (cfg : Cfg V PhiNode)
    (switch : Switch w) : Prop where
  distinct : (switch.cases.map CaseExpr.val).Nodup
  known : switch.origBlock < cfg.fresh
  clean : ∀ b, cfg.fresh ≤ b → cfg.branches b = none
  dests : ∀ val, switch.dest val < cfg.fresh ∧ cfg.branches (switch.dest val) = none
  old : ∀ node, ∀ entry ∈ cfg.phis node, entry.1 < cfg.fresh
  entries : ∀ node, (cfg.phis node).countFrom switch.origBlock =
    edges switch.cases (home node) + if switch.defaultDest = home node then 1 else 0
  values : ∀ node one two, (switch.origBlock, one) ∈ cfg.phis node →
    (switch.origBlock, two) ∈ cfg.phis node → one = two

theorem incoming_of_mem {phi : Phi V} {pred : Block} {value : V} (member : (pred, value) ∈ phi)
    (values : ∀ other, (pred, other) ∈ phi → other = value) :
    Phi.incoming phi pred = some value := by
  have found : (phi.find? fun entry => entry.1 = pred).isSome :=
    List.find?_isSome.mpr ⟨_, member, decide_eq_true rfl⟩
  obtain ⟨entry, result⟩ := Option.isSome_iff_exists.mp found
  have here : entry.1 = pred := by simpa using List.find?_some result
  have inPhi := List.mem_of_find?_eq_some result
  rw [Phi.incoming, result, Option.map_some]
  exact congrArg some (values entry.2 (by rwa [← here]))

/-- A new block hands on what the switch handed on. -/
theorem Moved.incoming {before after : Phi V} {lo pred : Block} {value : V}
    (moved : Moved orig lo before after) (old : ∀ entry ∈ before, entry.1 < lo)
    (values : ∀ one two, (orig, one) ∈ before → (orig, two) ∈ before → one = two)
    (above : lo ≤ pred) (member : (pred, value) ∈ after) :
    after.incoming pred = some value ∧ before.incoming orig = some value := by
  have origin : ∀ other, (pred, other) ∈ after → (orig, other) ∈ before := by
    intro other here
    rcases moved.entries _ here with earlier | ⟨_, source⟩
    · exact absurd (old _ earlier) (Nat.not_lt.mpr above)
    · exact source
  exact ⟨incoming_of_mem member fun other here => values _ _ (origin _ here) (origin _ member),
    incoming_of_mem (origin _ member) fun other here => values _ _ here (origin _ member)⟩

variable {switch : Switch w}

theorem Switch.dest_hit (distinct : (switch.cases.map CaseExpr.val).Nodup) {one : CaseExpr w}
    (member : one ∈ switch.cases) : switch.dest one.val = one.bb := by
  have found : (switch.cases.find? fun other => other.val = one.val).isSome :=
    List.find?_isSome.mpr ⟨one, member, decide_eq_true rfl⟩
  obtain ⟨other, result⟩ := Option.isSome_iff_exists.mp found
  have same : other.val = one.val := by simpa using List.find?_some result
  have equal := List.inj_on_of_nodup_map distinct (List.mem_of_find?_eq_some result) member same
  rw [Switch.dest, result, equal]
  rfl

theorem Switch.dest_miss {val : BitVec w} (misses : ∀ one ∈ switch.cases, val ≠ one.val) :
    switch.dest val = switch.defaultDest := by
  have none : (switch.cases.find? fun other => other.val = val) = none :=
    List.find?_eq_none.mpr fun one member found =>
      misses one member (of_decide_eq_true found).symm
  rw [Switch.dest, none]
  rfl

theorem Switch.WellFormed.ready (wellFormed : switch.WellFormed home cfg) :
    Ready home switch.origBlock
      (cfg.newBlock.2.terminate cfg.fresh (.goto switch.defaultDest)) switch.cases := by
  refine ⟨Nat.lt_succ_of_lt wellFormed.known, fun b above => ?_, fun node => ?_⟩
  · have above : cfg.fresh + 1 ≤ b := above
    exact (terminate_of_ne (Nat.ne_of_gt above)).trans
      (wellFormed.clean b (Nat.le_of_succ_le above))
  · exact Nat.le_trans (Nat.le_add_right _ _) (Nat.le_of_eq (wellFormed.entries node).symm)

theorem Switch.WellFormed.consistent (wellFormed : switch.WellFormed home cfg)
    (two : 2 ≤ switch.cases.length) :
    Consistent switch.cases (List.replicate ((7 + w) / 8) false) := by
  have width : w ≠ 0 := by
    rintro rfl
    match switch.cases, two, wellFormed.distinct with
    | first :: second :: rest, _, distinct =>
        have same : first.val = second.val := Subsingleton.elim _ _
        simp [same] at distinct
  refine ⟨List.ne_nil_of_length_pos (by omega), wellFormed.distinct, fun i below checked => ?_,
    ?_, 0, ?_, ?_⟩
  · rw [List.getD_eq_getElem _ _ below, List.getElem_replicate] at checked
    cases checked
  · rw [List.length_replicate]
    omega
  · rw [List.length_replicate]
    omega
  · have below : 0 < (List.replicate ((7 + w) / 8) false).length := by
      rw [List.length_replicate]
      omega
    rw [List.getD_eq_getElem _ _ below, List.getElem_replicate]

/-- The tree stands for the switch. -/
structure Replaced (home : PhiNode → Block) (cfg : Cfg V PhiNode) (switch : Switch w)
    (switchBlock : Block) (after : Cfg V PhiNode) : Prop where
  reaches : ∀ val, ∃ pred, Routes after.branches val switchBlock pred (switch.dest val) ∧
    ∀ node, home node = switch.dest val → ∃ value,
      (after.phis node).incoming pred = some value ∧
        (cfg.phis node).incoming switch.origBlock = some value
  stops : ∀ val, after.branches (switch.dest val) = none
  gone : ∀ node, (after.phis node).countFrom switch.origBlock = 0
  others : ∀ node, ∀ pred < cfg.fresh, pred ≠ switch.origBlock →
    (after.phis node).incoming pred = (cfg.phis node).incoming pred

theorem splitSwitch_replaces (wellFormed : switch.WellFormed home cfg)
    (two : 2 ≤ switch.cases.length) (bytes : w % 8 = 0) (narrow : w ≤ 64) :
    ∃ switchBlock after, splitSwitch home cfg switch = some (some switchBlock, after) ∧
      Replaced home cfg switch switchBlock after := by
  have taken : switch.skipped = false := by
    simp [Switch.skipped, bytes, Nat.not_lt.mpr two, Nat.not_lt.mpr narrow]
  obtain ⟨switchBlock, built, result, tree⟩ := @switchConvert_spec w V PhiNode home
    switch.origBlock cfg.fresh _ _ _ wellFormed.ready (wellFormed.consistent two)
  refine ⟨switchBlock, built.updatePhis home switch.defaultDest switch.origBlock cfg.fresh, ?_, ?_⟩
  · simp only [splitSwitch, taken]
    exact congrArg (Option.map _) result
  have notOrig : cfg.fresh ≠ switch.origBlock := Nat.ne_of_gt wellFormed.known
  have left : ∀ node, (built.phis node).countFrom switch.origBlock =
      if switch.defaultDest = home node then 1 else 0 := by
    intro node
    have used := tree.count node
    have given : _ = (cfg.phis node).countFrom switch.origBlock := used
    rw [wellFormed.entries node, Nat.add_comm] at given
    exact Nat.add_left_cancel given
  have last : ∀ node, Moved switch.origBlock cfg.fresh (built.phis node)
      ((built.updatePhis home switch.defaultDest switch.origBlock cfg.fresh).phis node) := by
    intro node
    simp only [Cfg.updatePhis]
    split
    · exact Moved.updateFirst _ (Nat.le_refl _)
    · exact Moved.refl _ _ _
  have moved : ∀ node, Moved switch.origBlock cfg.fresh (cfg.phis node)
      ((built.updatePhis home switch.defaultDest switch.origBlock cfg.fresh).phis node) :=
    fun node => Moved.trans wellFormed.known ((tree.moved node).mono (Nat.le_succ _)) (last node)
  refine ⟨fun val => ?_, fun val => ?_, fun node => ?_,
    fun node pred below other => (moved node).others pred below other⟩
  · by_cases hits : ∃ one ∈ switch.cases, val = one.val
    · obtain ⟨one, member, rfl⟩ := hits
      obtain ⟨pred, above, routes, given⟩ := tree.hit one member
      have fresh : cfg.fresh ≤ pred := Nat.le_of_succ_le above
      rw [Switch.dest_hit wellFormed.distinct member]
      refine ⟨pred, routes, fun node lives => ?_⟩
      obtain ⟨value, entry⟩ := given node lives
      have other : pred ≠ switch.origBlock :=
        Nat.ne_of_gt (Nat.lt_of_lt_of_le wellFormed.known fresh)
      exact ⟨value, (moved node).incoming (wellFormed.old node) (wellFormed.values node) fresh
        ((last node).kept _ entry other)⟩
    · have misses : ∀ one ∈ switch.cases, val ≠ one.val :=
        fun one member same => hits ⟨one, member, same⟩
      obtain ⟨pred, _, routes⟩ := tree.miss val (fun i below checked => by
        rw [List.getD_eq_getElem _ _ below, List.getElem_replicate] at checked
        cases checked) misses
      have goto : built.branches cfg.fresh = some (.goto switch.defaultDest) :=
        (tree.old _ (Nat.lt_succ_self _)).trans terminate_self
      rw [Switch.dest_miss misses]
      refine ⟨cfg.fresh, routes.snoc goto, fun node lives => ?_⟩
      have one : 0 < (built.phis node).countFrom switch.origBlock := by
        rw [left node, if_pos lives.symm]
        exact Nat.one_pos
      obtain ⟨_, value, entry⟩ := updateFirst_spec _ notOrig one
      have entry : (cfg.fresh, value) ∈ (built.updatePhis home switch.defaultDest
          switch.origBlock cfg.fresh).phis node := by
        simp only [Cfg.updatePhis, if_pos lives]
        exact entry
      exact ⟨value, (moved node).incoming (wellFormed.old node) (wellFormed.values node)
        (Nat.le_refl _) entry⟩
  · obtain ⟨known, ends⟩ := wellFormed.dests val
    exact (tree.old _ (Nat.lt_succ_of_lt known)).trans
      ((terminate_of_ne (Nat.ne_of_lt known)).trans ends)
  · simp only [Cfg.updatePhis]
    split
    · next lives =>
      have one := left node
      rw [if_pos lives.symm] at one
      have spec := (updateFirst_spec _ notOrig (one ▸ Nat.one_pos)).1
      rw [one] at spec
      exact Nat.succ.inj spec
    · next elsewhere =>
      rw [left node, if_neg (Ne.symm elsewhere)]


/-- Three cases of two bytes; two of them go to one block. -/
theorem splitSwitch_replaces_three :
    ∃ switchBlock after,
      splitSwitch (V := Nat) (fun inDefault : Bool => if inDefault then 3 else 1)
        ⟨4, fun _ => none, fun inDefault => if inDefault then [(0, 9)] else [(0, 7), (0, 7)]⟩
        (⟨0, [⟨0x0101, 1⟩, ⟨0x0201, 2⟩, ⟨0x0102, 1⟩], 3⟩ : Switch 16) =
        some (some switchBlock, after) ∧
      Replaced (fun inDefault : Bool => if inDefault then 3 else 1)
        ⟨4, fun _ => none, fun inDefault => if inDefault then [(0, 9)] else [(0, 7), (0, 7)]⟩
        (⟨0, [⟨0x0101, 1⟩, ⟨0x0201, 2⟩, ⟨0x0102, 1⟩], 3⟩ : Switch 16) switchBlock after := by
  refine splitSwitch_replaces ⟨by decide, by decide, fun _ _ => rfl, fun val => ⟨?_, rfl⟩, by decide,
    by decide, ?_⟩ (by decide) (by decide) (by decide)
  · simp only [Switch.dest, List.find?_cons, List.find?_nil]
    split
    · decide
    split
    · decide
    split <;> decide
  · intro inDefault one two first second
    cases inDefault <;> simp_all

end

end SbFuzz.Instrumentation
