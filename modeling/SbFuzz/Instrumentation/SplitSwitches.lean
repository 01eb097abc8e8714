import SbFuzz.Systems.Loops
import Mathlib.Data.List.GetD

/-! The split-switches pass: a switch becomes a tree of comparisons of single bytes. -/

set_option autoImplicit false

namespace SbFuzz.Instrumentation

open SbFuzz.Systems

/-! ## Functions under transformation -/

/-- Blocks of a function, numbered as they are made. -/
abbrev Block := Nat

inductive Predicate where
  | eq
  | ult
  deriving DecidableEq

/-- How a block that the pass makes ends. -/
inductive Branch where
  /-- Compares the byte at `index` of the value that is switched on. -/
  | byteMatch (index : Nat) (predicate : Predicate) (byte : Nat) (yes no : Block)
  | goto (dest : Block)

/-- The incoming values of a phi node with the blocks they come from. -/
abbrev Phi (V : Type) := List (Block × V)

/-- The blocks that the pass made, and all phi nodes, of which each lives in the
block `home`. -/
structure Cfg (V PhiNode : Type) where
  fresh : Block
  branches : Block → Option Branch
  phis : PhiNode → Phi V

section

variable {w : Nat} {V PhiNode : Type}

structure CaseExpr (w : Nat) where
  val : BitVec w
  bb : Block

def Phi.incoming (phi : Phi V) (pred : Block) : Option V :=
  (phi.find? fun entry => entry.1 = pred).map (·.2)

/-- `setIncomingBlock` on the first entry for the block. -/
def Phi.updateFirst (phi : Phi V) (orig new : Block) : Phi V :=
  match phi with
  | [] => []
  | entry :: phi =>
      if entry.1 = orig then (new, entry.2) :: phi else entry :: updateFirst phi orig new

def Cfg.newBlock (cfg : Cfg V PhiNode) : Block × Cfg V PhiNode :=
  (cfg.fresh, { cfg with fresh := cfg.fresh + 1 })

def Cfg.terminate (cfg : Cfg V PhiNode) (block : Block) (branch : Branch) : Cfg V PhiNode :=
  { cfg with branches := Function.update cfg.branches block (some branch) }

/-- The loop over the phi nodes of a block. -/
def Cfg.updatePhis (cfg : Cfg V PhiNode) (home : PhiNode → Block) (block orig new : Block) :
    Cfg V PhiNode :=
  { cfg with phis := fun node =>
      if home node = block then Phi.updateFirst (cfg.phis node) orig new else cfg.phis node }

/-! ## The choice of a byte -/

/-- The byte of a case value, while the pass runs. -/
def caseByte (val : BitVec w) (i : Nat) : Nat := val.toNat >>> (i * 8) &&& 0xff

/-- What the shift and the truncation compute when the program runs. -/
def truncByte (val : BitVec w) (i : Nat) : Nat := ((val >>> (i * 8)).setWidth 8).toNat

/-- `byteSets[i]`, in the order of a set of bytes. -/
def byteSet (cases : List (CaseExpr w)) (i : Nat) : List Nat :=
  (List.range 256).filter fun byte => cases.any fun other => caseByte other.val i = byte

def smallestStep (cases : List (CaseExpr w)) (bytesChecked : List Bool) (best : Nat × Nat)
    (i : Nat) : Nat × Nat :=
  if bytesChecked.getD i true then best
  else if (byteSet cases i).length < best.2 then (i, (byteSet cases i).length)
  else best

/-- The first byte position not yet checked that has the fewest values, and their
number. -/
def smallest (cases : List (CaseExpr w)) (bytesChecked : List Bool) : Nat × Nat :=
  (List.range bytesChecked.length).foldl (smallestStep cases bytesChecked) (0, 257)

theorem byteSet_length_lt (cases : List (CaseExpr w)) (i : Nat) :
    (byteSet cases i).length < 257 := by
  have bound := List.length_filter_le
    (fun byte => cases.any fun other => caseByte other.val i = byte) (List.range 256)
  rw [List.length_range] at bound
  exact Nat.lt_succ_of_le bound

theorem smallest_spec (cases : List (CaseExpr w)) (bytesChecked : List Bool) :
    (∀ i < bytesChecked.length, bytesChecked.getD i true = true) ∨
      bytesChecked.getD (smallest cases bytesChecked).1 true = false ∧
        (smallest cases bytesChecked).2 = (byteSet cases (smallest cases bytesChecked).1).length := by
  have loop : ((smallest cases bytesChecked).2 = 257 ∧
        ∀ i < bytesChecked.length, bytesChecked.getD i true = true) ∨
      bytesChecked.getD (smallest cases bytesChecked).1 true = false ∧
        (smallest cases bytesChecked).2 =
          (byteSet cases (smallest cases bytesChecked).1).length := by
    apply foldl_range_induction fun n (best : Nat × Nat) =>
      (best.2 = 257 ∧ ∀ i < n, bytesChecked.getD i true = true) ∨
        bytesChecked.getD best.1 true = false ∧ best.2 = (byteSet cases best.1).length
    · exact .inl ⟨rfl, by simp⟩
    · intro i _ best before
      unfold smallestStep
      split
      · next checked =>
        rcases before with ⟨none, all⟩ | found
        · refine .inl ⟨none, fun k below => ?_⟩
          rcases Nat.lt_succ_iff_lt_or_eq.mp below with earlier | rfl
          · exact all k earlier
          · exact checked
        · exact .inr found
      · next unchecked =>
        split
        · exact .inr ⟨by simpa using unchecked, rfl⟩
        · next notFewer =>
          rcases before with ⟨none, _⟩ | found
          · exact absurd (none ▸ byteSet_length_lt cases i) notFewer
          · exact .inr found
  exact loop.imp And.right id

theorem smallest_size {cases : List (CaseExpr w)} {bytesChecked : List Bool}
    (unchecked : bytesChecked.getD (smallest cases bytesChecked).1 true = false) :
    (smallest cases bytesChecked).2 = (byteSet cases (smallest cases bytesChecked).1).length := by
  rcases smallest_spec cases bytesChecked with all | found
  · have outside : bytesChecked.length ≤ (smallest cases bytesChecked).1 := by
      by_contra inside
      rw [all _ (Nat.lt_of_not_le inside)] at unchecked
      cases unchecked
    rw [List.getD_eq_default _ _ outside] at unchecked
    cases unchecked
  · exact found.2

/-! ## The tree -/

def pivotOf (bytes : List Nat) : Nat := bytes.getD (bytes.length / 2) 0

theorem mem_byteSet {cases : List (CaseExpr w)} {i byte : Nat} :
    byte ∈ byteSet cases i ↔ byte < 256 ∧ ∃ other ∈ cases, caseByte other.val i = byte := by
  simp [byteSet]

theorem byteSet_sorted (cases : List (CaseExpr w)) (i : Nat) :
    (byteSet cases i).Pairwise (· < ·) := List.pairwise_lt_range.filter _

/-- With more than one value the pivot leaves cases on both sides. -/
theorem pivot_splits {cases : List (CaseExpr w)} {i : Nat} (two : 2 ≤ (byteSet cases i).length) :
    (∃ other ∈ cases, caseByte other.val i < pivotOf (byteSet cases i)) ∧
      ∃ other ∈ cases, pivotOf (byteSet cases i) ≤ caseByte other.val i := by
  have middle : (byteSet cases i).length / 2 < (byteSet cases i).length := by omega
  have pivot : pivotOf (byteSet cases i) = (byteSet cases i)[(byteSet cases i).length / 2] :=
    List.getD_eq_getElem _ _ middle
  constructor
  · have first : 0 < (byteSet cases i).length := by omega
    obtain ⟨_, other, member, same⟩ := mem_byteSet.mp (List.getElem_mem first)
    refine ⟨other, member, ?_⟩
    rw [same, pivot]
    exact List.pairwise_iff_getElem.mp (byteSet_sorted cases i) 0 _ _ middle (by omega)
  · obtain ⟨_, other, member, same⟩ := mem_byteSet.mp (List.getElem_mem middle)
    exact ⟨other, member, by rw [same, pivot]⟩

def lowCases (cases : List (CaseExpr w)) (i pivot : Nat) : List (CaseExpr w) :=
  cases.filter fun other => caseByte other.val i < pivot

def highCases (cases : List (CaseExpr w)) (i pivot : Nat) : List (CaseExpr w) :=
  cases.filter fun other => ¬ caseByte other.val i < pivot

theorem byteSet_pos {first : CaseExpr w} {rest : List (CaseExpr w)} (i : Nat) :
    0 < (byteSet (first :: rest) i).length := by
  apply List.length_pos_of_mem (a := caseByte first.val i)
  rw [mem_byteSet]
  exact ⟨Nat.lt_succ_of_le Nat.and_le_right, first, List.mem_cons_self, rfl⟩

theorem byteSet_two {first : CaseExpr w} {rest : List (CaseExpr w)} {bytesChecked : List Bool}
    (unchecked : bytesChecked.getD (smallest (first :: rest) bytesChecked).1 true = false)
    (several : (smallest (first :: rest) bytesChecked).2 ≠ 1) :
    2 ≤ (byteSet (first :: rest) (smallest (first :: rest) bytesChecked).1).length := by
  have size := smallest_size unchecked
  have some := @byteSet_pos w first rest (smallest (first :: rest) bytesChecked).1
  omega

theorem lowCases_length_lt {cases : List (CaseExpr w)} {i : Nat}
    (two : 2 ≤ (byteSet cases i).length) :
    (lowCases cases i (pivotOf (byteSet cases i))).length < cases.length := by
  obtain ⟨other, member, high⟩ := (pivot_splits two).2
  exact List.length_filter_lt_length_iff_exists.mpr ⟨other, member, by simpa using high⟩

theorem highCases_length_lt {cases : List (CaseExpr w)} {i : Nat}
    (two : 2 ≤ (byteSet cases i).length) :
    (highCases cases i (pivotOf (byteSet cases i))).length < cases.length := by
  obtain ⟨other, member, low⟩ := (pivot_splits two).1
  exact List.length_filter_lt_length_iff_exists.mpr ⟨other, member, by simpa using low⟩

theorem count_set_lt {bytesChecked : List Bool} {i : Nat}
    (unchecked : bytesChecked.getD i true = false) :
    (bytesChecked.set i true).count false < bytesChecked.count false := by
  induction bytesChecked generalizing i with
  | nil => simp at unchecked
  | cons checked bytesChecked ih =>
      cases i with
      | zero =>
          have here : checked = false := by simpa using unchecked
          simp [here]
      | succ i =>
          have later := ih (i := i) (by simpa using unchecked)
          simp only [List.set_cons_succ, List.count_cons]
          omega

/-- `none` stands for a failed assertion, or an access to an empty vector. -/
def switchConvert (home : PhiNode → Block) (origBlock newDefault : Block)
    (cfg : Cfg V PhiNode) (cases : List (CaseExpr w)) (bytesChecked : List Bool) :
    Option (Block × Cfg V PhiNode) :=
  match cases with
  | [] => none
  | first :: rest =>
      let newNode := cfg.newBlock.1
      let cfg := cfg.newBlock.2
      let index := (smallest (first :: rest) bytesChecked).1
      if _unchecked : bytesChecked.getD index true = false then
        if _single : (smallest (first :: rest) bytesChecked).2 = 1 then
          let byte := (byteSet (first :: rest) index).headD 0
          let checked := bytesChecked.set index true
          if checked.all id then
            if rest = [] then
              some (newNode, (cfg.terminate newNode
                (.byteMatch index .eq byte first.bb newDefault)).updatePhis home first.bb
                  origBlock newNode)
            else none
          else
            (switchConvert home origBlock newDefault cfg (first :: rest) checked).map
              fun (bb, cfg) =>
                (newNode, cfg.terminate newNode (.byteMatch index .eq byte bb newDefault))
        else
          let pivot := pivotOf (byteSet (first :: rest) index)
          (switchConvert home origBlock newDefault cfg (lowCases (first :: rest) index pivot)
            bytesChecked).bind fun (lbb, cfg) =>
              (switchConvert home origBlock newDefault cfg
                (highCases (first :: rest) index pivot) bytesChecked).map fun (rbb, cfg) =>
                  (newNode, cfg.terminate newNode (.byteMatch index .ult pivot lbb rbb))
      else none
termination_by bytesChecked.count false + cases.length
decreasing_by
  · exact Nat.add_lt_add_right (count_set_lt _unchecked) _
  · exact Nat.add_lt_add_left (lowCases_length_lt (byteSet_two _unchecked _single)) _
  · exact Nat.add_lt_add_left (highCases_length_lt (byteSet_two _unchecked _single)) _

/-- The switch of a block. -/
structure Switch (w : Nat) where
  origBlock : Block
  cases : List (CaseExpr w)
  defaultDest : Block

def Switch.skipped (switch : Switch w) : Bool :=
  switch.cases.length < 2 || w % 8 ≠ 0 || 64 < w

/-- One round of the loop over the switches: the block that the original one jumps
to from now on, unless the switch is left alone. -/
def splitSwitch (home : PhiNode → Block) (cfg : Cfg V PhiNode) (switch : Switch w) :
    Option (Option Block × Cfg V PhiNode) :=
  if switch.skipped then some (none, cfg)
  else
    let newDefault := cfg.newBlock.1
    let cfg := cfg.newBlock.2.terminate newDefault (.goto switch.defaultDest)
    (switchConvert home switch.origBlock newDefault cfg switch.cases
      (List.replicate ((7 + w) / 8) false)).map fun (switchBlock, cfg) =>
        (some switchBlock, cfg.updatePhis home switch.defaultDest switch.origBlock newDefault)

end

end SbFuzz.Instrumentation
