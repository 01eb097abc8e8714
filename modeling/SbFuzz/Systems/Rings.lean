import Mathlib.Data.List.Nodup
import Mathlib.Logic.Function.Basic

/-! Circular lists whose nodes are linked in both directions, and what a few assignments to the
links do to them. -/

set_option autoImplicit false

namespace SbFuzz.Systems

open Function (update)

variable {Node : Type}

/-- From `first` the links lead through the nodes to `last`. -/
def Path (link : Node → Option Node) : Node → List Node → Node → Prop
  | first, [], last => link first = some last
  | first, node :: nodes, last => link first = some node ∧ Path link node nodes last

namespace Path

variable {link other : Node → Option Node} {first last target node : Node} {nodes later : List Node}

@[simp] theorem nil_iff : Path link first [] last ↔ link first = some last := Iff.rfl

@[simp] theorem cons_iff :
    Path link first (node :: nodes) last ↔ link first = some node ∧ Path link node nodes last :=
  Iff.rfl

theorem append_iff :
    Path link first (nodes ++ node :: later) last ↔
      Path link first nodes node ∧ Path link node later last := by
  induction nodes generalizing first with
  | nil => rfl
  | cons head nodes ih => simp only [List.cons_append, cons_iff, ih, and_assoc]

theorem congr (same : ∀ node ∈ first :: nodes, other node = link node) :
    Path other first nodes last ↔ Path link first nodes last := by
  induction nodes generalizing first with
  | nil => rw [nil_iff, nil_iff, same first List.mem_cons_self]
  | cons head nodes ih =>
      rw [cons_iff, cons_iff, same first List.mem_cons_self,
        ih fun node member => same node (List.mem_cons_of_mem _ member)]

theorem link_first (path : Path link first nodes last) : link first = some (nodes.headD last) := by
  cases nodes with
  | nil => exact path
  | cons head nodes => exact path.1

theorem getLastD_mem (first : Node) (nodes : List Node) :
    nodes.getLastD first ∈ first :: nodes := by
  induction nodes generalizing first with
  | nil => simp
  | cons head nodes ih =>
      rw [List.getLastD_cons]
      exact List.mem_cons_of_mem _ (ih head)

section

variable [DecidableEq Node]

theorem update_of_notMem {value : Option Node} (absent : node ∉ first :: nodes) :
    Path (update link node value) first nodes last ↔ Path link first nodes last := by
  refine congr fun other member => Function.update_of_ne ?_ _ _
  rintro rfl
  exact absent member

/-- The last link leads elsewhere. -/
theorem redirect (path : Path link first nodes last) (nodup : (first :: nodes).Nodup) :
    Path (update link (nodes.getLastD first) (some target)) first nodes target := by
  induction nodes generalizing first with
  | nil => simp
  | cons head nodes ih =>
      have rest := ih path.2 nodup.of_cons
      rw [List.getLastD_cons]
      refine ⟨?_, rest⟩
      have different : first ≠ nodes.getLastD head := by
        intro same
        exact (List.nodup_cons.mp nodup).1 (same ▸ getLastD_mem head nodes)
      rw [Function.update_of_ne different]
      exact path.1

/-- The node in front of one that is left out leads where that one led. -/
theorem skip (path : Path link first (nodes ++ node :: later) last)
    (nodup : (first :: (nodes ++ node :: later)).Nodup) :
    Path (update link (nodes.getLastD first) (link node)) first (nodes ++ later) last := by
  obtain ⟨front, back⟩ := append_iff.mp path
  rw [← List.cons_append] at nodup
  have nodupFront : (first :: nodes).Nodup := nodup.of_append_left
  have apart : ∀ other ∈ node :: later, other ≠ nodes.getLastD first := by
    intro other member same
    exact List.disjoint_of_nodup_append nodup (getLastD_mem first nodes) (same ▸ member)
  rw [back.link_first]
  cases later with
  | nil =>
      rw [List.append_nil]
      exact front.redirect nodupFront
  | cons head later =>
      refine append_iff.mpr ⟨front.redirect nodupFront, ?_⟩
      refine (update_of_notMem ?_).mpr back.2
      intro member
      exact apart _ (List.mem_cons_of_mem _ member) rfl

end

end Path

/-- The nodes in turn, with the head in front of the first and behind the last. -/
structure Ring (next prev : Node → Option Node) (head : Node) (nodes : List Node) : Prop where
  forward : Path next head nodes head
  backward : Path prev head nodes.reverse head
  nodup : (head :: nodes).Nodup

namespace Ring

variable {next prev : Node → Option Node} {head node : Node} {nodes later : List Node}

theorem headD_reverse (nodes : List Node) (head : Node) :
    nodes.reverse.headD head = nodes.getLastD head := by
  rw [List.headD_eq_head?_getD, List.head?_reverse, List.getLastD_eq_getLast?]

theorem getLastD_reverse (nodes : List Node) (head : Node) :
    nodes.reverse.getLastD head = nodes.headD head := by
  rw [← headD_reverse, List.reverse_reverse]

theorem next_head (ring : Ring next prev head nodes) : next head = some (nodes.headD head) :=
  ring.forward.link_first

theorem prev_head (ring : Ring next prev head nodes) : prev head = some (nodes.getLastD head) := by
  rw [ring.backward.link_first, headD_reverse]

theorem next_node (ring : Ring next prev head (nodes ++ node :: later)) :
    next node = some (later.headD head) :=
  (Path.append_iff.mp ring.forward).2.link_first

theorem prev_node (ring : Ring next prev head (nodes ++ node :: later)) :
    prev node = some (nodes.getLastD head) := by
  have backward := ring.backward
  rw [List.reverse_append, List.reverse_cons, List.append_assoc, List.singleton_append] at backward
  rw [(Path.append_iff.mp backward).2.link_first, headD_reverse]

theorem empty (linkedNext : next head = some head) (linkedPrev : prev head = some head) :
    Ring next prev head [] :=
  ⟨linkedNext, linkedPrev, List.nodup_singleton head⟩

variable [DecidableEq Node]

/-- A new node in front of the head. -/
theorem snoc (ring : Ring next prev head nodes) (fresh : node ∉ head :: nodes) :
    Ring (update (update next node (some head)) (nodes.getLastD head) (some node))
      (update (update prev node (some (nodes.getLastD head))) head (some node)) head
      (nodes ++ [node]) := by
  have different : node ≠ head := fun same => fresh (same ▸ List.mem_cons_self)
  have behind : node ≠ nodes.getLastD head := by
    intro same
    exact fresh (same ▸ Path.getLastD_mem head nodes)
  constructor
  · refine Path.append_iff.mpr ⟨?_, ?_⟩
    · exact ((Path.update_of_notMem fresh).mpr ring.forward).redirect ring.nodup
    · rw [Path.nil_iff, Function.update_of_ne behind, Function.update_self]
  · rw [List.reverse_append, List.reverse_singleton, List.singleton_append, Path.cons_iff,
      Function.update_self]
    refine ⟨rfl, ?_⟩
    have absent : head ∉ nodes := (List.nodup_cons.mp ring.nodup).1
    have backward := ring.backward
    cases reversed : nodes.reverse with
    | nil =>
        have empty : nodes = [] := List.reverse_eq_nil_iff.mp reversed
        rw [Path.nil_iff, Function.update_of_ne different, Function.update_self, empty]
        rfl
    | cons last front =>
        rw [reversed] at backward
        have isLast : nodes.getLastD head = last := by
          rw [← headD_reverse, reversed]
          rfl
        have inside : ∀ other ∈ last :: front, other ∈ nodes := by
          intro other member
          rw [← reversed, List.mem_reverse] at member
          exact member
        refine ⟨?_, ?_⟩
        · rw [Function.update_of_ne different, Function.update_self, isLast]
        · refine (Path.update_of_notMem fun member => absent (inside _ member)).mpr ?_
          refine (Path.update_of_notMem fun member => ?_).mpr backward.2
          exact fresh (List.mem_cons_of_mem _ (inside _ member))
  · rw [← List.cons_append]
    refine List.nodup_append.mpr ⟨ring.nodup, List.nodup_singleton node, ?_⟩
    intro other member single isSingle same
    rw [List.mem_singleton] at isSingle
    exact fresh (isSingle ▸ same ▸ member)

/-- The neighbours of a node are linked to each other. -/
theorem remove (ring : Ring next prev head (nodes ++ node :: later)) :
    Ring (update next (nodes.getLastD head) (next node))
      (update prev (later.headD head) (prev node)) head (nodes ++ later) := by
  constructor
  · exact ring.forward.skip ring.nodup
  · have backward := ring.backward
    have reversed : (nodes ++ node :: later).reverse =
        later.reverse ++ node :: nodes.reverse := by simp
    have nodup : (head :: (later.reverse ++ node :: nodes.reverse)).Nodup := by
      rw [← reversed]
      exact (List.Perm.cons head (List.reverse_perm _)).nodup_iff.mpr ring.nodup
    rw [reversed] at backward
    rw [List.reverse_append, ← getLastD_reverse later head]
    exact backward.skip nodup
  · have shorter : (head :: (nodes ++ later)).Sublist (head :: (nodes ++ node :: later)) :=
      List.Sublist.cons_cons _ (List.Sublist.append_left (List.sublist_cons_self node later) nodes)
    exact ring.nodup.sublist shorter

end Ring

end SbFuzz.Systems
