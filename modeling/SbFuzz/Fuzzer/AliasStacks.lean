import Mathlib.Algebra.Order.BigOperators.Group.Finset
import SbFuzz.Fuzzer.AliasTable

/-! The arrays of `create_alias_table` with the indices into them, and that they hold
the two stacks of the construction. -/

set_option autoImplicit false

namespace SbFuzz.Fuzzer

/-- The arrays, of `n` slots each. `nLarge` is a `u32` that wraps: -1 is its last value. -/
structure AliasSlots where
  P : Nat → ℚ
  Small : Nat → Nat
  Large : Nat → Nat
  nSmall : Int
  nLarge : Int
  aliasProbability : Nat → ℚ
  aliasTable : Nat → Nat

namespace AliasSlots

variable {α : Type} {n : Nat}

/-- An access outside an array has no result. -/
def read (n : Nat) (slots : Nat → α) (i : Int) : Option α :=
  if 0 ≤ i ∧ i < n then some (slots i.toNat) else none

def write (n : Nat) (slots : Nat → α) (i : Int) (value : α) : Option (Nat → α) :=
  if 0 ≤ i ∧ i < n then some (Function.update slots i.toNat value) else none

/-- A slot goes to the stack for its weight. -/
def sort (n : Nat) (slots : AliasSlots) (j : Nat) : Option AliasSlots := do
  let weight ← read n slots.P j
  if weight < 1 then
    let Small ← write n slots.Small slots.nSmall j
    return { slots with Small, nSmall := slots.nSmall + 1 }
  else
    let Large ← write n slots.Large slots.nLarge j
    return { slots with Large, nLarge := slots.nLarge - 1 }

/-- One round of the loop that pairs small and large slots. -/
def pair (n : Nat) (slots : AliasSlots) : Option AliasSlots := do
  let small ← read n slots.Small (slots.nSmall - 1)
  let large ← read n slots.Large (slots.nLarge + 1)
  let weight ← read n slots.P small
  let aliasProbability ← write n slots.aliasProbability small weight
  let aliasTable ← write n slots.aliasTable small large
  let rich ← read n slots.P large
  let P ← write n slots.P large (rich - (1 - weight))
  sort n { slots with
    P, aliasProbability, aliasTable
    nSmall := slots.nSmall - 1
    nLarge := slots.nLarge + 1 } large

/-- `while (nSmall && nLarge != n - 1)`; without fuel there is no result. -/
def pairLoop (n fuel : Nat) (slots : AliasSlots) : Option AliasSlots :=
  if slots.nSmall ≠ 0 ∧ slots.nLarge ≠ n - 1 then
    match fuel with
    | 0 => none
    | fuel + 1 => (pair n slots).bind (pairLoop n fuel)
  else some slots

/-- `while (nSmall)` -/
def drainSmall (n fuel : Nat) (slots : AliasSlots) : Option AliasSlots :=
  if slots.nSmall ≠ 0 then
    match fuel with
    | 0 => none
    | fuel + 1 => do
      let small ← read n slots.Small (slots.nSmall - 1)
      let aliasProbability ← write n slots.aliasProbability small 1
      drainSmall n fuel { slots with aliasProbability, nSmall := slots.nSmall - 1 }
  else some slots

/-- `while (nLarge != n - 1)` -/
def drainLarge (n fuel : Nat) (slots : AliasSlots) : Option AliasSlots :=
  if slots.nLarge ≠ n - 1 then
    match fuel with
    | 0 => none
    | fuel + 1 => do
      let large ← read n slots.Large (slots.nLarge + 1)
      let aliasProbability ← write n slots.aliasProbability large 1
      drainLarge n fuel { slots with aliasProbability, nLarge := slots.nLarge + 1 }
  else some slots

/-- The part of `create_alias_table` behind the weights. -/
def create (n fuel : Nat) (P : Nat → ℚ) : Option AliasSlots := do
  let slots ← (List.range n).reverse.foldlM (sort n)
    ⟨P, fun _ => 0, fun _ => 0, 0, n - 1, fun _ => 0, fun _ => 0⟩
  let slots ← pairLoop n fuel slots
  let slots ← drainSmall n fuel slots
  drainLarge n fuel slots

/-- The rule of `select_next_queue_entry`, for the slot and the number that are drawn. -/
def select (slots : AliasSlots) (s : Nat) (p : ℚ) : Nat :=
  if p < slots.aliasProbability s then s else slots.aliasTable s

/-- How often the rule selects an entry, with both draws uniform. -/
def selection (slots : AliasSlots) (n k : Nat) : ℚ :=
  AliasArrays.selection ⟨slots.P, [], [], slots.aliasProbability, slots.aliasTable⟩ n k

/-! ## Stacks in arrays -/

theorem read_of_lt {slots : Nat → α} {i : Nat} (below : i < n) :
    read n slots i = some (slots i) := by
  rw [read, if_pos ⟨Int.natCast_nonneg i, Int.ofNat_lt.mpr below⟩, Int.toNat_natCast]

theorem write_of_lt {slots : Nat → α} {i : Nat} {value : α} (below : i < n) :
    write n slots i value = some (Function.update slots i value) := by
  rw [write, if_pos ⟨Int.natCast_nonneg i, Int.ofNat_lt.mpr below⟩, Int.toNat_natCast]

/-- The items that were pushed are at the first places, the top of the stack at the last of them. -/
def Holds (place : Nat → Nat) (slots : Nat → Nat) : List Nat → Prop
  | [] => True
  | top :: rest => slots (place rest.length) = top ∧ Holds place slots rest

theorem Holds.update {place : Nat → Nat} {slots : Nat → Nat} {items : List Nat} {i value : Nat}
    (holds : Holds place slots items) (apart : ∀ k < items.length, place k ≠ i) :
    Holds place (Function.update slots i value) items := by
  induction items with
  | nil => trivial
  | cons top rest ih =>
    obtain ⟨first, later⟩ := holds
    refine ⟨?_, ih later fun k below => apart k (Nat.lt_succ_of_lt below)⟩
    rw [Function.update_of_ne (apart rest.length (Nat.lt_succ_self _)), first]

theorem Holds.push {place : Nat → Nat} {slots : Nat → Nat} {items : List Nat} {value : Nat}
    (holds : Holds place slots items) (apart : ∀ k < items.length, place k ≠ place items.length) :
    Holds place (Function.update slots (place items.length) value) (value :: items) :=
  ⟨Function.update_self .., holds.update apart⟩

/-- Where the stack `Large` has its items: from the end of the array. -/
def fromEnd (n k : Nat) : Nat := n - 1 - k

/-- The arrays hold what the construction works on. -/
structure Represents (n : Nat) (slots : AliasSlots) (arrays : AliasArrays) : Prop where
  weights : slots.P = arrays.P
  probability : slots.aliasProbability = arrays.aliasProbability
  table : slots.aliasTable = arrays.aliasTable
  small : Holds id slots.Small arrays.small
  large : Holds (fromEnd n) slots.Large arrays.large
  nSmall : slots.nSmall = arrays.small.length
  nLarge : slots.nLarge = (n : Int) - 1 - arrays.large.length
  fits : arrays.pending.length ≤ n
  inRange : ∀ s ∈ arrays.pending, s < n
  targets : ∀ s, arrays.aliasTable s < n

namespace Represents

variable {slots : AliasSlots} {arrays : AliasArrays}

theorem sort (represents : Represents n slots arrays) {j : Nat} (below : j < n)
    (room : arrays.pending.length < n) :
    ∃ next, AliasSlots.sort n slots j = some next ∧ Represents n next (arrays.push j) := by
  have lengths : arrays.small.length + arrays.large.length < n := by
    rw [← List.length_append]
    exact room
  have moved := AliasArrays.push_pending arrays j
  have fits : (arrays.push j).pending.length ≤ n := by
    rw [moved.length_eq]
    exact room
  have inRange : ∀ s ∈ (arrays.push j).pending, s < n := by
    intro s member
    rcases List.mem_cons.mp (moved.mem_iff.mp member) with rfl | rest
    · exact below
    · exact represents.inRange s rest
  have weight : read n slots.P j = some (arrays.P j) := by
    rw [read_of_lt below, represents.weights]
  unfold AliasSlots.sort
  rw [weight]
  simp only [Option.bind_eq_bind, Option.bind_some]
  by_cases less : arrays.P j < 1
  · have place : write n slots.Small slots.nSmall j =
        some (Function.update slots.Small arrays.small.length j) := by
      rw [represents.nSmall, write_of_lt (by omega)]
    have pushed : arrays.push j = { arrays with small := j :: arrays.small } := by
      rw [AliasArrays.push, if_pos less]
    rw [if_pos less, place]
    refine ⟨_, rfl, ?_⟩
    rw [pushed] at fits inRange ⊢
    refine ⟨represents.weights, represents.probability, represents.table, ?_, represents.large, ?_,
      represents.nLarge, fits, inRange, represents.targets⟩
    · exact @Holds.push id _ _ _ represents.small fun k lower => Nat.ne_of_lt lower
    · rw [represents.nSmall]
      simp
  · have index : slots.nLarge = (fromEnd n arrays.large.length : Nat) := by
      rw [represents.nLarge, fromEnd]
      omega
    have place : write n slots.Large slots.nLarge j =
        some (Function.update slots.Large (fromEnd n arrays.large.length) j) := by
      rw [index, write_of_lt (by rw [fromEnd]; omega)]
    have pushed : arrays.push j = { arrays with large := j :: arrays.large } := by
      rw [AliasArrays.push, if_neg less]
    rw [if_neg less, place]
    refine ⟨_, rfl, ?_⟩
    rw [pushed] at fits inRange ⊢
    refine ⟨represents.weights, represents.probability, represents.table, represents.small, ?_,
      represents.nSmall, ?_, fits, inRange, represents.targets⟩
    · refine represents.large.push fun k lower => ?_
      unfold fromEnd
      omega
    · rw [represents.nLarge]
      simp only [List.length_cons, Nat.cast_add, Nat.cast_one]
      omega

theorem pair (represents : Represents n slots arrays) {small large : Nat}
    {restSmall restLarge : List Nat} (smallEq : arrays.small = small :: restSmall)
    (largeEq : arrays.large = large :: restLarge) :
    ∃ next, AliasSlots.pair n slots = some next ∧
      Represents n next ((arrays.give small large restSmall restLarge).push large) := by
  have fits := represents.fits
  rw [AliasArrays.pending, smallEq, largeEq, List.length_append, List.length_cons,
    List.length_cons] at fits
  have smallBelow : small < n := represents.inRange small (by simp [AliasArrays.pending, smallEq])
  have largeBelow : large < n := represents.inRange large (by simp [AliasArrays.pending, largeEq])
  obtain ⟨topSmall, holdsSmall⟩ := smallEq ▸ represents.small
  obtain ⟨topLarge, holdsLarge⟩ := largeEq ▸ represents.large
  have smallIndex : slots.nSmall - 1 = restSmall.length := by
    rw [represents.nSmall, smallEq, List.length_cons]
    omega
  have largeIndex : slots.nLarge + 1 = (fromEnd n restLarge.length : Nat) := by
    rw [represents.nLarge, largeEq, List.length_cons, fromEnd]
    omega
  -- The stacks without their tops, and the weights and the alias that are written.
  have given : Represents n
      { slots with
        P := Function.update arrays.P large (arrays.P large - (1 - arrays.P small))
        aliasProbability := Function.update arrays.aliasProbability small (arrays.P small)
        aliasTable := Function.update arrays.aliasTable small large
        nSmall := slots.nSmall - 1
        nLarge := slots.nLarge + 1 }
      (arrays.give small large restSmall restLarge) := by
    refine ⟨rfl, rfl, rfl, holdsSmall, holdsLarge, smallIndex, ?_, ?_, fun s member => ?_,
      fun s => ?_⟩
    · dsimp only [AliasArrays.give]
      rw [represents.nLarge, largeEq, List.length_cons]
      omega
    · dsimp only [AliasArrays.give, AliasArrays.pending]
      rw [List.length_append]
      omega
    · refine represents.inRange s ?_
      rw [AliasArrays.pending, smallEq, largeEq]
      rcases List.mem_append.mp member with left | right
      · exact List.mem_append_left _ (List.mem_cons_of_mem _ left)
      · exact List.mem_append_right _ (List.mem_cons_of_mem _ right)
    · dsimp only [AliasArrays.give]
      by_cases same : s = small
      · rw [same, Function.update_self]
        exact largeBelow
      · rw [Function.update_of_ne same]
        exact represents.targets s
  have room : (arrays.give small large restSmall restLarge).pending.length < n := by
    dsimp only [AliasArrays.give, AliasArrays.pending]
    rw [List.length_append]
    omega
  obtain ⟨next, sorted, represented⟩ := given.sort largeBelow room
  refine ⟨next, ?_, represented⟩
  have readSmall : read n slots.Small (slots.nSmall - 1) = some small := by
    rw [smallIndex, read_of_lt (by omega)]
    exact congrArg some topSmall
  have readLarge : read n slots.Large (slots.nLarge + 1) = some large := by
    rw [largeIndex, read_of_lt (by rw [fromEnd]; omega)]
    exact congrArg some topLarge
  unfold AliasSlots.pair
  rw [readSmall, readLarge, represents.weights, represents.probability, represents.table]
  simp only [Option.bind_eq_bind, Option.bind_some, read_of_lt smallBelow, read_of_lt largeBelow,
    write_of_lt smallBelow, write_of_lt largeBelow]
  exact sorted

theorem foldlM_sort (represents : Represents n slots arrays) (order : List Nat)
    (below : ∀ j ∈ order, j < n) (room : arrays.pending.length + order.length ≤ n) :
    ∃ next, order.foldlM (AliasSlots.sort n) slots = some next ∧
      Represents n next (order.foldl AliasArrays.push arrays) := by
  induction order generalizing slots arrays with
  | nil => exact ⟨slots, rfl, represents⟩
  | cons j rest ih =>
      rw [List.length_cons] at room
      obtain ⟨sorted, same, represented⟩ := represents.sort (below j List.mem_cons_self) (by omega)
      have length := (AliasArrays.push_pending arrays j).length_eq
      rw [List.length_cons] at length
      obtain ⟨next, looped, reached⟩ := ih represented
        (fun other member => below other (List.mem_cons_of_mem _ member)) (by omega)
      refine ⟨next, ?_, reached⟩
      rw [List.foldlM_cons, same]
      exact looped

theorem pairLoop (represents : Represents n slots arrays) {fuel : Nat}
    (enough : arrays.pending.length ≤ fuel) :
    ∃ next, AliasSlots.pairLoop n fuel slots = some next ∧ Represents n next arrays.pairs := by
  fun_induction AliasArrays.pairs arrays generalizing slots fuel with
  | case1 arrays small restSmall large restLarge smallEq largeEq ih =>
      obtain ⟨paired, same, represented⟩ := represents.pair smallEq largeEq
      have goes : slots.nSmall ≠ 0 ∧ slots.nLarge ≠ n - 1 := by
        rw [represents.nSmall, represents.nLarge, smallEq, largeEq, List.length_cons,
          List.length_cons]
        omega
      have shrinks := AliasArrays.push_pending (arrays.give small large restSmall restLarge) large
      have length := shrinks.length_eq
      rw [AliasArrays.pending, smallEq, largeEq, List.length_append, List.length_cons,
        List.length_cons] at enough
      rw [List.length_cons] at length
      cases fuel with
      | zero => omega
      | succ fuel =>
        have shorter : ((arrays.give small large restSmall restLarge).push large).pending.length ≤
            fuel := by
          rw [length]
          dsimp only [AliasArrays.give, AliasArrays.pending]
          rw [List.length_append]
          omega
        obtain ⟨next, looped, reached⟩ := ih represented shorter
        refine ⟨next, ?_, reached⟩
        rw [AliasSlots.pairLoop, if_pos goes, same, Option.bind_some, looped]
  | case2 arrays stopped =>
      refine ⟨slots, ?_, represents⟩
      rw [AliasSlots.pairLoop.eq_def, if_neg]
      rw [represents.nSmall, represents.nLarge]
      intro goes
      cases smallEq : arrays.small with
      | nil => simp [smallEq] at goes
      | cons small restSmall =>
          cases largeEq : arrays.large with
          | nil => simp [largeEq] at goes
          | cons large restLarge => exact stopped _ _ _ _ smallEq largeEq

end Represents

/-! ## The whole construction -/

theorem settle_cons (probability : Nat → ℚ) (top : Nat) (rest : List Nat) :
    (fun s => if s ∈ rest then 1 else Function.update probability top 1 s) =
      fun s => if s ∈ top :: rest then 1 else probability s := by
  funext s
  by_cases same : s = top
  · simp [same]
  · simp [same, Function.update_of_ne]

theorem drainSmall_eq {slots : AliasSlots} {items : List Nat} {fuel : Nat}
    (holds : Holds id slots.Small items) (index : slots.nSmall = items.length)
    (inRange : ∀ s ∈ items, s < n) (fits : items.length ≤ n) (enough : items.length ≤ fuel) :
    drainSmall n fuel slots = some { slots with
      nSmall := 0
      aliasProbability := fun s => if s ∈ items then 1 else slots.aliasProbability s } := by
  induction items generalizing slots fuel with
  | nil =>
    have empty : slots.nSmall = 0 := index
    rw [drainSmall.eq_def, if_neg (not_not.mpr empty)]
    simp only [List.not_mem_nil, if_false, ← empty]
  | cons top rest ih =>
    obtain ⟨first, later⟩ := holds
    rw [List.length_cons] at index fits enough
    cases fuel with
    | zero => omega
    | succ fuel =>
      have below := inRange top List.mem_cons_self
      have position : slots.nSmall - 1 = rest.length := by omega
      have found : read n slots.Small (slots.nSmall - 1) = some top := by
        rw [position, read_of_lt (by omega)]
        exact congrArg some first
      rw [drainSmall, if_pos (by omega)]
      simp only [Option.bind_eq_bind, found, Option.bind_some, write_of_lt below]
      have drained := @ih { slots with
          aliasProbability := Function.update slots.aliasProbability top 1
          nSmall := slots.nSmall - 1 } fuel later position
        (fun s member => inRange s (List.mem_cons_of_mem _ member)) (by omega) (by omega)
      rw [drained]
      dsimp only
      rw [settle_cons]

theorem drainLarge_eq {slots : AliasSlots} {items : List Nat} {fuel : Nat}
    (holds : Holds (fromEnd n) slots.Large items)
    (index : slots.nLarge = (n : Int) - 1 - items.length)
    (inRange : ∀ s ∈ items, s < n) (fits : items.length ≤ n) (enough : items.length ≤ fuel) :
    drainLarge n fuel slots = some { slots with
      nLarge := n - 1
      aliasProbability := fun s => if s ∈ items then 1 else slots.aliasProbability s } := by
  induction items generalizing slots fuel with
  | nil =>
    have last : slots.nLarge = n - 1 := by
      rw [index]
      simp
    rw [drainLarge.eq_def, if_neg (not_not.mpr last)]
    simp only [List.not_mem_nil, if_false, ← last]
  | cons top rest ih =>
    obtain ⟨first, later⟩ := holds
    rw [List.length_cons] at index fits enough
    cases fuel with
    | zero => omega
    | succ fuel =>
      have below := inRange top List.mem_cons_self
      have position : slots.nLarge + 1 = (fromEnd n rest.length : Nat) := by
        rw [fromEnd]
        omega
      have found : read n slots.Large (slots.nLarge + 1) = some top := by
        rw [position, read_of_lt (by rw [fromEnd]; omega)]
        exact congrArg some first
      rw [drainLarge, if_pos (by omega)]
      simp only [Option.bind_eq_bind, found, Option.bind_some, write_of_lt below]
      have shorter : slots.nLarge + 1 = (n : Int) - 1 - rest.length := by omega
      have drained := @ih { slots with
          aliasProbability := Function.update slots.aliasProbability top 1
          nLarge := slots.nLarge + 1 } fuel later shorter
        (fun s member => inRange s (List.mem_cons_of_mem _ member)) (by omega) (by omega)
      rw [drained]
      dsimp only
      rw [settle_cons]

/-- With as much fuel as there are slots the code ends, no access is outside the arrays, and the
alias arrays are those of the construction on lists. -/
theorem create_eq_build {fuel : Nat} (positive : 0 < n) (enough : n ≤ fuel) (P : Nat → ℚ) :
    ∃ slots, create n fuel P = some slots ∧
      slots.aliasProbability = (AliasArrays.build n P).aliasProbability ∧
      slots.aliasTable = (AliasArrays.build n P).aliasTable ∧ ∀ s, slots.aliasTable s < n := by
  have start : Represents n ⟨P, fun _ => 0, fun _ => 0, 0, n - 1, fun _ => 0, fun _ => 0⟩
      ⟨P, [], [], fun _ => 0, fun _ => 0⟩ :=
    ⟨rfl, rfl, rfl, trivial, trivial, rfl, by simp, Nat.zero_le n,
      fun s member => (List.not_mem_nil member).elim, fun _ => positive⟩
  obtain ⟨sorted, sorts, represents⟩ := start.foldlM_sort (List.range n).reverse
    (fun j member => List.mem_range.mp (List.mem_reverse.mp member)) (by simp [AliasArrays.pending])
  obtain ⟨paired, pairs, represents⟩ := represents.pairLoop (represents.fits.trans enough)
  have built : AliasArrays.build n P = AliasArrays.settle _ := rfl
  rw [AliasArrays.split] at built
  generalize AliasArrays.pairs _ = arrays at represents built
  have fits := represents.fits
  rw [AliasArrays.pending, List.length_append] at fits
  have drained := drainSmall_eq represents.small represents.nSmall
    (fun s member => represents.inRange s (List.mem_append_left _ member)) (by omega)
    (show _ ≤ fuel by omega)
  have emptied := @drainLarge_eq n { paired with
      nSmall := 0
      aliasProbability := fun s => if s ∈ arrays.small then 1 else paired.aliasProbability s } _ fuel
    represents.large represents.nLarge
    (fun s member => represents.inRange s (List.mem_append_right _ member)) (by omega) (by omega)
  have created : create n fuel P = drainLarge n fuel { paired with
      nSmall := 0
      aliasProbability :=
        fun s => if s ∈ arrays.small then 1 else paired.aliasProbability s } := by
    unfold create
    rw [sorts]
    simp only [Option.bind_eq_bind, Option.bind_some]
    rw [pairs, Option.bind_some, drained, Option.bind_some]
  rw [built]
  refine ⟨_, created.trans emptied, ?_, represents.table, represents.table ▸ represents.targets⟩
  funext s
  dsimp only [AliasArrays.settle]
  rw [represents.probability]
  simp only [AliasArrays.pending, List.mem_append]
  by_cases inSmall : s ∈ arrays.small
  · simp [inSmall]
  · simp [inSmall]

/-! ## Selection -/

theorem chanceBelow_nonneg (x : ℚ) : 0 ≤ chanceBelow x := le_max_left _ _

theorem chanceBelow_le_one (x : ℚ) : chanceBelow x ≤ 1 := max_le zero_le_one (min_le_right _ _)

theorem select_ne_of_selection {slots : AliasSlots} {k : Nat} (never : slots.selection n k = 0)
    {s : Nat} (below : s < n) {p : ℚ} (low : 0 ≤ p) (high : p < 1) : slots.select s p ≠ k := by
  have size : (n : ℚ) ≠ 0 := Nat.cast_ne_zero.mpr (Nat.ne_of_gt (Nat.zero_lt_of_lt below))
  have term : ∀ s, 0 ≤ (if s = k then chanceBelow (slots.aliasProbability s) else 0) +
      (if slots.aliasTable s = k then 1 - chanceBelow (slots.aliasProbability s) else 0) := by
    intro s
    have nonneg := chanceBelow_nonneg (slots.aliasProbability s)
    have most := chanceBelow_le_one (slots.aliasProbability s)
    split_ifs <;> linarith
  have total := (div_eq_zero_iff.mp never).resolve_right size
  have zero := (Finset.sum_eq_zero_iff_of_nonneg fun s _ => term s).mp total s
    (Finset.mem_range.mpr below)
  have nonneg := chanceBelow_nonneg (slots.aliasProbability s)
  have most := chanceBelow_le_one (slots.aliasProbability s)
  intro selected
  unfold select at selected
  by_cases kept : p < slots.aliasProbability s
  · rw [if_pos kept] at selected
    rw [if_pos selected] at zero
    have positive : 0 < chanceBelow (slots.aliasProbability s) :=
      lt_max_of_lt_right (lt_min (lt_of_le_of_lt low kept) zero_lt_one)
    split_ifs at zero <;> linarith
  · rw [if_neg kept] at selected
    rw [if_pos selected] at zero
    have less : chanceBelow (slots.aliasProbability s) < 1 :=
      max_lt zero_lt_one (lt_of_le_of_lt (min_le_left _ _) (lt_of_le_of_lt (not_lt.mp kept) high))
    split_ifs at zero <;> linarith

/-- The construction ends with all indices in their arrays, and entries are then selected as often
as their weights say; entries of weight zero never are. -/
theorem create_selects {P : Nat → ℚ} (nonneg : ∀ s < n, 0 ≤ P s)
    (normalised : ∑ s ∈ Finset.range n, P s = n) (positive : ∃ s < n, 0 < P s) :
    ∃ slots, create n n P = some slots ∧ (∀ s, slots.aliasTable s < n) ∧
      ∀ k < n, slots.selection n k = P k / n ∧
        (P k = 0 → ∀ s < n, ∀ p, 0 ≤ p → p < 1 → slots.select s p ≠ k) := by
  obtain ⟨s, below, -⟩ := positive
  obtain ⟨slots, created, probability, table, targets⟩ :=
    create_eq_build (Nat.zero_lt_of_lt below) (Nat.le_refl n) P
  refine ⟨slots, created, targets, fun k inside => ?_⟩
  have drawn : slots.selection n k = P k / n := by
    rw [← AliasArrays.build_selection nonneg normalised inside, selection, probability, table]
    rfl
  refine ⟨drawn, fun zero s below p low high => select_ne_of_selection ?_ below low high⟩
  rw [drawn, zero, zero_div]

theorem create_selects_three : ∃ slots, create 3 3 (fun s => s) = some slots ∧
    slots.selection 3 2 = 2 / 3 ∧ ∀ s < 3, ∀ p, 0 ≤ p → p < 1 → slots.select s p ≠ 0 := by
  obtain ⟨slots, created, -, selects⟩ := @create_selects 3 (fun s => s)
    (fun s _ => Nat.cast_nonneg s) (by simp [Finset.sum_range_succ]; norm_num) ⟨1, by simp⟩
  refine ⟨slots, created, (selects 2 (by decide)).1, (selects 0 (by decide)).2 rfl⟩

end AliasSlots

end SbFuzz.Fuzzer
