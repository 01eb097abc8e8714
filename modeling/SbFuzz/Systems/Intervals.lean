import Mathlib.Order.Interval.Set.LinearOrder
import Mathlib.Order.MinMax
import Mathlib.Data.List.Basic

/-! Lists of half-open intervals of a linear order: intersection, subtraction and merging in one
pass, and the sets of points that they compute. -/

set_option autoImplicit false

namespace SbFuzz.Systems.Intervals

structure HalfOpen (α : Type) where
  lo : α
  hi : α

section

variable {α : Type} [LinearOrder α]

def HalfOpen.points (r : HalfOpen α) : Set α := Set.Ico r.lo r.hi

def points (rs : List (HalfOpen α)) : Set α := {x | ∃ r ∈ rs, x ∈ r.points}

/-- Sorted by the lower ends and without common points. -/
def Valid (rs : List (HalfOpen α)) : Prop :=
  rs.Pairwise fun r s => r.lo ≤ s.lo ∧ (r.hi ≤ s.lo ∨ s.hi ≤ s.lo)

structure Ordered (rs : List (HalfOpen α)) : Prop where
  nonempty : ∀ r ∈ rs, r.lo < r.hi
  pairwise : rs.Pairwise fun r s => r.hi ≤ s.lo

structure Separated (rs : List (HalfOpen α)) : Prop where
  nonempty : ∀ r ∈ rs, r.lo < r.hi
  pairwise : rs.Pairwise fun r s => r.hi < s.lo

theorem HalfOpen.mem_points {r : HalfOpen α} {x : α} : x ∈ r.points ↔ r.lo ≤ x ∧ x < r.hi :=
  Set.mem_Ico

theorem points_nil : points ([] : List (HalfOpen α)) = ∅ := by
  simp [points]

theorem points_cons (r : HalfOpen α) (rs : List (HalfOpen α)) :
    points (r :: rs) = r.points ∪ points rs := by
  ext x
  simp [points]

theorem points_append (rs ss : List (HalfOpen α)) : points (rs ++ ss) = points rs ∪ points ss := by
  induction rs with
  | nil => rw [List.nil_append, points_nil, Set.empty_union]
  | cons r rs ih => rw [List.cons_append, points_cons, points_cons, ih, Set.union_assoc]

variable {r s : HalfOpen α} {rs ss : List (HalfOpen α)}

theorem Ordered.valid (ordered : Ordered rs) : Valid rs := by
  refine ordered.pairwise.imp_of_mem fun inRs _ apart => ?_
  exact ⟨le_trans (le_of_lt (ordered.nonempty _ inRs)) apart, .inl apart⟩

theorem Separated.ordered (separated : Separated rs) : Ordered rs :=
  ⟨separated.nonempty, separated.pairwise.imp le_of_lt⟩

theorem Valid.le_points (valid : Valid (s :: ss)) {x : α} (member : x ∈ points (s :: ss)) :
    s.lo ≤ x := by
  obtain ⟨first, _⟩ := List.pairwise_cons.mp valid
  obtain ⟨t, inList, inside⟩ := member
  have lower := (HalfOpen.mem_points.mp inside).1
  cases inList with
  | head => exact lower
  | tail _ later => exact le_trans (first t later).1 lower

theorem Valid.flatMap (valid : Valid rs) {pieces : HalfOpen α → List (HalfOpen α)}
    (ordered : ∀ r ∈ rs, Ordered (pieces r))
    (within : ∀ r ∈ rs, ∀ p ∈ pieces r, r.lo ≤ p.lo ∧ p.hi ≤ r.hi) :
    Ordered (rs.flatMap pieces) := by
  refine ⟨fun p member => ?_, List.pairwise_flatMap.mpr ⟨fun r inRs => (ordered r inRs).pairwise, ?_⟩⟩
  · obtain ⟨r, inRs, inPieces⟩ := List.mem_flatMap.mp member
    exact (ordered r inRs).nonempty p inPieces
  · refine List.Pairwise.imp_of_mem (fun {r s} inR inS apart p inP q inQ => ?_) valid
    have below := (within r inR p inP).2
    obtain ⟨above, limit⟩ := within s inS q inQ
    rcases apart.2 with before | empty
    · exact le_trans below (le_trans before above)
    · -- A piece of an empty interval would be empty.
      have some := (ordered s inS).nonempty q inQ
      exact absurd (lt_of_le_of_lt above (lt_of_lt_of_le some limit)) (not_lt.mpr empty)

theorem points_flatMap (pieces : HalfOpen α → List (HalfOpen α)) (part : HalfOpen α → Set α)
    (each : ∀ r ∈ rs, points (pieces r) = part r) :
    points (rs.flatMap pieces) = {x | ∃ r ∈ rs, x ∈ part r} := by
  induction rs with
  | nil => simp [points_nil]
  | cons r rs ih =>
      obtain ⟨first, later⟩ := List.forall_mem_cons.mp each
      rw [List.flatMap_cons, points_append, first, ih later]
      ext x
      simp

/-! ## Intersection -/

def inter (r s : HalfOpen α) : HalfOpen α := ⟨max r.lo s.lo, min r.hi s.hi⟩

/-- The pieces of `r`; the first interval behind it ends the search. -/
def intersectOne (r : HalfOpen α) : List (HalfOpen α) → List (HalfOpen α)
  | [] => []
  | s :: ss =>
      if r.hi < s.lo then []
      else if (inter r s).lo < (inter r s).hi then inter r s :: intersectOne r ss
      else intersectOne r ss

def intersectAll (rs ss : List (HalfOpen α)) : List (HalfOpen α) :=
  rs.flatMap fun r => intersectOne r ss

theorem points_inter : (inter r s).points = r.points ∩ s.points := Set.Ico_inter_Ico.symm

theorem points_empty (empty : ¬ r.lo < r.hi) : r.points = ∅ := Set.Ico_eq_empty empty

theorem Valid.inter_eq_empty (valid : Valid (s :: ss)) (behind : r.hi < s.lo) :
    r.points ∩ points (s :: ss) = ∅ := by
  refine Set.eq_empty_iff_forall_notMem.mpr fun x both => ?_
  have upper := (HalfOpen.mem_points.mp both.1).2
  exact absurd (lt_trans upper behind) (not_lt.mpr (valid.le_points both.2))

theorem points_intersectOne (valid : Valid ss) :
    points (intersectOne r ss) = r.points ∩ points ss := by
  induction ss with
  | nil => rw [intersectOne, points_nil, Set.inter_empty]
  | cons s ss ih =>
      have rest := ih (List.pairwise_cons.mp valid).2
      rw [intersectOne]
      split
      · next behind => rw [points_nil, valid.inter_eq_empty behind]
      · split
        · rw [points_cons, points_cons, rest, points_inter, Set.inter_union_distrib_left]
        · next empty =>
          have none := points_empty empty
          rw [points_inter] at none
          rw [points_cons, rest, Set.inter_union_distrib_left, none, Set.empty_union]

theorem mem_intersectOne {p : HalfOpen α} (member : p ∈ intersectOne r ss) :
    ∃ s ∈ ss, p = inter r s ∧ p.lo < p.hi := by
  induction ss with
  | nil => cases member
  | cons s ss ih =>
      rw [intersectOne] at member
      split at member
      · cases member
      · split at member
        · next some =>
          cases member with
          | head => exact ⟨s, List.mem_cons_self, rfl, some⟩
          | tail _ later =>
              obtain ⟨t, inList, isInter⟩ := ih later
              exact ⟨t, List.mem_cons_of_mem s inList, isInter⟩
        · obtain ⟨t, inList, isInter⟩ := ih member
          exact ⟨t, List.mem_cons_of_mem s inList, isInter⟩

theorem ordered_intersectOne (valid : Valid ss) : Ordered (intersectOne r ss) := by
  refine ⟨fun p member => ?_, ?_⟩
  · obtain ⟨_, _, _, some⟩ := mem_intersectOne member
    exact some
  · induction ss with
    | nil => exact .nil
    | cons s ss ih =>
        obtain ⟨first, later⟩ := List.pairwise_cons.mp valid
        rw [intersectOne]
        split
        · exact .nil
        · split
          · refine .cons (fun p member => ?_) (ih later)
            obtain ⟨t, inList, rfl, some⟩ := mem_intersectOne member
            have tSome : ¬ t.hi ≤ t.lo := not_le.mpr
              (lt_of_le_of_lt (le_max_right _ _) (lt_of_lt_of_le some (min_le_right _ _)))
            have apart := (first t inList).2.resolve_right tSome
            exact le_trans (min_le_right _ _) (le_trans apart (le_max_right _ _))
          · exact ih later

theorem ordered_intersectAll (valid : Valid rs) (valid' : Valid ss) :
    Ordered (intersectAll rs ss) := by
  refine valid.flatMap (fun r _ => ordered_intersectOne valid') fun r _ p member => ?_
  obtain ⟨s, _, rfl, _⟩ := mem_intersectOne member
  exact ⟨le_max_left _ _, min_le_left _ _⟩

theorem points_intersectAll (valid : Valid ss) :
    points (intersectAll rs ss) = points rs ∩ points ss := by
  rw [intersectAll, points_flatMap _ (fun r => r.points ∩ points ss) fun r _ =>
    points_intersectOne valid]
  refine Set.ext fun x => ⟨?_, ?_⟩
  · intro ⟨r, inRs, inside, both⟩
    exact ⟨⟨r, inRs, inside⟩, both⟩
  · intro ⟨⟨r, inRs, inside⟩, both⟩
    exact ⟨r, inRs, inside, both⟩

/-! ## Subtraction -/

def piece (lo hi : α) : List (HalfOpen α) := if lo < hi then [⟨lo, hi⟩] else []

/-- What is left of `r` after the intervals, from left to right. -/
def subtractOne (r : HalfOpen α) : List (HalfOpen α) → List (HalfOpen α)
  | [] => piece r.lo r.hi
  | s :: ss =>
      if r.hi < s.lo then piece r.lo r.hi
      else if (inter r s).lo < (inter r s).hi then
        piece r.lo (inter r s).lo ++ subtractOne ⟨(inter r s).hi, r.hi⟩ ss
      else subtractOne r ss

def subtractAll (rs ss : List (HalfOpen α)) : List (HalfOpen α) :=
  rs.flatMap fun r => subtractOne r ss

theorem points_piece (lo hi : α) : points (piece lo hi) = Set.Ico lo hi := by
  rw [piece]
  split
  · rw [points_cons, points_nil, Set.union_empty]
    rfl
  · next empty => rw [points_nil, Set.Ico_eq_empty empty]

/-- An interval without another one that meets it, and without what is not before this one. -/
theorem points_cut {rest : Set α} (meets : (inter r s).lo < (inter r s).hi)
    (behind : ∀ x ∈ rest, s.lo ≤ x) :
    Set.Ico r.lo (inter r s).lo ∪ (HalfOpen.points ⟨(inter r s).hi, r.hi⟩ \ rest) =
      r.points \ (s.points ∪ rest) := by
  obtain ⟨lower, upper⟩ := max_lt_iff.mp meets
  obtain ⟨rSome, before⟩ := lt_min_iff.mp lower
  obtain ⟨after, sSome⟩ := lt_min_iff.mp upper
  ext x
  simp only [Set.mem_union, Set.mem_sdiff, HalfOpen.mem_points, Set.mem_Ico, inter, lt_max_iff,
    min_le_iff]
  constructor
  · rintro (⟨above, below⟩ | ⟨⟨past, below⟩, notRest⟩)
    · have early : x < s.lo := below.resolve_left (not_lt.mpr above)
      refine ⟨⟨above, lt_trans early after⟩, ?_⟩
      rintro (inS | inRest)
      · exact absurd early (not_lt.mpr inS.1)
      · exact absurd early (not_lt.mpr (behind x inRest))
    · have late : s.hi ≤ x := past.resolve_left (not_le.mpr below)
      refine ⟨⟨le_trans (le_of_lt before) late, below⟩, ?_⟩
      rintro (inS | inRest)
      · exact absurd inS.2 (not_lt.mpr late)
      · exact notRest inRest
  · rintro ⟨⟨above, below⟩, outside⟩
    obtain ⟨notS, notRest⟩ := not_or.mp outside
    rcases lt_or_ge x s.lo with early | inside
    · exact .inl ⟨above, .inr early⟩
    · have late : s.hi ≤ x := not_lt.mp fun under => notS ⟨inside, under⟩
      exact .inr ⟨⟨.inr late, below⟩, notRest⟩

theorem points_subtractOne (valid : Valid ss) :
    points (subtractOne r ss) = r.points \ points ss := by
  induction ss generalizing r with
  | nil =>
      rw [subtractOne, points_piece, points_nil, Set.sdiff_empty]
      rfl
  | cons s ss ih =>
      obtain ⟨first, later⟩ := List.pairwise_cons.mp valid
      rw [subtractOne]
      split
      · next behind =>
        rw [points_piece, ← Set.sdiff_self_inter, valid.inter_eq_empty behind, Set.sdiff_empty]
        rfl
      · split
        · next some =>
          rw [points_append, points_piece, ih later, points_cons]
          exact points_cut some fun x member => valid.le_points (points_cons s ss ▸ .inr member)
        · next empty =>
          have none := points_empty empty
          rw [points_inter] at none
          have apart : r.points \ s.points = r.points := by
            rw [← Set.sdiff_self_inter, none, Set.sdiff_empty]
          rw [ih later, points_cons, ← Set.sdiff_sdiff, apart]

theorem mem_piece {p : HalfOpen α} {lo hi : α} (member : p ∈ piece lo hi) :
    p = ⟨lo, hi⟩ ∧ lo < hi := by
  rw [piece] at member
  split at member
  · next some => exact ⟨List.mem_singleton.mp member, some⟩
  · cases member

theorem piece_within {p : HalfOpen α} {lo hi : α} (member : p ∈ piece lo hi) :
    lo ≤ p.lo ∧ p.hi ≤ hi ∧ p.lo < p.hi := by
  obtain ⟨rfl, some⟩ := mem_piece member
  exact ⟨le_rfl, le_rfl, some⟩

theorem mem_subtractOne {p : HalfOpen α} (member : p ∈ subtractOne r ss) :
    r.lo ≤ p.lo ∧ p.hi ≤ r.hi ∧ p.lo < p.hi := by
  induction ss generalizing r with
  | nil => exact piece_within member
  | cons s ss ih =>
      rw [subtractOne] at member
      split at member
      · exact piece_within member
      · split at member
        · next meets =>
          have lower : r.lo ≤ (inter r s).lo := le_max_left _ _
          have upper : (inter r s).hi ≤ r.hi := min_le_left _ _
          rcases List.mem_append.mp member with first | later
          · obtain ⟨above, below, some⟩ := piece_within first
            exact ⟨above, le_trans below (le_trans (le_of_lt meets) upper), some⟩
          · obtain ⟨above, below, some⟩ := ih later
            exact ⟨le_trans lower (le_trans (le_of_lt meets) above), below, some⟩
        · exact ih member

theorem ordered_subtractOne : Ordered (subtractOne r ss) := by
  refine ⟨fun p member => (mem_subtractOne member).2.2, ?_⟩
  have single : ∀ lo hi : α, (piece lo hi).Pairwise fun p q => p.hi ≤ q.lo := by
    intro lo hi
    rw [piece]
    split
    · exact List.pairwise_singleton _ _
    · exact .nil
  induction ss generalizing r with
  | nil => exact single r.lo r.hi
  | cons s ss ih =>
      rw [subtractOne]
      split
      · exact single r.lo r.hi
      · split
        · next meets =>
          refine List.pairwise_append.mpr ⟨single _ _, ih, fun p first q later => ?_⟩
          obtain ⟨rfl, _⟩ := mem_piece first
          exact le_trans (le_of_lt meets) (mem_subtractOne later).1
        · exact ih

theorem ordered_subtractAll (valid : Valid rs) : Ordered (subtractAll rs ss) := by
  refine valid.flatMap (fun r _ => ordered_subtractOne) fun r _ p member => ?_
  obtain ⟨lower, upper, _⟩ := mem_subtractOne member
  exact ⟨lower, upper⟩

theorem points_subtractAll (valid : Valid ss) :
    points (subtractAll rs ss) = points rs \ points ss := by
  rw [subtractAll, points_flatMap _ (fun r => r.points \ points ss) fun r _ =>
    points_subtractOne valid]
  refine Set.ext fun x => ⟨?_, ?_⟩
  · intro ⟨r, inRs, inside, outside⟩
    exact ⟨⟨r, inRs, inside⟩, outside⟩
  · intro ⟨⟨r, inRs, inside⟩, outside⟩
    exact ⟨r, inRs, inside, outside⟩

/-! ## Merging -/

/-- Intervals that touch are put together, from `r` on. -/
def mergeFrom (r : HalfOpen α) : List (HalfOpen α) → List (HalfOpen α)
  | [] => [r]
  | s :: ss => if r.hi = s.lo then mergeFrom ⟨r.lo, s.hi⟩ ss else r :: mergeFrom s ss

def mergeAll : List (HalfOpen α) → List (HalfOpen α)
  | [] => []
  | r :: rs => mergeFrom r rs

theorem ordered_cons : Ordered (r :: rs) ↔ r.lo < r.hi ∧ (∀ s ∈ rs, r.hi ≤ s.lo) ∧ Ordered rs := by
  constructor
  · intro ordered
    obtain ⟨some, rest⟩ := List.forall_mem_cons.mp ordered.nonempty
    obtain ⟨first, later⟩ := List.pairwise_cons.mp ordered.pairwise
    exact ⟨some, first, rest, later⟩
  · intro ⟨nonempty, first, rest⟩
    exact ⟨List.forall_mem_cons.mpr ⟨nonempty, rest.nonempty⟩, .cons first rest.pairwise⟩

theorem Ordered.join (ordered : Ordered (r :: s :: ss)) (touch : r.hi = s.lo) :
    Ordered (⟨r.lo, s.hi⟩ :: ss) := by
  obtain ⟨rSome, _, rest⟩ := ordered_cons.mp ordered
  obtain ⟨sSome, first, later⟩ := ordered_cons.mp rest
  exact ordered_cons.mpr ⟨lt_trans rSome (touch ▸ sSome), first, later⟩

theorem points_mergeFrom (ordered : Ordered (r :: rs)) :
    points (mergeFrom r rs) = points (r :: rs) := by
  induction rs generalizing r with
  | nil => rfl
  | cons s rs ih =>
      obtain ⟨rSome, _, rest⟩ := ordered_cons.mp ordered
      have sSome := (ordered_cons.mp rest).1
      rw [mergeFrom]
      split
      · next touch =>
        have joined : HalfOpen.points ⟨r.lo, s.hi⟩ = r.points ∪ s.points := by
          rw [HalfOpen.points, HalfOpen.points, HalfOpen.points, ← touch]
          exact (Set.Ico_union_Ico_eq_Ico (le_of_lt rSome) (touch ▸ le_of_lt sSome)).symm
        rw [ih (ordered.join touch), points_cons, points_cons, points_cons, joined, Set.union_assoc]
      · rw [points_cons, ih rest, points_cons r]

theorem mergeFrom_lower (ordered : Ordered (r :: rs)) {p : HalfOpen α}
    (member : p ∈ mergeFrom r rs) : r.lo ≤ p.lo := by
  induction rs generalizing r with
  | nil => exact le_of_eq (congrArg HalfOpen.lo (List.mem_singleton.mp member)).symm
  | cons s rs ih =>
      obtain ⟨some, first, rest⟩ := ordered_cons.mp ordered
      rw [mergeFrom] at member
      split at member
      · next touch =>
        have lower := ih (ordered.join touch) member
        exact lower
      · cases member with
        | head => exact le_rfl
        | tail _ later =>
            have below := first s List.mem_cons_self
            exact le_trans (le_of_lt some) (le_trans below (ih rest later))

theorem separated_mergeFrom (ordered : Ordered (r :: rs)) : Separated (mergeFrom r rs) := by
  induction rs generalizing r with
  | nil => exact ⟨ordered.nonempty, List.pairwise_singleton _ _⟩
  | cons s rs ih =>
      obtain ⟨some, first, rest⟩ := ordered_cons.mp ordered
      rw [mergeFrom]
      split
      · next touch => exact ih (ordered.join touch)
      · next gap =>
        have later := ih rest
        have below := lt_of_le_of_ne (first s List.mem_cons_self) gap
        refine ⟨List.forall_mem_cons.mpr ⟨some, later.nonempty⟩, .cons ?_ later.pairwise⟩
        exact fun p member => lt_of_lt_of_le below (mergeFrom_lower rest member)

theorem points_mergeAll (ordered : Ordered rs) : points (mergeAll rs) = points rs := by
  cases rs with
  | nil => rfl
  | cons r rs => exact points_mergeFrom ordered

theorem separated_mergeAll (ordered : Ordered rs) : Separated (mergeAll rs) := by
  cases rs with
  | nil => exact ⟨List.forall_mem_nil _, .nil⟩
  | cons r rs => exact separated_mergeFrom ordered

/-! ## Search -/

/-- The first interval behind the point ends the search. -/
def contains (x : α) : List (HalfOpen α) → Bool
  | [] => false
  | r :: rs => if x < r.lo then false else if x < r.hi then true else contains x rs

theorem contains_iff (valid : Valid rs) (x : α) : contains x rs ↔ x ∈ points rs := by
  induction rs with
  | nil => simp [contains, points_nil]
  | cons r rs ih =>
      rw [contains]
      split
      · next before =>
        exact iff_of_false Bool.false_ne_true fun member =>
          absurd before (not_lt.mpr (valid.le_points member))
      · next above =>
        rw [points_cons, Set.mem_union, HalfOpen.mem_points]
        split
        · next below => exact iff_of_true rfl (.inl ⟨not_lt.mp above, below⟩)
        · next past =>
          rw [ih (List.pairwise_cons.mp valid).2]
          exact ⟨.inr, fun member => member.resolve_left fun inside => past inside.2⟩

end

end SbFuzz.Systems.Intervals
