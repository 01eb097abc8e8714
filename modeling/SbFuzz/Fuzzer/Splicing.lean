import Mathlib.Algebra.Ring.Nat
import Mathlib.Data.List.Basic

/-! The splicing stage of `fuzz_one_original`: where two test cases are joined. -/

set_option autoImplicit false

namespace SbFuzz.Fuzzer.Splicing

/-! ## The stage -/

/-- `rand_below`, of a random number. -/
def randBelow (limit random : Nat) : Nat := if limit ≤ 1 then 0 else random % limit

/-- The loop of `locate_diffs`; positions fit in an `s32`, and -1 stands for none. -/
def locateDiffsLoop (ptr1 ptr2 : List UInt8) : Nat → Nat → Int → Int → Int × Int
  | 0, _, fLoc, lLoc => (fLoc, lLoc)
  | left + 1, pos, fLoc, lLoc =>
    if ptr1[pos]? ≠ ptr2[pos]? then
      locateDiffsLoop ptr1 ptr2 left (pos + 1) (if fLoc = -1 then pos else fLoc) pos
    else locateDiffsLoop ptr1 ptr2 left (pos + 1) fLoc lLoc

/-- The first and the last differing offset. -/
def locateDiffs (ptr1 ptr2 : List UInt8) (len : Nat) : Int × Int :=
  locateDiffsLoop ptr1 ptr2 len 0 (-1) (-1)

structure Spliced where
  splitAt : Nat
  buf : List UInt8

/-- The input joined with a target, or nothing by `goto retry_splicing`. -/
def splice (inBuf newBuf : List UInt8) (random : Nat) : Option Spliced :=
  let (fDiff, lDiff) := locateDiffs inBuf newBuf (min inBuf.length newBuf.length)
  if fDiff < 0 ∨ lDiff < 2 ∨ fDiff = lDiff then none
  else
    let splitAt := fDiff.toNat + randBelow (lDiff - fDiff).toNat random
    some ⟨splitAt, inBuf.take splitAt ++ (newBuf.drop splitAt).take (newBuf.length - splitAt)⟩

/-! ## The differing offsets -/

theorem randBelow_lt {limit : Nat} (positive : 0 < limit) (random : Nat) :
    randBelow limit random < limit := by
  unfold randBelow
  split
  · exact positive
  · exact Nat.mod_lt _ positive

/-- What is known of the differences in front of a position. -/
inductive Located (ptr1 ptr2 : List UInt8) (pos : Nat) : Int → Int → Prop where
  | none : (∀ k < pos, ptr1[k]? = ptr2[k]?) → Located ptr1 ptr2 pos (-1) (-1)
  | some (first last : Nat) :
      first ≤ last → last < pos → ptr1[first]? ≠ ptr2[first]? → ptr1[last]? ≠ ptr2[last]? →
      (∀ k < first, ptr1[k]? = ptr2[k]?) → Located ptr1 ptr2 pos first last

theorem Located.same {ptr1 ptr2 : List UInt8} {pos : Nat} {fLoc lLoc : Int}
    (located : Located ptr1 ptr2 pos fLoc lLoc) (here : ptr1[pos]? = ptr2[pos]?) :
    Located ptr1 ptr2 (pos + 1) fLoc lLoc := by
  cases located with
  | none before =>
    refine .none fun k below => ?_
    rcases Nat.lt_succ_iff_lt_or_eq.mp below with lower | rfl
    · exact before k lower
    · exact here
  | some first last ordered inside differs differs' before =>
    exact .some first last ordered (Nat.lt_succ_of_lt inside) differs differs' before

theorem Located.differ {ptr1 ptr2 : List UInt8} {pos : Nat} {fLoc lLoc : Int}
    (located : Located ptr1 ptr2 pos fLoc lLoc) (here : ptr1[pos]? ≠ ptr2[pos]?) :
    Located ptr1 ptr2 (pos + 1) (if fLoc = -1 then pos else fLoc) pos := by
  cases located with
  | none before => exact .some pos pos (Nat.le_refl _) (Nat.lt_succ_self _) here here before
  | some first last ordered inside differs _ before =>
    rw [if_neg (by omega)]
    exact .some first pos (by omega) (Nat.lt_succ_self _) differs here before

end SbFuzz.Fuzzer.Splicing
