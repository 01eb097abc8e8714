import Mathlib.Data.List.Basic
import Mathlib.Logic.Function.Basic

/-! The log of comparisons that the hooks in the target fill and AFL reads: a
header and 32 slots for every location of the map. -/

set_option autoImplicit false

namespace SbFuzz.Instrumentation

/-! ## The map -/

def cmpMapW : Nat := 65536

def cmpMapH : Nat := 32

inductive CmpType where
  | ins
  | rtn
deriving DecidableEq, Repr

/-- `struct cmp_header` with its bit fields. -/
structure CmpHeader where
  hits : BitVec 6
  shape : BitVec 5
  type : CmpType
  attr : BitVec 4
deriving DecidableEq, Repr

/-- The part of `struct cmp_operands` that the hooks write. -/
structure CmpOperands where
  v0 : UInt64
  v1 : UInt64
  v0High : UInt64
  v1High : UInt64
deriving DecidableEq, Repr

structure CmpMap where
  headers : Fin cmpMapW → CmpHeader
  log : Fin cmpMapW → Nat → CmpOperands

/-- A header of zeros, as `memset` leaves it. -/
def CmpHeader.zero : CmpHeader where
  hits := 0
  shape := 0
  type := .ins
  attr := 0

/-- What AFL does to the map before a run. The log stays. -/
def CmpMap.clearHeaders (map : CmpMap) : CmpMap := { map with headers := fun _ => .zero }

/-! ## The hooks in the target -/

/-- What a comparison leaves in the log. The upper halves are written for wide
operands only. -/
structure Logged where
  shape : BitVec 5
  v0 : UInt64
  v1 : UInt64
  high : Option (UInt64 × UInt64)
deriving DecidableEq, Repr

/-- The header after one more comparison, and its slot before the mask. -/
def CmpHeader.count (header : CmpHeader) (shape : BitVec 5) (attr : UInt8) :
    CmpHeader × BitVec 6 :=
  if header.type ≠ .ins then
    ({ hits := 1, shape, type := .ins, attr := .ofNat 4 attr.toNat }, 0)
  else
    ({ header with
        hits := header.hits + 1
        shape := if header.shape < shape then shape else header.shape
        attr := .ofNat 4 attr.toNat },
      header.hits)

def CmpOperands.write (slot : CmpOperands) (logged : Logged) : CmpOperands :=
  match logged.high with
  | some (v0High, v1High) => { v0 := logged.v0, v1 := logged.v1, v0High, v1High }
  | none => { slot with v0 := logged.v0, v1 := logged.v1 }

/-- The body that all hooks share. -/
def CmpMap.record (map : CmpMap) (k : Fin cmpMapW) (attr : UInt8) (logged : Logged) : CmpMap :=
  let (header, hits) := (map.headers k).count logged.shape attr
  let slot := hits.toNat % cmpMapH
  { headers := Function.update map.headers k header
    log := Function.update map.log k
      (Function.update (map.log k) slot ((map.log k slot).write logged)) }

/-- A call of a hook, with the operands at their own width. -/
inductive Hook where
  | hook1 (arg1 arg2 : UInt8)
  | hook2 (arg1 arg2 : UInt16)
  | hook4 (arg1 arg2 : UInt32)
  | hook8 (arg1 arg2 : UInt64)
  | hookN (arg1 arg2 : BitVec 128) (size : UInt8)
  | hook16 (arg1 arg2 : BitVec 128)
deriving DecidableEq, Repr

def low (value : BitVec 128) : UInt64 := .ofBitVec (value.setWidth 64)

def high (value : BitVec 128) : UInt64 := .ofBitVec ((value >>> 64).setWidth 64)

/-- What a hook logs. `maxLen` is `__afl_cmplog_max_len`. -/
def Hook.logged (maxLen : Nat) : Hook → Option Logged
  -- returns at once, its body is commented out
  | .hook1 _ _ => none
  | .hook2 arg1 arg2 =>
      if arg1 = arg2 then none
      else some { shape := 1, v0 := arg1.toUInt64, v1 := arg2.toUInt64, high := none }
  | .hook4 arg1 arg2 =>
      if arg1 = arg2 then none
      else some { shape := 3, v0 := arg1.toUInt64, v1 := arg2.toUInt64, high := none }
  | .hook8 arg1 arg2 =>
      if arg1 = arg2 then none else some { shape := 7, v0 := arg1, v1 := arg2, high := none }
  | .hookN arg1 arg2 size =>
      if arg1 = arg2 ∨ maxLen < size.toNat then none
      else some
        { shape := .ofNat 5 size.toNat
          v0 := low arg1
          v1 := low arg2
          high := if 7 < size.toNat then some (high arg1, high arg2) else none }
  | .hook16 arg1 arg2 =>
      -- equal operands are logged here
      if maxLen < 16 then none
      else some
        { shape := 15, v0 := low arg1, v1 := low arg2, high := some (high arg1, high arg2) }

/-- A call at the location that its return address hashes to. -/
structure HookCall where
  k : Fin cmpMapW
  hook : Hook
  attr : UInt8

def runHook (maxLen : Nat) (map : CmpMap) (call : HookCall) : CmpMap :=
  match call.hook.logged maxLen with
  | some logged => map.record call.k call.attr logged
  | none => map

/-- A run of the target on a map that AFL has prepared. -/
def runHooks (maxLen : Nat) (map : CmpMap) (calls : List HookCall) : CmpMap :=
  calls.foldl (runHook maxLen) map.clearHeaders

/-- What a run logs at a location, in order. -/
def loggedAt (maxLen : Nat) (calls : List HookCall) (k : Fin cmpMapW) : List Logged :=
  calls.filterMap fun call => if call.k = k then call.hook.logged maxLen else none

/-! ## The reader in AFL -/

/-- The stage treats the location as executed. -/
def CmpHeader.executed (header : CmpHeader) : Bool := header.hits ≠ 0

/-- The number of slots that `cmp_fuzz` goes through. -/
def CmpHeader.loggeds (header : CmpHeader) : Nat :=
  if cmpMapH < header.hits.toNat then cmpMapH else header.hits.toNat

/-- The slot holds what this comparison logged. -/
structure CmpOperands.Holds (slot : CmpOperands) (logged : Logged) : Prop where
  v0 : slot.v0 = logged.v0
  v1 : slot.v1 = logged.v1
  high : ∀ v0High v1High, logged.high = some (v0High, v1High) →
    slot.v0High = v0High ∧ slot.v1High = v1High

/-! ## Runs -/

/-- The map at location `k` after `done` was logged there. -/
structure CmpMap.After (map : CmpMap) (k : Fin cmpMapW) (done : List Logged) : Prop where
  type : (map.headers k).type = .ins
  hits : (map.headers k).hits.toNat = done.length % 64
  slots : ∀ slot < min done.length cmpMapH, ∃ logged ∈ done, (map.log k slot).Holds logged

theorem CmpOperands.write_holds (slot : CmpOperands) (logged : Logged) :
    (slot.write logged).Holds logged := by
  unfold CmpOperands.write
  split
  · next v0High v1High written =>
    refine ⟨rfl, rfl, fun other0 other1 given => ?_⟩
    obtain ⟨rfl, rfl⟩ := Prod.mk.inj (Option.some.inj (written.symm.trans given))
    exact ⟨rfl, rfl⟩
  · next narrow =>
    refine ⟨rfl, rfl, fun other0 other1 given => ?_⟩
    cases narrow.symm.trans given

section

variable {map : CmpMap} {k : Fin cmpMapW} {done : List Logged}

theorem CmpMap.After.start (map : CmpMap) (k : Fin cmpMapW) : map.clearHeaders.After k [] := by
  refine ⟨rfl, rfl, fun slot inside => ?_⟩
  simp at inside

/-- One more comparison takes the next slot of the ring. -/
theorem CmpMap.After.record (after : map.After k done) (attr : UInt8) (logged : Logged) :
    (map.record k attr logged).After k (done ++ [logged]) := by
  have counted : ((map.headers k).count logged.shape attr).2 = (map.headers k).hits := by
    simp [CmpHeader.count, after.type]
  have ring : (map.headers k).hits.toNat % cmpMapH = done.length % cmpMapH := by
    rw [after.hits, cmpMapH]
    omega
  refine ⟨?_, ?_, fun slot inside => ?_⟩
  · simp [CmpMap.record, CmpHeader.count, after.type]
  · have hits := after.hits
    simp only [CmpMap.record, CmpHeader.count, after.type, ne_eq, not_true_eq_false, if_false,
      Function.update_self, List.length_append, List.length_singleton, BitVec.toNat_add, hits]
    simp only [BitVec.ofNat_eq_ofNat, BitVec.toNat_ofNat]
    omega
  · simp only [CmpMap.record, counted, ring, Function.update_self]
    rw [List.length_append, List.length_singleton] at inside
    by_cases here : slot = done.length % cmpMapH
    · rw [here, Function.update_self]
      exact ⟨logged, by simp, CmpOperands.write_holds _ logged⟩
    · rw [Function.update_of_ne here]
      have earlier : slot < min done.length cmpMapH := by
        simp only [cmpMapH] at here inside ⊢
        omega
      obtain ⟨other, member, holds⟩ := after.slots slot earlier
      exact ⟨other, by simp [member], holds⟩

theorem CmpMap.After.elsewhere (after : map.After k done) {other : Fin cmpMapW} (ne : other ≠ k)
    (attr : UInt8) (logged : Logged) : (map.record other attr logged).After k done := by
  have header : (map.record other attr logged).headers k = map.headers k := by
    simp [CmpMap.record, Function.update_of_ne ne.symm]
  have log : (map.record other attr logged).log k = map.log k := by
    simp [CmpMap.record, Function.update_of_ne ne.symm]
  exact ⟨header ▸ after.type, header ▸ after.hits, log ▸ after.slots⟩

/-- What a whole run leaves at a location, by induction over its calls. -/
theorem runHooks_after (maxLen : Nat) (map : CmpMap) (calls : List HookCall) (k : Fin cmpMapW) :
    (runHooks maxLen map calls).After k (loggedAt maxLen calls k) := by
  have loop : ∀ (map : CmpMap) (done : List Logged), map.After k done →
      (calls.foldl (runHook maxLen) map).After k (done ++ loggedAt maxLen calls k) := by
    induction calls with
    | nil =>
        intro map done after
        simpa [loggedAt] using after
    | cons call rest ih =>
        intro map done after
        rw [List.foldl_cons]
        cases records : call.hook.logged maxLen with
        | none =>
            have unchanged : runHook maxLen map call = map := by simp [runHook, records]
            have same : loggedAt maxLen (call :: rest) k = loggedAt maxLen rest k := by
              simp [loggedAt, records]
            rw [unchanged, same]
            exact ih map done after
        | some logged =>
            have recorded : runHook maxLen map call = map.record call.k call.attr logged := by
              simp [runHook, records]
            rw [recorded]
            by_cases here : call.k = k
            · subst here
              have more : loggedAt maxLen (call :: rest) call.k =
                  logged :: loggedAt maxLen rest call.k := by
                simp [loggedAt, records]
              rw [more]
              simpa using ih _ _ (after.record call.attr logged)
            · have same : loggedAt maxLen (call :: rest) k = loggedAt maxLen rest k := by
                simp [loggedAt, here]
              rw [same]
              exact ih _ _ (after.elsewhere here call.attr logged)
  exact loop map.clearHeaders [] (.start map k)

end

/-- The header and the log of a location agree with what a run logged there
exactly if the count did not wrap, or is above the height again. -/
theorem runHooks_agrees_iff (maxLen : Nat) (map : CmpMap) (calls : List HookCall)
    (k : Fin cmpMapW) (hit : 1 ≤ (loggedAt maxLen calls k).length) :
    (((runHooks maxLen map calls).headers k).executed = true ∧
      ((runHooks maxLen map calls).headers k).loggeds =
        min (loggedAt maxLen calls k).length cmpMapH ∧
      ∀ slot < ((runHooks maxLen map calls).headers k).loggeds,
        ∃ logged ∈ loggedAt maxLen calls k,
          ((runHooks maxLen map calls).log k slot).Holds logged) ↔
    (loggedAt maxLen calls k).length < 64 ∨ 32 ≤ (loggedAt maxLen calls k).length % 64 := by
  have after := runHooks_after maxLen map calls k
  have hits := after.hits
  constructor
  · rintro ⟨_, height, _⟩
    simp only [CmpHeader.loggeds, hits, cmpMapH] at height
    split at height <;> omega
  · intro unwrapped
    have height : ((runHooks maxLen map calls).headers k).loggeds =
        min (loggedAt maxLen calls k).length cmpMapH := by
      simp only [CmpHeader.loggeds, hits, cmpMapH]
      split <;> omega
    refine ⟨?_, height, fun slot inside => after.slots slot (height ▸ inside)⟩
    have nonzero : ((runHooks maxLen map calls).headers k).hits ≠ 0 := by
      intro zero
      rw [zero] at hits
      simp at hits
      omega
    simpa [CmpHeader.executed] using nonzero

/-- A comparison of 5 with 6 at some location. -/
def smallCall : HookCall := ⟨⟨7, by decide⟩, .hook4 5 6, 0⟩

def emptyMap : CmpMap where
  headers := fun _ => .zero
  log := fun _ _ => ⟨0, 0, 0, 0⟩

theorem runHooks_agrees_iff_once :
    ((runHooks 32 emptyMap [smallCall]).headers smallCall.k).executed = true := by
  have agrees := runHooks_agrees_iff 32 emptyMap [smallCall] smallCall.k (by decide)
  exact (agrees.mpr (by decide)).1

/-- After 64 comparisons the location counts as not executed. -/
theorem runHooks_wraps :
    ¬ ∀ (maxLen : Nat) (map : CmpMap) (calls : List HookCall) (k : Fin cmpMapW),
      1 ≤ (loggedAt maxLen calls k).length →
      ((runHooks maxLen map calls).headers k).executed = true := by
  intro holds
  have executed := holds 32 emptyMap (List.replicate 64 smallCall) smallCall.k (by decide +kernel)
  have wrapped : ((runHooks 32 emptyMap (List.replicate 64 smallCall)).headers smallCall.k).executed =
    false := by decide +kernel
  cases wrapped.symm.trans executed

end SbFuzz.Instrumentation
