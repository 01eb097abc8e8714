import Mathlib.Data.List.FinRange
import Mathlib.Logic.Function.Basic

/-! The list of `list.h`, whose elements come from the pool of `afl-prealloc.h`. -/

set_option autoImplicit false

namespace SbFuzz.Memory.ElementList

open Function (update)

def listPreallocSize : Nat := 64

/-- An element of the buffer of the list, or one that `malloc` returned. -/
inductive Pointer where
  | buf (index : Fin listPreallocSize)
  | heap (address : Nat)
  deriving DecidableEq

inductive PreStatus where
  | unused
  | used
  | malloc
  deriving DecidableEq

/-- Why a call does not return: one of the messages of `FATAL`, an access to memory that is not
there, or too little fuel. -/
inductive Stop where
  | outOfMemory
  | alreadyAllocated
  | inconsistent
  | doubleFree
  | uninitialized
  | notInList
  | crashed
  | outOfFuel
  deriving DecidableEq

/-- The fields of all elements, the counter of the list, and the blocks that `malloc` returned and
that were not freed. A `void *` is its address. -/
structure State where
  preStatus : Pointer → PreStatus
  prev : Pointer → Option Pointer
  next : Pointer → Option Pointer
  data : Pointer → Nat
  elementPreallocCount : Int
  allocated : List Nat
  mallocs : Nat

/-- What `malloc` answers, by the number of the call and the blocks in use: none of these. -/
structure Malloc where
  answer : Nat → List Nat → Option Nat
  fresh : ∀ {call live address}, answer call live = some address → address ∉ live

def deref (st : State) : Option Pointer → Except Stop Pointer
  | some (.buf index) => .ok (.buf index)
  | some (.heap address) =>
      if address ∈ st.allocated then .ok (.heap address) else .error .crashed
  | none => .error .crashed

/-! ## The pool -/

/-- `PRE_ALLOC`. The search for an unused element stays at the last one if it finds none. -/
def preAlloc (malloc : Malloc) (st : State) : Except Stop (Pointer × State) :=
  if (listPreallocSize : Int) ≤ st.elementPreallocCount then
    match malloc.answer st.mallocs st.allocated with
    | none => .error .outOfMemory
    | some address =>
        .ok (.heap address,
          { st with
            preStatus := update st.preStatus (.heap address) .malloc
            allocated := address :: st.allocated
            mallocs := st.mallocs + 1 })
  else
    match (List.finRange listPreallocSize).find? fun i => st.preStatus (.buf i) = .unused with
    | none => .ok (.buf (Fin.last 63), st)
    | some i =>
        .ok (.buf i,
          { st with
            preStatus := update st.preStatus (.buf i) .used
            elementPreallocCount := st.elementPreallocCount + 1 })

/-- `PRE_ALLOC_FORCE`. -/
def preAllocForce (st : State) (el : Pointer) : Except Stop State :=
  if st.preStatus el ≠ .unused then .error .alreadyAllocated
  else
    .ok { st with
      preStatus := update st.preStatus el .used
      elementPreallocCount := st.elementPreallocCount + 1 }

def free (st : State) : Pointer → Except Stop State
  | .buf _ => .error .crashed
  | .heap address => .ok { st with allocated := st.allocated.filter (· ≠ address) }

/-- `PRE_FREE`. -/
def preFree (st : State) (el : Pointer) : Except Stop State :=
  match st.preStatus el with
  | .used =>
      let st :=
        { st with
          preStatus := update st.preStatus el .unused
          elementPreallocCount := st.elementPreallocCount - 1 }
      if st.elementPreallocCount < 0 then .error .inconsistent else .ok st
  | .malloc => free { st with preStatus := update st.preStatus el .unused } el
  | .unused => .error .doubleFree

/-! ## The list -/

/-- `get_head`. -/
def head : Pointer := .buf ⟨0, by decide⟩

def zeroBuf {α : Type} (zero : α) (field : Pointer → α) : Pointer → α
  | .buf _ => zero
  | .heap address => field (.heap address)

/-- The `memset` over the list. -/
def memset (st : State) : State :=
  { st with
    preStatus := zeroBuf .unused st.preStatus
    prev := zeroBuf none st.prev
    next := zeroBuf none st.next
    data := zeroBuf 0 st.data
    elementPreallocCount := 0 }

def initHead (st : State) : Except Stop State := do
  let st ← preAllocForce (memset st) head
  return { st with
    next := update st.next head (some head)
    prev := update st.prev head (some head) }

def link (st : State) (elBox : Pointer) (el : Nat) : Except Stop State := do
  let st :=
    { st with
      data := update st.data elBox el
      next := update st.next elBox (some head)
      prev := update st.prev elBox (st.prev head) }
  let last ← deref st (st.prev head)
  return { st with
    next := update st.next last (some elBox)
    prev := update st.prev head (some elBox) }

/-- The list that `list_append` appends to: the first call initializes it. -/
def initialized (st : State) : Except Stop State :=
  if st.next head = none then initHead st else .ok st

def listAppend (malloc : Malloc) (st : State) (el : Nat) : Except Stop State := do
  let st ← initialized st
  let (elBox, st) ← preAlloc malloc st
  link st elBox el

/-- The assignments to the neighbours of an element. -/
def unlink (st : State) (elBox : Pointer) (next : Option Pointer) : Except Stop State := do
  let before ← deref st (st.prev elBox)
  let st := { st with next := update st.next before next }
  let after ← deref st (st.next elBox)
  return { st with prev := update st.prev after (st.prev elBox) }

/-- `LIST_REMOVE_CURRENT_EL_IN_FOREACH`. -/
def removeCurrent (st : State) (elBox : Pointer) (next : Option Pointer) : Except Stop State := do
  let st ← unlink st elBox next
  preFree st elBox

/-- What a block does with the element that is visited, and whether it returns from the function
around the loop. -/
structure Reaction where
  removes : Bool
  leaves : Bool

/-- The block of a loop changes variables of the function around it. -/
abbrev Block (σ : Type) := σ → Nat → σ × Reaction

variable {σ : Type}

def foreachLoop (block : Block σ) : Nat → State → Option Pointer → σ → Except Stop (State × σ)
  | 0, _, _, _ => .error .outOfFuel
  | fuel + 1, st, elBox, vars =>
      if elBox = some head then .ok (st, vars)
      else do
        let box ← deref st elBox
        let next := st.next box
        let (vars, reaction) := block vars (st.data box)
        let st ← if reaction.removes then removeCurrent st box next else .ok st
        if reaction.leaves then .ok (st, vars) else foreachLoop block fuel st next vars

/-- `LIST_FOREACH`. -/
def listForeach (fuel : Nat) (block : Block σ) (st : State) (vars : σ) :
    Except Stop (State × σ) :=
  if st.next head = none then .error .uninitialized
  else foreachLoop block fuel st (st.next head) vars

/-- `LIST_FOREACH_CLEAR`, whose block is followed by the removal. -/
def listForeachClear (fuel : Nat) (block : σ → Nat → σ × Bool) (st : State) (vars : σ) :
    Except Stop (State × σ) :=
  listForeach fuel (fun vars el => ((block vars el).1, ⟨!(block vars el).2, (block vars el).2⟩)) st
    vars

/-- The loop of `list_remove`, which removes the first element with the data and returns. -/
def removeLoop (removeMe : Nat) : Nat → State → Option Pointer → Except Stop State
  | 0, _, _ => .error .outOfFuel
  | fuel + 1, st, elBox =>
      if elBox = some head then .error .notInList
      else do
        let box ← deref st elBox
        let next := st.next box
        if st.data box = removeMe then
          let st ← unlink st box (st.next box)
          preFree { st with data := update st.data box 0 } box
        else removeLoop removeMe fuel st next

def listRemove (fuel : Nat) (st : State) (removeMe : Nat) : Except Stop State :=
  if st.next head = none then .error .uninitialized
  else removeLoop removeMe fuel st (st.next head)

def listContains (fuel : Nat) (st : State) (containsMe : Nat) : Except Stop (State × Bool) :=
  listForeach fuel (fun _ el => (decide (el = containsMe), ⟨false, decide (el = containsMe)⟩)) st
    false

/-! ## Sequences of operations -/

inductive Op (σ : Type) where
  | append (el : Nat)
  | remove (removeMe : Nat)
  | foreach (block : Block σ) (vars : σ)
  | contains (containsMe : Nat)

/-- What the caller of an operation gets. -/
inductive Answer (σ : Type) where
  | done
  | vars (vars : σ)
  | found (isFound : Bool)

def step (malloc : Malloc) (fuel : Nat) (st : State) : Op σ → Except Stop (State × Answer σ)
  | .append el => do
      let st ← listAppend malloc st el
      return (st, .done)
  | .remove removeMe => do
      let st ← listRemove fuel st removeMe
      return (st, .done)
  | .foreach block vars => do
      let (st, vars) ← listForeach fuel block st vars
      return (st, .vars vars)
  | .contains containsMe => do
      let (st, isFound) ← listContains fuel st containsMe
      return (st, .found isFound)

def run (malloc : Malloc) (fuel : Nat) (st : State) :
    List (Op σ) → Except Stop (State × List (Answer σ))
  | [] => .ok (st, [])
  | op :: ops => do
      let (st, answer) ← step malloc fuel st op
      let (st, answers) ← run malloc fuel st ops
      return (st, answer :: answers)

/-- A list whose memory is all zeros. -/
def zeroed : State :=
  { preStatus := fun _ => .unused
    prev := fun _ => none
    next := fun _ => none
    data := fun _ => 0
    elementPreallocCount := 0
    allocated := []
    mallocs := 0 }

end SbFuzz.Memory.ElementList
