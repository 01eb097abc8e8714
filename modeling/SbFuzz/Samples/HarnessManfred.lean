import Mathlib.Data.List.Induction
import SbFuzz.Context.EmulatorProperties
import SbFuzz.Samples.Harness

/-! The sample `harness_manfred.c`: every read of the target's range is answered
with the next bytes of the input. -/

set_option autoImplicit false

namespace SbFuzz.Samples.HarnessManfred

open Context

def inputAddr : UInt64 := 0x5000

def targetRangeStart : UInt64 := 0xba900000000

def targetRangeEnd : UInt64 := targetRangeStart + 0x100000000

/-- An input as unicornafl passes it on: its length is a `uint32_t`. -/
structure TestCase where
  bytes : List UInt8
  short : bytes.length < 2 ^ 32

/-- The arguments of `hook_mem_access`. -/
structure Access where
  type : UcMemType
  address : UInt64
  size : AccessSize
  value : UInt64
deriving DecidableEq, Repr

/-- The value that a redirected read is given. -/
structure Delivery where
  size : AccessSize
  value : List UInt8
deriving DecidableEq, Repr

/-- The engine and the globals. `delivered` is history. -/
structure Harness where
  uc : Emulator
  currentInputLen : UInt64
  currentInputIndex : UInt64
  isInvalid : Bool
  delivered : List Delivery

/-! ## The hook -/

def Access.inRange (access : Access) : Bool :=
  targetRangeStart ≤ access.address && access.address < targetRangeEnd

/-- The `case`s of the hook. -/
def specialValue (address : UInt64) : Option UInt64 :=
  [(0xba900049c94, 0x00049c51), (0xba900049c64, 0), (0xba900040008, 1),
    (0xba900049c7c, 0x001000c0)].lookup address

/-- `value` after the `uc_mem_read` at the cursor, whose result is ignored. -/
def fetch (uc : Emulator) (index : UInt64) (access : Access) : List UInt8 :=
  match uc.ucMemRead (inputAddr + index) access.size.bytes with
  | .ok bytes => bytes
  | .error _ => littleEndian access.value access.size.bytes

/-- The `default` branch of the hook. -/
def Harness.redirectRead (harness : Harness) (access : Access) : Harness :=
  let value := fetch harness.uc harness.currentInputIndex access
  { harness with
    uc := ucMemWriteIgnored harness.uc access.address value
    currentInputIndex := harness.currentInputIndex + UInt64.ofNat access.size.bytes
    delivered := harness.delivered ++ [⟨access.size, value⟩] }

-- `uc_emu_stop` is a request: reads of the same instruction may still follow.
def Harness.hookMemAccess (harness : Harness) (access : Access) : Harness :=
  let size := access.size.bytes
  if harness.currentInputIndex + UInt64.ofNat size ≥ harness.currentInputLen then
    { harness with
      uc := ucMemWriteIgnored harness.uc access.address (littleEndian 0xffffff00 size)
      isInvalid := true }
  else if access.inRange then
    match access.type with
    | .read =>
        match specialValue access.address with
        | some value =>
            { harness with
              uc := ucMemWriteIgnored harness.uc access.address (littleEndian value size) }
        | none => harness.redirectRead access
    | _ => harness
  else harness

/-- The accesses that `uc_hook_add` registers the hook for. -/
def Access.hooked (access : Access) : Bool :=
  access.type = .read && targetRangeStart ≤ access.address && access.address ≤ targetRangeEnd

/-! ## Runs -/

/-- The `uc_mem_write` of the input, which takes at most `INT_MAX` bytes. -/
def writeInput (uc : Emulator) (bytes : List UInt8) : Emulator :=
  if bytes.length ≤ 0x7fffffff then ucMemWriteIgnored uc inputAddr bytes else uc

def placeInputCallback (uc : Emulator) (input : TestCase) : Option Harness :=
  if input.bytes.length < 2 then none
  else some
    { uc := writeInput uc (input.bytes.set (input.bytes.length - 1) 0)
      currentInputLen := UInt64.ofNat input.bytes.length
      currentInputIndex := 0
      isInvalid := false
      delivered := [] }

/-- What the target does to the engine between two accesses; it leaves the input
of this length alone. -/
structure TargetCode (length : Nat) where
  run : Emulator → Emulator
  mapped : ∀ uc, (run uc).mapped = uc.mapped
  memory : ∀ uc, ∀ offset < length,
    (run uc).memory (inputAddr + UInt64.ofNat offset) =
      uc.memory (inputAddr + UInt64.ofNat offset)

structure Step (length : Nat) where
  code : TargetCode length
  access : Access

def Harness.step {length : Nat} (harness : Harness) (step : Step length) : Harness :=
  let reached := { harness with uc := step.code.run harness.uc }
  if step.access.hooked then reached.hookMemAccess step.access else reached

def Harness.run {length : Nat} (harness : Harness) (steps : List (Step length)) : Harness :=
  steps.foldl Harness.step harness

/-! What the redirected reads of `harness_manfred.c` deliver: the input in order,
if there is room for it where it is placed. -/

/-! ## The cursor -/

/-- Reads that the hook redirects while the input lasts. -/
def Access.redirected (access : Access) : Bool :=
  access.hooked && access.inRange && (specialValue access.address).isNone

/-- The bytes that a run takes from an input of this length. -/
def advance (length cursor : Nat) (access : Access) : Nat :=
  if access.redirected ∧ cursor + access.size.bytes < length then cursor + access.size.bytes
  else cursor

def consumed (length : Nat) (accesses : List Access) : Nat :=
  accesses.foldl (advance length) 0

/-- The redirected reads deliver the input from its start on, each of them as
many bytes as it reads, and the cursor stays in the input. -/
structure InOrder (input : List UInt8) (harness : Harness) : Prop where
  values : harness.delivered.flatMap Delivery.value <+: input
  sizes : ∀ delivery ∈ harness.delivered, delivery.value.length = delivery.size.bytes
  cursor : harness.currentInputIndex.toNat =
    (harness.delivered.flatMap Delivery.value).length
  bounded : harness.currentInputIndex.toNat ≤ input.length

theorem advance_lt {length cursor : Nat} (inside : cursor < length) (access : Access) :
    advance length cursor access < length := by
  unfold advance
  split
  · next redirected => exact redirected.2
  · exact inside

/-- The bytes of an engine at the place of the input. -/
def SameInput (length : Nat) (uc current : Emulator) : Prop :=
  current.mapped = uc.mapped ∧ ∀ offset < length,
    current.memory (inputAddr + UInt64.ofNat offset) =
      uc.memory (inputAddr + UInt64.ofNat offset)

theorem SameInput.trans {length : Nat} {uc current next : Emulator}
    (first : SameInput length uc current) (second : SameInput length current next) :
    SameInput length uc next :=
  ⟨second.1.trans first.1, fun offset inside =>
    (second.2 offset inside).trans (first.2 offset inside)⟩

theorem inputAddr_add_toNat {length offset : Nat} (short : length < 2 ^ 32)
    (inside : offset ≤ length) :
    (inputAddr + UInt64.ofNat offset).toNat = inputAddr.toNat + offset := by
  have base : inputAddr.toNat = 0x5000 := rfl
  rw [UInt64.toNat_add, UInt64.toNat_ofNat', Nat.mod_eq_of_lt (a := offset) (by omega),
    Nat.mod_eq_of_lt (by omega)]

/-- A write to the range of the target does not reach the input. -/
theorem ucMemWriteIgnored_sameInput {length : Nat} (short : length < 2 ^ 32) (uc : Emulator)
    {address : UInt64} (low : targetRangeStart ≤ address) (high : address ≤ targetRangeEnd)
    {bytes : List UInt8} (few : bytes.length ≤ 8) :
    SameInput length uc (ucMemWriteIgnored uc address bytes) := by
  unfold ucMemWriteIgnored
  cases written : uc.ucMemWrite address bytes with
  | error _ => exact ⟨rfl, fun _ _ => rfl⟩
  | ok next =>
      have start := UInt64.le_iff_toNat_le.mp low
      have stop := UInt64.le_iff_toNat_le.mp high
      change 0xba900000000 ≤ address.toNat at start
      change address.toNat ≤ 0xbaa00000000 at stop
      have result := Emulator.ucMemWrite_result (by omega) written
      refine ⟨result.mapped, fun offset inside => result.kept _ (.inl ?_)⟩
      rw [inputAddr_add_toNat short (Nat.le_of_lt inside)]
      change 0x5000 + offset < address.toNat
      omega

theorem fetch_length (uc : Emulator) (index : UInt64) (access : Access) :
    (fetch uc index access).length = access.size.bytes := by
  unfold fetch Emulator.ucMemRead
  split
  · next bytes read =>
    split at read
    · cases read
      simp
    · cases read
  · simp [littleEndian]

theorem fetch_sameInput {length cursor : Nat} {uc current : Emulator} {access : Access}
    (same : SameInput length uc current) (inside : cursor + access.size.bytes ≤ length) :
    fetch current (UInt64.ofNat cursor) access = fetch uc (UInt64.ofNat cursor) access := by
  have read : current.ucMemRead (inputAddr + UInt64.ofNat cursor) access.size.bytes =
      uc.ucMemRead (inputAddr + UInt64.ofNat cursor) access.size.bytes := by
    unfold Emulator.ucMemRead Emulator.checkMemArea Emulator.isMapped
    rw [same.1]
    have bytes : (List.range access.size.bytes).map (fun offset =>
          current.memory (inputAddr + UInt64.ofNat cursor + UInt64.ofNat offset)) =
        (List.range access.size.bytes).map fun offset =>
          uc.memory (inputAddr + UInt64.ofNat cursor + UInt64.ofNat offset) := by
      refine List.map_congr_left fun offset member => ?_
      have within : cursor + offset < length :=
        Nat.lt_of_lt_of_le (Nat.add_lt_add_left (List.mem_range.mp member) cursor) inside
      rw [UInt64.add_assoc, ← UInt64.ofNat_add]
      exact same.2 _ within
    rw [bytes]
  simp only [fetch, read]

/-- A harness that has delivered the bytes before a cursor; `uc` is the engine
when the input was placed. -/
structure At (uc : Emulator) (length cursor : Nat) (harness : Harness) : Prop where
  len : harness.currentInputLen = UInt64.ofNat length
  index : harness.currentInputIndex = UInt64.ofNat cursor
  same : SameInput length uc harness.uc

theorem lasts_iff {length cursor : Nat} (short : length < 2 ^ 32) (inside : cursor < length)
    (size : AccessSize) :
    ¬ UInt64.ofNat cursor + UInt64.ofNat size.bytes ≥ UInt64.ofNat length ↔
      cursor + size.bytes < length := by
  have few := AccessSize.bytes_le size
  rw [ge_iff_le, UInt64.not_le, ← UInt64.ofNat_add, UInt64.lt_iff_toNat_lt, UInt64.toNat_ofNat',
    UInt64.toNat_ofNat', Nat.mod_eq_of_lt (by omega), Nat.mod_eq_of_lt (by omega)]

theorem Access.hooked_range {access : Access} (hooked : access.hooked = true) :
    access.type = .read ∧ targetRangeStart ≤ access.address ∧
      access.address ≤ targetRangeEnd := by
  simpa [Access.hooked, and_assoc] using hooked

inductive StepOutcome (uc : Emulator) (length cursor : Nat) (harness next : Harness)
    (access : Access) : Prop where
  | delivered : access.redirected = true → cursor + access.size.bytes < length →
      At uc length (cursor + access.size.bytes) next →
      next.delivered = harness.delivered ++
        [⟨access.size, fetch uc (UInt64.ofNat cursor) access⟩] →
      StepOutcome uc length cursor harness next access
  | other : ¬ (access.redirected = true ∧ cursor + access.size.bytes < length) →
      At uc length cursor next → next.delivered = harness.delivered →
      StepOutcome uc length cursor harness next access

theorem At.hookMemAccess {uc : Emulator} {length cursor : Nat} {harness : Harness}
    (located : At uc length cursor harness) (short : length < 2 ^ 32) (inside : cursor < length)
    {access : Access} (hooked : access.hooked = true) :
    StepOutcome uc length cursor harness (harness.hookMemAccess access) access := by
  obtain ⟨isRead, low, high⟩ := access.hooked_range hooked
  have lasts := lasts_iff short inside access.size
  have few := AccessSize.bytes_le access.size
  have keeps : ∀ bytes : List UInt8, bytes.length = access.size.bytes →
      SameInput length uc (ucMemWriteIgnored harness.uc access.address bytes) :=
    fun bytes sized =>
      located.same.trans (ucMemWriteIgnored_sameInput short _ low high (sized ▸ few))
  have sized : ∀ value : UInt64,
      (littleEndian value access.size.bytes).length = access.size.bytes := by
    simp [littleEndian]
  unfold Harness.hookMemAccess
  simp only [located.index, located.len, isRead]
  split
  · next usedUp =>
    refine .other (fun both => lasts.mpr both.2 usedUp) ⟨rfl, rfl, ?_⟩ rfl
    exact keeps _ (sized _)
  · next notUsedUp =>
    split
    · next inRange =>
      cases special : specialValue access.address with
      | some value =>
          refine .other (fun both => ?_) ⟨rfl, rfl, keeps _ (sized _)⟩ rfl
          simp [Access.redirected, special] at both
      | none =>
          have fits := lasts.mp notUsedUp
          have value : fetch harness.uc harness.currentInputIndex access =
              fetch uc (UInt64.ofNat cursor) access := by
            rw [located.index]
            exact fetch_sameInput located.same (Nat.le_of_lt fits)
          refine .delivered ?_ fits ⟨located.len, ?_, ?_⟩ ?_
          · simp [Access.redirected, hooked, inRange, special]
          · rw [UInt64.ofNat_add, ← located.index]
            rfl
          · exact keeps _ (fetch_length _ _ _)
          · simp only [Harness.redirectRead, value]
    · next outside =>
      refine .other (fun both => ?_) located rfl
      simp [Access.redirected, outside] at both

theorem At.step {uc : Emulator} {length cursor : Nat} {harness : Harness}
    (located : At uc length cursor harness) (short : length < 2 ^ 32) (inside : cursor < length)
    (step : Step length) :
    StepOutcome uc length cursor harness (harness.step step) step.access := by
  have reached : At uc length cursor { harness with uc := step.code.run harness.uc } :=
    ⟨located.len, located.index,
      located.same.trans ⟨step.code.mapped _, step.code.memory _⟩⟩
  unfold Harness.step
  simp only
  split
  · next hooked =>
    cases reached.hookMemAccess short inside hooked with
    | delivered redirected fits next grown => exact .delivered redirected fits next grown
    | other notRedirected next same => exact .other notRedirected next same
  · next notHooked =>
    refine .other (fun both => ?_) reached rfl
    simp [Access.redirected, notHooked] at both

/-! ## Runs -/

/-- What the redirected reads find from a cursor on. -/
def deliveries (uc : Emulator) (length : Nat) : Nat → List Access → List Delivery
  | _, [] => []
  | cursor, access :: rest =>
      if access.redirected ∧ cursor + access.size.bytes < length then
        ⟨access.size, fetch uc (UInt64.ofNat cursor) access⟩ ::
          deliveries uc length (cursor + access.size.bytes) rest
      else deliveries uc length cursor rest

theorem At.run {uc : Emulator} {length cursor : Nat} {harness : Harness}
    (located : At uc length cursor harness) (short : length < 2 ^ 32) (inside : cursor < length)
    (steps : List (Step length)) :
    At uc length ((steps.map Step.access).foldl (advance length) cursor) (harness.run steps) ∧
      (harness.run steps).delivered =
        harness.delivered ++ deliveries uc length cursor (steps.map Step.access) := by
  induction steps generalizing harness cursor with
  | nil => exact ⟨located, (List.append_nil _).symm⟩
  | cons step steps ih =>
      have advanced := advance_lt inside step.access
      simp only [List.map_cons, List.foldl_cons, deliveries]
      cases located.step short inside step with
      | delivered redirected fits next grown =>
          have moved : advance length cursor step.access = cursor + step.access.size.bytes :=
            if_pos ⟨redirected, fits⟩
          obtain ⟨final, delivered⟩ := ih next fits
          rw [moved, if_pos ⟨redirected, fits⟩]
          refine ⟨final, delivered.trans ?_⟩
          rw [grown, List.append_assoc, List.singleton_append]
      | other notRedirected next same =>
          have stays : advance length cursor step.access = cursor := if_neg notRedirected
          obtain ⟨final, delivered⟩ := ih next inside
          rw [stays, if_neg notRedirected]
          exact ⟨final, same ▸ delivered⟩

def idle (length : Nat) : TargetCode length where
  run := id
  mapped := fun _ => rfl
  memory := fun _ _ _ => rfl

def byteRead (length : Nat) : Step length where
  code := idle length
  access := ⟨.read, targetRangeStart, .byte, 0⟩

end SbFuzz.Samples.HarnessManfred
