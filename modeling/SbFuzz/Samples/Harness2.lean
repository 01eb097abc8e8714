import Mathlib.Data.List.Induction
import SbFuzz.Samples.Harness

/-! The sample `harness_2.c`: persistent rounds in which loads of the target are
answered with fuzzer input. The target leaves the input area alone. -/

set_option autoImplicit false

namespace SbFuzz.Samples.Harness2

open Context

def inputAddr : UInt64 := 0x5000

def targetRangeStart : UInt64 := 0x1e5c00000000

def targetRangeEnd : UInt64 := 0x1e5d00000000

/-- The engine and the globals, which persist from round to round. -/
structure Harness where
  uc : Emulator
  currentInputLen : UInt64
  currentInputIndex : UInt64

/-- A `mov` of the target with a memory operand as its source. -/
structure Mov where
  memAddr : UInt64
  readSize : AccessSize
deriving DecidableEq, Repr

def Mov.inRange (mov : Mov) : Bool :=
  targetRangeStart ≤ mov.memAddr && mov.memAddr < targetRangeEnd

/-- The bytes of `input_data` that go to the destination. Without a value
`uc_mem_read` has failed, and the variable is indeterminate. -/
abbrev Delivery := Option (List UInt8)

/-- `place_input_callback`: the engine and globals, and whether the round runs. -/
def Harness.placeInputCallback (harness : Harness) (input : List UInt8) : Harness × Bool :=
  if input.length < 0x100 then (harness, false)
  else
    ({ harness with
        uc := ucMemWriteIgnored harness.uc inputAddr (input.set (input.length - 1) 0)
        currentInputLen := UInt64.ofNat input.length }, true)

/-- `hook_code` at a `mov`. -/
def Harness.hookCode (harness : Harness) (mov : Mov) : Harness × List Delivery :=
  if mov.inRange then
    let inputData := harness.uc.ucMemRead (inputAddr + harness.currentInputIndex) mov.readSize.bytes
    ({ harness with
        currentInputIndex := harness.currentInputIndex + UInt64.ofNat mov.readSize.bytes },
      [inputData.toOption])
  else (harness, [])

def Harness.runMovs (harness : Harness) : List Mov → Harness × List Delivery
  | [] => (harness, [])
  | mov :: rest =>
      let (hooked, delivered) := harness.hookCode mov
      let (final, later) := hooked.runMovs rest
      (final, delivered ++ later)

/-- An input and the loads of the target in its round. -/
structure Round where
  input : List UInt8
  movs : List Mov

def Harness.round (harness : Harness) (round : Round) : Harness × List Delivery :=
  let (placed, runs) := harness.placeInputCallback round.input
  if runs then placed.runMovs round.movs else (placed, [])

def Harness.started (uc : Emulator) : Harness :=
  { uc, currentInputLen := 0, currentInputIndex := 0 }

def Harness.runRounds (harness : Harness) (rounds : List Round) : Harness :=
  rounds.foldl (fun harness round => (harness.round round).1) harness

def injected (uc : Emulator) (earlier : List Round) (last : Round) : List Delivery :=
  (((Harness.started uc).runRounds earlier).round last).2

/-! What the rounds of `harness_2.c` inject into the target: where each byte
comes from is a matter of the lengths and loads of all rounds so far. -/

/-! ## Sources -/

/-- Where a byte of memory comes from. -/
inductive Source where
  | input (position : Nat)
  | terminator
  | context (address : UInt64)
  | stale
deriving DecidableEq

/-- The part of a round that does not depend on the contents of its input. -/
structure Shape where
  length : Nat
  movs : List Mov

def Round.shape (round : Round) : Shape := ⟨round.input.length, round.movs⟩

section

variable (uc : Emulator)

def placeSources (sources : UInt64 → Source) (length : Nat) (content : Nat → Source) :
    UInt64 → Source :=
  if 0x100 ≤ length ∧ uc.checkMemArea inputAddr length then fun address =>
    let position := (address - inputAddr).toNat
    if position < length then if position = length - 1 then .terminator else content position
    else sources address
  else sources

def sourcesAfter (earlier : List Shape) : UInt64 → Source :=
  earlier.foldl (fun sources shape => placeSources uc sources shape.length fun _ => .stale)
    .context

def lastSources (earlier : List Shape) (last : Shape) : UInt64 → Source :=
  placeSources uc (sourcesAfter uc earlier) last.length .input

/-- The offsets and sizes of the reads from the input, and the end of the last one. -/
def readsFrom (offset : UInt64) : List Mov → List (UInt64 × Nat) × UInt64
  | [] => ([], offset)
  | mov :: rest =>
      if mov.inRange then
        let (reads, final) := readsFrom (offset + UInt64.ofNat mov.readSize.bytes) rest
        ((offset, mov.readSize.bytes) :: reads, final)
      else readsFrom offset rest

/-- `current_input_index` after some rounds. -/
def cursorAfter (earlier : List Shape) : UInt64 :=
  earlier.foldl (fun cursor shape =>
    if 0x100 ≤ shape.length then (readsFrom cursor shape.movs).2 else cursor) 0

/-- A read of the last round finds the same bytes after both sequences of rounds:
none of them is left over from an earlier input. -/
structure SameSources (first second : List Shape) (last : Shape) (read : UInt64 × Nat) :
    Prop where
  firstMapped : uc.checkMemArea (inputAddr + (cursorAfter first + read.1)) read.2 = true
  secondMapped : uc.checkMemArea (inputAddr + (cursorAfter second + read.1)) read.2 = true
  fresh : ∀ offset < read.2, lastSources uc first last
    (inputAddr + (cursorAfter first + read.1) + UInt64.ofNat offset) ≠ .stale
  same : ∀ offset < read.2,
    lastSources uc first last (inputAddr + (cursorAfter first + read.1) + UInt64.ofNat offset) =
      lastSources uc second last (inputAddr + (cursorAfter second + read.1) + UInt64.ofNat offset)

end

def SameBytes (first second : List Delivery) : Prop :=
  first = second ∧ ∀ delivery ∈ first, delivery.isSome = true

/-! ## Loads -/

theorem readsFrom_shift (start offset : UInt64) (movs : List Mov) :
    (readsFrom (start + offset) movs).1 =
      (readsFrom offset movs).1.map (fun read => (start + read.1, read.2)) := by
  induction movs generalizing offset with
  | nil => rfl
  | cons mov rest ih =>
      simp only [readsFrom]
      split
      · rw [UInt64.add_assoc, ih]
        rfl
      · exact ih offset

theorem Harness.runMovs_spec (harness : Harness) (movs : List Mov) :
    (harness.runMovs movs).1 =
        { harness with currentInputIndex := (readsFrom harness.currentInputIndex movs).2 } ∧
      (harness.runMovs movs).2 = (readsFrom harness.currentInputIndex movs).1.map fun read =>
        (harness.uc.ucMemRead (inputAddr + read.1) read.2).toOption := by
  induction movs generalizing harness with
  | nil => exact ⟨rfl, rfl⟩
  | cons mov rest ih =>
      simp only [Harness.runMovs, Harness.hookCode, readsFrom]
      split
      · obtain ⟨final, delivered⟩ := ih { harness with
          currentInputIndex := harness.currentInputIndex + UInt64.ofNat mov.readSize.bytes }
        exact ⟨final, by rw [delivered]; rfl⟩
      · exact ih harness

/-! ## Memory -/

theorem checkMemArea_congr {current uc : Emulator} (same : current.mapped = uc.mapped)
    (address : UInt64) (size : Nat) :
    current.checkMemArea address size = uc.checkMemArea address size := by
  unfold Emulator.checkMemArea Emulator.isMapped
  rw [same]

/-- The memory holds the value of each source that is trusted. -/
structure Agrees (uc : Emulator) (trusted : Source → Prop) (value : Source → UInt8)
    (sources : UInt64 → Source) (current : Emulator) : Prop where
  mapped : current.mapped = uc.mapped
  memory : ∀ address, trusted (sources address) →
    current.memory address = value (sources address)

section

variable {uc : Emulator} {trusted : Source → Prop} {value : Source → UInt8}

theorem Agrees.place {sources : UInt64 → Source} {harness : Harness}
    (agrees : Agrees uc trusted value sources harness.uc) (zero : value .terminator = 0)
    {input : List UInt8} {content : Nat → Source}
    (contents : ∀ (position : Nat) (inside : position < input.length),
      trusted (content position) → input[position] = value (content position)) :
    Agrees uc trusted value (placeSources uc sources input.length content)
      (harness.placeInputCallback input).1.uc := by
  unfold Harness.placeInputCallback placeSources
  by_cases short : input.length < 0x100
  · rw [if_pos short, if_neg fun both => Nat.not_le.mpr short both.1]
    exact agrees
  rw [if_neg short]
  by_cases room : uc.checkMemArea inputAddr input.length = true
  · have written : harness.uc.checkMemArea inputAddr
        (input.set (input.length - 1) 0).length = true := by
      rw [List.length_set, checkMemArea_congr agrees.mapped]
      exact room
    rw [if_pos ⟨Nat.not_lt.mp short, room⟩]
    simp only [ucMemWriteIgnored, Emulator.ucMemWrite, written, if_true]
    refine ⟨agrees.mapped, fun address trust => ?_⟩
    by_cases inside : (address - inputAddr).toNat < input.length
    · have present : (address - inputAddr).toNat < (input.set (input.length - 1) 0).length := by
        rw [List.length_set]
        exact inside
      simp only [inside, if_true] at trust ⊢
      rw [List.getD_eq_getElem _ _ present, List.getElem_set]
      by_cases last : (address - inputAddr).toNat = input.length - 1
      · simp only [last, if_true]
        exact zero.symm
      · rw [if_neg last] at trust ⊢
        rw [if_neg (Ne.symm last)]
        exact contents _ inside trust
    · have outside : (input.set (input.length - 1) 0).length ≤ (address - inputAddr).toNat := by
        rw [List.length_set]
        exact Nat.not_lt.mp inside
      simp only [inside, if_false] at trust ⊢
      rw [List.getD_eq_default _ _ outside]
      exact agrees.memory address trust
  · have unwritten : ¬ harness.uc.checkMemArea inputAddr
        (input.set (input.length - 1) 0).length = true := by
      rw [List.length_set, checkMemArea_congr agrees.mapped]
      exact room
    rw [if_neg fun both => room both.2]
    simp only [ucMemWriteIgnored, Emulator.ucMemWrite, unwritten]
    exact agrees

/-! ## Rounds -/

theorem Harness.round_spec (harness : Harness) (round : Round) :
    (harness.round round).1.uc = (harness.placeInputCallback round.input).1.uc ∧
      (harness.round round).1.currentInputIndex =
        (if 0x100 ≤ round.input.length then
          (readsFrom harness.currentInputIndex round.movs).2
        else harness.currentInputIndex) := by
  unfold Harness.round Harness.placeInputCallback
  by_cases short : round.input.length < 0x100
  · simp [short, Nat.not_le.mpr short]
  · simp [short, Nat.not_lt.mp short, Harness.runMovs_spec]

theorem Harness.runRounds_snoc (harness : Harness) (earlier : List Round) (round : Round) :
    harness.runRounds (earlier ++ [round]) = ((harness.runRounds earlier).round round).1 := by
  simp [runRounds, List.foldl_append]

theorem runRounds_spec (zero : value .terminator = 0)
    (start : ∀ address, trusted (.context address) → uc.memory address = value (.context address))
    (earlier : List Round)
    (contents : trusted .stale → ∀ round ∈ earlier, ∀ byte ∈ round.input, byte = value .stale) :
    ((Harness.started uc).runRounds earlier).currentInputIndex =
        cursorAfter (earlier.map Round.shape) ∧
      Agrees uc trusted value (sourcesAfter uc (earlier.map Round.shape))
        ((Harness.started uc).runRounds earlier).uc := by
  induction earlier using List.reverseRecOn with
  | nil => exact ⟨rfl, rfl, start⟩
  | append_singleton earlier round ih =>
      obtain ⟨cursor, agrees⟩ := ih fun trust other member =>
        contents trust other (List.mem_append_left _ member)
      obtain ⟨engine, index⟩ := ((Harness.started uc).runRounds earlier).round_spec round
      rw [Harness.runRounds_snoc, List.map_append]
      constructor
      · rw [index, cursor]
        simp only [cursorAfter, List.foldl_append, List.map_cons, List.map_nil, List.foldl_cons,
          List.foldl_nil]
        rfl
      · rw [engine]
        simp only [sourcesAfter, List.foldl_append, List.map_cons, List.map_nil, List.foldl_cons,
          List.foldl_nil]
        refine agrees.place zero fun position inside trust => ?_
        exact contents trust round (List.mem_append_right _ List.mem_cons_self) _
          (List.getElem_mem inside)

theorem injected_of_short {earlier : List Round} {last : Round}
    (short : last.input.length < 0x100) : injected uc earlier last = [] := by
  unfold injected Harness.round Harness.placeInputCallback
  simp [short]

theorem injected_eq (zero : value .terminator = 0)
    (start : ∀ address, trusted (.context address) → uc.memory address = value (.context address))
    {earlier : List Round}
    (contents : trusted .stale → ∀ round ∈ earlier, ∀ byte ∈ round.input, byte = value .stale)
    {last : Round} (accepted : 0x100 ≤ last.input.length)
    (lastContent : ∀ (position : Nat) (inside : position < last.input.length),
      last.input[position] = value (.input position)) :
    ∃ placed, Agrees uc trusted value
        (lastSources uc (earlier.map Round.shape) last.shape) placed ∧
      injected uc earlier last = (readsFrom 0 last.movs).1.map fun read =>
        (placed.ucMemRead (inputAddr + (cursorAfter (earlier.map Round.shape) + read.1))
          read.2).toOption := by
  obtain ⟨cursor, agrees⟩ := runRounds_spec zero start earlier contents
  refine ⟨_, agrees.place zero fun position inside _ => lastContent position inside, ?_⟩
  have notShort := Nat.not_lt.mpr accepted
  have shifted := readsFrom_shift (cursorAfter (earlier.map Round.shape)) 0 last.movs
  rw [UInt64.add_zero] at shifted
  simp only [injected, Harness.round, Harness.placeInputCallback, notShort, if_false, if_true,
    Harness.runMovs_spec, cursor, shifted, List.map_map]
  rfl

end

/-! ## Two sequences of rounds -/

/-- The values of sources: of an input, of the context and of everything stale. -/
def Source.value (input : Nat → UInt8) (context : UInt64 → UInt8) (old : UInt8) : Source → UInt8
  | .input position => input position
  | .terminator => 0
  | .context address => context address
  | .stale => old

/-- Only sources that are the same, and not stale, have the same value whatever
the inputs and the context are. -/
theorem Source.eq_of_value {first second : Source}
    (same : ∀ input context firstOld secondOld,
      first.value input context firstOld = second.value input context secondOld) :
    first ≠ .stale ∧ first = second := by
  have marked (input : Nat → UInt8) (context : UInt64 → UInt8) (firstOld secondOld : UInt8) :=
    same input context firstOld secondOld
  cases first with
  | stale =>
      have values := marked (fun _ => 0) (fun _ => 0) 1 0
      cases second <;> simp [Source.value] at values
  | terminator =>
      have values := marked (fun _ => 1) (fun _ => 1) 1 1
      cases second <;> simp [Source.value] at values ⊢
  | input position =>
      have values := marked (fun other => if other = position then 1 else 0) (fun _ => 0) 0 0
      cases second with
      | input other =>
          by_cases here : other = position
          · simp [here]
          · simp [Source.value, here] at values
      | _ => simp [Source.value] at values
  | context address =>
      have values := marked (fun _ => 0) (fun other => if other = address then 1 else 0) 0 0
      cases second with
      | context other =>
          by_cases here : other = address
          · simp [here]
          · simp [Source.value, here] at values
      | _ => simp [Source.value] at values

theorem ucMemRead_toOption (uc : Emulator) (address : UInt64) (size : Nat) :
    (uc.ucMemRead address size).toOption =
      if uc.checkMemArea address size then
        some ((List.range size).map fun offset => uc.memory (address + UInt64.ofNat offset))
      else none := by
  unfold Emulator.ucMemRead
  split <;> rfl

/-- The last round injects the same whatever the inputs and the context are. -/
def InjectsSame (uc : Emulator) (first second : List Shape) (last : Shape) : Prop :=
  ∀ (memory : UInt64 → UInt8) (firstRounds secondRounds : List Round) (lastRound : Round),
    firstRounds.map Round.shape = first → secondRounds.map Round.shape = second →
      lastRound.shape = last →
      SameBytes (injected { uc with memory } firstRounds lastRound)
        (injected { uc with memory } secondRounds lastRound)

theorem Agrees.read {uc placed : Emulator} {trusted : Source → Prop} {value : Source → UInt8}
    {sources : UInt64 → Source} (agrees : Agrees uc trusted value sources placed)
    {address : UInt64} {size : Nat} (mapped : uc.checkMemArea address size = true)
    (trust : ∀ offset < size, trusted (sources (address + UInt64.ofNat offset))) :
    (placed.ucMemRead address size).toOption =
      some ((List.range size).map fun offset =>
        value (sources (address + UInt64.ofNat offset))) := by
  rw [ucMemRead_toOption, checkMemArea_congr agrees.mapped, if_pos mapped]
  congr 1
  apply List.map_congr_left
  intro offset member
  exact agrees.memory _ (trust offset (List.mem_range.mp member))

theorem injectsSame_of_sameSources {uc : Emulator} {first second : List Shape} {last : Shape}
    (sources : ∀ read ∈ (readsFrom 0 last.movs).1, SameSources uc first second last read)
    (accepted : 0x100 ≤ last.length) : InjectsSame uc first second last := by
  rintro memory firstRounds secondRounds lastRound rfl rfl rfl
  have injection (rounds : List Round) := @injected_eq { uc with memory } (· ≠ .stale)
    (Source.value (fun position => lastRound.input.getD position 0) memory 0) rfl
    (fun _ _ => rfl) rounds (fun trust => absurd rfl trust) lastRound accepted
    fun position inside => (List.getD_eq_getElem _ _ inside).symm
  obtain ⟨firstPlaced, firstAgrees, firstInjected⟩ := injection firstRounds
  obtain ⟨secondPlaced, secondAgrees, secondInjected⟩ := injection secondRounds
  rw [firstInjected, secondInjected]
  constructor
  · apply List.map_congr_left
    intro read member
    obtain ⟨firstMapped, secondMapped, fresh, same⟩ := sources read member
    have secondFresh : ∀ offset < read.2, lastSources uc (secondRounds.map Round.shape)
        lastRound.shape (inputAddr + (cursorAfter (secondRounds.map Round.shape) + read.1) +
          UInt64.ofNat offset) ≠ .stale := by
      intro offset inside
      rw [← same offset inside]
      exact fresh offset inside
    rw [firstAgrees.read firstMapped fresh, secondAgrees.read secondMapped secondFresh]
    congr 1
    apply List.map_congr_left
    intro offset member
    exact congrArg _ (same offset (List.mem_range.mp member))
  · intro delivery member
    obtain ⟨read, isRead, rfl⟩ := List.mem_map.mp member
    obtain ⟨firstMapped, _, fresh, _⟩ := sources read isRead
    rw [firstAgrees.read firstMapped fresh]
    rfl

def uniformRound (byte : UInt8) (shape : Shape) : Round :=
  ⟨List.replicate shape.length byte, shape.movs⟩

theorem uniformRound_shape (byte : UInt8) (shapes : List Shape) :
    (shapes.map (uniformRound byte)).map Round.shape = shapes := by
  rw [List.map_map]
  exact List.map_id'' (fun shape => by simp [Round.shape, uniformRound]) shapes

theorem sameSources_of_injectsSame {uc : Emulator} {first second : List Shape} {last : Shape}
    (injects : InjectsSame uc first second last) (accepted : 0x100 ≤ last.length)
    {read : UInt64 × Nat} (member : read ∈ (readsFrom 0 last.movs).1) :
    SameSources uc first second last read := by
  -- the deliveries of a read, for any input, any context and uniform earlier inputs
  have deliveries (input : Nat → UInt8) (context : UInt64 → UInt8) (firstOld secondOld : UInt8) :
      ∃ firstPlaced secondPlaced,
        Agrees uc (fun _ => True) (Source.value input context firstOld)
          (lastSources uc first last) firstPlaced ∧
        Agrees uc (fun _ => True) (Source.value input context secondOld)
          (lastSources uc second last) secondPlaced ∧
        (firstPlaced.ucMemRead (inputAddr + (cursorAfter first + read.1)) read.2).toOption =
          (secondPlaced.ucMemRead (inputAddr + (cursorAfter second + read.1)) read.2).toOption ∧
        (firstPlaced.ucMemRead (inputAddr + (cursorAfter first + read.1))
          read.2).toOption.isSome = true := by
    let lastRound : Round := ⟨(List.range last.length).map input, last.movs⟩
    have lastShape : lastRound.shape = last := by simp [Round.shape, lastRound]
    have injection (shapes : List Shape) (old : UInt8) := @injected_eq { uc with memory := context }
      (fun _ => True) (Source.value input context old) rfl (fun _ _ => rfl)
      (shapes.map (uniformRound old)) (by
        intro _ round isRound byte isByte
        obtain ⟨shape, _, rfl⟩ := List.mem_map.mp isRound
        exact List.eq_of_mem_replicate isByte)
      lastRound (by simpa [lastRound] using accepted) (by simp [lastRound, Source.value])
    obtain ⟨firstPlaced, firstAgrees, firstInjected⟩ := injection first firstOld
    obtain ⟨secondPlaced, secondAgrees, secondInjected⟩ := injection second secondOld
    rw [uniformRound_shape, lastShape] at firstAgrees secondAgrees
    rw [uniformRound_shape] at firstInjected secondInjected
    obtain ⟨same, determined⟩ := injects context _ _ lastRound (uniformRound_shape firstOld first)
      (uniformRound_shape secondOld second) lastShape
    rw [firstInjected, secondInjected] at same
    rw [firstInjected] at determined
    exact ⟨firstPlaced, secondPlaced, ⟨firstAgrees.mapped, firstAgrees.memory⟩,
      ⟨secondAgrees.mapped, secondAgrees.memory⟩, List.map_inj_left.mp same read member,
      determined _ (List.mem_map_of_mem member)⟩
  obtain ⟨firstMapped, secondMapped⟩ : uc.checkMemArea (inputAddr + (cursorAfter first + read.1))
      read.2 = true ∧
      uc.checkMemArea (inputAddr + (cursorAfter second + read.1)) read.2 = true := by
    obtain ⟨firstPlaced, secondPlaced, firstAgrees, secondAgrees, same, determined⟩ :=
      deliveries (fun _ => 0) (fun _ => 0) 0 0
    have secondDetermined := determined
    rw [same, ucMemRead_toOption, checkMemArea_congr secondAgrees.mapped] at secondDetermined
    rw [ucMemRead_toOption, checkMemArea_congr firstAgrees.mapped] at determined
    constructor
    · by_contra unmapped
      simp [unmapped] at determined
    · by_contra unmapped
      simp [unmapped] at secondDetermined
  have sources : ∀ offset < read.2, _ ∧ _ := fun offset inside =>
    @Source.eq_of_value
      (lastSources uc first last (inputAddr + (cursorAfter first + read.1) + UInt64.ofNat offset))
      (lastSources uc second last (inputAddr + (cursorAfter second + read.1) + UInt64.ofNat offset))
      fun input context firstOld secondOld => by
        obtain ⟨_, _, firstAgrees, secondAgrees, same, _⟩ :=
          deliveries input context firstOld secondOld
        rw [firstAgrees.read firstMapped fun _ _ => trivial,
          secondAgrees.read secondMapped fun _ _ => trivial] at same
        exact List.map_inj_left.mp (Option.some.inj same) offset (List.mem_range.mpr inside)
  exact ⟨firstMapped, secondMapped, fun offset inside => (sources offset inside).1,
    fun offset inside => (sources offset inside).2⟩

/-- Two sequences of rounds inject the same in their last round, whatever the
inputs are, exactly if each byte that is read comes from the same place. -/
theorem injectsSame_iff (uc : Emulator) (first second : List Shape) (last : Shape) :
    InjectsSame uc first second last ↔
      last.length < 0x100 ∨
        ∀ read ∈ (readsFrom 0 last.movs).1, SameSources uc first second last read := by
  constructor
  · intro injects
    rcases Nat.lt_or_ge last.length 0x100 with short | accepted
    · exact .inl short
    · exact .inr fun read member => sameSources_of_injectsSame injects accepted member
  · rintro (short | sources)
    · rintro memory firstRounds secondRounds lastRound _ _ rfl
      rw [injected_of_short short, injected_of_short short]
      exact ⟨rfl, by simp⟩
    · rcases Nat.lt_or_ge last.length 0x100 with short | accepted
      · rintro memory firstRounds secondRounds lastRound _ _ rfl
        rw [injected_of_short short, injected_of_short short]
        exact ⟨rfl, by simp⟩
      · exact injectsSame_of_sameSources sources accepted

/-! ## A cursor that is not reset -/

def inputPage : Emulator where
  mapped := ⟨[⟨inputAddr, inputAddr + 0xfff, 7, by decide, by decide, by decide⟩], by simp⟩
  memory := fun _ => 0
  registers := fun _ => 0

def byteLoad : Mov := ⟨targetRangeStart, .byte⟩

def blankRound : Round := ⟨List.replicate 0x100 0, [byteLoad]⟩

def markedRound : Round := ⟨1 :: List.replicate 0xff 0, [byteLoad]⟩

/-- After a round that has read one byte, the second byte of an input is delivered. -/
theorem secondRound_differs : ¬ ∀ uc first second last,
    SameBytes (injected uc first last) (injected uc second last) := by
  intro claim
  have same := (claim inputPage [] [blankRound] markedRound).1
  have alone : injected inputPage [] markedRound = [some [1]] := by decide +kernel
  have after : injected inputPage [blankRound] markedRound = [some [0]] := by decide +kernel
  rw [alone, after] at same
  exact absurd same (by decide)

end SbFuzz.Samples.Harness2
