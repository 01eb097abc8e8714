import SbFuzz.Fuzzer.AflMutateProperties

/-! Runs of `afl_mutate` stay inside the buffers and return a length that is in
range, as long as no step grows the input past `max_len`. -/

set_option autoImplicit false

namespace SbFuzz.Fuzzer.AflMutate

open SbFuzz.Systems SbFuzz.Systems.Draws SbFuzz.Systems.Buffers
open AsciiNumber (change decimal snprintf numberAt runEnd skip run)

/-! ## Numbers in the input -/

def State.input (st : State) : List UInt8 := st.buf.take st.len

theorem State.Inside.length_input {maxLen : Nat} {st : State} (inside : st.Inside maxLen) :
    st.input.length = st.len :=
  List.length_take_of_le (inside.buf.symm ▸ inside.len)

theorem loadByte_eq {mem : List UInt8} {pos : Nat} (inside : pos < mem.length) :
    loadByte mem pos = pure mem[pos] := by
  unfold loadByte
  rw [List.getElem?_eq_getElem inside]
  rfl

theorem scan_eq (test : UInt8 → Bool) {buf : List UInt8} {len stop : Nat} (within : stop ≤ len)
    (bound : len ≤ buf.length) (rounds pos : Nat) :
    scan test buf stop rounds pos = pure (skip test (buf.take len) stop rounds pos) := by
  induction rounds generalizing pos with
  | zero => rfl
  | succ rounds ih =>
      unfold scan skip
      by_cases below : pos < stop
      · have inside : pos < buf.length := by omega
        have there : (buf.take len)[pos]? = some buf[pos] := by
          rw [List.getElem?_take_of_lt (by omega), List.getElem?_eq_getElem inside]
        rw [if_pos below, loadByte_eq inside, pure_bind, there, Option.any_some]
        by_cases passes : test buf[pos] = true
        · rw [if_pos passes, if_pos ⟨below, passes⟩, ih]
        · rw [if_neg passes, if_neg fun both => passes both.2]
      · rw [if_neg below, if_neg fun both => below both.1]

theorem locate_eq {maxLen : Nat} {st : State} (inside : st.Inside maxLen) {off : Nat}
    (bound : off ≤ st.len) : locate st off = pure (AsciiNumber.locate st.input off) := by
  have room : st.len ≤ st.buf.length := inside.buf.symm ▸ inside.len
  unfold locate AsciiNumber.locate
  rw [inside.length_input, scan_eq _ (Nat.le_refl _) room, scan_eq _ bound room]
  simp only [pure_bind]
  unfold State.input
  split
  · rfl
  · rfl

theorem parseLoop_eq {buf : List UInt8} {rounds i : Nat} (bound : i + rounds ≤ buf.length)
    (val : Int) :
    parseLoop buf rounds i val = pure (AsciiNumber.parseLoop ((buf.drop i).take rounds) val) := by
  induction rounds generalizing i val with
  | zero => rfl
  | succ rounds ih =>
      rw [parseLoop, loadByte_eq (by omega), pure_bind, ih (by omega),
        @List.drop_eq_getElem_cons _ i buf (by omega), List.take_succ_cons, AsciiNumber.parseLoop]

theorem parse_eq {maxLen : Nat} {st : State} (inside : st.Inside maxLen) {off off2 : Nat}
    (ordered : off < off2) (bound : off2 ≤ st.len) :
    parse st.buf off off2 = pure (AsciiNumber.signed st.input off off2) := by
  have room : st.len ≤ st.buf.length := inside.buf.symm ▸ inside.len
  have start : off < st.buf.length := by omega
  have digits : run st.input off off2 =
      st.buf[off] :: (st.buf.drop (off + 1)).take (off2 - (off + 1)) := by
    have rounds : off2 - off = off2 - (off + 1) + 1 := by omega
    unfold run State.input
    rw [List.drop_take, List.take_take, Nat.min_eq_left (by omega), rounds,
      List.drop_eq_getElem_cons start, List.take_succ_cons]
  unfold parse AsciiNumber.signed
  rw [loadByte_eq start, digits, pure_bind, parseLoop_eq (by omega), pure_bind]
  dsimp only [AsciiNumber.parse]
  by_cases first : off = 0
  · rw [if_neg (not_not.mpr first), if_neg fun both => both.1 first]
  · have previous : off - 1 < st.buf.length := by omega
    have before : st.input[off - 1]? = some st.buf[off - 1] := by
      unfold State.input
      rw [List.getElem?_take_of_lt (by omega), List.getElem?_eq_getElem previous]
    rw [if_pos first, loadByte_eq previous, pure_bind, before]
    simp only [Option.some.injEq, ne_eq, first, not_false_eq_true, true_and]

theorem decimal_length_pos (val : Int) : 0 < (decimal val).length := by
  unfold decimal
  rw [List.length_append, List.length_map]
  exact Nat.lt_of_lt_of_le Nat.length_toDigits_pos (Nat.le_add_left _ _)

/-- What is written over the digits from `off` on. -/
def newText (input : List UInt8) (off strat value : Nat) : List UInt8 :=
  snprintf 8 (decimal (change strat value (numberAt input off (runEnd input off))))

/-- The number that is drawn is longer than the one in its place by the room that is
left at most. -/
def NumberFits (maxLen : Nat) (st : State) (choices : List Nat) : Prop :=
  4 ≤ st.len →
  ∀ drawn rest, below st.len choices = .ok (drawn, rest) →
  ∀ off, AsciiNumber.locate st.input drawn = some off →
  ∀ strat rest', below 8 rest = .ok (strat, rest') →
  ∀ value rest'', stratValue strat rest' = .ok (value, rest'') →
    (newText st.input off strat value).length ≤ runEnd st.input off - off + (maxLen - st.len)

section

variable {crashes : Prop} {maxLen : Nat} {st : State}

theorem stratValue_returns (strat : Nat) : Returns crashes (fun _ => True) (stratValue strat) :=
  .ite (fun _ => .word) (fun _ => .pure trivial)

theorem asciinum_returns (u32s : maxLen < 0x100000000) (inside : st.Inside maxLen)
    {choices : List Nat} (fits : NumberFits maxLen st choices) :
    ReturnsOn choices crashes (Kept maxLen) (asciinum st) := by
  refine .ite (fun _ => Returns.on (.pure (kept_some inside)) _) fun long => ?_
  refine .bind (Returns.on (.below inside.nonempty) _) fun drawn rest isDrawn bound => ?_
  have room : st.len ≤ st.buf.length := inside.buf.symm ▸ inside.len
  rw [locate_eq inside (Nat.le_of_lt bound), pure_bind]
  cases located : AsciiNumber.locate st.input drawn with
  | none => exact Returns.on (.pure (kept_short inside)) _
  | some off =>
      have length := inside.length_input
      obtain ⟨there, digit⟩ := AsciiNumber.isDigit_of_locate (by omega) located
      obtain ⟨ordered, bound2, digits, _⟩ := AsciiNumber.run_digits there digit
      have runEnd_eq : scan AsciiNumber.isDigit st.buf st.len st.len (off + 1) = pure (runEnd st.input off) := by
        rw [scan_eq _ (Nat.le_refl _) room]
        unfold runEnd
        rw [length]
        rfl
      rw [length] at bound2
      dsimp only
      rw [runEnd_eq, pure_bind, parse_eq inside ordered bound2, pure_bind,
        AsciiNumber.signed_eq digits]
      refine .bind (Returns.on (.below (by decide)) _) fun strat rest' isStrat _ =>
        .bind (Returns.on (stratValue_returns strat) _) fun value rest'' isValue _ => ?_
      have size := fits (by omega) drawn rest isDrawn off located strat rest' isStrat value rest''
        isValue
      have some' : 0 < (newText st.input off strat value).length := by
        unfold newText snprintf
        have positive := decimal_length_pos
          (change strat value (numberAt st.input off (runEnd st.input off)))
        rw [List.length_take]
        omega
      unfold newText at size some'
      have len := inside.len
      refine Returns.on (.ite (fun same => ?_) fun differs => ?_) _
      · refine .bind (copy_returns (by omega) ?_) fun buf same => .pure (kept_some (inside.withBuf same))
        omega
      · exact .bind (replaceBlock_returns u32s inside (by omega) (by omega) (by omega) (by omega))
          fun after kept => .pure (kept_some kept)

/-- The number that is drawn does not end behind the last `u32`. -/
def DigitsFit (st : State) (choices : List Nat) : Prop :=
  ∀ drawn rest, below 8 choices = .ok (drawn, rest) →
  ∀ pos rest', below st.len rest = .ok (pos, rest') → pos + (1 + drawn) < 0x100000000

theorem insertasciinum_returns (inside : st.Inside maxLen) {choices : List Nat}
    (fits : DigitsFit st choices) :
    ReturnsOn choices crashes (Kept maxLen) (insertasciinum st) := by
  refine .bind (Returns.on (.below (by decide)) _) fun drawn rest isDrawn _ =>
    .bind (Returns.on (.below inside.nonempty) _) fun pos rest' isPos _ => ?_
  have small := fits drawn rest isDrawn pos rest' isPos
  rw [u32_of_lt small]
  refine Returns.on (.ite (fun _ => .pure (kept_short inside)) fun short => .bind .word
    fun val _ => ?_) _
  have buf := inside.buf
  have len := inside.len
  exact .bind (copy_returns (by omega) (by omega)) fun buf same =>
    .pure (kept_some (inside.withBuf same))

end

/-! ## Steps -/

/-- What a step relies on: room for the mutations that grow the input without a look at
`max_len`, and sums that do not wrap around where the others compare them. -/
def StepFits (afl : Afl) (args : Arguments) (st : State) (mutation : Mutation)
    (choices : List Nat) : Prop :=
  match mutation with
  | .cloneCopy | .cloneFixed | .spliceInsert => st.len + havocBlkXl < 0x100000000
  | .insertone => st.len < 2 ∨ st.len < args.maxLen
  | .asciinum => NumberFits args.maxLen st choices
  | .insertasciinum => DigitsFit st choices
  | .extraInsert => ExtraFits afl.extras st choices
  | .autoExtraInsert => ExtraFits afl.aExtras st choices
  | _ => True

section

variable {crashes : Prop} {afl : Afl} {args : Arguments} {st : State}

theorem once_returns {maxLen : Nat} {mutated : Draws State}
    (returns : Returns crashes (State.Inside maxLen) mutated) (choices : List Nat) :
    ReturnsOn choices crashes (Kept maxLen) (once mutated) :=
  Returns.on (.bind returns fun _ kept => .pure (kept_some kept)) choices

theorem mutate_returns (u32s : args.maxLen < 0x100000000) (inside : st.Inside args.maxLen)
    {mutation : Mutation} {choices : List Nat} (fits : StepFits afl args st mutation choices) :
    ReturnsOn choices crashes (Kept args.maxLen) (mutate afl args mutation st) := by
  cases mutation with
  | flipbit => exact once_returns (flipbit_returns inside) _
  | interesting8 => exact once_returns (interesting8_returns inside) _
  | interesting16 | interesting16be | interesting32 | interesting32be =>
      exact once_returns (interesting_returns inside (by decide) (by decide) _) _
  | arith8Sub | arith8 => exact once_returns (arith8_returns inside _) _
  | arith16Sub | arith16beSub | arith16 | arith16be | arith32Sub | arith32beSub | arith32
  | arith32be => exact once_returns (arith_returns inside (by decide) _ _) _
  | rand8 => exact once_returns (rand8_returns inside) _
  | cloneCopy => exact Returns.on (cloneCopy_returns u32s afl rfl inside fits) _
  | cloneFixed => exact Returns.on (cloneFixed_returns u32s afl rfl inside fits) _
  | overwriteCopy => exact once_returns (overwriteCopy_returns afl inside) _
  | overwriteFixed => exact once_returns (overwriteFixed_returns afl inside) _
  | byteadd | bytesub | flip8 => exact once_returns (bytewise_returns inside _) _
  | switch => exact once_returns (switch_returns afl inside) _
  | del => exact once_returns (del_returns afl inside) _
  | shuffle => exact once_returns (shuffle_returns afl inside) _
  | delone => exact once_returns (delone_returns inside) _
  | insertone => exact once_returns (insertone_returns u32s inside fits) _
  | asciinum => exact asciinum_returns u32s inside fits
  | insertasciinum => exact insertasciinum_returns inside fits
  | extraOverwrite => exact Returns.on (extraOverwrite_returns afl.extras inside) _
  | extraInsert => exact extraInsert_returns u32s rfl inside fits
  | autoExtraOverwrite => exact Returns.on (extraOverwrite_returns afl.aExtras inside) _
  | autoExtraInsert => exact extraInsert_returns u32s rfl inside fits
  | spliceOverwrite => exact Returns.on (spliceOverwrite_returns afl args inside) _
  | spliceInsert => exact Returns.on (spliceInsert_returns u32s afl rfl inside fits) _

/-! ## Runs -/

theorem mutationArray_length (args : Arguments) :
    (mutationArray args).length = mutStrategyArraySize := by
  unfold mutationArray
  split <;> split <;> decide +kernel

/-- Every step of a run finds what it relies on. -/
def RunFits (afl : Afl) (args : Arguments) : Nat → Nat → State → List Nat → Prop
  | passes + 1, steps + 1, st, choices =>
    ∀ r rest mutation, below mutStrategyArraySize choices = .ok (r, rest) →
      (mutationArray args)[r]? = some mutation →
      StepFits afl args st mutation rest ∧
      ∀ mutated rest', mutate afl args mutation st rest = .ok (mutated, rest') →
        match mutated with
        | some after => RunFits afl args passes steps after rest'
        | none => RunFits afl args passes (steps + 1) st rest'
  | _, _, _, _ => True

theorem havoc_returns (u32s : args.maxLen < 0x100000000) {passes steps : Nat} {choices : List Nat}
    (inside : st.Inside args.maxLen) (fits : RunFits afl args passes steps st choices) :
    ReturnsOn choices crashes (State.Inside args.maxLen) (havoc afl args passes steps st) := by
  induction passes generalizing steps st choices with
  | zero =>
      cases steps with
      | zero => exact Returns.on (.pure inside) _
      | succ steps => exact fun crashed => nomatch crashed
  | succ passes ih =>
      cases steps with
      | zero => exact Returns.on (.pure inside) _
      | succ steps =>
          refine .bind (Returns.on (.below (by decide)) _) fun r rest isDrawn bound => ?_
          rw [← mutationArray_length args] at bound
          rw [List.getElem?_eq_getElem bound]
          obtain ⟨step, run⟩ := fits r rest _ isDrawn (List.getElem?_eq_getElem bound)
          change ReturnsOn rest crashes _ (mutate afl args (mutationArray args)[r] st >>= _)
          refine .bind (mutate_returns u32s inside step) fun mutated rest' isMutated kept => ?_
          have later := run mutated rest' isMutated
          cases mutated with
          | some after => exact ih (kept after rfl) later
          | none => exact ih inside later

theorem length_growTmpBuf {fresh : Option (Nat → UInt8)} {tmpBuf grown : List UInt8} {maxLen : Nat}
    (isGrown : growTmpBuf fresh tmpBuf maxLen = some grown) : maxLen ≤ grown.length := by
  unfold growTmpBuf at isGrown
  split at isGrown
  · obtain ⟨content, -, rfl⟩ := Option.map_eq_some_iff.mp isGrown
    rw [List.length_append, List.length_map, List.length_range]
    omega
  · cases isGrown
    omega

/-- A call whose steps fit makes no access outside of its buffers, and a length that it
returns is in range. -/
theorem aflMutate_inside {fresh : Option (Nat → UInt8)} {passes steps : Nat} {choices : List Nat}
    {tmpBuf : List UInt8} (u32s : args.maxLen < 0x100000000) (capacity : st.buf.length = args.maxLen)
    (nonempty : 1 ≤ st.len) (len : st.len ≤ args.maxLen)
    (grown : growTmpBuf fresh st.tmpBuf args.maxLen = some tmpBuf)
    (fits : RunFits afl args passes steps { st with tmpBuf } choices) :
    aflMutate afl args fresh passes steps st choices ≠ .error .crashed ∧
      ∀ after rest, aflMutate afl args fresh passes steps st choices = .ok (after, rest) →
        1 ≤ after.len ∧ after.len ≤ args.maxLen := by
  have inside : ({ st with tmpBuf } : State).Inside args.maxLen :=
    ⟨capacity, length_growTmpBuf grown, nonempty, len⟩
  have returned := @havoc_returns False afl args _ u32s passes steps choices inside fits
  unfold aflMutate
  rw [if_neg (Nat.ne_of_gt nonempty), grown]
  unfold ReturnsOn at returned
  constructor
  · intro crashed
    rw [show havoc afl args passes steps { st with tmpBuf } choices = .error .crashed from crashed]
      at returned
    exact returned rfl
  · intro after rest result
    rw [show havoc afl args passes steps { st with tmpBuf } choices = .ok (after, rest) from result]
      at returned
    exact ⟨returned.nonempty, returned.len⟩

end

/-- In a buffer of three bytes one is inserted into two. -/
theorem aflMutate_inside_insertone :
    aflMutate ⟨0, false, [], []⟩ ⟨false, true, [], 3⟩ (some fun _ => 0) 1 1 ⟨[0x41, 0x42, 0], [], 2⟩
        [194, 1, 0] ≠ .error .crashed ∧
      ∀ after rest, aflMutate ⟨0, false, [], []⟩ ⟨false, true, [], 3⟩ (some fun _ => 0) 1 1
          ⟨[0x41, 0x42, 0], [], 2⟩ [194, 1, 0] = .ok (after, rest) →
        1 ≤ after.len ∧ after.len ≤ 3 := by
  refine @aflMutate_inside ⟨0, false, [], []⟩ ⟨false, true, [], 3⟩ ⟨[0x41, 0x42, 0], [], 2⟩
    (some fun _ => 0) 1 1 [194, 1, 0] [0, 0, 0] (by decide) rfl (by decide) (by decide) rfl ?_
  rintro r rest mutation ⟨⟩ found
  obtain rfl : Mutation.insertone = mutation := Option.some.inj found
  refine ⟨.inr (by decide), fun mutated rest' _ => ?_⟩
  cases mutated <;> trivial

/-- With all of the buffer in use, the byte that is inserted ends up behind it. -/
theorem aflMutate_outside :
    [0x41, 0x42].length = 2 ∧
      aflMutate ⟨0, false, [], []⟩ ⟨false, true, [], 2⟩ (some fun _ => 0) 1 1 ⟨[0x41, 0x42], [], 2⟩
        [194, 1, 0] = .error .crashed :=
  ⟨rfl, rfl⟩

end SbFuzz.Fuzzer.AflMutate
