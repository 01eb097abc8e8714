import Mathlib.Data.Nat.Basic
import Mathlib.Tactic.Ring

/-! The data source of the sandbox fuzzer: a cursor over the fuzzer's input that
delivers byte vectors with a size word in front of each. -/

set_option autoImplicit false

namespace SbFuzz.SandboxFuzzer

/-- A `Datasource`. `data` is the memory from its pointer on; the buffer is the
first `size` bytes of it. -/
structure Datasource where
  data : Nat → UInt8
  size : UInt64
  idx : UInt64
  left : UInt64
  isEnded : Bool

def Datasource.opened (data : Nat → UInt8) (size : UInt64) : Datasource :=
  { data, size, idx := 0, left := size, isEnded := size < 4 }

/-- The arguments `min` and `max` of `get`. -/
structure Call where
  min : UInt64
  max : UInt64
deriving DecidableEq, Repr

/-- The bytes that one `memcpy` takes from `data`. -/
structure Range where
  offset : Nat
  length : Nat
deriving DecidableEq, Repr

/-- A `get` either returns or throws `OutOfData`. -/
inductive Result where
  | returned (v : List UInt8)
  | outOfData
deriving DecidableEq, Repr

/-- What a `get` comes to, with the ranges of `data` that it has read. -/
structure Outcome where
  source : Datasource
  result : Result
  reads : List Range

def bytesAt (data : Nat → UInt8) (offset length : Nat) : List UInt8 :=
  (List.range length).map fun i => data (offset + i)

/-- The four bytes at an offset as a little-endian `uint32_t`. -/
def sizeWord (data : Nat → UInt8) (offset : Nat) : UInt32 :=
  (bytesAt data offset 4).foldr (fun byte word => word <<< 8 ||| byte.toUInt32) 0

/-- The adjustment of `getSize`; `max` 0 sets no limit. -/
def Call.clamp (call : Call) (getSize : UInt32) : UInt32 :=
  let atLeast := if getSize.toUInt64 < call.min then call.min.toUInt32 else getSize
  if call.max ≠ 0 ∧ atLeast.toUInt64 > call.max then call.max.toUInt32 else atLeast

/-- What `get` returns when the source has ended. -/
def filler : List UInt8 := [8, 4, 5, 9, 8, 4, 5, 9]

section

-- whether `FUZZING_HEADERS_IMPL` is defined; nothing in the repository does so
variable (headersImpl : Bool)

def Datasource.get (source : Datasource) (call : Call) : Outcome :=
  if source.left < 4 then
    { source := { source with isEnded := true }, result := .returned filler, reads := [] }
  else
    let header : Range := ⟨source.idx.toNat, 4⟩
    let getSize := call.clamp (sizeWord source.data source.idx.toNat)
    let source := { source with idx := source.idx + 4, left := source.left - 4 }
    if headersImpl ∧ source.left < getSize.toUInt64 then
      { source, result := .outOfData, reads := [header] }
    else
      { source :=
          { source with
            idx := source.idx + getSize.toUInt64
            left := source.left - getSize.toUInt64 }
        result := .returned (bytesAt source.data source.idx.toNat getSize.toNat)
        reads := header :: if getSize > 0 then [⟨source.idx.toNat, getSize.toNat⟩] else [] }

/-- `Base::Get<T>` for a `T` of this size. Without a value the copy from the
returned vector has read behind it. -/
def Datasource.getTyped (source : Datasource) (size : UInt64) :
    Datasource × Except Result (Option (List UInt8)) :=
  let outcome := source.get headersImpl ⟨size, size⟩
  (outcome.source,
    match outcome.result with
    | .outOfData => .error .outOfData
    | .returned v => .ok (if size.toNat ≤ v.length then some (v.take size.toNat) else none))

end

/-! Which bytes the data source reads in a run of calls, what its counters come
to, and how long the vectors are that it returns. -/

/-! ## Sizes -/

theorem toNat_toUInt64 (word : UInt32) : word.toUInt64.toNat = word.toNat := rfl

theorem Call.clamp_le (call : Call) (limited : call.max ≠ 0) (getSize : UInt32) :
    (call.clamp getSize).toNat ≤ call.max.toNat := by
  unfold Call.clamp
  simp only
  generalize (if getSize.toUInt64 < call.min then call.min.toUInt32 else getSize) = atLeast
  split
  · exact (UInt64.toNat_toUInt32 _).trans_le (Nat.mod_le _ _)
  · next notAbove =>
    have within : ¬ atLeast.toUInt64 > call.max := fun above => notAbove ⟨limited, above⟩
    exact UInt64.le_iff_toNat_le.mp (UInt64.not_lt.mp within)

theorem Call.clamp_ge {call : Call} (ordered : call.min ≤ call.max)
    (small : call.min.toNat < 2 ^ 32) (getSize : UInt32) :
    call.min.toNat ≤ (call.clamp getSize).toNat := by
  have atLeast : call.min.toNat ≤
      (if getSize.toUInt64 < call.min then call.min.toUInt32 else getSize).toNat := by
    split
    · rw [UInt64.toNat_toUInt32, Nat.mod_eq_of_lt small]
    · next notBelow => exact UInt64.le_iff_toNat_le.mp (UInt64.not_lt.mp notBelow)
  unfold Call.clamp
  simp only
  generalize (if getSize.toUInt64 < call.min then call.min.toUInt32 else getSize) = size at atLeast
  split
  · next above =>
    have shorter : call.max.toNat < size.toNat := UInt64.lt_iff_toNat_lt.mp above.2
    rw [UInt64.toNat_toUInt32, Nat.mod_eq_of_lt (shorter.trans size.toNat_lt)]
    exact UInt64.le_iff_toNat_le.mp ordered
  · exact atLeast

@[simp] theorem bytesAt_length (data : Nat → UInt8) (offset length : Nat) :
    (bytesAt data offset length).length = length := by simp [bytesAt]

/-! ## One call -/

section

variable {headersImpl : Bool} {source : Datasource} {call : Call}

/-- The size of the vector that a call asks for. -/
def Datasource.wanted (source : Datasource) (call : Call) : UInt32 :=
  call.clamp (sizeWord source.data source.idx.toNat)

/-- The size word and the vector behind it are there. -/
structure Servable (source : Datasource) (call : Call) : Prop where
  header : 4 ≤ source.left.toNat
  vector : 4 + (source.wanted call).toNat ≤ source.left.toNat

/-- The cursor and the rest make up the buffer. -/
def Datasource.Consistent (source : Datasource) : Prop :=
  source.idx.toNat + source.left.toNat = source.size.toNat

inductive GetOutcome (headersImpl : Bool) (source : Datasource) (call : Call) : Prop where
  | ended : source.left.toNat < 4 →
      source.get headersImpl call = ⟨{ source with isEnded := true }, .returned filler, []⟩ →
      GetOutcome headersImpl source call
  | thrown : 4 ≤ source.left.toNat → headersImpl = true → ¬ Servable source call →
      source.get headersImpl call =
        ⟨{ source with idx := source.idx + 4, left := source.left - 4 }, .outOfData,
          [⟨source.idx.toNat, 4⟩]⟩ →
      GetOutcome headersImpl source call
  | returned : 4 ≤ source.left.toNat → (headersImpl = true → Servable source call) →
      source.get headersImpl call =
        ⟨{ source with
            idx := source.idx + 4 + (source.wanted call).toUInt64
            left := source.left - 4 - (source.wanted call).toUInt64 },
          .returned (bytesAt source.data (source.idx + 4).toNat (source.wanted call).toNat),
          ⟨source.idx.toNat, 4⟩ ::
            if source.wanted call > 0 then
              [⟨(source.idx + 4).toNat, (source.wanted call).toNat⟩]
            else []⟩ →
      GetOutcome headersImpl source call

theorem sub_four_toNat {word : UInt64} (header : 4 ≤ word.toNat) :
    (word - 4).toNat = word.toNat - 4 :=
  UInt64.toNat_sub_of_le _ _ (UInt64.le_iff_toNat_le.mpr header)

theorem servable_iff_left (header : 4 ≤ source.left.toNat) :
    Servable source call ↔ ¬ source.left - 4 < (source.wanted call).toUInt64 := by
  rw [UInt64.not_lt, UInt64.le_iff_toNat_le, sub_four_toNat header, toNat_toUInt64,
    Nat.le_sub_iff_add_le' header]
  exact ⟨Servable.vector, fun vector => ⟨header, vector⟩⟩

theorem Datasource.get_outcome (headersImpl : Bool) (source : Datasource) (call : Call) :
    GetOutcome headersImpl source call := by
  by_cases few : source.left < 4
  · exact .ended (UInt64.lt_iff_toNat_lt.mp few) (if_pos few)
  · have header : 4 ≤ source.left.toNat := UInt64.le_iff_toNat_le.mp (UInt64.not_lt.mp few)
    by_cases thrown : headersImpl = true ∧ source.left - 4 < (source.wanted call).toUInt64
    · refine .thrown header thrown.1 (fun servable => (servable_iff_left header).mp servable thrown.2) ?_
      unfold Datasource.get
      rw [if_neg few]
      exact if_pos thrown
    · refine .returned header (fun defined => (servable_iff_left header).mpr fun more =>
        thrown ⟨defined, more⟩) ?_
      unfold Datasource.get
      rw [if_neg few]
      exact if_neg thrown

/-! ## Lengths -/

/-- The lengths that callers of `get` may rely on. -/
structure Delivers (headersImpl : Bool) (source : Datasource) : Prop where
  length : 4 ≤ source.left.toNat → ∀ call v, call.min ≤ call.max → call.min.toNat < 2 ^ 32 →
    (source.get headersImpl call).result = .returned v →
      call.min.toNat ≤ v.length ∧ (call.max ≠ 0 → v.length ≤ call.max.toNat)
  ended : source.left.toNat < 4 → ∀ call v,
    (source.get headersImpl call).result = .returned v → v.length = 8
  typed : ∀ size : UInt64, size.toNat < 2 ^ 32 → 4 ≤ source.left.toNat ∨ size.toNat ≤ 8 →
    (source.getTyped headersImpl size).2 ≠ .ok none

theorem get_length (header : 4 ≤ source.left.toNat) {v : List UInt8}
    (ordered : call.min ≤ call.max) (small : call.min.toNat < 2 ^ 32)
    (returned : (source.get headersImpl call).result = .returned v) :
    call.min.toNat ≤ v.length ∧ (call.max ≠ 0 → v.length ≤ call.max.toNat) := by
  cases source.get_outcome headersImpl call with
  | ended few _ => exact absurd header (Nat.not_le.mpr few)
  | thrown _ _ _ outcome =>
      rw [outcome] at returned
      cases returned
  | returned _ _ outcome =>
      rw [outcome] at returned
      cases returned
      rw [bytesAt_length]
      exact ⟨Call.clamp_ge ordered small _, fun limited => Call.clamp_le call limited _⟩

theorem get_ended (few : source.left.toNat < 4) :
    (source.get headersImpl call).result = .returned filler := by
  have ends : source.left < 4 := UInt64.lt_iff_toNat_lt.mpr few
  simp only [Datasource.get, if_pos ends]

theorem getTyped_inBounds {size : UInt64}
    (long : ∀ v, (source.get headersImpl ⟨size, size⟩).result = .returned v →
      size.toNat ≤ v.length) : (source.getTyped headersImpl size).2 ≠ .ok none := by
  unfold Datasource.getTyped
  simp only
  cases result : (source.get headersImpl ⟨size, size⟩).result with
  | outOfData => exact nofun
  | returned v =>
      simp only [if_pos (long v result)]
      exact nofun

/-- The vectors are as long as asked for, but for the filler at the end. -/
theorem get_delivers (headersImpl : Bool) (source : Datasource) :
    Delivers headersImpl source where
  length := fun header _ _ ordered small returned => get_length header ordered small returned
  ended := by
    intro few call v returned
    rw [get_ended few] at returned
    exact congrArg List.length (Result.returned.inj returned).symm
  typed := by
    rintro size small (header | short)
    · exact getTyped_inBounds fun v returned =>
        (get_length header (UInt64.le_refl _) small returned).1
    · by_cases header : 4 ≤ source.left.toNat
      · exact getTyped_inBounds fun v returned =>
          (get_length header (UInt64.le_refl _) small returned).1
      · refine getTyped_inBounds fun v returned => ?_
        rw [get_ended (Nat.not_le.mp header)] at returned
        exact Result.returned.inj returned ▸ short

/-- At the end of the data eight bytes are returned for a size of 16. -/
theorem get_filler_short : ¬ ∀ (headersImpl : Bool) (source : Datasource) (call : Call)
    (v : List UInt8), call.min ≤ call.max →
    (source.get headersImpl call).result = .returned v →
      call.min.toNat ≤ v.length ∧ v.length ≤ call.max.toNat := by
  intro claim
  have lengths := claim false (.opened (fun _ => 0) 0) ⟨16, 16⟩ filler (by decide) rfl
  exact absurd lengths.1 (by decide)

/-! ## Runs -/

/-- The bytes that are read are in the buffer, the counters make it up, and a
call that cannot be served ends the source or throws without moving it. -/
structure SafeGet (headersImpl : Bool) (source : Datasource) (call : Call) : Prop where
  inside : ∀ read ∈ (source.get headersImpl call).reads,
    read.offset + read.length ≤ source.size.toNat
  consistent : (source.get headersImpl call).source.Consistent
  refused : ¬ Servable source call →
    ((source.get headersImpl call).result = .outOfData ∨
      (source.get headersImpl call).source.isEnded = true) ∧
    (source.get headersImpl call).source.idx = source.idx ∧
    (source.get headersImpl call).source.left = source.left

/-- Every call of a run is safe. -/
def SafeRun (headersImpl : Bool) : Datasource → List Call → Prop
  | _, [] => True
  | source, call :: calls =>
      SafeGet headersImpl source call ∧
        SafeRun headersImpl (source.get headersImpl call).source calls

/-- From a position on, each call finds fewer than four bytes or a vector that
is there. -/
def VectorsFit (data : Nat → UInt8) (size : Nat) : Nat → List Call → Prop
  | _, [] => True
  | position, call :: calls =>
      if size < position + 4 then VectorsFit data size position calls
      else
        position + 4 + (call.clamp (sizeWord data position)).toNat ≤ size ∧
          VectorsFit data size (position + 4 + (call.clamp (sizeWord data position)).toNat) calls

/-- A source that has come to a position of its buffer. -/
structure At (data : Nat → UInt8) (size position : Nat) (source : Datasource) : Prop where
  memory : source.data = data
  bound : source.size.toNat = size
  cursor : source.idx.toNat = position
  rest : position + source.left.toNat = size

variable {data : Nat → UInt8} {size position : Nat}

theorem At.few (located : At data size position source) :
    source.left.toNat < 4 ↔ size < position + 4 := by
  rw [← located.rest]
  exact (Nat.add_lt_add_iff_left).symm

theorem At.wanted (located : At data size position source) :
    source.wanted call = call.clamp (sizeWord data position) := by
  rw [Datasource.wanted, located.memory, located.cursor]

theorem At.servable_iff (located : At data size position source)
    (header : 4 ≤ source.left.toNat) : Servable source call ↔
      position + 4 + (call.clamp (sizeWord data position)).toNat ≤ size := by
  rw [← located.rest, Nat.add_assoc, Nat.add_le_add_iff_left, ← located.wanted]
  exact ⟨Servable.vector, fun vector => ⟨header, vector⟩⟩

theorem idx_add_toNat {idx : UInt64} {size : Nat} (word : size < 2 ^ 64) {offset : UInt64}
    (within : idx.toNat + offset.toNat ≤ size) :
    (idx + offset).toNat = idx.toNat + offset.toNat := by
  rw [UInt64.toNat_add, Nat.mod_eq_of_lt (Nat.lt_of_le_of_lt within word)]

theorem At.word (located : At data size position source) : size < 2 ^ 64 :=
  located.bound ▸ source.size.toNat_lt

theorem At.header_toNat (located : At data size position source)
    (header : 4 ≤ source.left.toNat) : (source.idx + 4).toNat = position + 4 := by
  rw [← located.cursor]
  refine idx_add_toNat located.word ?_
  rw [located.cursor, ← located.rest]
  exact Nat.add_le_add_left header position

/-- A call that is served moves the source behind its vector. -/
theorem At.served (located : At data size position source) (servable : Servable source call) :
    At data size (position + 4 + (call.clamp (sizeWord data position)).toNat)
      { source with
        idx := source.idx + 4 + (source.wanted call).toUInt64
        left := source.left - 4 - (source.wanted call).toUInt64 } := by
  have fits := (located.servable_iff servable.header).mp servable
  have notLess := (servable_iff_left servable.header).mp servable
  refine ⟨located.memory, located.bound, ?_, ?_⟩
  · have header := located.header_toNat servable.header
    rw [← located.wanted] at fits ⊢
    rw [idx_add_toNat located.word (by rw [header]; exact fits), header, toNat_toUInt64]
  · have rest : (source.left - 4 - (source.wanted call).toUInt64).toNat =
        source.left.toNat - (4 + (source.wanted call).toNat) := by
      rw [UInt64.toNat_sub_of_le _ _ (UInt64.not_lt.mp notLess), sub_four_toNat servable.header,
        toNat_toUInt64, Nat.sub_sub]
    change _ + (source.left - 4 - (source.wanted call).toUInt64).toNat = size
    rw [rest, ← located.wanted, ← located.rest, Nat.add_assoc position]
    have vector := servable.vector
    rw [Nat.add_assoc, Nat.add_sub_cancel' vector]

theorem At.consistent (located : At data size position source) : source.Consistent := by
  rw [Datasource.Consistent, located.cursor, located.bound]
  exact located.rest

/-- What a call leaves behind when the source has ended or the call is served. -/
theorem At.get (located : At data size position source) :
    (size < position + 4 → SafeGet headersImpl source call ∧
      At data size position (source.get headersImpl call).source) ∧
    (position + 4 + (call.clamp (sizeWord data position)).toNat ≤ size →
      SafeGet headersImpl source call ∧
        At data size (position + 4 + (call.clamp (sizeWord data position)).toNat)
          (source.get headersImpl call).source) := by
  constructor
  · intro few
    have ends : source.left < 4 := UInt64.lt_iff_toNat_lt.mpr (located.few.mpr few)
    have outcome : source.get headersImpl call =
      ⟨{ source with isEnded := true }, .returned filler, []⟩ := if_pos ends
    have same : At data size position { source with isEnded := true } :=
      ⟨located.memory, located.bound, located.cursor, located.rest⟩
    rw [outcome]
    exact ⟨⟨outcome ▸ nofun, outcome ▸ same.consistent,
      fun _ => outcome ▸ ⟨.inr rfl, rfl, rfl⟩⟩, same⟩
  · intro fits
    have header : 4 ≤ source.left.toNat := Nat.not_lt.mp fun few =>
      absurd (located.few.mp few) (Nat.not_lt.mpr ((Nat.le_add_right _ _).trans fits))
    have servable := (located.servable_iff header).mpr fits
    cases source.get_outcome headersImpl call with
    | ended few _ => exact absurd few (Nat.not_lt.mpr header)
    | thrown _ _ refused _ => exact absurd servable refused
    | returned _ _ outcome =>
        have moved := located.served servable
        rw [outcome]
        refine ⟨⟨outcome ▸ ?_, outcome ▸ moved.consistent, fun refused => absurd servable refused⟩,
          moved⟩
        have behind := located.header_toNat header
        intro read member
        rw [located.bound]
        rcases List.mem_cons.mp member with rfl | payload
        · change source.idx.toNat + 4 ≤ size
          rw [located.cursor]
          exact (Nat.le_add_right _ _).trans fits
        · split at payload
          · rw [List.mem_singleton.mp payload]
            change (source.idx + 4).toNat + (source.wanted call).toNat ≤ size
            rw [behind, located.wanted]
            exact fits
          · cases payload

/-- A vector that is not there is read all the same, or the size word is lost. -/
theorem At.unsafe (located : At data size position source) (header : ¬ size < position + 4)
    (long : ¬ position + 4 + (call.clamp (sizeWord data position)).toNat ≤ size) :
    ¬ SafeGet headersImpl source call := by
  intro safe
  have enough : 4 ≤ source.left.toNat := Nat.not_lt.mp fun few => header (located.few.mp few)
  have refused : ¬ Servable source call := fun servable =>
    long ((located.servable_iff enough).mp servable)
  cases source.get_outcome headersImpl call with
  | ended few _ => exact header (located.few.mp few)
  | thrown _ _ _ outcome =>
      have kept := (safe.refused refused).2.2
      rw [outcome] at kept
      have lost := congrArg UInt64.toNat kept
      rw [sub_four_toNat enough] at lost
      exact absurd lost (Nat.ne_of_lt (Nat.sub_lt (Nat.lt_of_lt_of_le (by decide) enough)
        (by decide)))
  | returned _ _ outcome =>
      have positive : source.wanted call > 0 := by
        rw [gt_iff_lt, UInt32.lt_iff_toNat_lt, located.wanted]
        refine Nat.pos_of_ne_zero fun zero => long ?_
        rw [zero]
        exact Nat.not_lt.mp header
      have inside := safe.inside ⟨(source.idx + 4).toNat, (source.wanted call).toNat⟩ (by
        rw [outcome]
        exact List.mem_cons_of_mem _ (by rw [if_pos positive]; exact List.mem_singleton_self _))
      rw [located.bound] at inside
      change (source.idx + 4).toNat + (source.wanted call).toNat ≤ size at inside
      rw [located.header_toNat enough, located.wanted] at inside
      exact long inside

theorem safeRun_iff (located : At data size position source) (calls : List Call) :
    SafeRun headersImpl source calls ↔ VectorsFit data size position calls := by
  induction calls generalizing source position with
  | nil => exact Iff.rfl
  | cons call calls ih =>
      unfold SafeRun VectorsFit
      split
      · next few =>
        obtain ⟨safe, same⟩ := located.get.1 few
        rw [and_iff_right safe]
        exact ih same
      · next header =>
        by_cases fits : position + 4 + (call.clamp (sizeWord data position)).toNat ≤ size
        · obtain ⟨safe, moved⟩ := located.get.2 fits
          rw [and_iff_right safe, and_iff_right fits]
          exact ih moved
        · exact iff_of_false (fun safe => located.unsafe header fits safe.1) fun all => fits all.1

end

theorem opened_at (data : Nat → UInt8) (size : UInt64) :
    At data size.toNat 0 (.opened data size) := ⟨rfl, rfl, rfl, Nat.zero_add _⟩

/-- A run stays within its buffer exactly if every vector it asks for is there. -/
theorem getRun_safe_iff (headersImpl : Bool) (data : Nat → UInt8) (size : UInt64)
    (calls : List Call) :
    SafeRun headersImpl (.opened data size) calls ↔ VectorsFit data size.toNat 0 calls :=
  safeRun_iff (opened_at data size) calls

/-- After a size word at the very end, a byte behind the buffer is read. -/
theorem getRun_reads_behind : ¬ ∀ headersImpl data size calls,
    SafeRun headersImpl (.opened data size) calls := by
  intro claim
  have safe := (claim false (fun _ => 0) 4 [⟨1, 1⟩]).1
  exact absurd (safe.inside ⟨4, 1⟩ (by decide)) (by decide)

end SbFuzz.SandboxFuzzer
