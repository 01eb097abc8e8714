import SbFuzz.CustomMutators.AutotokensFuzzProperties

/-! `afl_custom_fuzz` of `autotokens` in the machine words of the source, with `m_size` beside the
vector. It stops where an access leaves a vector, and where a limit of `rand_below` wraps around. -/

set_option autoImplicit false

namespace SbFuzz.CustomMutators.Autotokens.Machine

open SbFuzz.Fuzzer SbFuzz.Systems SbFuzz.Systems.Draws

/-! ## Words -/

/-- A difference that may not wrap around. -/
def minus (a b : UInt32) : Draws UInt32 := if b ≤ a then pure (a - b) else stop .crashed

/-- `m_size + 1`, where it may not wrap around. -/
def successor (a : UInt32) : Draws UInt32 :=
  if a < 0xffffffff then pure (a + 1) else stop .crashed

def minimum (a b : UInt32) : UInt32 := if a < b then a else b

def maximum (a b : UInt32) : UInt32 := if a > b then a else b

def randBelow (limit : UInt32) : Draws UInt32 := do
  let drawn ← below limit.toNat
  return UInt32.ofNat drawn

/-- A loop over `rand_below`, whose test may read outside of a vector. -/
def drawUntil (limit : UInt32) (accept : UInt32 → Option Bool) : Draws UInt32
  | [] => .error .outOfChoices
  | choice :: choices =>
      let drawn := UInt32.ofNat (if limit.toNat ≤ 1 then 0 else choice % limit.toNat)
      match accept drawn with
      | none => .error .crashed
      | some true => .ok (drawn, choices)
      | some false => drawUntil limit accept choices

/-! ## Vectors -/

def store (items : List Nat) (pos : UInt32) (item : Nat) : Option (List Nat) :=
  if pos.toNat < items.length then some (items.set pos.toNat item) else none

def insertAt (items : List Nat) (pos : UInt32) (inserted : List Nat) : Option (List Nat) :=
  if pos.toNat ≤ items.length then
    some (items.take pos.toNat ++ inserted ++ items.drop pos.toNat)
  else none

def eraseAt (items : List Nat) (pos : UInt32) : Option (List Nat) :=
  if pos.toNat < items.length then some (items.eraseIdx pos.toNat) else none

/-- The items from `off` up to `off + n`. -/
def range (items : List Nat) (off n : UInt32) : Option (List Nat) :=
  if off.toNat + n.toNat ≤ items.length then some ((items.drop off.toNat).take n.toNat) else none

def copyTo (items : List Nat) (off : UInt32) (copied : List Nat) : Option (List Nat) :=
  if off.toNat + copied.length ≤ items.length then
    some (items.take off.toNat ++ copied ++ items.drop (off.toNat + copied.length))
  else none

/-! ## Mutations -/

/-- The variables of the loop over the rounds. -/
structure Mutated where
  m : List Nat
  mSize : UInt32
  maxRand : UInt32

def sizeMin : UInt32 := 8

def spliceMin : UInt32 := 4

def spliceMax : UInt32 := 64

def changeItem (state : State) (v : Mutated) : Draws Mutated := do
  let pos ← randBelow v.mSize
  let curItem ← fetch v.m[pos.toNat]?
  let newItem ← belowUntil state.table.currentId fun newItem => !drawsAgain curItem newItem
  let m ← fetch (store v.m pos newItem)
  return { v with m := m }

def insertWhitespace (state : State) (v : Mutated) : Draws Mutated := do
  let newItem ← belowUntil state.table.currentId (· < whitespaceIds)
  let limit ← successor v.mSize
  let pos ← randBelow limit
  let m ← fetch (insertAt v.m pos [newItem])
  return { v with m := m, mSize := v.mSize + 1 }

def splice (state : State) (v : Mutated) : Draws Mutated := do
  let strategy ← randBelow 4
  let index ← below state.validStructures
  let src ← fetch (state.idMapping index)
  let srcSize := UInt32.ofNat src.items.length
  let srcOff ← randBelow (← minus srcSize spliceMin)
  let randR := 1 + maximum spliceMin (minimum spliceMax (← minus srcSize srcOff))
  if strategy = 0 then
    let dstOff ← randBelow v.mSize
    let extra ← randBelow (minimum spliceMax (← minus randR spliceMin))
    let n := spliceMin + extra
    let items ← fetch (range src.items srcOff n)
    let m ← fetch (insertAt v.m dstOff items)
    return { v with m := m, mSize := v.mSize + n }
  else
    let dstOff ← randBelow (← minus v.mSize spliceMin)
    let extra ← randBelow (minimum (spliceMax - spliceMin)
      (minimum (← minus (← minus v.mSize dstOff) spliceMin)
        (← minus (← minus srcSize srcOff) spliceMin)))
    let n := spliceMin + extra
    let items ← fetch (range src.items srcOff n)
    let m ← fetch (copyTo v.m dstOff items)
    return { v with m := m }

def eraseItem (v : Mutated) : Draws Mutated :=
  if v.mSize > sizeMin then do
    let pos ← drawUntil v.mSize fun pos => v.m[pos.toNat]?.map fun item => whitespaceIds ≤ item
    let m ← fetch (eraseAt v.m pos)
    return { v with m := m, mSize := v.mSize - 1 }
  else do
    let maxRand ← minus v.maxRand 4
    return { v with maxRand := maxRand }

def mutate (state : State) (v : Mutated) : Draws Mutated := do
  let choice ← randBelow v.maxRand
  if choice ≤ 9 then changeItem state v
  else if choice ≤ 13 then insertWhitespace state v
  else if choice ≤ 22 then splice state v
  else eraseItem v

def mutateLoop (state : State) (v : Mutated) : Nat → Draws Mutated
  | 0 => pure v
  | rounds + 1 => do
      let v ← mutate state v
      mutateLoop state v rounds

/-- The copy of the structure that is changed. -/
def copy (s : List Nat) : Mutated := ⟨s, UInt32.ofNat s.length, 27⟩

/-- The loop over the items up to `m_size` that creates the output. -/
def createOutput (state : State) (maxSize : Nat) (m : List Nat) (mSize : UInt32) :
    Draws (List UInt8 × Nat) := do
  let items ← fetch (range m 0 mSize)
  let pieces ← outputLoop state 1 true items
  let output := state.table.textOf pieces
  return (output, min (u32 output.length) maxSize)

def aflCustomFuzz (config : Config) (cycles : Nat) (state : State) (maxSize : Nat) :
    Draws (Option (List UInt8 × Nat)) :=
  match state.s with
  | none => pure none
  | some s => do
      let v ← mutateLoop state (copy s.items) (rounds config cycles s)
      let output ← createOutput state maxSize v.m v.mSize
      return some output

/-! ## Words that fit -/

theorem toNat_word {n : Nat} (small : n < 0x100000000) : (UInt32.ofNat n).toNat = n :=
  UInt32.toNat_ofNat_of_lt' small

theorem minus_eq {a b : UInt32} (fits : b.toNat ≤ a.toNat) : minus a b = pure (a - b) :=
  if_pos (UInt32.le_iff_toNat_le.mpr fits)

theorem toNat_minus {a b : UInt32} (fits : b.toNat ≤ a.toNat) :
    (a - b).toNat = a.toNat - b.toNat :=
  UInt32.toNat_sub_of_le _ _ (UInt32.le_iff_toNat_le.mpr fits)

theorem toNat_plus {a b : UInt32} (fits : a.toNat + b.toNat < 0x100000000) :
    (a + b).toNat = a.toNat + b.toNat := by
  rw [UInt32.toNat_add]
  exact Nat.mod_eq_of_lt fits

@[simp] theorem toNat_minimum (a b : UInt32) : (minimum a b).toNat = min a.toNat b.toNat := by
  unfold minimum
  split
  · next less =>
    rw [UInt32.lt_iff_toNat_lt] at less
    omega
  · next less =>
    rw [UInt32.lt_iff_toNat_lt] at less
    omega

@[simp] theorem toNat_maximum (a b : UInt32) : (maximum a b).toNat = max a.toNat b.toNat := by
  unfold maximum
  split
  · next more =>
    rw [gt_iff_lt, UInt32.lt_iff_toNat_lt] at more
    omega
  · next more =>
    rw [gt_iff_lt, UInt32.lt_iff_toNat_lt] at more
    omega

/-- Drawing a word is drawing its number. -/
theorem randBelow_bind {β : Type} {limit : UInt32} {n : Nat} (isLimit : limit.toNat = n)
    {next : UInt32 → Draws β} {other : Nat → Draws β}
    (same : ∀ drawn : UInt32, drawn.toNat ≤ n - 1 → next drawn = other drawn.toNat) :
    (randBelow limit >>= next) = (below n >>= other) := by
  have small := limit.toNat_lt
  unfold randBelow
  rw [bind_assoc, isLimit]
  refine Returns.bind_congr (Returns.below_le n) ?_
  intro drawn inside
  have word : (UInt32.ofNat drawn).toNat = drawn := toNat_word (by omega)
  rw [pure_bind, same _ (by rw [word]; exact inside), word]

theorem drawUntil_eq {limit : UInt32} {n : Nat} (isLimit : limit.toNat = n)
    {accept : UInt32 → Option Bool} {other : Nat → Bool}
    (same : ∀ drawn : UInt32, drawn.toNat ≤ n - 1 → accept drawn = some (other drawn.toNat)) :
    drawUntil limit accept = UInt32.ofNat <$> belowUntil n other := by
  have small := limit.toNat_lt
  funext choices
  induction choices with
  | nil => rfl
  | cons choice choices ih =>
      have inside : (if n ≤ 1 then 0 else choice % n) ≤ n - 1 := by
        split
        · exact Nat.zero_le _
        · exact Nat.le_sub_one_of_lt (Nat.mod_lt _ (by omega))
      have word := toNat_word (n := if n ≤ 1 then 0 else choice % n) (by omega)
      have accepts := same _ (by rw [word]; exact inside)
      rw [word] at accepts
      unfold drawUntil
      simp only [isLimit, accepts]
      rw [← bind_pure_comp] at ih ⊢
      by_cases accepted : other (if n ≤ 1 then 0 else choice % n) = true
      · have drawn : belowUntil n other (choice :: choices) =
            .ok (if n ≤ 1 then 0 else choice % n, choices) := if_pos accepted
        rw [bind_ok drawn, accepted]
        rfl
      · have drawn : belowUntil n other (choice :: choices) = belowUntil n other choices :=
          if_neg accepted
        rw [Bool.not_eq_true] at accepted
        rw [accepted]
        refine ih.trans ?_
        change Draws.bind _ _ _ = Draws.bind _ _ _
        rw [Draws.bind, Draws.bind, drawn]

/-! ## The structures behind the words -/

/-- A structure and `max_rand` as the source holds them. -/
def lift (m : Structure) (maxRand : Nat) : Mutated :=
  ⟨m.items, UInt32.ofNat m.size, UInt32.ofNat maxRand⟩

theorem size_insert (m : Structure) (pos : Nat) (items : List Nat) :
    (m.insert pos items).size = m.size + items.length := by
  simp only [Structure.size, Structure.insert, List.length_append, List.length_take,
    List.length_drop]
  omega

theorem size_erase (m : Structure) {pos : Nat} (inside : pos < m.size)
    (spare : autotokensSizeMin < m.size) : (m.erase pos spare).size = m.size - 1 :=
  List.length_eraseIdx_of_lt inside

theorem size_overwrite {m changed : Structure} {dstOff : Nat} {items : List Nat}
    (overwritten : m.overwrite dstOff items = some changed) : changed.size = m.size := by
  unfold Structure.overwrite at overwritten
  split at overwritten
  · next inside =>
    cases overwritten
    simp only [Structure.size, List.length_append, List.length_take, List.length_drop]
    omega
  · cases overwritten

variable {state : State} {m : Structure} {maxRand : Nat}

theorem lift_of {mSize : UInt32} (same : mSize.toNat = m.size) :
    (⟨m.items, mSize, UInt32.ofNat maxRand⟩ : Mutated) = lift m maxRand := by
  unfold lift
  rw [← same, UInt32.ofNat_toNat]

theorem changeItem_eq (state : State) (small : m.size < 0x100000000) (maxRand : Nat) :
    changeItem state (lift m maxRand) =
      (fun m => lift m maxRand) <$> Autotokens.changeItem state m := by
  have size := m.size_ge
  unfold changeItem Autotokens.changeItem
  rw [map_bind]
  refine randBelow_bind (toNat_word small) ?_
  intro pos inside
  have bound : pos.toNat < m.items.length := by
    have length : m.size = m.items.length := rfl
    omega
  change (fetch m.items[pos.toNat]? >>= _) = _
  rw [map_bind, List.getElem?_eq_getElem bound]
  change (belowUntil _ _ >>= _) = (fun m => lift m maxRand) <$> (belowUntil _ _ >>= _)
  rw [map_bind]
  refine bind_congr fun newItem => ?_
  have stored : store m.items pos newItem = some (m.items.set pos.toNat newItem) := if_pos bound
  change (fetch (store m.items pos newItem) >>= _) = _
  rw [stored]
  have kept : (m.set pos.toNat newItem).size = m.size := List.length_set
  exact congrArg (pure : Mutated → Draws Mutated) (lift_of ((toNat_word small).trans kept.symm))

theorem insertWhitespace_eq (state : State) (small : m.size + 1 < 0x100000000) (maxRand : Nat) :
    insertWhitespace state (lift m maxRand) =
      (fun m => lift m maxRand) <$> Autotokens.insertWhitespace state m := by
  have word : (UInt32.ofNat m.size).toNat = m.size := toNat_word (by omega)
  have longer : (UInt32.ofNat m.size + 1).toNat = m.size + 1 := by
    rw [toNat_plus (by rw [word]; exact small), word]
    rfl
  have fits : successor (UInt32.ofNat m.size) = pure (UInt32.ofNat m.size + 1) := by
    refine if_pos ?_
    rw [UInt32.lt_iff_toNat_lt, word]
    exact Nat.lt_sub_of_add_lt small
  unfold insertWhitespace Autotokens.insertWhitespace
  rw [map_bind]
  refine bind_congr fun newItem => ?_
  change (successor (UInt32.ofNat m.size) >>= _) = _
  rw [fits, pure_bind, map_bind]
  refine randBelow_bind longer ?_
  intro pos inside
  have inserted : insertAt m.items pos [newItem] = some (m.insert pos.toNat [newItem]).items := by
    have length : m.size = m.items.length := rfl
    exact if_pos (by omega)
  change (fetch (insertAt m.items pos [newItem]) >>= _) = _
  rw [inserted]
  have size := longer.trans (size_insert m pos.toNat [newItem]).symm
  exact congrArg (pure : Mutated → Draws Mutated) (lift_of size)

/-- Every structure that can be drawn is there, and its size fits a word. -/
def Sources (state : State) : Prop :=
  ∀ k ≤ state.validStructures - 1, ∃ src, state.idMapping k = some src ∧ src.size < 0x100000000

theorem range_eq (src : Structure) (off n : UInt32) :
    range src.items off n = src.slice off.toNat n.toNat := rfl

theorem copyTo_eq (m : Structure) (off : UInt32) (items : List Nat) :
    copyTo m.items off items = (m.overwrite off.toNat items).map Structure.items := by
  unfold copyTo Structure.overwrite
  split
  · rfl
  · rfl

/-- The copied range is inside the source, and its length does not wrap around. -/
theorem spliced_range {src : Structure} {srcOff extra : UInt32}
    (inside : srcOff.toNat + (autotokensSpliceMin + extra.toNat) ≤ src.size)
    (few : extra.toNat ≤ autotokensSpliceMax) :
    ∃ items, range src.items srcOff (spliceMin + extra) = some items ∧
      src.slice srcOff.toNat (autotokensSpliceMin + extra.toNat) = some items ∧
      items.length = autotokensSpliceMin + extra.toNat ∧
      (spliceMin + extra).toNat = autotokensSpliceMin + extra.toNat := by
  have four : spliceMin.toNat = 4 := rfl
  have most : autotokensSpliceMax = 64 := rfl
  have plus : (spliceMin + extra).toNat = autotokensSpliceMin + extra.toNat := toNat_plus (by omega)
  obtain ⟨items, isItems, length⟩ := Structure.slice_eq inside
  exact ⟨items, by rw [range_eq, plus, isItems], isItems, length, plus⟩

theorem splice_eq (sources : Sources state) (small : m.size + 64 < 0x100000000) (maxRand : Nat) :
    splice state (lift m maxRand) = (fun m => lift m maxRand) <$> Autotokens.splice state m := by
  have size := m.size_ge
  have word : (UInt32.ofNat m.size).toNat = m.size := toNat_word (by omega)
  have four : spliceMin.toNat = autotokensSpliceMin := rfl
  have most : spliceMax.toNat = autotokensSpliceMax := rfl
  have four' : autotokensSpliceMin = 4 := rfl
  have most' : autotokensSpliceMax = 64 := rfl
  unfold splice Autotokens.splice
  rw [map_bind]
  refine randBelow_bind rfl ?_
  intro strategy _
  rw [map_bind]
  refine Returns.bind_congr (Returns.below_le _) ?_
  intro index inside
  obtain ⟨src, found, smallSrc⟩ := sources index inside
  rw [found]
  change _ = (fun m => lift m maxRand) <$> (below (src.size - autotokensSpliceMin) >>= _)
  have sizeSrc := src.size_ge
  have wordSrc : (UInt32.ofNat src.items.length).toNat = src.size := toNat_word smallSrc
  have fitsSrc : spliceMin.toNat ≤ (UInt32.ofNat src.items.length).toNat := by omega
  change (minus (UInt32.ofNat src.items.length) spliceMin >>= _) = _
  rw [minus_eq fitsSrc, pure_bind, map_bind]
  refine randBelow_bind (by rw [toNat_minus fitsSrc, wordSrc, four]) ?_
  intro srcOff insideSrc
  have fitsOff : srcOff.toNat ≤ (UInt32.ofNat src.items.length).toNat := by omega
  have srcRest := toNat_minus fitsOff
  rw [wordSrc] at srcRest
  have randR : (1 + maximum spliceMin (minimum spliceMax
      (UInt32.ofNat src.items.length - srcOff))).toNat =
        1 + max autotokensSpliceMin (min autotokensSpliceMax (src.size - srcOff.toNat)) := by
    rw [toNat_plus, toNat_maximum, toNat_minimum, srcRest]
    · rfl
    · rw [toNat_maximum, toNat_minimum, srcRest]
      change 1 + _ < _
      omega
  rw [minus_eq fitsOff, pure_bind]
  generalize 1 + maximum spliceMin (minimum spliceMax
    (UInt32.ofNat src.items.length - srcOff)) = r at randR ⊢
  by_cases zero : strategy = 0
  · rw [if_pos zero, if_pos (by rw [zero]; rfl), map_bind]
    refine randBelow_bind word ?_
    intro dstOff insideDst
    have fitsRand : spliceMin.toNat ≤ r.toNat := by omega
    rw [minus_eq fitsRand, pure_bind, map_bind]
    refine randBelow_bind (by rw [toNat_minimum, toNat_minus fitsRand, randR, most, four]) ?_
    intro extra few
    obtain ⟨items, ranged, isItems, length, plus⟩ :=
      @spliced_range src srcOff extra (by omega) (by omega)
    have inserted : insertAt m.items dstOff items = some (m.insert dstOff.toNat items).items := by
      have lengthM : m.size = m.items.length := rfl
      exact if_pos (by omega)
    have longer : (UInt32.ofNat m.size + (spliceMin + extra)).toNat =
        (m.insert dstOff.toNat items).size := by
      rw [toNat_plus (by omega), word, plus, size_insert, length]
    dsimp only
    rw [ranged, isItems]
    change (fetch (insertAt m.items dstOff items) >>= _) = _
    rw [inserted]
    exact congrArg (pure : Mutated → Draws Mutated) (lift_of longer)
  · have notZero : strategy.toNat ≠ 0 := fun same => zero (UInt32.toNat_inj.mp same)
    have fitsM : spliceMin.toNat ≤ (UInt32.ofNat m.size).toNat := by omega
    rw [if_neg zero, if_neg notZero, map_bind]
    change (minus (UInt32.ofNat m.size) spliceMin >>= _) = _
    rw [minus_eq fitsM, pure_bind]
    refine randBelow_bind (by rw [toNat_minus fitsM, word, four]) ?_
    intro dstOff insideDst
    have fitsDst : dstOff.toNat ≤ (UInt32.ofNat m.size).toNat := by omega
    have dstRest := toNat_minus fitsDst
    rw [word] at dstRest
    have fitsDstRest : spliceMin.toNat ≤ (UInt32.ofNat m.size - dstOff).toNat := by omega
    have fitsSrcRest : spliceMin.toNat ≤ (UInt32.ofNat src.items.length - srcOff).toNat := by omega
    change (minus (UInt32.ofNat m.size) dstOff >>= _) = _
    rw [minus_eq fitsDst, pure_bind, minus_eq fitsDstRest, pure_bind, pure_bind,
      minus_eq fitsSrcRest, pure_bind, map_bind]
    refine randBelow_bind (by
      rw [toNat_minimum, toNat_minimum, toNat_minus fitsDstRest, toNat_minus fitsSrcRest, dstRest,
        srcRest]
      rfl) ?_
    intro extra few
    obtain ⟨items, ranged, isItems, length, -⟩ :=
      @spliced_range src srcOff extra (by omega) (by omega)
    obtain ⟨changed, isChanged⟩ :=
      @Structure.overwrite_isSome m dstOff.toNat items (by omega)
    dsimp only
    rw [ranged, isItems]
    change (fetch (copyTo m.items dstOff items) >>= _) =
      (fun m => lift m maxRand) <$> fetch (m.overwrite dstOff.toNat items)
    rw [copyTo_eq, isChanged]
    exact congrArg (pure : Mutated → Draws Mutated)
      (lift_of (word.trans (size_overwrite isChanged).symm))

theorem eraseItem_eq (small : m.size < 0x100000000) (least : 4 ≤ maxRand)
    (word : maxRand < 0x100000000) :
    eraseItem (lift m maxRand) =
      (fun next => lift next.1 next.2) <$> Autotokens.eraseItem m maxRand := by
  have size := toNat_word small
  have eight : sizeMin.toNat = autotokensSizeMin := rfl
  have length : m.size = m.items.length := rfl
  have guard : UInt32.ofNat m.size > sizeMin ↔ autotokensSizeMin < m.size := by
    rw [gt_iff_lt, UInt32.lt_iff_toNat_lt, size, eight]
  unfold eraseItem Autotokens.eraseItem
  by_cases spare : autotokensSizeMin < m.size
  · have drawn : drawUntil (UInt32.ofNat m.size) (fun pos => m.items[pos.toNat]?.map fun item =>
        decide (whitespaceIds ≤ item)) =
        UInt32.ofNat <$> belowUntil m.size fun pos => whitespaceIds ≤ m.items.getD pos 0 := by
      refine drawUntil_eq size ?_
      intro pos inside
      rw [List.getD_eq_getElem?_getD, List.getElem?_eq_getElem (by omega)]
      rfl
    rw [dif_pos spare, map_bind]
    refine (if_pos (guard.mpr spare)).trans ?_
    change (drawUntil (UInt32.ofNat m.size) (fun pos => m.items[pos.toNat]?.map fun item =>
      decide (whitespaceIds ≤ item)) >>= _) = _
    rw [drawn, bind_map_left]
    refine Returns.bind_congr (Returns.belowUntil_accepted _ _) ?_
    rintro pos ⟨inside, -⟩
    have place : (UInt32.ofNat pos).toNat = pos := toNat_word (by omega)
    have bound : pos < m.size := by omega
    have one : (1 : UInt32).toNat ≤ (UInt32.ofNat m.size).toNat := by
      rw [size]
      exact Nat.one_le_of_lt bound
    have erased : eraseAt m.items (UInt32.ofNat pos) = some (m.erase pos spare).items := by
      unfold eraseAt
      rw [place]
      exact if_pos bound
    have shorter : (UInt32.ofNat m.size - 1).toNat = (m.erase pos spare).size := by
      rw [toNat_minus one, size, size_erase m bound spare]
      rfl
    change (fetch (eraseAt m.items (UInt32.ofNat pos)) >>= _) = _
    rw [erased]
    exact congrArg (pure : Mutated → Draws Mutated) (lift_of shorter)
  · have rand := toNat_word word
    have fits : (4 : UInt32).toNat ≤ (UInt32.ofNat maxRand).toNat := by
      rw [rand]
      exact least
    have lowered : UInt32.ofNat maxRand - 4 = UInt32.ofNat (maxRand - 4) := by
      rw [← UInt32.toNat_inj, toNat_minus fits, rand, toNat_word (by omega)]
      rfl
    rw [dif_neg spare]
    refine (if_neg (mt guard.mp spare)).trans ?_
    change (minus (UInt32.ofNat maxRand) 4 >>= _) = _
    rw [minus_eq fits, pure_bind, lowered]
    rfl

/-! ## Rounds -/

/-- The values of `max_rand`: it is lowered once, and then nothing is erased any more. -/
def IsMaxRand (maxRand : Nat) : Prop := maxRand = 27 ∨ maxRand = 23

theorem map_pair (changed : Draws Structure) (maxRand : Nat) :
    (fun next : Structure × Nat => lift next.1 next.2) <$>
        (changed >>= fun m => pure (m, maxRand)) =
      (fun m => lift m maxRand) <$> changed := by
  rw [bind_pure_comp, Functor.map_map]

theorem mutate_eq (sources : Sources state) (small : m.size + 64 < 0x100000000)
    (isMaxRand : IsMaxRand maxRand) :
    mutate state (lift m maxRand) =
      (fun next => lift next.1 next.2) <$> Autotokens.mutate state m maxRand := by
  unfold IsMaxRand at isMaxRand
  unfold mutate Autotokens.mutate
  rw [map_bind]
  refine randBelow_bind (toNat_word (by omega)) ?_
  intro choice inside
  have changes : choice ≤ 9 ↔ choice.toNat ≤ 9 := UInt32.le_iff_toNat_le
  have inserts : choice ≤ 13 ↔ choice.toNat ≤ 13 := UInt32.le_iff_toNat_le
  have splices : choice ≤ 22 ↔ choice.toNat ≤ 22 := UInt32.le_iff_toNat_le
  by_cases isChange : choice ≤ 9
  · rw [if_pos isChange, if_pos (changes.mp isChange), changeItem_eq state (by omega)]
    exact (map_pair _ _).symm
  · rw [if_neg isChange, if_neg (mt changes.mpr isChange)]
    by_cases isInsert : choice ≤ 13
    · rw [if_pos isInsert, if_pos (inserts.mp isInsert), insertWhitespace_eq state (by omega)]
      exact (map_pair _ _).symm
    · rw [if_neg isInsert, if_neg (mt inserts.mpr isInsert)]
      by_cases isSplice : choice ≤ 22
      · rw [if_pos isSplice, if_pos (splices.mp isSplice), splice_eq sources small]
        exact (map_pair _ _).symm
      · rw [if_neg isSplice, if_neg (mt splices.mpr isSplice)]
        exact eraseItem_eq (by omega) (by omega) (by omega)

theorem changeItem_size (state : State) (m : Structure) :
    Returns True (fun after => after.size = m.size) (Autotokens.changeItem state m) := by
  refine Returns.bind (Returns.any _) ?_
  intro pos _
  refine Returns.bind (Returns.any _) ?_
  intro curItem _
  exact Returns.bind (Returns.any _) fun _ _ => Returns.pure List.length_set

theorem insertWhitespace_size (state : State) (m : Structure) :
    Returns True (fun after => after.size = m.size + 1)
      (Autotokens.insertWhitespace state m) := by
  refine Returns.bind (Returns.any _) ?_
  intro newItem _
  exact Returns.bind (Returns.any _) fun pos _ => Returns.pure (size_insert m pos [newItem])

theorem splice_grows (state : State) (m : Structure) :
    Returns True (fun after => after.size ≤ m.size + 64) (Autotokens.splice state m) := by
  have four : autotokensSpliceMin = 4 := rfl
  have most : autotokensSpliceMax = 64 := rfl
  refine Returns.bind (Returns.any _) ?_
  intro strategy _
  refine Returns.bind (Returns.any _) ?_
  intro index _
  refine Returns.bind (Returns.any _) ?_
  intro src _
  refine Returns.bind (Returns.any _) ?_
  intro srcOff _
  refine Returns.ite ?_ ?_
  · intro _
    refine Returns.bind (Returns.any _) ?_
    intro dstOff _
    refine Returns.bind (Returns.below_le _) ?_
    intro extra few
    refine Returns.bind (Returns.fetched _) ?_
    intro items sliced
    have length : items.length ≤ 64 := by
      unfold Structure.slice at sliced
      split at sliced
      · cases sliced
        rw [List.length_take]
        omega
      · cases sliced
    refine Returns.pure ?_
    rw [size_insert]
    omega
  · intro _
    refine Returns.bind (Returns.any _) ?_
    intro dstOff _
    refine Returns.bind (Returns.any _) ?_
    intro extra _
    refine Returns.bind (Returns.any _) ?_
    intro items _
    refine (Returns.fetched _).mono ?_
    intro changed overwritten
    rw [size_overwrite overwritten]
    omega

/-- A round adds 64 items at most. -/
theorem mutate_grows (state : State) (m : Structure) (isMaxRand : IsMaxRand maxRand) :
    Returns True (fun next => next.1.size ≤ m.size + 64 ∧ IsMaxRand next.2)
      (Autotokens.mutate state m maxRand) := by
  refine Returns.bind (Returns.below_le _) ?_
  intro choice inside
  refine Returns.ite ?_ ?_
  · intro _
    refine Returns.bind (changeItem_size state m) ?_
    intro after kept
    have atMost : after.size ≤ m.size + 64 := by omega
    exact Returns.pure ⟨atMost, isMaxRand⟩
  · intro _
    refine Returns.ite ?_ ?_
    · intro _
      refine Returns.bind (insertWhitespace_size state m) ?_
      intro after grown
      have atMost : after.size ≤ m.size + 64 := by omega
      exact Returns.pure ⟨atMost, isMaxRand⟩
    · intro _
      refine Returns.ite ?_ ?_
      · intro _
        exact Returns.bind (splice_grows state m) fun after grown => Returns.pure ⟨grown, isMaxRand⟩
      · intro isErase
        unfold IsMaxRand at isMaxRand
        unfold Autotokens.eraseItem
        split
        · next spare =>
          refine Returns.bind (Returns.belowUntil_accepted _ _) ?_
          rintro pos ⟨bound, -⟩
          have size := m.size_ge
          have shorter : (m.erase pos spare).size = m.size - 1 := size_erase m (by omega) spare
          have atMost : (m.erase pos spare).size ≤ m.size + 64 := by omega
          exact Returns.pure ⟨atMost, isMaxRand⟩
        · have lowered : maxRand - 4 = 23 := by omega
          exact Returns.pure ⟨Nat.le_add_right _ _, .inr lowered⟩

/-- The words make no difference to the rounds while the sizes fit. -/
theorem mutateLoop_eq (sources : Sources state) (isMaxRand : IsMaxRand maxRand) {rounds : Nat}
    (room : m.size + 64 * rounds < 0x100000000) :
    (fun v => (v.m, v.mSize)) <$> mutateLoop state (lift m maxRand) rounds =
      (fun m => (m.items, UInt32.ofNat m.size)) <$>
        Autotokens.mutateLoop state m maxRand rounds := by
  induction rounds generalizing m maxRand with
  | zero => rfl
  | succ rounds ih =>
      unfold mutateLoop Autotokens.mutateLoop
      rw [mutate_eq sources (by omega) isMaxRand, bind_map_left, map_bind, map_bind]
      refine Returns.bind_congr (mutate_grows state m isMaxRand) ?_
      rintro next ⟨grown, isNext⟩
      exact ih isNext (by omega)

theorem mutateLoop_grows (state : State) (m : Structure) (isMaxRand : IsMaxRand maxRand)
    (rounds : Nat) :
    Returns True (fun after => after.size ≤ m.size + 64 * rounds)
      (Autotokens.mutateLoop state m maxRand rounds) := by
  induction rounds generalizing m maxRand with
  | zero => exact Returns.pure (Nat.le_add_right _ _)
  | succ rounds ih =>
      refine Returns.bind (mutate_grows state m isMaxRand) ?_
      rintro next ⟨grown, isNext⟩
      refine (ih next.1 isNext).mono ?_
      intro after atMost
      omega

/-- After any number of rounds `m_size` is the size of the vector and no less than the least size;
no access left a vector on the way, and no limit wrapped around. -/
theorem mutateLoop_keeps (sources : Sources state) {rounds : Nat}
    (room : m.size + 64 * rounds < 0x100000000) :
    Returns False (fun v => v.mSize.toNat = v.m.length ∧ autotokensSizeMin ≤ v.m.length)
      (mutateLoop state (copy m.items) rounds) := by
  have isMaxRand : IsMaxRand 27 := .inl rfl
  have drawn (k : Nat) (inside : k ≤ state.validStructures - 1) :
      (state.idMapping k).isSome = true := by
    obtain ⟨src, found, -⟩ := sources k inside
    rw [found]
    rfl
  have safe := (mutateLoop_safe drawn m 27 rounds).and (mutateLoop_grows state m isMaxRand rounds)
  have lifted : Returns False
      (fun vector : List Nat × UInt32 =>
        vector.2.toNat = vector.1.length ∧ autotokensSizeMin ≤ vector.1.length)
      ((fun m => (m.items, UInt32.ofNat m.size)) <$>
        Autotokens.mutateLoop state m 27 rounds) := by
    refine Returns.map_iff.mpr (safe.mono ?_)
    rintro after ⟨-, grown⟩
    exact ⟨toNat_word (by omega), after.large⟩
  rw [← mutateLoop_eq sources isMaxRand room] at lifted
  exact Returns.map_iff.mp lifted

/-- The items up to `m_size` are those of the vector. -/
theorem range_whole {vector : List Nat} {mSize : UInt32} (same : mSize.toNat = vector.length) :
    range vector 0 mSize = some vector := by
  unfold range
  rw [same, UInt32.toNat_zero, Nat.zero_add, if_pos (Nat.le_refl _), List.drop_zero,
    List.take_length]

theorem createOutput_safe (state : State) (maxSize : Nat) {vector : List Nat} {mSize : UInt32}
    (same : mSize.toNat = vector.length) :
    Returns False (fun _ => True) (createOutput state maxSize vector mSize) := by
  unfold createOutput
  rw [range_whole same]
  change Returns False _ (outputLoop state 1 true vector >>= _)
  refine Returns.bind (outputLoop_start state vector) ?_
  intro pieces _
  exact Returns.pure trivial

/-- While the sizes fit, `m_size` is the size of the vector and no less than the least size after
any number of rounds; and no access of a call leaves a vector, and no limit wraps around. -/
theorem aflCustomFuzz_keeps (sources : Sources state) {count : Nat}
    (room : m.size + 64 * count < 0x100000000) :
    Returns False (fun v => v.mSize.toNat = v.m.length ∧ autotokensSizeMin ≤ v.m.length)
      (mutateLoop state (copy m.items) count) ∧
    ∀ config cycles maxSize, state.s = some m → rounds config cycles m ≤ count →
      Returns False (fun _ => True) (aflCustomFuzz config cycles state maxSize) := by
  refine ⟨mutateLoop_keeps sources room, ?_⟩
  intro config cycles maxSize structured atMost
  unfold aflCustomFuzz
  rw [structured]
  refine Returns.bind (mutateLoop_keeps sources (by omega)) ?_
  rintro v ⟨same, -⟩
  refine Returns.bind (createOutput_safe state maxSize same) ?_
  intro output _
  exact Returns.pure trivial

def semicolonsStructure : Structure := ⟨List.replicate 12 14, by decide⟩

theorem aflCustomFuzz_keeps_semicolons :
    Returns False (fun v => v.mSize.toNat = v.m.length ∧ autotokensSizeMin ≤ v.m.length)
      (mutateLoop semicolonsState (copy semicolonsStructure.items) 8) := by
  have sources : Sources semicolonsState := by
    intro k inside
    obtain rfl : k = 0 := Nat.le_zero.mp inside
    exact ⟨semicolonsStructure, rfl, by decide⟩
  exact (aflCustomFuzz_keeps sources (by decide)).1

/-- A structure of as many items as a word can count. -/
def longest : Structure := ⟨List.replicate 0xffffffff 14, by rw [List.length_replicate]; decide⟩

/-- The limit `m_size + 1` wraps around when a blank is inserted. -/
theorem mutateLoop_wraps :
    mutateLoop semicolonsState (copy longest.items) 1 [10, 0] = .error .crashed := by
  have size : (copy longest.items).mSize = 0xffffffff := by
    unfold copy longest
    rw [List.length_replicate]
    rfl
  have wraps : successor (copy longest.items).mSize = stop .crashed := by
    rw [size]
    exact if_neg (by decide)
  have drawn : belowUntil semicolonsState.table.currentId (· < whitespaceIds) [0] = .ok (0, []) :=
    rfl
  have stops : insertWhitespace semicolonsState (copy longest.items) [0] = .error .crashed := by
    refine (bind_ok drawn).trans (bind_error ?_ _)
    rw [wraps]
    rfl
  have chosen : randBelow (copy longest.items).maxRand [10, 0] = .ok (10, [0]) := rfl
  refine bind_error ((bind_ok chosen).trans ?_) _
  rw [if_neg (by decide), if_pos (by decide)]
  exact stops

theorem createOutput_eq (state : State) (maxSize : Nat) (small : m.size < 0x100000000) :
    createOutput state maxSize m.items (UInt32.ofNat m.size) =
      (fun pieces => (state.table.textOf pieces,
        min (u32 (state.table.textOf pieces).length) maxSize)) <$>
        outputLoop state 1 true m.items := by
  have same : (UInt32.ofNat m.size).toNat = m.items.length := toNat_word small
  unfold createOutput
  rw [range_whole same]
  rfl

/-- The whole call returns the output that is made without a bound of the words. -/
theorem aflCustomFuzz_eq (config : Config) (cycles maxSize : Nat) (sources : Sources state)
    (room : ∀ s, state.s = some s → s.size + 64 * rounds config cycles s < 0x100000000) :
    aflCustomFuzz config cycles state maxSize =
      (fun fuzzed => fuzzed.map fun fuzzed => (fuzzed.output, fuzzed.mutatedSize)) <$>
        Autotokens.aflCustomFuzz config cycles state maxSize := by
  unfold aflCustomFuzz Autotokens.aflCustomFuzz
  cases structured : state.s with
  | none => rfl
  | some s =>
      have isMaxRand : IsMaxRand 27 := .inl rfl
      have roomFor := room s structured
      change (mutateLoop state (lift s 27) (rounds config cycles s) >>= fun v =>
        createOutput state maxSize (v.m, v.mSize).1 (v.m, v.mSize).2 >>= fun output =>
          pure (some output)) = _
      rw [← bind_map_left (fun v : Mutated => (v.m, v.mSize)) _ fun vector =>
        createOutput state maxSize vector.1 vector.2 >>= fun output => pure (some output),
        mutateLoop_eq sources isMaxRand roomFor, bind_map_left, map_bind]
      refine Returns.bind_congr (mutateLoop_grows state s isMaxRand _) ?_
      intro m grown
      rw [createOutput_eq state maxSize (by omega), bind_map_left, map_bind]
      exact bind_congr fun pieces => rfl

theorem aflCustomFuzz_eq_semicolons :
    aflCustomFuzz plainConfig 0 semicolonsState 100 =
      (fun fuzzed => fuzzed.map fun fuzzed => (fuzzed.output, fuzzed.mutatedSize)) <$>
        Autotokens.aflCustomFuzz plainConfig 0 semicolonsState 100 := by
  refine aflCustomFuzz_eq plainConfig 0 100 ?_ ?_
  · intro k inside
    obtain rfl : k = 0 := Nat.le_zero.mp inside
    exact ⟨semicolonsStructure, rfl, by decide⟩
  · intro s structured
    cases structured
    decide

end SbFuzz.CustomMutators.Autotokens.Machine
