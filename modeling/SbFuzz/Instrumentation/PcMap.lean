import Mathlib.Data.List.Infix
import Mathlib.Logic.Function.Basic

/-! The map from edge ids to program counters that the runtime of `afl-compiler-rt.o.c` fills
while the instrumented modules of a target are loaded, before its fork server is up. Modules
that come later get no entry in the module list and are not tracked. -/

set_option autoImplicit false

namespace SbFuzz.Instrumentation.PcMap

structure PCTableEntry where
  pc : UInt64
  pcFlags : UInt64

/-- `afl_module_info_t`. The guards are the words from `start` to `stop`, and the table is
empty while `pcs_beg` and `pcs_end` are null. -/
structure ModuleInfo where
  id : Nat
  name : String
  baseAddress : UInt64
  guards : List Nat
  pcs : List PCTableEntry
  mapped : Bool

structure FilterPCEntry where
  start : UInt64
  len : UInt32

/-- The environment variables. The runtime of the sanitizer writes the descriptions. -/
structure Environment where
  instRatio : Option Nat
  pcFilter : Option String
  symbolizePc : UInt64 → String
  filterPcs : Option (String × List FilterPCEntry)

/-- Cells nothing was recorded in are `none`. -/
abbrev Cells := Nat → Option UInt64

structure Runtime where
  moduleInfo : List ModuleInfo
  finalLoc : Nat
  mapSize : Nat
  pcmap : Option Cells

/-- The runtime once the shared memory is attached. -/
def Runtime.attached (finalLoc mapSize : Nat) : Runtime where
  moduleInfo := []
  finalLoc := finalLoc
  mapSize := mapSize
  pcmap := some fun _ => none

def strstr (text needle : String) : Bool := decide (needle.toList <:+: text.toList)

/-- The loop of `locate_in_pcs` between two bounds. -/
def locateBetween (entries : List FilterPCEntry) (needle : UInt64) (lowerBound upperBound : Nat) :
    Option Nat :=
  if lowerBound < entries.length ∧ lowerBound ≤ upperBound then
    let currentIndex := lowerBound + (upperBound - lowerBound) / 2
    match entries[currentIndex]? with
    | none => none
    | some entry =>
        if entry.start ≤ needle then
          if entry.start + entry.len.toUInt64 > needle then some currentIndex
          else locateBetween entries needle (currentIndex + 1) upperBound
        else if currentIndex = 0 then none
        else locateBetween entries needle lowerBound (currentIndex - 1)
  else none
termination_by upperBound + 1 - lowerBound

def locateInPcs (entries : List FilterPCEntry) (needle : UInt64) : Option Nat :=
  locateBetween entries needle 0 (entries.length - 1)

/-- `GetPreviousInstructionPc`, then the offset in the module. -/
def relativePc (baseAddress : UInt64) (entry : PCTableEntry) : UInt64 :=
  entry.pc - 1 - baseAddress

/-- One of the filters that are set does not match. They look at the last module only. -/
def disables (env : Environment) (name : String) (baseAddress : UInt64) (isLast : Bool)
    (entry : PCTableEntry) : Bool :=
  isLast &&
    (env.pcFilter.any (fun filter => !strstr (env.symbolizePc entry.pc) filter) ||
      env.filterPcs.any fun filter =>
        strstr name filter.1 && (locateInPcs filter.2 (relativePc baseAddress entry)).isNone)

/-- The loop of `__sanitizer_cov_pcs_init` over the table of one module. It reads `*start` anew
in each round; `none` is the abort. -/
def mapEntries (env : Environment) (mapSize : Nat) (info : ModuleInfo) (isLast : Bool) :
    List Nat → Option Cells → Nat → List PCTableEntry → Option (List Nat × Option Cells)
  | guards, pcmap, _, [] => some (guards, pcmap)
  | guards, pcmap, inModuleIndex, entry :: rest =>
      let origStartIndex := guards.headD 0
      if origStartIndex + inModuleIndex ≥ mapSize then none
      else
        let pc := relativePc info.baseAddress entry
        let pcmap := pcmap.map fun cells =>
          Function.update cells (origStartIndex + inModuleIndex) (some pc)
        let guards :=
          if disables env info.name info.baseAddress isLast entry then guards.set inModuleIndex 0
          else guards
        mapEntries env mapSize info isLast guards pcmap (inModuleIndex + 1) rest

/-- The loop over the modules. A module whose last guard is 0 stays as it is. -/
def mapModules (env : Environment) (mapSize : Nat) :
    Option Cells → List ModuleInfo → Option (Option Cells × List ModuleInfo)
  | pcmap, [] => some (pcmap, [])
  | pcmap, info :: next =>
      if info.mapped || info.guards.getLastD 0 == 0 then
        (mapModules env mapSize pcmap next).map fun result => (result.1, info :: result.2)
      else
        (mapEntries env mapSize info next.isEmpty info.guards pcmap 0 info.pcs).bind fun done =>
          (mapModules env mapSize done.2 next).map fun result =>
            (result.1, { info with guards := done.1, mapped := done.2.isSome } :: result.2)

/-- `__sanitizer_cov_pcs_init`. -/
def pcsInit (env : Environment) (state : Runtime) (name : String) (pcs : List PCTableEntry) :
    Option Runtime :=
  match state.moduleInfo.getLast? with
  | none => none
  | some info =>
      if name ≠ info.name then some state
      else
        let modules := state.moduleInfo.dropLast ++ [{ info with pcs := pcs }]
        (mapModules env state.mapSize state.pcmap modules).map fun result =>
          { state with pcmap := result.1, moduleInfo := result.2 }

def keepsGuard (instRatio : Nat) (draws : Nat → Nat) (index : Nat) : Bool :=
  instRatio == 100 || decide (draws index < instRatio)

/-- The ids of the guards after the first one, and the last location given out. -/
def numberGuards (keeps : Nat → Bool) : Nat → Nat → Nat → List Nat × Nat
  | finalLoc, _, 0 => ([], finalLoc)
  | finalLoc, index, count + 1 =>
      if keeps index then
        let numbered := numberGuards keeps (finalLoc + 1) (index + 1) count
        ((finalLoc + 1) :: numbered.1, numbered.2)
      else
        let numbered := numberGuards keeps finalLoc (index + 1) count
        (0 :: numbered.1, numbered.2)

/-- The memory is attached again when the map has grown over its end, which takes one more
location. -/
def resized (finalLoc mapSize : Nat) : Nat := if finalLoc > mapSize then finalLoc + 1 else finalLoc

/-- `__sanitizer_cov_trace_pc_guard_init` for a range whose words are all still 0;
`draws` are the values of `R(100)`. -/
def tracePcGuardInit (env : Environment) (state : Runtime) (name : String) (baseAddress : UInt64)
    (count : Nat) (draws : Nat → Nat) : Option Runtime :=
  if count = 0 then some state
  else
    let instRatio := env.instRatio.getD 100
    if instRatio = 0 ∨ instRatio > 100 then none
    else
      let first := max 4 state.finalLoc + 1
      let numbered := numberGuards (keepsGuard instRatio draws) first 1 (count - 1)
      let info : ModuleInfo :=
        { id := (state.moduleInfo.getLast?.map (·.id + 1)).getD 0
          name := name
          baseAddress := baseAddress
          guards := first :: numbered.1
          pcs := []
          mapped := false }
      let finalLoc := resized numbered.2 state.mapSize
      some
        { moduleInfo := state.moduleInfo ++ [info]
          finalLoc := finalLoc
          mapSize := finalLoc + 1
          pcmap := state.pcmap }

/-- A module on its way in: guard and table have one element for each of its edges. -/
structure Load where
  name : String
  baseAddress : UInt64
  pcs : List PCTableEntry
  draws : Nat → Nat
  nonempty : pcs ≠ []

/-- The constructor of a module: its guards, then its table. The first part of the result are the
ids the guards were given. -/
def loadModule (env : Environment) (state : Runtime) (load : Load) :
    Option (List Nat × Runtime) :=
  (tracePcGuardInit env state load.name load.baseAddress load.pcs.length load.draws).bind
    fun guarded =>
      (pcsInit env guarded load.name load.pcs).map fun final =>
        ((guarded.moduleInfo.getLast?.map (·.guards)).getD [], final)

/-- One module after the other, each with the ids of its edges. -/
def loadAll (env : Environment) (state : Runtime) :
    List Load → Option (List (List Nat × Load) × Runtime)
  | [] => some ([], state)
  | load :: rest =>
      (loadModule env state load).bind fun loaded =>
        (loadAll env loaded.2 rest).map fun others =>
          ((loaded.1, load) :: others.1, others.2)

/-! Which loads leave every edge with the address of its table entry. -/

def Runtime.recordedAt (state : Runtime) (id : Nat) : Option UInt64 := state.pcmap.bind (· id)

/-- The k-th edge of the module is edge `startId + k`, recorded with the k-th table entry. -/
def Recorded (state : Runtime) (ids : List Nat) (load : Load) : Prop :=
  ∃ startId, ids.head? = some startId ∧
    ∀ (k : Nat) (entry : PCTableEntry), load.pcs[k]? = some entry →
      ids[k]? = some (startId + k) ∧
        state.recordedAt (startId + k) = some (relativePc load.baseAddress entry)

/-- Every guard gets an id, and the filter leaves the first one alone unless it is the only one. -/
structure Survives (env : Environment) (load : Load) : Prop where
  ratio : ¬ (env.instRatio.getD 100 = 0 ∨ env.instRatio.getD 100 > 100)
  numbered : ∀ k, 0 < k → k < load.pcs.length →
    keepsGuard (env.instRatio.getD 100) load.draws k = true
  first : load.pcs.length = 1 ∨
    disables env load.name load.baseAddress true (load.pcs.head load.nonempty) = false

/-- What holds between two loads: no module waits, and the ids not given out are free. -/
structure Steady (state : Runtime) : Prop where
  allMapped : ∀ info ∈ state.moduleInfo, info.mapped = true
  attached : ∃ cells, state.pcmap = some cells ∧ ∀ id, state.finalLoc < id → cells id = none

theorem steady_attached (finalLoc mapSize : Nat) : Steady (.attached finalLoc mapSize) where
  allMapped := fun _ member => absurd member List.not_mem_nil
  attached := ⟨fun _ => none, rfl, fun _ _ => rfl⟩

/-! ### Consecutive cells -/

/-- The addresses in consecutive cells. -/
def record (cells : Cells) (first : Nat) : List UInt64 → Cells
  | [] => cells
  | pc :: rest => record (Function.update cells first (some pc)) (first + 1) rest

theorem record_apply (cells : Cells) (first : Nat) (pcs : List UInt64) (id : Nat) :
    record cells first pcs id =
      if first ≤ id ∧ id < first + pcs.length then pcs[id - first]? else cells id := by
  induction pcs generalizing cells first with
  | nil =>
      have outside : ¬ (first ≤ id ∧ id < first + ([] : List UInt64).length) := by
        simp only [List.length_nil]
        omega
      rw [record, if_neg outside]
  | cons pc rest ih =>
      rw [record, ih, List.length_cons]
      rcases Nat.lt_trichotomy id first with before | here | after
      · rw [if_neg (by omega), if_neg (by omega), Function.update_of_ne (by omega)]
      · subst here
        rw [if_neg (by omega), if_pos (by omega), Function.update_self]
        simp
      · have shift : id - first = (id - (first + 1)) + 1 := by omega
        rw [Function.update_of_ne (by omega), shift, List.getElem?_cons_succ]
        by_cases inside : id < first + 1 + rest.length
        · rw [if_pos (by omega), if_pos (by omega)]
        · rw [if_neg (by omega), if_neg (by omega)]

/-! ### The table of one module -/

/-- Behind the first entry `*start` does not change any more. -/
theorem mapEntries_later (env : Environment) {mapSize : Nat} (info : ModuleInfo) (isLast : Bool)
    (guards : List Nat) {index : Nat} (later : 0 < index) (cells : Cells)
    (entries : List PCTableEntry)
    (fits : guards.headD 0 + index + entries.length ≤ mapSize) :
    ∃ left, mapEntries env mapSize info isLast guards (some cells) index entries =
      some (left, some (record cells (guards.headD 0 + index)
        (entries.map (relativePc info.baseAddress)))) := by
  induction entries generalizing guards index cells with
  | nil => exact ⟨guards, rfl⟩
  | cons entry rest ih =>
      simp only [List.length_cons] at fits
      have inMap : ¬ guards.headD 0 + index ≥ mapSize := by omega
      have sameHead : ∀ kept : List Nat, kept = guards ∨ kept = guards.set index 0 →
          kept.headD 0 = guards.headD 0 := by
        intro kept isOne
        rcases isOne with rfl | rfl
        · rfl
        · cases guards with
          | nil => rfl
          | cons first others =>
              obtain ⟨before, rfl⟩ := Nat.exists_eq_succ_of_ne_zero (Nat.ne_of_gt later)
              rfl
      simp only [mapEntries, if_neg inMap, Option.map_some, List.map_cons, record]
      generalize chosen : (if disables env info.name info.baseAddress isLast entry = true then
        guards.set index 0 else guards) = next
      have head : next.headD 0 = guards.headD 0 := by
        apply sameHead
        rw [← chosen]
        split
        · exact .inr rfl
        · exact .inl rfl
      rw [← head] at fits ⊢
      exact ih next (by omega) _ (by omega)

/-- Where `*start` points after the filter has looked at the first entry. -/
def startAfterFirst (env : Environment) (info : ModuleInfo) (isLast : Bool) (startId : Nat)
    (entry : PCTableEntry) : Nat :=
  if disables env info.name info.baseAddress isLast entry then 0 else startId

theorem mapEntries_table (env : Environment) {mapSize : Nat} (info : ModuleInfo) (isLast : Bool)
    (startId : Nat) (others : List Nat) (cells : Cells) (entry : PCTableEntry)
    (rest : List PCTableEntry) (fits : startId + rest.length < mapSize) :
    ∃ left, mapEntries env mapSize info isLast (startId :: others) (some cells) 0 (entry :: rest) =
      some (left, some (record
        (Function.update cells startId (some (relativePc info.baseAddress entry)))
        (startAfterFirst env info isLast startId entry + 1)
        (rest.map (relativePc info.baseAddress)))) := by
  have inMap : ¬ (startId :: others).headD 0 + 0 ≥ mapSize := by
    simp only [List.headD_cons]
    omega
  simp only [mapEntries, if_neg inMap]
  simp only [List.headD_cons, Nat.add_zero, Option.map_some, startAfterFirst]
  by_cases disabled : disables env info.name info.baseAddress isLast entry = true
  all_goals simp only [disabled, if_true, if_false, Bool.false_eq_true]
  · have shorter : 0 + 1 + rest.length ≤ mapSize := by omega
    exact mapEntries_later env info isLast (0 :: others) Nat.one_pos _ rest shorter
  · have shorter : startId + 1 + rest.length ≤ mapSize := by omega
    exact mapEntries_later env info isLast (startId :: others) Nat.one_pos _ rest shorter

theorem mapModules_single (env : Environment) {mapSize : Nat} (cells : Cells) (info : ModuleInfo)
    (waiting : info.mapped = false) {startId : Nat} {others : List Nat}
    (guards : info.guards = startId :: others) (last : info.guards.getLastD 0 ≠ 0)
    {entry : PCTableEntry} {rest : List PCTableEntry} (table : info.pcs = entry :: rest)
    (fits : startId + rest.length < mapSize) :
    ∃ left, mapModules env mapSize (some cells) [info] =
      some (some (record
          (Function.update cells startId (some (relativePc info.baseAddress entry)))
          (startAfterFirst env info true startId entry + 1)
          (rest.map (relativePc info.baseAddress))),
        [{ info with guards := left, mapped := true }]) := by
  obtain ⟨left, looped⟩ := mapEntries_table env info true startId others cells entry rest fits
  have notSkipped : (info.mapped || info.guards.getLastD 0 == 0) = false := by
    simp only [waiting, Bool.false_or, beq_eq_false_iff_ne]
    exact last
  refine ⟨left, ?_⟩
  simp only [mapModules, notSkipped, Bool.false_eq_true, if_false, List.isEmpty_nil]
  rw [guards, table, looped]
  rfl

theorem mapModules_mapped (env : Environment) (mapSize : Nat) (pcmap : Option Cells)
    {modules : List ModuleInfo} (allMapped : ∀ info ∈ modules, info.mapped = true)
    (others : List ModuleInfo) :
    mapModules env mapSize pcmap (modules ++ others) =
      (mapModules env mapSize pcmap others).map fun result =>
        (result.1, modules ++ result.2) := by
  induction modules with
  | nil => simp
  | cons info next ih =>
      have here : info.mapped = true := allMapped info List.mem_cons_self
      have later := ih fun other member => allMapped other (List.mem_cons_of_mem _ member)
      simp only [List.cons_append, mapModules, here, Bool.true_or, if_true, later,
        Option.map_map]
      rfl

/-! ### The ids of the guards -/

theorem numberGuards_kept {keeps : Nat → Bool} (finalLoc index count : Nat)
    (kept : ∀ k, index ≤ k → k < index + count → keeps k = true) :
    numberGuards keeps finalLoc index count =
      (List.range' (finalLoc + 1) count, finalLoc + count) := by
  induction count generalizing finalLoc index with
  | zero => rfl
  | succ count ih =>
      have here : keeps index = true := kept index (Nat.le_refl index) (by omega)
      have later := ih (finalLoc + 1) (index + 1) fun k low high => kept k (by omega) (by omega)
      simp only [numberGuards, here, if_true, later, List.range'_succ, Prod.mk.injEq, true_and]
      omega

theorem numberGuards_dropped {keeps : Nat → Bool} (finalLoc index count : Nat) {k : Nat}
    (inRange : k < count) (dropped : keeps (index + k) = false) :
    (numberGuards keeps finalLoc index count).1[k]? = some 0 := by
  induction count generalizing finalLoc index k with
  | zero => exact absurd inRange (Nat.not_lt_zero k)
  | succ count ih =>
      rw [numberGuards]
      cases k with
      | zero => simp_all
      | succ k =>
          have shifted : keeps (index + 1 + k) = false := by
            rw [← dropped]
            congr 1
            omega
          split
          · exact ih (finalLoc + 1) (index + 1) (by omega) shifted
          · exact ih finalLoc (index + 1) (by omega) shifted

/-- The ids of a module are those of its guards when they were numbered. -/
theorem loadModule_ids {env : Environment} {state next : Runtime} {load : Load} {ids : List Nat}
    (loaded : loadModule env state load = some (ids, next)) :
    ¬ (env.instRatio.getD 100 = 0 ∨ env.instRatio.getD 100 > 100) ∧
      ids = (max 4 state.finalLoc + 1) ::
        (numberGuards (keepsGuard (env.instRatio.getD 100) load.draws) (max 4 state.finalLoc + 1) 1
          (load.pcs.length - 1)).1 := by
  have some_ : load.pcs.length ≠ 0 := fun zero => load.nonempty (List.length_eq_zero_iff.mp zero)
  by_cases invalid : env.instRatio.getD 100 = 0 ∨ env.instRatio.getD 100 > 100
  · simp [loadModule, tracePcGuardInit, some_, invalid] at loaded
  · simp only [loadModule, tracePcGuardInit, if_neg some_, if_neg invalid, Option.bind_some,
      Option.map_eq_some_iff, List.getLast?_append, List.getLast?_singleton, Option.some_or,
      Option.map_some, Option.getD_some, Prod.mk.injEq] at loaded
    obtain ⟨final, _, rfl, _⟩ := loaded
    exact ⟨invalid, rfl⟩

/-- A module whose guards are all numbered goes through the whole loop. -/
theorem loadModule_numbered (env : Environment) {state : Runtime} (load : Load)
    {cells : Cells} (allMapped : ∀ info ∈ state.moduleInfo, info.mapped = true)
    (attached : state.pcmap = some cells)
    (ratio : ¬ (env.instRatio.getD 100 = 0 ∨ env.instRatio.getD 100 > 100))
    (numbered : ∀ k, 0 < k → k < load.pcs.length →
      keepsGuard (env.instRatio.getD 100) load.draws k = true)
    {entry : PCTableEntry} {rest : List PCTableEntry} (table : load.pcs = entry :: rest) :
    ∃ next, loadModule env state load =
        some (List.range' (max 4 state.finalLoc + 1) load.pcs.length, next) ∧
      (∀ info ∈ next.moduleInfo, info.mapped = true) ∧
      next.finalLoc = resized (max 4 state.finalLoc + 1 + rest.length) state.mapSize ∧
      next.pcmap = some (record
        (Function.update cells (max 4 state.finalLoc + 1)
          (some (relativePc load.baseAddress entry)))
        ((if disables env load.name load.baseAddress true entry then 0
          else max 4 state.finalLoc + 1) + 1)
        (rest.map (relativePc load.baseAddress))) := by
  have count : load.pcs.length = rest.length + 1 := by rw [table, List.length_cons]
  have some_ : load.pcs.length ≠ 0 := by omega
  have inRange : ∀ k, 1 ≤ k → k < 1 + (load.pcs.length - 1) →
      keepsGuard (env.instRatio.getD 100) load.draws k = true :=
    fun k low high => numbered k low (by omega)
  have ids := numberGuards_kept (max 4 state.finalLoc + 1) 1 (load.pcs.length - 1) inRange
  have guards : (max 4 state.finalLoc + 1) ::
      List.range' (max 4 state.finalLoc + 1 + 1) (load.pcs.length - 1) =
        List.range' (max 4 state.finalLoc + 1) load.pcs.length := by
    obtain ⟨count, size⟩ := Nat.exists_eq_succ_of_ne_zero some_
    rw [size, List.range'_succ]
    rfl
  have tableCount : load.pcs.length - 1 = rest.length := by omega
  rw [tableCount] at ids guards
  have fits : max 4 state.finalLoc + 1 + rest.length <
      resized (max 4 state.finalLoc + 1 + rest.length) state.mapSize + 1 := by
    rw [resized]
    split <;> omega
  let info : ModuleInfo :=
    { id := (state.moduleInfo.getLast?.map (·.id + 1)).getD 0
      name := load.name
      baseAddress := load.baseAddress
      guards := List.range' (max 4 state.finalLoc + 1) load.pcs.length
      pcs := load.pcs
      mapped := false }
  have lastGuard : info.guards.getLastD 0 ≠ 0 := by
    simp only [info, count, List.range'_concat]
    simp
  obtain ⟨left, looped⟩ :=
    mapModules_single env cells info rfl guards.symm lastGuard table fits
  let next : Runtime :=
    { moduleInfo := state.moduleInfo ++ [{ info with guards := left, mapped := true }]
      finalLoc := resized (max 4 state.finalLoc + 1 + rest.length) state.mapSize
      mapSize := resized (max 4 state.finalLoc + 1 + rest.length) state.mapSize + 1
      pcmap := some (record
        (Function.update cells (max 4 state.finalLoc + 1)
          (some (relativePc load.baseAddress entry)))
        (startAfterFirst env info true (max 4 state.finalLoc + 1) entry + 1)
        (rest.map (relativePc load.baseAddress))) }
  refine ⟨next, ?_, ?_, rfl, rfl⟩
  · simp only [loadModule, tracePcGuardInit, if_neg some_, if_neg ratio, tableCount, ids,
      guards, Option.bind_some, pcsInit, List.getLast?_append, List.getLast?_singleton, Option.some_or,
      ne_eq, not_true_eq_false, if_false, List.dropLast_concat, mapModules_mapped env _ _ allMapped,
      Option.map_some, Option.getD_some, attached]
    rw [looped]
    rfl
  · intro other member
    rcases List.mem_append.mp member with older | new
    · exact allMapped other older
    · rw [List.mem_singleton.mp new]

/-! ### One load -/

/-- What was recorded stays. -/
structure Extends (earlier later : Runtime) : Prop where
  grown : earlier.finalLoc ≤ later.finalLoc
  same : ∀ id ≤ earlier.finalLoc, later.recordedAt id = earlier.recordedAt id

theorem Extends.trans {first second third : Runtime} (before : Extends first second)
    (after : Extends second third) : Extends first third where
  grown := before.grown.trans after.grown
  same := fun id inRange => by
    rw [after.same id (inRange.trans before.grown), before.same id inRange]

theorem Recorded.mono {earlier later : Runtime} {ids : List Nat} {load : Load}
    (steady : Steady earlier) (extends_ : Extends earlier later)
    (recorded : Recorded earlier ids load) : Recorded later ids load := by
  obtain ⟨startId, head, all⟩ := recorded
  refine ⟨startId, head, fun k entry isEntry => ?_⟩
  obtain ⟨numbered, cell⟩ := all k entry isEntry
  obtain ⟨cells, attached, free⟩ := steady.attached
  have given : startId + k ≤ earlier.finalLoc := by
    by_contra beyond
    have empty := free (startId + k) (by omega)
    simp only [Runtime.recordedAt, attached, Option.bind_some, empty] at cell
    exact absurd cell (by simp)
  exact ⟨numbered, by rw [extends_.same _ given, cell]⟩

theorem loadModule_of_survives {env : Environment} {state : Runtime} {load : Load}
    (steady : Steady state) (survives : Survives env load) :
    ∃ ids next, loadModule env state load = some (ids, next) ∧ Steady next ∧
      Recorded next ids load ∧ Extends state next := by
  obtain ⟨cells, attached, free⟩ := steady.attached
  obtain ⟨entry, rest, table⟩ := List.exists_cons_of_ne_nil load.nonempty
  obtain ⟨next, loaded, mapped, finalLoc, pcmap⟩ := loadModule_numbered env load steady.allMapped
    attached survives.ratio survives.numbered table
  have count : load.pcs.length = rest.length + 1 := by rw [table, List.length_cons]
  have grown : max 4 state.finalLoc + 1 + rest.length ≤ next.finalLoc := by
    rw [finalLoc, resized]
    split <;> omega
  have consecutive : next.pcmap = some (record cells (max 4 state.finalLoc + 1)
      (load.pcs.map (relativePc load.baseAddress))) := by
    rw [pcmap, table, List.map_cons, record]
    rcases survives.first with single | kept
    · have alone : rest = [] := List.length_eq_zero_iff.mp (by omega)
      rw [alone]
      rfl
    · simp only [table, List.head_cons] at kept
      simp only [kept, Bool.false_eq_true, if_false]
  have cell : ∀ id, next.recordedAt id =
      if max 4 state.finalLoc + 1 ≤ id ∧ id < max 4 state.finalLoc + 1 + load.pcs.length then
        (load.pcs.map (relativePc load.baseAddress))[id - (max 4 state.finalLoc + 1)]?
      else cells id := by
    intro id
    rw [Runtime.recordedAt, consecutive, Option.bind_some, record_apply, List.length_map]
  refine ⟨_, next, loaded, ⟨mapped, _, consecutive, ?_⟩, ⟨max 4 state.finalLoc + 1, ?_, ?_⟩,
    ⟨by omega, ?_⟩⟩
  · intro id beyond
    rw [record_apply, List.length_map, if_neg (by omega)]
    exact free id (by omega)
  · rw [count, List.range'_succ, List.head?_cons]
  · intro k entry isEntry
    obtain ⟨inRange, isThere⟩ := List.getElem?_eq_some_iff.mp isEntry
    constructor
    · rw [List.getElem?_range' inRange, Nat.one_mul]
    · rw [cell, if_pos (by omega), Nat.add_sub_cancel_left, List.getElem?_map, isEntry,
        Option.map_some]
  · intro id given
    rw [cell, if_neg (by omega), Runtime.recordedAt, attached, Option.bind_some]

/-- The cell of the last edge stays empty when the filter has taken the first one. -/
theorem not_recorded_of_disabled {env : Environment} {state next : Runtime} {load : Load}
    {ids : List Nat} (steady : Steady state)
    (ratio : ¬ (env.instRatio.getD 100 = 0 ∨ env.instRatio.getD 100 > 100))
    (numbered : ∀ k, 0 < k → k < load.pcs.length →
      keepsGuard (env.instRatio.getD 100) load.draws k = true)
    (several : load.pcs.length ≠ 1)
    (disabled : disables env load.name load.baseAddress true (load.pcs.head load.nonempty) = true)
    (loaded : loadModule env state load = some (ids, next)) : ¬ Recorded next ids load := by
  intro recorded
  obtain ⟨cells, attached, free⟩ := steady.attached
  obtain ⟨entry, rest, table⟩ := List.exists_cons_of_ne_nil load.nonempty
  obtain ⟨final, sameLoad, _, _, pcmap⟩ := loadModule_numbered env load steady.allMapped attached
    ratio numbered table
  obtain ⟨rfl, rfl⟩ : ids = _ ∧ next = _ :=
    Prod.mk.injEq .. ▸ Option.some_inj.mp (loaded.symm.trans sameLoad)
  have count : load.pcs.length = rest.length + 1 := by rw [table, List.length_cons]
  simp only [table, List.head_cons] at disabled
  obtain ⟨startId, head, all⟩ := recorded
  rw [count, List.range'_succ, List.head?_cons, Option.some_inj] at head
  subst head
  have inRange : rest.length < load.pcs.length := by omega
  have isLast := List.getElem?_eq_getElem inRange
  have last := (all rest.length _ isLast).2
  rw [Runtime.recordedAt, pcmap, Option.bind_some, disabled, if_pos rfl, record_apply,
    List.length_map, if_neg (by omega), Function.update_of_ne (by omega),
    free _ (by omega)] at last
  exact absurd last (by simp)

theorem not_recorded_of_dropped {env : Environment} {state next : Runtime} {load : Load}
    {ids : List Nat} {k : Nat} (later : 0 < k) (inRange : k < load.pcs.length)
    (dropped : keepsGuard (env.instRatio.getD 100) load.draws k = false)
    (loaded : loadModule env state load = some (ids, next)) : ¬ Recorded next ids load := by
  intro recorded
  obtain ⟨startId, head, all⟩ := recorded
  obtain ⟨_, rfl⟩ := loadModule_ids loaded
  rw [List.head?_cons, Option.some_inj] at head
  obtain ⟨before, rfl⟩ := Nat.exists_eq_succ_of_ne_zero (Nat.ne_of_gt later)
  have zero := numberGuards_dropped (max 4 state.finalLoc + 1) 1 (load.pcs.length - 1)
    (k := before) (by omega) (by rw [Nat.add_comm]; exact dropped)
  have numbered := (all (before + 1) _ (List.getElem?_eq_getElem inRange)).1
  rw [List.getElem?_cons_succ, zero, Option.some_inj] at numbered
  omega

theorem not_recorded_of_not_survives {env : Environment} {state next : Runtime} {load : Load}
    {ids : List Nat} (steady : Steady state) (notSurvives : ¬ Survives env load)
    (loaded : loadModule env state load = some (ids, next)) : ¬ Recorded next ids load := by
  have ratio := (loadModule_ids loaded).1
  by_cases numbered : ∀ k, 0 < k → k < load.pcs.length →
      keepsGuard (env.instRatio.getD 100) load.draws k = true
  · have first : ¬ (load.pcs.length = 1 ∨
        disables env load.name load.baseAddress true (load.pcs.head load.nonempty) = false) :=
      fun first => notSurvives ⟨ratio, numbered, first⟩
    rw [not_or, Bool.not_eq_false] at first
    exact not_recorded_of_disabled steady ratio numbered first.1 first.2 loaded
  · push Not at numbered
    obtain ⟨k, later, inRange, dropped⟩ := numbered
    exact not_recorded_of_dropped later inRange (by simpa using dropped) loaded

/-! ### One load after the other -/

theorem loadAll_of_survive {env : Environment} {state : Runtime} {loads : List Load}
    (steady : Steady state) (survive : ∀ load ∈ loads, Survives env load) :
    ∃ seen final, loadAll env state loads = some (seen, final) ∧ Extends state final ∧
      ∀ entry ∈ seen, Recorded final entry.1 entry.2 := by
  induction loads generalizing state with
  | nil => exact ⟨[], state, rfl, ⟨le_rfl, fun _ _ => rfl⟩, fun _ member => by cases member⟩
  | cons load rest ih =>
      obtain ⟨ids, next, loaded, steadyNext, recorded, extended⟩ :=
        loadModule_of_survives steady (survive load List.mem_cons_self)
      obtain ⟨seen, final, ran, later, others⟩ :=
        ih steadyNext fun other member => survive other (List.mem_cons_of_mem _ member)
      refine ⟨(ids, load) :: seen, final, ?_, extended.trans later, ?_⟩
      · rw [loadAll, loaded, Option.bind_some, ran, Option.map_some]
      · intro entry member
        rcases List.mem_cons.mp member with rfl | older
        · exact recorded.mono steadyNext later
        · exact others entry older

/-- Every call of the table constructor leaves all edges of the modules loaded so far recorded. -/
def AlwaysRecorded (env : Environment) (state : Runtime) (loads : List Load) : Prop :=
  ∀ before, before <+: loads → ∃ seen final, loadAll env state before = some (seen, final) ∧
    ∀ entry ∈ seen, Recorded final entry.1 entry.2

theorem survive_of_alwaysRecorded {env : Environment} {state : Runtime} {loads : List Load}
    (steady : Steady state) (always : AlwaysRecorded env state loads) :
    ∀ load ∈ loads, Survives env load := by
  induction loads generalizing state with
  | nil => exact fun _ member => absurd member List.not_mem_nil
  | cons load rest ih =>
      obtain ⟨seen, next, ran, recorded⟩ := always [load] (List.prefix_append [load] rest)
      obtain ⟨⟨ids, reached⟩, loaded, ended⟩ := Option.bind_eq_some_iff.mp ran
      simp only [loadAll, Option.map_some, Option.some_inj, Prod.mk.injEq] at ended
      obtain ⟨rfl, rfl⟩ := ended
      have here : Survives env load := by
        by_contra notSurvives
        exact not_recorded_of_not_survives steady notSurvives loaded
          (recorded (ids, load) List.mem_cons_self)
      obtain ⟨_, other, sameLoad, steadyNext, _, _⟩ := loadModule_of_survives steady here
      have same : reached = other := by
        rw [loaded, Option.some_inj, Prod.mk.injEq] at sameLoad
        exact sameLoad.2
      have later : AlwaysRecorded env reached rest := by
        intro before isPrefix
        obtain ⟨all, final, ranAll, recordedAll⟩ :=
          always (load :: before) (List.cons_prefix_cons.mpr ⟨rfl, isPrefix⟩)
        rw [loadAll, loaded, Option.bind_some] at ranAll
        obtain ⟨⟨others, last⟩, ranRest, ended⟩ := Option.map_eq_some_iff.mp ranAll
        simp only [Prod.mk.injEq] at ended
        obtain ⟨rfl, rfl⟩ := ended
        exact ⟨others, last, ranRest, fun entry member =>
          recordedAll entry (List.mem_cons_of_mem _ member)⟩
      intro other member
      rcases List.mem_cons.mp member with rfl | older
      · exact here
      · exact ih (same ▸ steadyNext) later other older

theorem pcsInit_records_iff (env : Environment) (finalLoc mapSize : Nat) (loads : List Load) :
    AlwaysRecorded env (.attached finalLoc mapSize) loads ↔
      ∀ load ∈ loads, Survives env load := by
  constructor
  · exact survive_of_alwaysRecorded (steady_attached finalLoc mapSize)
  · intro survive before isPrefix
    obtain ⟨seen, final, ran, _, recorded⟩ := loadAll_of_survive
      (steady_attached finalLoc mapSize)
      fun load member => survive load (isPrefix.subset member)
    exact ⟨seen, final, ran, recorded⟩

/-- A filter that takes the first of two edges. -/
def firstFiltered : Environment where
  instRatio := none
  pcFilter := some "b"
  symbolizePc := fun pc => if pc = 0x1005 then "b" else "a"
  filterPcs := none

def twoEdges : Load where
  name := "m"
  baseAddress := 0x1000
  pcs := [⟨0x1001, 1⟩, ⟨0x1005, 0⟩]
  draws := fun _ => 0
  nonempty := List.cons_ne_nil _ _

/-- The address of edge 6 goes to cell 1. -/
theorem pcsInit_shifts :
    ¬ ∀ (env : Environment) (finalLoc mapSize : Nat) (loads : List Load),
      env.instRatio = none → AlwaysRecorded env (.attached finalLoc mapSize) loads := by
  intro all
  obtain ⟨seen, final, ran, recorded⟩ :=
    all firstFiltered 0 8 [twoEdges] rfl [twoEdges] (List.prefix_refl _)
  have cells : (loadAll firstFiltered (.attached 0 8) [twoEdges]).map
      (fun result => (result.1.map (·.1), result.2.recordedAt 1, result.2.recordedAt 6)) =
        some ([[5, 6]], some 4, none) := by
    decide
  simp only [ran, Option.map_some, Option.some_inj, Prod.mk.injEq] at cells
  obtain ⟨ids, _, empty⟩ := cells
  obtain ⟨⟨own, load⟩, rfl, sameIds⟩ := List.map_eq_singleton_iff.mp ids
  simp only at sameIds
  subst sameIds
  obtain rfl : load = twoEdges := by
    obtain ⟨loaded, _, ended⟩ := Option.bind_eq_some_iff.mp ran
    simp only [loadAll, Option.map_some, Option.some_inj, Prod.mk.injEq, List.cons_eq_cons,
      and_true] at ended
    exact ended.1.2.symm
  obtain ⟨startId, head, edges⟩ := recorded _ List.mem_cons_self
  obtain rfl : 5 = startId := Option.some_inj.mp head
  have second := (edges 1 ⟨0x1005, 0⟩ rfl).2
  rw [empty] at second
  cases second

end SbFuzz.Instrumentation.PcMap
