import SbFuzz.CustomMutators.Gramatron
import SbFuzz.Systems.Loops

/-! Gramatron's walks are paths of the automaton from its initial to its final
state, whatever calls are made and whatever is drawn. -/

set_option autoImplicit false

namespace SbFuzz.CustomMutators.Gramatron

open SbFuzz.Systems SbFuzz.Systems.Draws

/-! ## Paths -/

/-- A terminal is what its state and trigger index denote. -/
structure Denotes (aut : Automaton) (term : Terminal) (trigger : Trigger) : Prop where
  found : aut.pda[term.state]?.bind (·[term.triggerIdx]?) = some trigger
  symbol : term.symbol = trigger.term
  symbolLen : term.symbolLen = trigger.term.length

inductive Path (aut : Automaton) : Nat → List Terminal → Nat → Prop where
  | nil (state : Nat) : Path aut state [] state
  | cons {term : Terminal} {trigger : Trigger} {terms : List Terminal} {last : Nat}
      (denotes : Denotes aut term trigger) (rest : Path aut trigger.dest terms last) :
      Path aut term.state (term :: terms) last

section

variable {aut : Automaton}

theorem Path.append {first middle last : Nat} {left right : List Terminal}
    (toMiddle : Path aut first left middle) (toLast : Path aut middle right last) :
    Path aut first (left ++ right) last := by
  induction toMiddle with
  | nil => exact toLast
  | cons denotes _ ih => exact .cons denotes (ih toLast)

theorem Path.split {first last : Nat} {left right : List Terminal}
    (path : Path aut first (left ++ right) last) :
    ∃ middle, Path aut first left middle ∧ Path aut middle right last := by
  induction left generalizing first with
  | nil => exact ⟨first, .nil first, path⟩
  | cons term left ih =>
      cases path with
      | cons denotes rest =>
          obtain ⟨middle, toMiddle, toLast⟩ := ih rest
          exact ⟨middle, .cons denotes toMiddle, toLast⟩

theorem Path.head {first last : Nat} {term : Terminal} {terms : List Terminal}
    (path : Path aut first (term :: terms) last) : term.state = first := by
  cases path with
  | cons => rfl

/-- A path can be cut in front of each of its terminals. -/
theorem Path.cut {first last : Nat} {terms : List Terminal} (path : Path aut first terms last)
    {idx : Nat} {term : Terminal} (atIdx : terms[idx]? = some term) :
    Path aut first (terms.take idx) term.state ∧ Path aut term.state (terms.drop idx) last := by
  obtain ⟨inside, rfl⟩ := List.getElem?_eq_some_iff.mp atIdx
  rw [← List.take_append_drop idx terms] at path
  obtain ⟨middle, toMiddle, toLast⟩ := path.split
  have start := toLast
  rw [List.drop_eq_getElem_cons inside] at start
  rw [start.head]
  exact ⟨toMiddle, toLast⟩

/-- What lies between two terminals is a path between their states. -/
theorem Path.between {first last : Nat} {terms : List Terminal} (path : Path aut first terms last)
    {i j : Nat} (ordered : i ≤ j) {term other : Terminal} (atStart : terms[i]? = some term)
    (atStop : terms[j]? = some other) :
    Path aut term.state ((terms.take j).drop i) other.state := by
  obtain ⟨toStop, -⟩ := path.cut atStop
  rcases Nat.lt_or_eq_of_le ordered with before | rfl
  · exact (toStop.cut ((List.getElem?_take_of_lt before).trans atStart)).2
  · cases atStart.symm.trans atStop
    rw [List.drop_of_length_le (List.length_take_le _ _)]
    exact .nil term.state

theorem Path.ne_nil {first last : Nat} {terms : List Terminal} (path : Path aut first terms last)
    (apart : first ≠ last) : terms ≠ [] := by
  cases path with
  | nil => exact absurd rfl apart
  | cons => exact List.cons_ne_nil _ _

theorem Path.denotes {first last : Nat} {terms : List Terminal} (path : Path aut first terms last) :
    ∀ term ∈ terms, ∃ trigger, Denotes aut term trigger := by
  induction path with
  | nil => exact List.forall_mem_nil _
  | cons denotes _ ih => exact List.forall_mem_cons.mpr ⟨⟨_, denotes⟩, ih⟩

end

/-! ## Walks -/

/-- A walk from the initial state to some state, with its lengths. -/
structure Walk.Leads (aut : Automaton) (last : Nat) (walk : Walk) : Prop where
  path : Path aut aut.initState walk.start last
  inputlen : walk.inputlen = (walk.start.map Terminal.symbolLen).sum
  fits : walk.used ≤ walk.size
  roomy : 0 < walk.size

/-- A complete walk. -/
def Walk.Valid (aut : Automaton) (walk : Walk) : Prop := walk.Leads aut aut.finalState

section

variable {aut : Automaton}

theorem initArray_leads (aut : Automaton) {size : Nat} (roomy : 0 < size) :
    (initArray size).Leads aut aut.initState :=
  ⟨.nil _, rfl, Nat.zero_le size, roomy⟩

theorem Walk.used_insertArray (walk : Walk) (term : Terminal) :
    (walk.insertArray term).used = walk.used + 1 := List.length_append

theorem Walk.Leads.insertArray {walk : Walk} {term : Terminal} {trigger : Trigger}
    (leads : walk.Leads aut term.state) (denotes : Denotes aut term trigger) :
    (walk.insertArray term).Leads aut trigger.dest := by
  have room := leads.fits
  have roomy := leads.roomy
  refine ⟨leads.path.append (.cons denotes (.nil _)), ?_, ?_, ?_⟩
  · simp [Walk.insertArray, leads.inputlen]
  · rw [walk.used_insertArray]
    simp only [Walk.insertArray, terminalSize]
    split <;> omega
  · simp only [Walk.insertArray, terminalSize]
    split <;> omega

theorem Walk.Leads.insertAll {walk : Walk} {first last : Nat} {terms : List Terminal}
    (leads : walk.Leads aut first) (path : Path aut first terms last) :
    (walk.insertAll terms).Leads aut last := by
  induction path generalizing walk with
  | nil => exact leads
  | cons denotes _ ih => exact ih (leads.insertArray denotes)

theorem Walk.insertAll_start (walk : Walk) (terms : List Terminal) :
    (walk.insertAll terms).start = walk.start ++ terms := by
  induction terms generalizing walk with
  | nil => simp [insertAll]
  | cons term terms ih =>
      have later := ih (walk.insertArray term)
      rw [insertAll] at later ⊢
      rw [List.foldl_cons, later, insertArray, List.append_assoc, List.singleton_append]

theorem Walk.Valid.slice_leads {input : Walk} (valid : input.Valid aut) {idx : Nat}
    {term : Terminal} (atIdx : input.start[idx]? = some term) :
    (slice input idx).Leads aut term.state :=
  (initArray_leads aut valid.roomy).insertAll (valid.path.cut atIdx).1

theorem carve_start (input : Walk) (start stop : Nat) :
    (carve input start stop).start = (input.start.take stop).drop start := by
  rw [carve, Walk.insertAll_start]
  rfl

theorem Walk.Leads.concatPrefixFeature {pre feature : Walk} {state : Nat}
    (leads : pre.Leads aut state) (path : Path aut state feature.start state) (len : Nat) :
    (concatPrefixFeature pre feature len).Leads aut state := by
  induction len generalizing pre with
  | zero => exact leads
  | succ len ih => exact ih (leads.insertAll path)

theorem Walk.Leads.spliceGF {orig toSplice : Walk} {term : Terminal} {idx : Nat}
    (leads : orig.Leads aut term.state) (valid : toSplice.Valid aut)
    (atIdx : toSplice.start[idx]? = some term) : (spliceGF orig toSplice idx).Valid aut :=
  leads.insertAll (valid.path.cut atIdx).2

theorem Walk.Valid.ne_nil {walk : Walk} (valid : walk.Valid aut) : walk.start ≠ [] :=
  valid.path.ne_nil aut.init_ne_final

theorem Walk.Valid.used_pos {walk : Walk} (valid : walk.Valid aut) : 0 < walk.used :=
  List.length_pos_iff.mpr valid.ne_nil

end

/-! ## State maps -/

theorem statemap_spec (numstates : Nat) (walk : Walk) :
    (statemap numstates walk).length = numstates ∧
      ∀ (state : Nat) (nums : List Nat), (statemap numstates walk)[state]? = some nums →
        ∀ i, i ∈ nums ↔ i < walk.used ∧ ∃ term, walk.start[i]? = some term ∧ term.state = state := by
  refine foldl_range_induction (fun n (map : List (List Nat)) => map.length = numstates ∧
    ∀ (state : Nat) (nums : List Nat), map[state]? = some nums →
      ∀ i, i ∈ nums ↔ i < n ∧ ∃ term, walk.start[i]? = some term ∧ term.state = state) ?_ ?_
  · refine ⟨List.length_replicate, fun state nums found i => ?_⟩
    obtain rfl := List.eq_of_mem_replicate (List.mem_of_getElem? found)
    simp
  · rintro offset inside map ⟨size, positions⟩
    have atOffset : walk.start[offset]? = some walk.start[offset] := List.getElem?_eq_getElem inside
    rw [atOffset]
    refine ⟨(List.length_modify _ _ _).trans size, fun state nums found i => ?_⟩
    rw [List.getElem?_modify] at found
    obtain ⟨before, known, same⟩ := Option.map_eq_some_iff.mp found
    have earlier := positions state before known i
    by_cases here : walk.start[offset].state = state
    · rw [if_pos here] at same
      rw [← same, List.mem_append, List.mem_singleton, earlier]
      constructor
      · rintro (⟨below, occurs⟩ | rfl)
        · exact ⟨Nat.lt_succ_of_lt below, occurs⟩
        · exact ⟨Nat.lt_succ_self i, _, atOffset, here⟩
      · rintro ⟨below, occurs⟩
        rcases Nat.lt_or_eq_of_le (Nat.le_of_lt_succ below) with less | equal
        · exact .inl ⟨less, occurs⟩
        · exact .inr equal
    · rw [if_neg here] at same
      rw [← same, earlier]
      constructor
      · rintro ⟨below, occurs⟩
        exact ⟨Nat.lt_succ_of_lt below, occurs⟩
      · rintro ⟨below, term, atIdx, isState⟩
        refine ⟨Nat.lt_of_le_of_ne (Nat.le_of_lt_succ below) ?_, term, atIdx, isState⟩
        rintro rfl
        cases atOffset.symm.trans atIdx
        exact here isState

theorem mem_statemap {numstates state : Nat} {walk : Walk} {nums : List Nat}
    (found : (statemap numstates walk)[state]? = some nums) {i : Nat} :
    i ∈ nums ↔ ∃ term, walk.start[i]? = some term ∧ term.state = state := by
  rw [(statemap_spec numstates walk).2 state nums found i]
  refine and_iff_right_of_imp ?_
  rintro ⟨term, atIdx, -⟩
  exact (List.getElem?_eq_some_iff.mp atIdx).1

theorem statemap_getElem? {numstates state : Nat} (walk : Walk) (inRange : state < numstates) :
    ∃ nums, (statemap numstates walk)[state]? = some nums := by
  have size := (statemap_spec numstates walk).1
  exact ⟨_, List.getElem?_eq_getElem (size.symm ▸ inRange)⟩

/-! ## Mutators -/

section

variable {aut : Automaton} {crashes : Prop}

theorem Denotes.state_lt {term : Terminal} {trigger : Trigger} (denotes : Denotes aut term trigger) :
    term.state < aut.pda.length := by
  obtain ⟨triggers, found, -⟩ := Option.bind_eq_some_iff.mp denotes.found
  exact (List.getElem?_eq_some_iff.mp found).1

theorem genFrom_returns {currState : Nat} {input : Walk} (leads : input.Leads aut currState)
    (known : currState = aut.finalState ∨ currState < aut.pda.length) :
    Returns crashes (Walk.Valid aut) (genFrom aut currState input) := by
  intro choices
  induction choices generalizing currState input with
  | nil =>
      by_cases final : currState = aut.finalState
      · have valid : input.Valid aut := by
          rwa [final] at leads
        rw [genFrom, if_pos final]
        exact valid
      · rw [genFrom, if_neg final]
        exact fun crashed => nomatch crashed
  | cons choice choices ih =>
      by_cases final : currState = aut.finalState
      · have valid : input.Valid aut := by
          rwa [final] at leads
        rw [genFrom, if_pos final]
        exact valid
      · have inRange := known.resolve_left final
        have atState := List.getElem?_eq_getElem inRange
        have positive := List.length_pos_iff.mpr (aut.hasTrigger _ _ atState final)
        rw [genFrom, if_neg final, atState]
        dsimp only
        generalize drawn : (if aut.pda[currState].length ≤ 1 then 0
          else choice % aut.pda[currState].length) = randval
        have inTriggers : randval < aut.pda[currState].length := by
          rw [← drawn]
          split
          · exact positive
          · exact Nat.mod_lt _ positive
        have atTrigger := List.getElem?_eq_getElem inTriggers
        rw [atTrigger]
        have denotes : Denotes aut ⟨currState, randval, aut.pda[currState][randval].term.length,
            aut.pda[currState][randval].term⟩ aut.pda[currState][randval] := by
          refine ⟨?_, rfl, rfl⟩
          rw [atState, Option.bind_some, atTrigger]
        exact ih (leads.insertArray denotes)
          (aut.dest_lt _ (List.getElem_mem inRange) _ (List.getElem_mem inTriggers))

theorem genInput_returns (aut : Automaton) : Returns crashes (Walk.Valid aut) (genInput aut) :=
  genFrom_returns (initArray_leads aut (by decide)) (.inr aut.init_lt)

theorem performRandomMutation_returns {input : Walk} (valid : input.Valid aut) :
    Returns crashes (Walk.Valid aut) (performRandomMutation aut input) := by
  refine Returns.bind (Returns.below valid.used_pos) fun idx inside => ?_
  have atIdx := List.getElem?_eq_getElem inside
  refine Returns.bind (Returns.fetch atIdx rfl) fun term isTerm => ?_
  subst isTerm
  obtain ⟨trigger, denotes⟩ := valid.path.denotes _ (List.getElem_mem inside)
  exact genFrom_returns (valid.slice_leads atIdx) (.inr denotes.state_lt)

/-- Positions of the same state in two walks. -/
def Matches (orig cand : List Terminal) (pair : Nat × Nat) : Prop :=
  ∃ left right, orig[pair.1]? = some left ∧ cand[pair.2]? = some right ∧ left.state = right.state

theorem splicePairs_returns {orig cand : Walk} {terms : List Terminal} {x : Nat}
    (rest : cand.start.drop x = terms) (inRange : ∀ term ∈ terms, term.state < aut.pda.length) :
    Returns crashes (fun pairs => (∀ pair ∈ pairs, Matches orig.start cand.start pair) ∧
        ∀ term ∈ terms.head?, (∃ other ∈ orig.start, other.state = term.state) → pairs ≠ [])
      (splicePairs (statemap aut.pda.length orig) terms x) := by
  induction terms generalizing x with
  | nil => exact Returns.pure ⟨List.forall_mem_nil _, fun _ none => nomatch none⟩
  | cons term terms ih =>
      obtain ⟨inHead, inTail⟩ := List.forall_mem_cons.mp inRange
      obtain ⟨nums, atState⟩ := statemap_getElem? orig inHead
      have atX : cand.start[x]? = some term := by
        rw [← List.head?_drop, rest, List.head?_cons]
      have later := ih (x := x + 1) (by rw [← List.tail_drop, rest, List.tail_cons]) inTail
      refine Returns.bind (Returns.fetch atState rfl) fun found isNums => ?_
      subst isNums
      split
      · next empty =>
        refine later.mono fun pairs spec => ⟨spec.1, ?_⟩
        rintro first isFirst ⟨other, inOrig, sameState⟩
        cases isFirst
        obtain ⟨i, inside, rfl⟩ := List.getElem_of_mem inOrig
        have listed := (mem_statemap atState).mpr ⟨_, List.getElem?_eq_getElem inside, sameState⟩
        rw [List.length_eq_zero_iff.mp empty] at listed
        exact absurd listed List.not_mem_nil
      · next someNums =>
        refine Returns.bind (Returns.below (Nat.pos_of_ne_zero someNums)) fun chosen inNums => ?_
        have atChosen := List.getElem?_eq_getElem inNums
        refine Returns.bind (Returns.fetch atChosen rfl) fun origIdx isIdx => ?_
        refine Returns.bind later fun pairs spec => Returns.pure ⟨?_, fun _ _ _ => ?_⟩
        · refine List.forall_mem_cons.mpr ⟨?_, spec.1⟩
          obtain ⟨left, atLeft, sameState⟩ :=
            (mem_statemap atState).mp (isIdx ▸ List.getElem_mem inNums)
          exact ⟨left, term, atLeft, atX, sameState⟩
        · exact List.cons_ne_nil _ _

/-- Both walks begin in the initial state, so there is a pair to choose. -/
theorem performSpliceOne_returns {orig cand : Walk} (origValid : orig.Valid aut)
    (candValid : cand.Valid aut) :
    Returns crashes (Walk.Valid aut) (performSpliceOne orig (statemap aut.pda.length orig) cand) := by
  have inRange : ∀ term ∈ cand.start, term.state < aut.pda.length := by
    intro term inCand
    obtain ⟨trigger, denotes⟩ := candValid.path.denotes term inCand
    exact denotes.state_lt
  refine Returns.bind (splicePairs_returns (List.drop_zero) inRange) fun pairs spec => ?_
  obtain ⟨first, others, split⟩ := List.exists_cons_of_ne_nil candValid.ne_nil
  obtain ⟨origFirst, origOthers, origSplit⟩ := List.exists_cons_of_ne_nil origValid.ne_nil
  have sameStart : origFirst.state = first.state := by
    have origPath := origValid.path
    have candPath := candValid.path
    rw [origSplit] at origPath
    rw [split] at candPath
    rw [origPath.head, candPath.head]
  have somePair : pairs ≠ [] := by
    refine spec.2 first ?_ ⟨origFirst, ?_, sameStart⟩
    · rw [split]
      rfl
    · rw [origSplit]
      exact List.mem_cons_self
  refine Returns.bind (Returns.below (List.length_pos_iff.mpr somePair)) fun chosen inPairs => ?_
  refine Returns.bind (Returns.fetch (List.getElem?_eq_getElem inPairs) rfl) fun pair isPair => ?_
  obtain ⟨left, right, atLeft, atRight, sameState⟩ :=
    spec.1 pair (isPair ▸ List.getElem_mem inPairs)
  have sliced := origValid.slice_leads atLeft
  rw [sameState] at sliced
  exact Returns.pure (sliced.spliceGF candValid atRight)

theorem swap_returns {a : List Nat} {i j : Nat} (iInside : i < a.length) (jInside : j < a.length) :
    Returns crashes (fun swapped => swapped.Perm a) (swap a i j) := by
  refine Returns.bind (Returns.fetch (List.getElem?_eq_getElem iInside) rfl) fun x isX => ?_
  refine Returns.bind (Returns.fetch (List.getElem?_eq_getElem jInside) rfl) fun y isY => ?_
  subst isX isY
  exact Returns.pure (List.set_set_perm iInside jInside)

theorem shuffle_returns {i : Nat} {a : List Nat} (inside : i < a.length) :
    Returns crashes (fun shuffled => shuffled.Perm a) (shuffle i a) := by
  induction i generalizing a with
  | zero => exact Returns.pure (List.Perm.refl a)
  | succ i ih =>
      refine Returns.bind (Returns.below (Nat.succ_pos _)) fun j below => ?_
      refine Returns.bind (swap_returns inside (by omega)) fun swapped perm => ?_
      have sameLength := perm.length_eq
      exact (ih (by omega)).mono fun shuffled later => later.trans perm

theorem getTwoIndices_returns {recur : List Nat} (two : 2 ≤ recur.length) :
    Returns crashes (fun indices => indices.1 ∈ recur ∧ indices.2 ∈ recur) (getTwoIndices recur) := by
  refine Returns.bind (shuffle_returns (by omega)) fun shuffled perm => ?_
  have sameLength := perm.length_eq
  have atFirst := List.getElem?_eq_getElem (show 0 < shuffled.length by omega)
  have atSecond := List.getElem?_eq_getElem (show 1 < shuffled.length by omega)
  refine Returns.bind (Returns.fetch atFirst rfl) fun firstIdx isFirst => ?_
  refine Returns.bind (Returns.fetch atSecond rfl) fun secondIdx isSecond => ?_
  subst isFirst isSecond
  exact Returns.pure ⟨perm.mem_iff.mp (List.getElem_mem _), perm.mem_iff.mp (List.getElem_mem _)⟩

/-- A state that occurs more than once: what lies between two of its positions
leads from it to itself, whichever of them comes first. -/
theorem doMult_returns {input : Walk} (valid : input.Valid aut)
    (recursive : (recurIdx (statemap aut.pda.length input)).length ≠ 0) :
    Returns crashes (Walk.Valid aut) (doMult input (recurIdx (statemap aut.pda.length input))) := by
  refine Returns.bind (Returns.below (Nat.pos_of_ne_zero recursive)) fun idx inside => ?_
  refine Returns.bind (Returns.fetch (List.getElem?_eq_getElem inside) rfl) fun recurMap isMap => ?_
  have inMap := List.getElem_mem inside
  rw [isMap] at inMap
  obtain ⟨listed, two⟩ := List.mem_filter.mp inMap
  obtain ⟨state, inStates, atState⟩ := List.getElem_of_mem listed
  have positions := List.getElem?_eq_some_iff.mpr ⟨inStates, atState⟩
  refine Returns.bind (getTwoIndices_returns (of_decide_eq_true two)) fun indices chosen => ?_
  obtain ⟨firstIdx, secondIdx⟩ := indices
  obtain ⟨first, atFirst, firstState⟩ := (mem_statemap positions).mp chosen.1
  obtain ⟨second, atSecond, secondState⟩ := (mem_statemap positions).mp chosen.2
  refine Returns.bind (Returns.below (by decide)) fun len _ => Returns.pure ?_
  have sameState : first.state = second.state := firstState.trans secondState.symm
  have sliced := valid.slice_leads atFirst
  rw [sameState] at sliced
  refine Walk.Leads.spliceGF (sliced.concatPrefixFeature ?_ len) valid atSecond
  split
  · next before =>
    rw [carve_start]
    have loop := valid.path.between (Nat.le_of_lt before) atFirst atSecond
    rwa [sameState] at loop
  · next notBefore =>
    rw [carve_start]
    have loop := valid.path.between (Nat.not_lt.mp notBefore) atSecond atFirst
    rwa [sameState] at loop

end

/-! ## Texts and files -/

/-- The symbols of a walk, one after the other. -/
def Walk.text (walk : Walk) : List UInt8 := walk.start.flatMap Terminal.symbol

theorem foldl_strcat (written : List UInt8) (terms : List Terminal) :
    terms.foldl (fun unparsed term => strcat unparsed term.symbol) (written ++ [0]) =
      written ++ terms.flatMap Terminal.symbol ++ [0] := by
  induction terms generalizing written with
  | nil => simp
  | cons term terms ih =>
      rw [List.foldl_cons, strcat, List.dropLast_concat, ih, List.flatMap_cons, List.append_assoc written]

section

variable {aut : Automaton} {crashes : Prop}

theorem Path.text_length {first last : Nat} {terms : List Terminal} (path : Path aut first terms last) :
    (terms.flatMap Terminal.symbol).length = (terms.map Terminal.symbolLen).sum := by
  induction path with
  | nil => rfl
  | cons denotes _ ih =>
      rw [List.flatMap_cons, List.length_append, ih, List.map_cons, List.sum_cons, denotes.symbol,
        denotes.symbolLen]

/-- No symbol has a terminator, so the text has none. -/
theorem Path.text_noNul {first last : Nat} {terms : List Terminal} (path : Path aut first terms last) :
    0 ∉ terms.flatMap Terminal.symbol := by
  intro inText
  obtain ⟨term, inPath, inSymbol⟩ := List.mem_flatMap.mp inText
  obtain ⟨trigger, denotes⟩ := path.denotes term inPath
  exact trigger.noNul (denotes.symbol ▸ inSymbol)

/-- The bytes of a walk and a terminator: as many as the buffer has. -/
structure Unparsed (walk : Walk) (written : List UInt8) : Prop where
  text : written = walk.text ++ [0]
  noNul : 0 ∉ walk.text
  fills : written.length = walk.inputlen + 1

theorem unparseWalk_returns {walk : Walk} (valid : walk.Valid aut) :
    Returns crashes (Unparsed walk) (unparseWalk walk) := by
  obtain ⟨first, others, split⟩ := List.exists_cons_of_ne_nil valid.ne_nil
  have atFirst : walk.start[0]? = some first := by
    rw [split]
    rfl
  refine Returns.bind (Returns.fetch atFirst rfl) fun term isTerm => Returns.pure ?_
  subst isTerm
  have text : (walk.start.drop 1).foldl (fun unparsed term => strcat unparsed term.symbol)
      (strcpy first.symbol) = walk.text ++ [0] := by
    rw [strcpy, foldl_strcat, Walk.text, split]
    rfl
  refine ⟨text, valid.path.text_noNul, ?_⟩
  rw [text, List.length_append, Walk.text, valid.path.text_length, ← valid.inputlen]
  rfl

theorem Denotes.relink {term : Terminal} {trigger : Trigger} (denotes : Denotes aut term trigger) :
    relink aut ⟨term.state, term.triggerIdx, term.symbolLen⟩ = some term := by
  rw [Gramatron.relink, denotes.found, Option.map_some, ← denotes.symbol]

theorem Path.relink {first last : Nat} {terms : List Terminal} (path : Path aut first terms last) :
    (terms.map fun term => SavedTerminal.mk term.state term.triggerIdx term.symbolLen).mapM
      (relink aut) = some terms := by
  induction path with
  | nil => rfl
  | cons denotes _ ih =>
      rw [List.map_cons, List.mapM_cons, denotes.relink, ih]
      rfl

/-- A saved walk is read back as it was. -/
theorem parseInput_returns {walk : Walk} (valid : walk.Valid aut) :
    Returns crashes (· = walk) (parseInput aut walk.saved) :=
  Returns.bind (Returns.fetch valid.path.relink rfl) fun _ isStart => Returns.pure (isStart ▸ rfl)

/-! ## Calls -/

/-- Every walk in the files is valid. -/
def ValidFiles (aut : Automaton) (files : Name → Option SavedWalk) : Prop :=
  ∀ fn saved, files fn = some saved → ∃ walk : Walk, walk.Valid aut ∧ walk.saved = saved

/-- What holds between the calls of the mutator. -/
structure Mutator.Valid (aut : Automaton) (data : Mutator) : Prop where
  files : ValidFiles aut data.automatonFiles
  mutated : ∀ walk, data.mutatedWalk = some walk →
    walk.Valid aut ∧ Unparsed walk data.unparsedInput
  orig : ∀ walk, data.origWalk = some walk →
    walk.Valid aut ∧ data.statemap = Gramatron.statemap aut.pda.length walk ∧
      data.recurIdx = Gramatron.recurIdx data.statemap

/-- The order of calls: a test case is fuzzed after it was fetched from a queue
that has entries, and kept after it was mutated. -/
def Mutator.Ready (data : Mutator) : Call → Prop
  | .queueGet _ => True
  | .fuzz queue => data.origWalk.isSome ∧ queue ≠ []
  | .queueNewEntry _ filenameOrig => filenameOrig.isSome → data.mutatedWalk.isSome

theorem ValidFiles.writeInput {files : Name → Option SavedWalk} (valid : ValidFiles aut files)
    {walk : Walk} (walkValid : walk.Valid aut) (fn : Name) :
    ValidFiles aut (writeInput files walk fn) := by
  intro other saved found
  unfold Gramatron.writeInput at found
  split at found
  · exact valid other saved found
  · by_cases same : other = fn
    · subst same
      rw [Function.update_self] at found
      exact ⟨walk, walkValid, Option.some.inj found⟩
    · rw [Function.update_of_ne same] at found
      exact valid other saved found

theorem readInput_returns {files : Name → Option SavedWalk} (valid : ValidFiles aut files)
    (fn : Name) : Returns crashes (Walk.Valid aut) (readInput aut files fn) := by
  unfold readInput
  split
  · exact Returns.exited
  · next saved found =>
    obtain ⟨walk, walkValid, rfl⟩ := valid fn saved found
    exact (parseInput_returns walkValid).mono fun read same => same ▸ walkValid

theorem aflCustomQueueGet_returns {data : Mutator} (valid : data.Valid aut) (filename : Name) :
    Returns crashes (Mutator.Valid aut) (aflCustomQueueGet aut data filename) := by
  refine Returns.bind (readInput_returns valid.files _) fun walk walkValid => Returns.pure ?_
  refine ⟨valid.files, valid.mutated, ?_⟩
  rintro _ ⟨⟩
  exact ⟨walkValid, rfl, rfl⟩

theorem mutate_returns {data : Mutator} (valid : data.Valid aut) (queue : List Name) :
    Returns (¬ data.Ready (.fuzz queue)) (Walk.Valid aut) (mutate aut data queue) := by
  have unloaded : data.origWalk = none → ¬ data.Ready (.fuzz queue) := by
    intro none ready
    have loaded := ready.1
    rw [none] at loaded
    exact Bool.false_ne_true loaded
  have loadOrig : Returns (¬ data.Ready (.fuzz queue)) (fun walk => data.origWalk = some walk)
      (fetch data.origWalk) := Returns.fetch_or (fun _ => id) unloaded
  unfold mutate
  split
  · exact loadOrig.bind fun walk isOrig => performRandomMutation_returns (valid.orig walk isOrig).1
  · split
    · next recursive =>
      refine loadOrig.bind fun walk isOrig => ?_
      obtain ⟨origValid, isMap, isRecur⟩ := valid.orig walk isOrig
      have someRecur := recursive.2
      rw [isRecur, isMap] at someRecur ⊢
      exact doMult_returns origValid someRecur
    · split
      · have drawEntry : Returns (¬ data.Ready (.fuzz queue))
            (fun tid => queue[tid]? = none → ¬ data.Ready (.fuzz queue)) (below queue.length) := by
          by_cases empty : queue = []
          · exact (Returns.below_any _).mono fun _ _ _ ready => ready.2 empty
          · refine (Returns.below (List.length_pos_iff.mpr empty)).mono fun tid inside none => ?_
            exact absurd inside (Nat.not_lt.mpr (List.getElem?_eq_none_iff.mp none))
        refine drawEntry.bind fun tid orCrash => ?_
        refine (Returns.fetch_or (fun _ _ => trivial) orCrash).bind fun fname _ => ?_
        refine Returns.bind (readInput_returns valid.files _) fun cand candValid => ?_
        refine loadOrig.bind fun walk isOrig => ?_
        obtain ⟨origValid, isMap, -⟩ := valid.orig walk isOrig
        rw [isMap]
        exact performSpliceOne_returns origValid candValid
      · exact genInput_returns aut

theorem aflCustomFuzz_returns {data : Mutator} (valid : data.Valid aut) (queue : List Name) :
    Returns (¬ data.Ready (.fuzz queue)) (Mutator.Valid aut) (aflCustomFuzz aut data queue) := by
  refine Returns.bind (mutate_returns valid queue) fun walk walkValid => ?_
  refine Returns.bind (unparseWalk_returns walkValid) fun written unparsed => Returns.pure ?_
  refine ⟨valid.files, ?_, valid.orig⟩
  rintro _ ⟨⟩
  exact ⟨walkValid, unparsed⟩

theorem aflCustomQueueNewEntry_returns {data : Mutator} (valid : data.Valid aut)
    (filenameNew : Name) (filenameOrig : Option Name) :
    Returns (¬ data.Ready (.queueNewEntry filenameNew filenameOrig)) (Mutator.Valid aut)
      (aflCustomQueueNewEntry aut data filenameNew filenameOrig) := by
  cases filenameOrig with
  | some filename =>
      refine Returns.bind (Returns.fetch_or (fun _ => id) ?_) fun walk isWalk => Returns.pure ?_
      · intro none ready
        have mutated := ready rfl
        rw [none] at mutated
        exact Bool.false_ne_true mutated
      · exact { valid with files := valid.files.writeInput (valid.mutated walk isWalk).1 _ }
  | none =>
      refine Returns.bind (genInput_returns aut) fun newInput newValid => ?_
      refine Returns.bind (unparseWalk_returns newValid) fun written _ => ?_
      split
      · exact Returns.exited
      · exact Returns.pure { valid with files := valid.files.writeInput newValid _ }

/-- One call keeps the walks valid, and it crashes only out of order. -/
theorem Mutator.call_returns {data : Mutator} (valid : data.Valid aut) (call : Call) :
    Returns (¬ data.Ready call) (Mutator.Valid aut) (data.call aut call) := by
  cases call with
  | queueGet filename => exact aflCustomQueueGet_returns valid filename
  | fuzz queue => exact aflCustomFuzz_returns valid queue
  | queueNewEntry filenameNew filenameOrig => exact aflCustomQueueNewEntry_returns valid _ _

end

/-! ## Runs -/

theorem Mutator.init_valid {aut : Automaton} {automatonFiles : Name → Option SavedWalk}
    (valid : ValidFiles aut automatonFiles) (queueFiles : Name → Option (List UInt8)) :
    (Mutator.init automatonFiles queueFiles).Valid aut :=
  ⟨valid, fun _ none => (nomatch none), fun _ none => (nomatch none)⟩

theorem gramatron_step_valid {aut : Automaton} {automatonFiles : Name → Option SavedWalk}
    {queueFiles : Name → Option (List UInt8)} {data next : Mutator} {action : Call × List Nat}
    (valid : data.Valid aut)
    (stepped : (gramatron aut automatonFiles queueFiles).step data action = some next) :
    next.Valid aut := by
  obtain ⟨⟨returned, rest⟩, isOk, rfl⟩ := Option.map_eq_some_iff.mp stepped
  cases result : data.call aut action.1 action.2 with
  | error reason =>
      rw [result] at isOk
      cases isOk
  | ok pair =>
      rw [result] at isOk
      cases isOk
      exact (data.call_returns valid action.1).of_ok result

/-- In every state that calls and random choices lead to, the mutated walk is a
path from the initial to the final state with the length of its text, the text
fills its buffer, and so it is for the walks on disk; a call in order does not
leave the program's memory. -/
theorem gramatron_reachable_valid {aut : Automaton} {automatonFiles : Name → Option SavedWalk}
    (validFiles : ValidFiles aut automatonFiles) {queueFiles : Name → Option (List UInt8)}
    {data : Mutator} (reachable : (gramatron aut automatonFiles queueFiles).Reachable data) :
    data.Valid aut ∧ ∀ (call : Call) (choices : List Nat), data.Ready call →
      data.call aut call choices ≠ .error .crashed := by
  have valid : data.Valid aut := (gramatron aut automatonFiles queueFiles).reachable_invariant
    (Mutator.Valid aut) (Mutator.init_valid validFiles queueFiles)
    (fun _ _ _ valid stepped => gramatron_step_valid valid stepped) reachable
  exact ⟨valid, fun call choices ready crashed =>
    (data.call_returns valid call).of_crashed crashed ready⟩

/-- State 0 goes to 1 with `a`, from where `b` leads back and `c` to the end. -/
def abc : Automaton where
  pda := [[⟨1, [97], by decide⟩], [⟨0, [98], by decide⟩, ⟨2, [99], by decide⟩]]
  initState := 0
  finalState := 2
  init_ne_final := by decide
  init_lt := by decide
  dest_lt := by simp
  hasTrigger := by
    intro state triggers found _
    obtain ⟨inside, rfl⟩ := List.getElem?_eq_some_iff.mp found
    match state, inside with
    | 0, _ => exact List.cons_ne_nil _ _
    | 1, _ => exact List.cons_ne_nil _ _

/-- An initial input is generated, fetched and mutated. -/
def abcRun : List (Call × List Nat) :=
  [(.queueNewEntry ['q'] none, [0, 1]), (.queueGet ['q'], []), (.fuzz [['q']], [1, 1])]

theorem gramatron_reachable_valid_abc :
    ∃ data, (gramatron abc (fun _ => none) fun _ => some []).run abcRun = some data ∧
      data.mutatedWalk.isSome = true ∧ data.Valid abc :=
  ⟨_, rfl, rfl, (@gramatron_reachable_valid abc (fun _ => none) (by rintro _ _ ⟨⟩)
    (fun _ => some []) _ ⟨abcRun, rfl⟩).1⟩

end SbFuzz.CustomMutators.Gramatron
