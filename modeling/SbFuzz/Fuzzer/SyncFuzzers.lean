import Mathlib.Data.List.TakeWhile
import SbFuzz.Fuzzer.Queue
import SbFuzz.Systems.Strings

/-! Importing the queue of a peer: the marker of what was seen, matched against the
sorted names of a directory that grows between the rounds. -/

set_option autoImplicit false

namespace SbFuzz.Fuzzer

open SbFuzz.Systems

/-- A file of the peer's queue, which may fail to open. Its name goes on with a
comma and a description behind the id. -/
structure PeerFile where
  description : List UInt8
  size : Nat
  opens : Bool

/-- The peer's files by their ids. -/
structure Peer where
  files : Nat → PeerFile

/-- What a queue directory holds: `.`, `..` and `.state`, and the files. -/
inductive PeerEntry where
  | hidden (rest : List UInt8)
  | queued (id : Nat)
  deriving DecidableEq

def hiddenEntries : List PeerEntry :=
  [.hidden [], .hidden [0x2e], .hidden [0x73, 0x74, 0x61, 0x74, 0x65]]

/-- `id:%06u`. -/
def casePrefix (id : Nat) : List UInt8 := 0x69 :: 0x64 :: 0x3a :: paddedDecimal 6 id

def Peer.name (peer : Peer) : PeerEntry → List UInt8
  | .hidden rest => 0x2e :: rest
  | .queued id => casePrefix id ++ 0x2c :: (peer.files id).description

/-- `alphasort` on two entries. -/
def Peer.before (peer : Peer) (first second : PeerEntry) : Bool :=
  strcmpLe (peer.name first) (peer.name second)

/-- The names are distinct, so their order in the directory does not matter. -/
def Peer.scandir (peer : Peer) (n : Nat) : List PeerEntry :=
  (hiddenEntries ++ (List.range n).map PeerEntry.queued).mergeSort peer.before

/-- `strncmp(name, entry, 9) == 0`. -/
def Peer.accepts (peer : Peer) (minAccept : Nat) (entry : PeerEntry) : Bool :=
  (peer.name entry).take 9 = (casePrefix minAccept).take 9

/-- Files that are empty or too large are not executed. -/
def Peer.importable (peer : Peer) (id : Nat) : Bool :=
  (peer.files id).opens && (peer.files id).size ≠ 0 && (peer.files id).size ≤ maxFile

def Peer.execute (peer : Peer) : PeerEntry → Option Nat
  | .hidden _ => none
  | .queued id => if peer.importable id then some id else none

/-- What the `.synced` file holds, and what was executed up to now. -/
@[ext] structure Synced where
  nextMinAccept : Nat
  executed : List Nat

/-- The loop over the entries from the first accepted one on. The counter goes up
for files that are not executed, too. -/
def Peer.importFrom (peer : Peer) (synced : Synced) (entries : List PeerEntry) : Synced :=
  entries.foldl (fun synced entry =>
    { nextMinAccept := (synced.nextMinAccept + 1) % 2 ^ 32
      executed := synced.executed ++ (peer.execute entry).toList }) synced

/-- A round that the user does not stop, when there are `n` files. -/
def Peer.syncRound (peer : Peer) (synced : Synced) (n : Nat) : Synced :=
  peer.importFrom synced
    ((peer.scandir n).dropWhile fun entry => !peer.accepts synced.nextMinAccept entry)

/-- Rounds at which there are that many files. -/
def Peer.syncFuzzers (peer : Peer) (counts : List Nat) : Synced :=
  counts.foldl peer.syncRound ⟨0, []⟩

/-! When the rounds import every file of a peer once and in order. -/

/-! ## Names -/

section

variable {peer : Peer} {m n id : Nat}

theorem casePrefix_of_lt (small : id < 10 ^ 6) :
    casePrefix id = [0x69, 0x64, 0x3a] ++ decimalDigits 6 id := by
  rw [casePrefix, paddedDecimal_of_lt small (by decide)]
  rfl

theorem casePrefix_length (small : id < 10 ^ 6) : (casePrefix id).length = 9 := by
  rw [casePrefix_of_lt small, List.length_append, length_decimalDigits]
  rfl

/-- Ids of six digits are in the order of their names. -/
theorem before_queued (less : m < n) (small : n < 10 ^ 6) :
    peer.before (.queued m) (.queued n) = true ∧ peer.before (.queued n) (.queued m) = false := by
  simp only [Peer.before, Peer.name, casePrefix_of_lt small, casePrefix_of_lt (less.trans small),
    List.append_assoc, strcmpLe_append]
  exact strcmpLe_decimalDigits less small _ _

theorem before_hidden (rest : List UInt8) (id : Nat) :
    peer.before (.hidden rest) (.queued id) = true ∧
      peer.before (.queued id) (.hidden rest) = false := by
  constructor
  · rfl
  · rfl

theorem accepts_hidden (rest : List UInt8) (m : Nat) : peer.accepts m (.hidden rest) = false := by
  simp [Peer.accepts, Peer.name, casePrefix]

theorem accepts_queued (small : id < 10 ^ 6) :
    peer.accepts m (.queued id) = true ↔ casePrefix id = (casePrefix m).take 9 := by
  rw [Peer.accepts, Peer.name, decide_eq_true_eq, List.take_append_of_le_length
    (Nat.le_of_eq (casePrefix_length small).symm), List.take_of_length_le
    (Nat.le_of_eq (casePrefix_length small))]

/-- Of the ids of six digits a marker of six digits accepts itself only. -/
theorem accepts_iff (smallId : id < 10 ^ 6) (smallMarker : m < 10 ^ 6) :
    peer.accepts m (.queued id) = true ↔ id = m := by
  rw [accepts_queued smallId, List.take_of_length_le (Nat.le_of_eq (casePrefix_length smallMarker))]
  constructor
  · intro same
    by_contra different
    have sameBoth : ∀ rest, strcmpLe (casePrefix id ++ rest) (casePrefix m ++ rest) =
        strcmpLe (casePrefix m ++ rest) (casePrefix id ++ rest) := fun rest => by rw [same]
    have both := sameBoth []
    rw [casePrefix_of_lt smallId, casePrefix_of_lt smallMarker, List.append_assoc,
      List.append_assoc, strcmpLe_append, strcmpLe_append] at both
    rcases Nat.lt_or_gt_of_ne different with less | more
    · obtain ⟨low, high⟩ := strcmpLe_decimalDigits less smallMarker [] []
      rw [low, high] at both
      cases both
    · obtain ⟨low, high⟩ := strcmpLe_decimalDigits more smallId [] []
      rw [low, high] at both
      cases both
  · rintro rfl
    rfl

/-! ## Listings -/

theorem range_split (grown : m ≤ n) : List.range m ++ List.range' m (n - m) = List.range n := by
  obtain ⟨more, rfl⟩ := Nat.exists_eq_add_of_le grown
  rw [Nat.add_sub_cancel_left, List.range_add, List.range'_eq_map_range]

theorem scandir_sorted (n : Nat) :
    (peer.scandir n).Pairwise fun a b => peer.before a b = true := by
  apply List.pairwise_mergeSort
  · intro a b c low high
    exact strcmpLe_trans low high
  · intro a b
    rw [Bool.or_eq_true]
    exact strcmpLe_total (peer.name a) (peer.name b)

theorem mem_scandir : .queued id ∈ peer.scandir n ↔ id < n := by
  simp [Peer.scandir, hiddenEntries]

/-- As long as all ids have six digits the listing is in the order of the ids. -/
theorem scandir_of_le (small : n ≤ 10 ^ 6) :
    peer.scandir n = hiddenEntries ++ (List.range n).map .queued := by
  apply List.mergeSort_of_pairwise
  rw [List.pairwise_append]
  refine ⟨?_, ?_, ?_⟩
  · simp [hiddenEntries, Peer.before, Peer.name, strcmpLe]
  · rw [List.pairwise_map]
    apply List.pairwise_lt_range.imp_of_mem
    intro a b _ inside less
    exact (before_queued less ((List.mem_range.mp inside).trans_le small)).1
  · intro first isHidden second isQueued
    obtain ⟨id, _, rfl⟩ := List.mem_map.mp isQueued
    simp only [hiddenEntries, List.mem_cons, List.not_mem_nil, or_false] at isHidden
    rcases isHidden with rfl | rfl | rfl
    all_goals exact (before_hidden _ id).1

/-! ## Rounds -/

/-- The entries that a round goes through. -/
def Peer.pending (peer : Peer) (marker n : Nat) : List PeerEntry :=
  (peer.scandir n).dropWhile fun entry => !peer.accepts marker entry

theorem pending_of_le (below : m < 10 ^ 6) (grown : m ≤ n) (small : n ≤ 10 ^ 6) :
    peer.pending m n = (List.range' m (n - m)).map .queued := by
  have skipped : ∀ entry ∈ hiddenEntries ++ (List.range m).map PeerEntry.queued,
      (!peer.accepts m entry) = true := by
    intro entry member
    rcases List.mem_append.mp member with isHidden | isQueued
    · simp only [hiddenEntries, List.mem_cons, List.not_mem_nil, or_false] at isHidden
      rcases isHidden with rfl | rfl | rfl
      all_goals rw [accepts_hidden, Bool.not_false]
    · obtain ⟨id, inside, rfl⟩ := List.mem_map.mp isQueued
      have less := List.mem_range.mp inside
      rw [Bool.not_eq_true', Bool.eq_false_iff]
      intro accepted
      exact Nat.ne_of_lt less ((accepts_iff (less.trans below) below).mp accepted)
  rw [Peer.pending, scandir_of_le small, ← range_split grown, List.map_append, ← List.append_assoc,
    List.dropWhile_append_of_pos skipped]
  cases fresh : n - m with
  | zero => rfl
  | succ more =>
      have first : peer.accepts m (.queued m) = true := (accepts_iff below below).mpr rfl
      rw [List.range'_succ, List.map_cons, List.dropWhile_cons_of_neg (by simp [first])]

theorem importFrom_executed (synced : Synced) (entries : List PeerEntry) :
    (peer.importFrom synced entries).executed =
      synced.executed ++ entries.filterMap peer.execute := by
  induction entries generalizing synced with
  | nil => simp [Peer.importFrom]
  | cons entry entries ih =>
      rw [Peer.importFrom, List.foldl_cons, ← Peer.importFrom, ih, List.append_assoc]
      cases found : peer.execute entry with
      | none => simp [found]
      | some id => simp [found]

theorem importFrom_marker (synced : Synced) (entries : List PeerEntry)
    (fits : synced.nextMinAccept + entries.length < 2 ^ 32) :
    (peer.importFrom synced entries).nextMinAccept = synced.nextMinAccept + entries.length := by
  induction entries generalizing synced with
  | nil => rfl
  | cons entry entries ih =>
      rw [List.length_cons] at fits
      have one : (synced.nextMinAccept + 1) % 2 ^ 32 = synced.nextMinAccept + 1 :=
        Nat.mod_eq_of_lt (by omega)
      rw [Peer.importFrom, List.foldl_cons, ← Peer.importFrom, ih]
      · simp only [one, List.length_cons]
        omega
      · simp only [one]
        omega

/-- All files are executed that are among the first `n`. -/
def Peer.AllImportable (peer : Peer) (n : Nat) : Prop := ∀ id < n, peer.importable id = true

theorem execute_queued {ids : List Nat} (all : ∀ id ∈ ids, peer.importable id = true) :
    (ids.map PeerEntry.queued).filterMap peer.execute = ids := by
  rw [List.filterMap_map]
  have each : ∀ id ∈ ids, (peer.execute ∘ PeerEntry.queued) id = some id := fun id member => by
    simp [Peer.execute, all id member]
  rw [List.filterMap_congr each, List.filterMap_some]

/-- A round imports all new files while ids have six digits. -/
theorem syncRound_of_le (all : peer.AllImportable n) (below : m < 10 ^ 6) (grown : m ≤ n)
    (small : n ≤ 10 ^ 6) :
    peer.syncRound ⟨m, List.range m⟩ n = ⟨n, List.range n⟩ := by
  have entries : peer.pending m n = _ := pending_of_le below grown small
  have fits : m + (peer.pending m n).length < 2 ^ 32 := by
    rw [entries, List.length_map, List.length_range']
    omega
  have marker : (peer.importFrom _ _).nextMinAccept = _ :=
    importFrom_marker ⟨m, List.range m⟩ (peer.pending m n) fits
  have executed : (peer.importFrom _ _).executed = _ :=
    importFrom_executed ⟨m, List.range m⟩ (peer.pending m n)
  rw [entries, execute_queued fun id member => all id (by
    have inside := List.mem_range'_1.mp member
    omega), range_split grown, ← entries] at executed
  rw [entries, List.length_map, List.length_range', ← entries] at marker
  have moved : m + (n - m) = n := by omega
  exact Synced.ext (marker.trans moved) executed

/-! ## Beyond six digits -/

theorem scandir_split (marker n : Nat) : ∃ passed, peer.scandir n = passed ++ peer.pending marker n ∧
    ∀ entry ∈ passed, peer.accepts marker entry = false := by
  refine ⟨(peer.scandir n).takeWhile fun entry => !peer.accepts marker entry,
    List.takeWhile_append_dropWhile.symm, fun entry member => ?_⟩
  simpa using List.mem_takeWhile_imp member

theorem pending_sorted (marker n : Nat) :
    (peer.pending marker n).Pairwise fun a b => peer.before a b = true :=
  (scandir_sorted n).sublist (List.dropWhile_sublist _)

theorem mem_pending_self {marker : Nat} (accepted : peer.accepts marker (.queued m) = true)
    (inside : m < n) : .queued m ∈ peer.pending marker n := by
  obtain ⟨passed, split, refused⟩ := @scandir_split peer marker n
  have member : .queued m ∈ peer.scandir n := mem_scandir.mpr inside
  rw [split, List.mem_append] at member
  rcases member with before | now
  · rw [refused _ before] at accepted
    cases accepted
  · exact now

/-- Behind an accepted file all files are gone through. -/
theorem mem_pending {marker : Nat} (accepted : peer.accepts marker (.queued m) = true)
    (inside : m < n) (known : id < n) (behind : peer.before (.queued id) (.queued m) = false) :
    .queued id ∈ peer.pending marker n := by
  obtain ⟨passed, split, _⟩ := @scandir_split peer marker n
  have member : .queued id ∈ peer.scandir n := mem_scandir.mpr known
  rw [split, List.mem_append] at member
  rcases member with before | now
  · have sorted := @scandir_sorted peer n
    rw [split, List.pairwise_append] at sorted
    have contra := sorted.2.2 _ before _ (mem_pending_self accepted inside)
    rw [behind] at contra
    cases contra
  · exact now

/-- Nothing hidden comes up behind a file. -/
theorem pending_queued {marker : Nat} {entry : PeerEntry} (member : entry ∈ peer.pending marker n) :
    ∃ id < n, entry = .queued id := by
  have listed : entry ∈ peer.scandir n := (List.dropWhile_sublist _).subset member
  cases entry with
  | queued id => exact ⟨id, mem_scandir.mp listed, rfl⟩
  | hidden rest =>
      exfalso
      have sorted := @pending_sorted peer marker n
      have first := List.head?_dropWhile_not (fun entry => !peer.accepts marker entry)
        (peer.scandir n)
      rw [← Peer.pending] at first
      cases whole : peer.pending marker n with
      | nil =>
          rw [whole] at member
          cases member
      | cons head entries =>
          rw [whole] at member sorted first
          have accepted : peer.accepts marker head = true := by simpa using first
          cases head with
          | hidden name =>
              rw [accepts_hidden] at accepted
              cases accepted
          | queued id =>
              rcases List.mem_cons.mp member with same | later
              · cases same
              · have order := (List.pairwise_cons.mp sorted).1 _ later
                rw [(before_hidden rest id).2] at order
                cases order

/-- The ids that a round goes through. -/
theorem pending_ids (all : peer.AllImportable n) (marker : Nat) :
    peer.pending marker n =
      ((peer.pending marker n).filterMap peer.execute).map PeerEntry.queued := by
  have each : ∀ entries : List PeerEntry, (∀ entry ∈ entries, ∃ id < n, entry = .queued id) →
      entries = (entries.filterMap peer.execute).map PeerEntry.queued := by
    intro entries known
    induction entries with
    | nil => rfl
    | cons entry entries ih =>
        obtain ⟨id, inside, rfl⟩ := known entry List.mem_cons_self
        have executed : peer.execute (.queued id) = some id := by simp [Peer.execute, all id inside]
        rw [List.filterMap_cons_some executed, List.map_cons,
          ← ih fun other member => known other (List.mem_cons_of_mem _ member)]
  exact each _ fun entry member => pending_queued member

/-- Ids that go on from `m` in order are consecutive. -/
theorem consecutive {ids rest : List Nat} {last : Nat}
    (whole : List.range m ++ ids ++ rest = List.range last) : ids = List.range' m ids.length := by
  have size := congrArg List.length whole
  simp only [List.length_append, List.length_range] at size
  apply List.ext_getElem
  · rw [List.length_range']
  · intro i inside _
    have position : m + i < last := by omega
    have there : (List.range m ++ ids ++ rest)[m + i]? = some (m + i) := by
      rw [whole, List.getElem?_range position]
    rw [List.append_assoc, List.getElem?_append_right (by simp), List.length_range,
      Nat.add_sub_cancel_left, List.getElem?_append_left inside,
      List.getElem?_eq_getElem inside] at there
    rw [List.getElem_range', Nat.one_mul]
    exact Option.some.inj there

theorem casePrefix_million : casePrefix (10 ^ 6) = [0x69, 0x64, 0x3a] ++ decimalDigits 7 (10 ^ 6) := by
  have digits : Nat.log 10 (10 ^ 6) = 6 := Nat.log_pow (by decide) 6
  rw [casePrefix, paddedDecimal, digits]
  rfl

/-- A marker of seven digits accepts a file again that was imported. -/
theorem pending_million (all : peer.AllImportable n) (many : 10 ^ 6 ≤ n) (count : Nat) :
    (peer.pending (10 ^ 6) n).filterMap peer.execute ≠ List.range' (10 ^ 6) count := by
  intro inOrder
  have accepted : peer.accepts (10 ^ 6) (.queued 100000) = true := by
    rw [accepts_queued (by decide), casePrefix_of_lt (by decide), casePrefix_million]
    decide
  have again : PeerEntry.queued 100000 ∈ peer.pending (10 ^ 6) n :=
    mem_pending_self accepted (by omega)
  rw [pending_ids all, inOrder] at again
  obtain ⟨id, member, same⟩ := List.mem_map.mp again
  have later := List.mem_range'_1.mp member
  cases same
  omega

/-- A round that meets more files than six digits can name does not go in order, or
ends with the last file of six digits. -/
theorem pending_beyond (all : peer.AllImportable n) (below : m < 10 ^ 6) (many : 10 ^ 6 < n)
    {count : Nat}
    (inOrder : (peer.pending m n).filterMap peer.execute = List.range' m count) :
    count = 10 ^ 6 - m := by
  have entries := pending_ids all m
  rw [inOrder] at entries
  have accepted : peer.accepts m (.queued m) = true := (accepts_iff below below).mpr rfl
  have last : PeerEntry.queued 999999 ∈ peer.pending m n := by
    rcases Nat.lt_or_ge m 999999 with before | atLast
    · exact mem_pending accepted (by omega) (by omega) (before_queued before (by decide)).2
    · obtain rfl : m = 999999 := by omega
      exact mem_pending_self accepted (by omega)
  have sorted := @pending_sorted peer m n
  rw [entries] at last sorted
  obtain ⟨id, member, same⟩ := List.mem_map.mp last
  cases same
  have range := List.mem_range'_1.mp member
  by_contra different
  have beyond : 10 ^ 6 - m < count := by omega
  -- the name of the first file of seven digits comes before that of the last one of six
  rw [List.pairwise_map, List.pairwise_iff_getElem] at sorted
  have order := sorted (999999 - m) (10 ^ 6 - m) (by rw [List.length_range']; omega)
    (by rw [List.length_range']; omega) (by omega)
  simp only [List.getElem_range', Nat.one_mul] at order
  have here : m + (999999 - m) = 999999 := by omega
  have next : m + (10 ^ 6 - m) = 10 ^ 6 := by omega
  rw [here, next, Peer.before, Peer.name, Peer.name, casePrefix_million,
    casePrefix_of_lt (by decide), List.append_assoc, List.append_assoc, strcmpLe_append] at order
  cases order

/-! ## Runs of rounds -/

theorem first_le_last {counts : List Nat} (growing : (m :: counts).Pairwise (· ≤ ·)) :
    m ≤ counts.getLastD m := by
  have member : counts.getLastD m ∈ m :: counts := List.getLastD_mem_cons
  rcases List.mem_cons.mp member with same | later
  · rw [same]
  · exact (List.pairwise_cons.mp growing).1 _ later

theorem syncRounds_executed (synced : Synced) (counts : List Nat) :
    ∃ rest, (counts.foldl peer.syncRound synced).executed = synced.executed ++ rest ∧
      ∀ id ∈ rest, peer.importable id = true := by
  induction counts generalizing synced with
  | nil => exact ⟨[], by simp, by simp⟩
  | cons n counts ih =>
      obtain ⟨rest, executed, importable⟩ := ih (peer.syncRound synced n)
      rw [Peer.syncRound, importFrom_executed, List.append_assoc] at executed
      refine ⟨_, executed, fun id member => ?_⟩
      rcases List.mem_append.mp member with here | later
      · obtain ⟨entry, _, found⟩ := List.mem_filterMap.mp here
        cases entry with
        | hidden name => cases found
        | queued other =>
            rw [Peer.execute] at found
            split at found
            · next good => exact Option.some.inj found ▸ good
            · cases found
      · exact importable id later

/-- Rounds that see ids of six digits import everything, by induction on the rounds. -/
theorem syncRounds_import {counts : List Nat} (growing : (m :: counts).Pairwise (· ≤ ·))
    (all : peer.AllImportable (counts.getLastD m)) (early : ∀ n ∈ (m :: counts).dropLast, n < 10 ^ 6)
    (small : counts.getLastD m ≤ 10 ^ 6) :
    counts.foldl peer.syncRound ⟨m, List.range m⟩ =
      ⟨counts.getLastD m, List.range (counts.getLastD m)⟩ := by
  induction counts generalizing m with
  | nil => rfl
  | cons n counts ih =>
      rw [List.getLastD_cons] at all small ⊢
      have later := (List.pairwise_cons.mp growing).2
      have reach := first_le_last later
      have round : peer.syncRound ⟨m, List.range m⟩ n = ⟨n, List.range n⟩ :=
        syncRound_of_le (fun id below => all id (by omega)) (early m (by simp))
          ((List.pairwise_cons.mp growing).1 n (by simp)) (by omega)
      rw [List.foldl_cons, round]
      exact ih later all (fun other member => early other (by simp [member])) small

/-- If everything is imported in order, the rounds have seen ids of six digits. -/
theorem syncRounds_sixDigits {counts : List Nat} (growing : (m :: counts).Pairwise (· ≤ ·))
    (all : peer.AllImportable (counts.getLastD m)) (start : m ≤ 10 ^ 6)
    (inOrder : (counts.foldl peer.syncRound ⟨m, List.range m⟩).executed =
      List.range (counts.getLastD m)) :
    (∀ n ∈ (m :: counts).dropLast, n < 10 ^ 6) ∧ counts.getLastD m ≤ 10 ^ 6 := by
  induction counts generalizing m with
  | nil => exact ⟨by simp, start⟩
  | cons n counts ih =>
      rw [List.getLastD_cons] at all inOrder ⊢
      rw [List.foldl_cons] at inOrder
      have later := (List.pairwise_cons.mp growing).2
      have grown : m ≤ n := (List.pairwise_cons.mp growing).1 n (by simp)
      have allHere : peer.AllImportable n := fun id below =>
        all id (below.trans_le (first_le_last later))
      obtain ⟨rest, executed, _⟩ := @syncRounds_executed peer (peer.syncRound ⟨m, List.range m⟩ n) counts
      rw [Peer.syncRound, importFrom_executed, ← Peer.pending] at executed
      have ids := consecutive (executed.symm.trans inOrder)
      have below : m < 10 ^ 6 := by
        by_contra stuck
        obtain rfl : m = 10 ^ 6 := by omega
        exact pending_million allHere grown _ ids
      rcases Nat.lt_or_ge (10 ^ 6) n with many | small
      · -- the round ends with the last file of six digits, and no later one goes on from there
        exfalso
        have count := pending_beyond allHere below many ids
        have size := congrArg List.length (pending_ids allHere m)
        rw [List.length_map, count] at size
        have moved : m + (10 ^ 6 - m) = 10 ^ 6 := by omega
        have marker : (peer.importFrom ⟨m, List.range m⟩ (peer.pending m n)).nextMinAccept = _ :=
          importFrom_marker _ _ (by rw [size]; dsimp only; omega)
        have round : peer.syncRound ⟨m, List.range m⟩ n = ⟨10 ^ 6, List.range (10 ^ 6)⟩ := by
          apply Synced.ext
          · exact marker.trans (by rw [size]; exact moved)
          · rw [Peer.syncRound, importFrom_executed, ← Peer.pending, ids, count]
            dsimp only
            rw [range_split below.le]
        rw [round] at inOrder
        cases counts with
        | nil =>
            have same := congrArg List.length inOrder
            simp only [List.foldl_nil, List.length_range, List.getLastD_nil] at same
            omega
        | cons other counts =>
            have behind : (10 ^ 6 :: other :: counts).Pairwise (· ≤ ·) := by
              obtain ⟨bound, sorted⟩ := List.pairwise_cons.mp later
              exact List.pairwise_cons.mpr ⟨fun k member => many.le.trans (bound k member), sorted⟩
            rw [List.getLastD_cons] at all inOrder
            have early : 10 ^ 6 < 10 ^ 6 := (ih behind (by rwa [List.getLastD_cons]) (by omega)
              (by rwa [List.getLastD_cons])).1 (10 ^ 6) (by simp)
            exact Nat.lt_irrefl _ early
      · have round : peer.syncRound ⟨m, List.range m⟩ n = ⟨n, List.range n⟩ :=
          syncRound_of_le allHere below grown small
        rw [round] at inOrder
        obtain ⟨early, last⟩ := ih later all small inOrder
        refine ⟨fun other member => ?_, last⟩
        rw [List.dropLast_cons_cons] at member
        rcases List.mem_cons.mp member with rfl | behind
        · exact below
        · exact early other behind

end

/-- All files are imported once and in the order of their ids exactly when no file is
empty, too large or impossible to open and no round but the last has seen as many
files as six digits can name. -/
theorem syncFuzzers_inOrder_iff (peer : Peer) (counts : List Nat)
    (growing : counts.Pairwise (· ≤ ·)) :
    (peer.syncFuzzers counts).executed = List.range (counts.getLastD 0) ↔
      peer.AllImportable (counts.getLastD 0) ∧ (∀ n ∈ counts.dropLast, n < 10 ^ 6) ∧
        counts.getLastD 0 ≤ 10 ^ 6 := by
  have fromZero : (0 :: counts).Pairwise (· ≤ ·) :=
    List.pairwise_cons.mpr ⟨fun n _ => Nat.zero_le n, growing⟩
  constructor
  · intro inOrder
    have all : peer.AllImportable (counts.getLastD 0) := by
      obtain ⟨rest, executed, importable⟩ := @syncRounds_executed peer ⟨0, []⟩ counts
      intro id below
      apply importable
      rw [← List.nil_append rest, ← executed, ← Peer.syncFuzzers, inOrder]
      exact List.mem_range.mpr below
    obtain ⟨early, small⟩ := syncRounds_sixDigits fromZero all (by omega) inOrder
    refine ⟨all, fun n member => ?_, small⟩
    cases counts with
    | nil => cases member
    | cons first counts => exact early n (List.mem_cons_of_mem _ member)
  · rintro ⟨all, early, small⟩
    have imported : peer.syncFuzzers counts = _ := syncRounds_import fromZero all (fun n member => by
      cases counts with
      | nil => simp at member
      | cons first counts =>
          rcases List.mem_cons.mp member with rfl | behind
          · decide
          · exact early n behind) small
    rw [imported]

def smallFiles : Peer where
  files := fun _ => { description := [], size := 1, opens := true }

theorem smallFiles_importable (n : Nat) : smallFiles.AllImportable n := by
  intro id _
  simp [Peer.importable, smallFiles, maxFile]

theorem syncFuzzers_inOrder_iff_twice : (smallFiles.syncFuzzers [2, 5]).executed = [0, 1, 2, 3, 4] :=
  (syncFuzzers_inOrder_iff smallFiles [2, 5] (by decide)).mpr
    ⟨smallFiles_importable 5, by decide, by decide⟩

/-- After a million files a second round imports one of them again. -/
theorem syncFuzzers_again :
    ¬ ∀ (peer : Peer) (counts : List Nat), counts.Pairwise (· ≤ ·) →
      peer.AllImportable (counts.getLastD 0) →
      (peer.syncFuzzers counts).executed = List.range (counts.getLastD 0) := by
  intro holds
  have all := smallFiles_importable (10 ^ 6)
  have inOrder := holds smallFiles [10 ^ 6, 10 ^ 6] (by decide) all
  have sixDigits := syncRounds_sixDigits (by decide) all (Nat.zero_le _) inOrder
  exact Nat.lt_irrefl _ (sixDigits.1 (10 ^ 6) (by decide))

end SbFuzz.Fuzzer
