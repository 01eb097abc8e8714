import SbFuzz.Fuzzer.FastResume
import Mathlib.Data.List.Perm.Basic

/-! Which record a file of the queue gets when the fuzzer resumes in place. -/

set_option autoImplicit false

namespace SbFuzz.Fuzzer

open SbFuzz.Systems (Codec Block)

/-! ## The stream -/

section

variable {Fields Name : Type} (fields : Codec Fields) {mapSize : Nat}

theorem readRecord_write (record : SavedRecord Fields mapSize) (rest : List UInt8) :
    readRecord fields mapSize (writeRecord fields record ++ rest) = some (record, rest) := by
  simp [readRecord, writeRecord, List.append_assoc, Codec.read_write]

/-- Records go to entries by position. -/
theorem attachRecords_write (queue : List (Pivoted Name))
    (records : List (SavedRecord Fields mapSize)) (rest : List UInt8)
    (sameLength : queue.length = records.length) :
    attachRecords fields mapSize queue (records.flatMap (writeRecord fields) ++ rest) =
      some (queue.zip records, rest) := by
  induction queue generalizing records with
  | nil =>
      obtain rfl := List.eq_nil_of_length_eq_zero sameLength.symm
      rfl
  | cons entry queue ih =>
      cases records with
      | nil => exact absurd sameLength (by simp)
      | cons record records =>
          have restLength : queue.length = records.length := Nat.succ.inj sameLength
          simp [attachRecords, List.append_assoc, readRecord_write, ih records restLength]

theorem readMaps_write (maps : SavedMaps mapSize) (rest : List UInt8) :
    readMaps mapSize (maps.virginBits.val ++ (maps.virginTmout.val ++ (maps.virginCrash.val ++
      (maps.varBytes.val ++ rest)))) = some (maps, rest) := by
  have block : ∀ (value : Block mapSize) (rest : List UInt8),
      (Codec.block mapSize).read (value.val ++ rest) = some (value, rest) :=
    (Codec.block mapSize).read_write
  simp [readMaps, block]

theorem loadFastresume_write (version : Block 8) (maps : SavedMaps mapSize)
    (queue : List (Pivoted Name)) (records : List (SavedRecord Fields mapSize))
    (sameLength : queue.length = records.length) :
    loadFastresume fields version mapSize queue (writeFastresume fields version maps records) =
      some (maps, queue.zip records) := by
  have header : ∀ rest : List UInt8,
      (Codec.block 8).read (version.val ++ rest) = some (version, rest) :=
    (Codec.block 8).read_write version
  have attached := attachRecords_write fields queue records [] sameLength
  rw [List.append_nil] at attached
  simp [loadFastresume, writeFastresume, List.append_assoc, header, readMaps_write, attached]

end

/-! ## The scan -/

theorem pairwise_mergeSort_key {Item Key : Type} [LinearOrder Key] (key : Item → Key)
    (items : List Item) :
    (items.mergeSort fun left right => decide (key left ≤ key right)).Pairwise
      fun left right => key left ≤ key right := by
  have sorted := @List.pairwise_mergeSort _ (fun left right => decide (key left ≤ key right))
    (fun a b c => by simpa using le_trans) (fun a b => by simpa using le_total (key a) (key b))
    items
  simpa using sorted

section

variable {Name : Type} (options : ScanOptions Name)

theorem scanDown_eq (nl : List (DirEntry Name)) (i : Nat) :
    scanDown options nl i = (nl.take i).reverse.flatMap (visitEntry options) := by
  induction i with
  | zero => rfl
  | succ i ih =>
      rw [scanDown, ih, List.take_add_one, List.reverse_append, List.flatMap_append]
      cases nl[i]? <;> simp

/-- The directory is read from its end, in some order if it is shuffled. -/
theorem readTestcases_inPlace [LinearOrder Name] (listing : List (DirEntry Name))
    (inPlace : options.inPlaceResume = true) :
    ∃ nl : List (DirEntry Name), nl.Perm listing ∧
      readTestcases options listing = nl.reverse.flatMap (visitEntry options) ∧
      (options.shuffleQueue = false →
        nl.Pairwise fun left right => left.name ≤ right.name) := by
  simp only [readTestcases, inPlace, if_true, scanDown_eq, List.take_length]
  split
  · next shuffled =>
    refine ⟨_, (options.shuffles _).trans (List.mergeSort_perm listing _), rfl, fun plain => ?_⟩
    rw [plain] at shuffled
    exact absurd shuffled.2.1 (by decide)
  · exact ⟨_, List.mergeSort_perm listing _, rfl,
      fun _ => pairwise_mergeSort_key DirEntry.name listing⟩

end

/-! ## The queue at shutdown -/

/-- An entry of the queue at shutdown with its file. -/
structure SavedEntry {Name : Type} (options : ScanOptions Name) (Fields : Type)
    (mapSize : Nat) where
  name : Name
  size : Nat
  record : SavedRecord Fields mapSize
  nonempty : 0 < size
  ordinary : options.readme name = false

section

variable {Name Fields : Type} {options : ScanOptions Name} {mapSize : Nat}

def SavedEntry.file (saved : SavedEntry options Fields mapSize) : DirEntry Name :=
  { name := saved.name, kind := .regular saved.size }

def SavedEntry.found (saved : SavedEntry options Fields mapSize) : Name × Nat :=
  (saved.name, if maxFile ≤ saved.size then maxFile else saved.size)

/-- The directory that a resumed process scans: the files of the queue, and
entries that are no test cases. -/
structure ResumeDirectory (queue : List (SavedEntry options Fields mapSize))
    (listing : List (DirEntry Name)) : Prop where
  files : ∃ others, (∀ other ∈ others, visitEntry options other = []) ∧
    listing.Perm (queue.map SavedEntry.file ++ others)
  distinct : (queue.map SavedEntry.name).Nodup

theorem SavedEntry.visit_file (saved : SavedEntry options Fields mapSize) :
    visitEntry options saved.file = [saved.found] := by
  have sized : saved.size ≠ 0 := Nat.pos_iff_ne_zero.mp saved.nonempty
  simp [visitEntry, SavedEntry.file, SavedEntry.found, sized, saved.ordinary]

theorem flatMap_visit_files (queue : List (SavedEntry options Fields mapSize)) :
    (queue.map SavedEntry.file).flatMap (visitEntry options) = queue.map SavedEntry.found := by
  induction queue with
  | nil => rfl
  | cons saved queue ih =>
      rw [List.map_cons, List.flatMap_cons, ih, SavedEntry.visit_file]
      rfl

theorem visitEntry_name {queue : List (SavedEntry options Fields mapSize)}
    {listing : List (DirEntry Name)} (directory : ResumeDirectory queue listing)
    {entry : DirEntry Name} (listed : entry ∈ listing) {found : Name × Nat}
    (visited : found ∈ visitEntry options entry) : found.1 = entry.name := by
  obtain ⟨others, skipped, files⟩ := directory.files
  rcases List.mem_append.mp (files.mem_iff.mp listed) with isFile | other
  · obtain ⟨saved, _, rfl⟩ := List.mem_map.mp isFile
    rw [SavedEntry.visit_file, List.mem_singleton] at visited
    rw [visited]
    rfl
  · rw [skipped entry other] at visited
    exact absurd visited List.not_mem_nil

/-- Every file gets the record that was saved for it. -/
def GetsBack {Pivot Record : Type} (queue : List (SavedEntry options Fields mapSize))
    (origin : Pivot → Name) (record : SavedEntry options Fields mapSize → Record)
    (attached : List (Pivot × Record)) : Prop :=
  ∀ saved ∈ queue, ∃ entry ∈ attached, origin entry.1 = saved.name ∧ entry.2 = record saved

theorem getsBack_zip_iff {Pivot Record : Type} (origin : Pivot → Name)
    (record : SavedEntry options Fields mapSize → Record)
    {queue scanned : List (SavedEntry options Fields mapSize)} {pivots : List Pivot}
    (perm : scanned.Perm queue) (distinct : (queue.map SavedEntry.name).Nodup)
    (origins : pivots.map origin = scanned.map SavedEntry.name) :
    GetsBack queue origin record (pivots.zip (queue.map record)) ↔
      scanned.map record = queue.map record := by
  have size : scanned.length = queue.length := perm.length_eq
  have pivotCount : pivots.length = scanned.length := by simpa using congrArg List.length origins
  have scannedDistinct : (scanned.map SavedEntry.name).Nodup :=
    (perm.map SavedEntry.name).nodup_iff.mpr distinct
  have originAt : ∀ k (inPivots : k < pivots.length) (inScanned : k < scanned.length),
      origin pivots[k] = scanned[k].name := by
    intro k inPivots inScanned
    have names : (pivots.map origin)[k]? = (scanned.map SavedEntry.name)[k]? := by rw [origins]
    simpa [inPivots, inScanned] using names
  constructor
  · intro back
    apply List.ext_getElem (by simpa using size)
    intro k inScanned inQueue
    rw [List.length_map] at inScanned inQueue
    rw [List.getElem_map, List.getElem_map]
    obtain ⟨entry, member, isFile, isRecord⟩ :=
      back scanned[k] (perm.mem_iff.mp (List.getElem_mem inScanned))
    obtain ⟨j, inZip, rfl⟩ := List.getElem_of_mem member
    have bounds : j < pivots.length ∧ j < queue.length := by simpa using inZip
    rw [List.getElem_zip] at isFile isRecord
    have inOther : j < scanned.length := pivotCount ▸ bounds.1
    have jNamed : j < (scanned.map SavedEntry.name).length := by simpa using inOther
    have kNamed : k < (scanned.map SavedEntry.name).length := by simpa using inScanned
    have names : (scanned.map SavedEntry.name)[j] = (scanned.map SavedEntry.name)[k] := by
      rw [List.getElem_map, List.getElem_map, ← originAt j bounds.1 inOther]
      exact isFile
    have here : j = k := (List.Nodup.getElem_inj_iff scannedDistinct).mp names
    subst here
    simpa using isRecord.symm
  · intro same saved member
    obtain ⟨k, inScanned, rfl⟩ := List.getElem_of_mem (perm.mem_iff.mpr member)
    have inPivots : k < pivots.length := pivotCount ▸ inScanned
    have inQueue : k < queue.length := size ▸ inScanned
    have records : (scanned.map record)[k]? = (queue.map record)[k]? := by rw [same]
    refine ⟨(pivots[k], record queue[k]), ?_, originAt k inPivots inScanned, ?_⟩
    · rw [List.mem_iff_getElem]
      exact ⟨k, by simp [inPivots, inQueue], by simp⟩
    · simpa [inScanned, inQueue] using records.symm

theorem pivotInputs_origin (newName : Nat → Name → Name) (found : List (Name × Nat)) :
    (pivotInputs newName found).map Pivoted.origin = found.map Prod.fst := by
  apply List.ext_getElem
  · simp [pivotInputs]
  · intro k _ _
    simp [pivotInputs]

variable [LinearOrder Name]

/-- The queue of the resumed process has the same files, by descending names
unless the queue is shuffled. -/
theorem readTestcases_resume {queue : List (SavedEntry options Fields mapSize)}
    {listing : List (DirEntry Name)} (inPlace : options.inPlaceResume = true)
    (directory : ResumeDirectory queue listing) :
    ∃ order : List (SavedEntry options Fields mapSize), order.Perm queue ∧
      readTestcases options listing = order.map SavedEntry.found ∧
      (options.shuffleQueue = false →
        order.Pairwise fun left right => right.name ≤ left.name) := by
  obtain ⟨nl, sameEntries, scanned, sorted⟩ := readTestcases_inPlace options listing inPlace
  obtain ⟨others, skipped, files⟩ := directory.files
  have noOthers : others.flatMap (visitEntry options) = [] := by
    rw [List.flatMap_eq_nil_iff]
    exact skipped
  have sameFiles : (readTestcases options listing).Perm (queue.map SavedEntry.found) := by
    have all := ((List.reverse_perm nl).trans (sameEntries.trans files)).flatMap_right
      (visitEntry options)
    rwa [← scanned, List.flatMap_append, noOthers, List.append_nil, flatMap_visit_files] at all
  have ordered : ∃ order : List (SavedEntry options Fields mapSize),
      readTestcases options listing = order.map SavedEntry.found ∧
      order.Perm queue := by
    have composed := congrFun (congrFun (List.eq_map_comp_perm
      fun saved : SavedEntry options Fields mapSize => saved.found)
      (readTestcases options listing)) queue
    exact composed.mpr sameFiles
  obtain ⟨order, found, perm⟩ := ordered
  refine ⟨order, perm, found, fun plain => ?_⟩
  have scannedDown : ((nl.reverse).flatMap (visitEntry options)).Pairwise
      fun left right => right.1 ≤ left.1 := by
    rw [List.pairwise_flatMap]
    constructor
    · intro entry listed
      rw [List.mem_reverse, sameEntries.mem_iff] at listed
      apply List.pairwise_of_forall_mem_list
      intro left inLeft right inRight
      rw [visitEntry_name directory listed inLeft, visitEntry_name directory listed inRight]
    · rw [List.pairwise_reverse]
      refine (sorted plain).imp_of_mem ?_
      intro left right leftListed rightListed ordered found inRight other inLeft
      rw [sameEntries.mem_iff] at leftListed rightListed
      rw [visitEntry_name directory rightListed inRight,
        visitEntry_name directory leftListed inLeft]
      exact ordered
  rw [← scanned, found, List.pairwise_map] at scannedDown
  exact scannedDown

/-! ## The round trip -/

section

variable (fields : Codec Fields) (version : Block 8) (maps : SavedMaps mapSize)
  (newName : Nat → Name → Name) {queue : List (SavedEntry options Fields mapSize)}
  {listing : List (DirEntry Name)}

/-- Record `k` is attached to the `k`-th file that the scan finds. -/
theorem loadFastresume_resume (inPlace : options.inPlaceResume = true)
    (directory : ResumeDirectory queue listing) :
    ∃ (order : List (SavedEntry options Fields mapSize))
      (attached : List (Pivoted Name × SavedRecord Fields mapSize)), order.Perm queue ∧
      readTestcases options listing = order.map SavedEntry.found ∧
      (options.shuffleQueue = false →
        order.Pairwise fun left right => right.name ≤ left.name) ∧
      loadFastresume fields version mapSize
        (pivotInputs newName (readTestcases options listing))
        (writeFastresume fields version maps (queue.map SavedEntry.record)) =
          some (maps, attached) ∧
      (GetsBack queue Pivoted.origin SavedEntry.record attached ↔
        order.map SavedEntry.record = queue.map SavedEntry.record) := by
  obtain ⟨order, perm, scanned, sorted⟩ := readTestcases_resume inPlace directory
  have origins : (pivotInputs newName (readTestcases options listing)).map Pivoted.origin =
      order.map SavedEntry.name := by
    rw [pivotInputs_origin, scanned, List.map_map]
    rfl
  have sameLength : (pivotInputs newName (readTestcases options listing)).length =
      (queue.map SavedEntry.record).length := by
    have lengths := congrArg List.length origins
    rw [List.length_map, List.length_map, perm.length_eq] at lengths
    rw [lengths, List.length_map]
  exact ⟨order, _, perm, scanned, sorted,
    loadFastresume_write fields version maps _ _ sameLength,
    getsBack_zip_iff Pivoted.origin SavedEntry.record perm directory.distinct origins⟩

/-- Descending is ascending backwards. -/
theorem eq_reverse_of_ascending {order : List (SavedEntry options Fields mapSize)}
    (perm : order.Perm queue) (distinct : (queue.map SavedEntry.name).Nodup)
    (descending : order.Pairwise fun left right => right.name ≤ left.name)
    (ascending : queue.Pairwise fun left right => left.name < right.name) :
    order = queue.reverse := by
  have backwards : queue.reverse.Pairwise fun left right => right.name ≤ left.name := by
    rw [List.pairwise_reverse]
    exact ascending.imp fun below => below.le
  refine (perm.trans (List.reverse_perm queue).symm).eq_of_pairwise ?_ descending backwards
  intro left right inOrder inQueue below above
  rw [perm.mem_iff] at inOrder
  rw [List.mem_reverse] at inQueue
  exact List.inj_on_of_nodup_map distinct inOrder inQueue (le_antisymm above below)

/-- An in-place resume gives the files their own records back exactly if the
records are the same sequence in the order in which the directory is read,
which is by descending names, as in the order of the queue; with names that
ascend, as the fuzzer assigns them, if the sequence of records reads the same
from both ends. -/
theorem fastResume_getsBack_iff (inPlace : options.inPlaceResume = true)
    (directory : ResumeDirectory queue listing) :
    ∃ (order : List (SavedEntry options Fields mapSize))
      (attached : List (Pivoted Name × SavedRecord Fields mapSize)), order.Perm queue ∧
      readTestcases options listing = order.map SavedEntry.found ∧
      loadFastresume fields version mapSize
        (pivotInputs newName (readTestcases options listing))
        (writeFastresume fields version maps (queue.map SavedEntry.record)) =
          some (maps, attached) ∧
      (GetsBack queue Pivoted.origin SavedEntry.record attached ↔
        order.map SavedEntry.record = queue.map SavedEntry.record) ∧
      (options.shuffleQueue = false →
        order.Pairwise fun left right => right.name ≤ left.name) ∧
      (options.shuffleQueue = false →
        queue.Pairwise (fun left right => left.name < right.name) →
        (GetsBack queue Pivoted.origin SavedEntry.record attached ↔
          (queue.map SavedEntry.record).reverse = queue.map SavedEntry.record)) := by
  obtain ⟨order, attached, perm, scanned, sorted, loaded, back⟩ :=
    loadFastresume_resume fields version maps newName inPlace directory
  refine ⟨order, attached, perm, scanned, loaded, back, sorted, fun plain ascending => ?_⟩
  rw [back, eq_reverse_of_ascending perm directory.distinct (sorted plain) ascending,
    List.map_reverse]

end

end

/-! Two files whose records differ come back with each other's record. -/

section

def sampleOptions : ScanOptions Nat where
  inPlaceResume := true
  subdirs := true
  dotted := fun name => name = 1000
  readme := fun _ => false
  oldSeedSelection := false
  shuffleQueue := false
  shuffle := id
  shuffles := List.Perm.refl

/-- Entry number `id` with one byte of fields and no minimised trace. -/
def sampleEntry (id : Nat) (field : UInt8) : SavedEntry sampleOptions (Block 1) 8 where
  name := id
  size := 4
  record := { fields := ⟨[field], rfl⟩, mini := none }
  nonempty := by decide
  ordinary := rfl

def sampleMaps : SavedMaps 8 where
  virginBits := ⟨List.replicate 8 0xff, rfl⟩
  virginTmout := ⟨List.replicate 8 0xff, rfl⟩
  virginCrash := ⟨List.replicate 8 0xff, rfl⟩
  varBytes := ⟨List.replicate 8 0, rfl⟩

def sampleVersion : Block 8 := ⟨List.replicate 8 0, rfl⟩

/-- The two files, and the directory of the fuzzer's state. -/
def sampleListing : List (DirEntry Nat) :=
  [⟨1000, .directory []⟩, ⟨0, .regular 4⟩, ⟨1, .regular 4⟩]

theorem sampleDirectory (first second : UInt8) :
    ResumeDirectory [sampleEntry 0 first, sampleEntry 1 second] sampleListing := by
  refine ⟨⟨[⟨1000, .directory []⟩], by decide, ?_⟩, by simp [sampleEntry]⟩
  exact @List.perm_append_comm (DirEntry Nat) [⟨1000, .directory []⟩] [⟨0, .regular 4⟩, ⟨1, .regular 4⟩]

theorem fastResume_swaps_records :
    ∃ attached, loadFastresume (Codec.block 1) sampleVersion 8
        (pivotInputs (fun id _ => id) (readTestcases sampleOptions sampleListing))
        (writeFastresume (Codec.block 1) sampleVersion sampleMaps
          ([sampleEntry 0 1, sampleEntry 1 2].map SavedEntry.record)) =
          some (sampleMaps, attached) ∧
      ¬ GetsBack [sampleEntry 0 1, sampleEntry 1 2] Pivoted.origin SavedEntry.record attached := by
  obtain ⟨order, attached, perm, _, sorted, loaded, back⟩ := loadFastresume_resume
    (Codec.block 1) sampleVersion sampleMaps (fun id _ => id) rfl (sampleDirectory 1 2)
  refine ⟨attached, loaded, fun gets => ?_⟩
  have same := back.mp gets
  have backwards := eq_reverse_of_ascending perm (sampleDirectory 1 2).distinct (sorted rfl)
    (by simp [sampleEntry])
  rw [backwards] at same
  simp [sampleEntry] at same

theorem fastResume_getsBack_iff_sameRecords :
    ∃ attached, loadFastresume (Codec.block 1) sampleVersion 8
        (pivotInputs (fun id _ => id) (readTestcases sampleOptions sampleListing))
        (writeFastresume (Codec.block 1) sampleVersion sampleMaps
          ([sampleEntry 0 1, sampleEntry 1 1].map SavedEntry.record)) =
          some (sampleMaps, attached) ∧
      GetsBack [sampleEntry 0 1, sampleEntry 1 1] Pivoted.origin SavedEntry.record attached := by
  obtain ⟨_, attached, _, _, loaded, _, _, back⟩ := fastResume_getsBack_iff (Codec.block 1)
    sampleVersion sampleMaps (fun id _ => id) rfl (sampleDirectory 1 1)
  exact ⟨attached, loaded, (back rfl (by simp [sampleEntry])).mpr (by simp [sampleEntry])⟩

end

end SbFuzz.Fuzzer
