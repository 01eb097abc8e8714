import Mathlib.Data.List.Induction
import Mathlib.Data.List.Sort
import Mathlib.Logic.Function.Basic
import SbFuzz.Systems.Strings

/-! Corpus minimization (`afl-cmin`): the list of input files, the smallest file
of each tuple, and the files that are copied. -/

set_option autoImplicit false

namespace SbFuzz.Utils

open SbFuzz.Systems

/-- Text in the characters of the locale. -/
abbrev Text := List Char

/-- A line of a trace file. -/
abbrev Tuple := Text

/-! ## Input directories -/

/-- A regular file somewhere below `in_dir`. -/
structure InFile where
  dirs : List Text
  name : Text
  size : Nat
  noSlash : '/' ∉ name

/-- The path from `in_dir` on. -/
def InFile.path (file : InFile) : Text := terminated '/' file.dirs ++ file.name

structure Corpus where
  /-- In the order of `find`. -/
  files : List InFile
  distinct : (files.map InFile.path).Nodup

def Corpus.nonempty (corpus : Corpus) : List InFile := corpus.files.filter (0 < ·.size)

/-! ## The programs around the script -/

/-- The double quote, the dollar sign, the grave accent and the backslash. -/
def shellSpecials : List Char := [Char.ofNat 0x22, Char.ofNat 0x24, Char.ofNat 0x60, Char.ofNat 0x5c]

/-- What the shell leaves alone between double quotes, on one line. -/
def Plain (text : Text) : Prop := ∀ c ∈ text, c ≠ '\n' ∧ c ∉ shellSpecials

/-- Files that the script itself keeps in the directories; what happens to inputs
of these names is not described here. -/
def ownNames : List Text :=
  [".traces".toList, ".all_uniq".toList, ".cur_input".toList, ".afl-cmin.test".toList]

/-- The order of the locale, and what the shell makes of `cp_tool` with two
quoted names: the paths that are copied and the names they are given. -/
structure Tools where
  collates : Text → Text → Bool
  total : ∀ left right, collates left right = true ∨ collates right left = true
  trans : ∀ first second third, collates first second = true → collates second third = true →
    collates first third = true
  copy : Text → Text → List (Text × Text)
  copy_plain : ∀ realfile fn, Plain realfile → Plain fn → fn ∉ ownNames →
    copy realfile fn = [(realfile, fn)]

/-! ## The list of input files -/

/-- A line of `stat -c '%s %n'`. -/
def statLine (file : InFile) : Text :=
  Nat.toDigits 10 file.size ++ ' ' :: '.' :: '/' :: file.path

/-- Records as awk and sort read them. -/
def lines (text : Text) : List Text := (text.splitOn '\n').dropLast

/-- The number that `sort -n` sees at the beginning of a line. -/
def leadingNumber (line : Text) : Nat := Nat.ofDigitChars 10 (line.takeWhile Char.isDigit) 0

/-- `sort -k1n -k2r`. -/
def sortsBefore (tools : Tools) (left right : Text) : Prop :=
  leadingNumber left < leadingNumber right ∨
    (leadingNumber left = leadingNumber right ∧ tools.collates right left = true)

instance (tools : Tools) : DecidableRel (sortsBefore tools) := fun left right =>
  inferInstanceAs (Decidable (leadingNumber left < leadingNumber right ∨
    (leadingNumber left = leadingNumber right ∧ tools.collates right left = true)))

/-- `sub(/^[0-9]+ (\.\/)?/,"",$0)`. -/
def stripSize (line : Text) : Text :=
  match line.takeWhile Char.isDigit, line.dropWhile Char.isDigit with
  | _ :: _, ' ' :: '.' :: '/' :: rest => rest
  | _ :: _, ' ' :: rest => rest
  | _, _ => line

/-- `sub(/.*\//, "", $0)`. -/
def baseName (path : Text) : Text := (path.reverse.takeWhile (· ≠ '/')).reverse

/-- `infilesSmallToBigFull`: `find`, `stat`, `sort` and `grep -Ev '^0'` in a pipe. -/
def infilesSmallToBigFull (tools : Tools) (files : List InFile) : List Text :=
  let found := terminated '\n' (files.map statLine)
  (((lines found).insertionSort (sortsBefore tools)).filter (·.head? ≠ some '0')).map stripSize

/-- A loop that assigns to the elements of an array. -/
def assignAll {ι κ α : Type} [DecidableEq κ] (key : ι → κ) (value : ι → α) (items : List ι)
    (array : κ → α) : κ → α :=
  items.foldl (fun array item => Function.update array (key item) (value item)) array

/-- `infilesSmallToBigMap`: the path last listed for a base name. -/
def infilesSmallToBigMap (full : List Text) : Text → Option Text :=
  assignAll baseName some full fun _ => none

/-! ## Step 1 -/

/-- The trace files, by base name: later inputs overwrite earlier ones. -/
def traceDir (tuples : Text → List Tuple) (written : List InFile) : Text → List Tuple :=
  assignAll InFile.name (fun file => tuples file.path) written fun _ => []

/-! ## Step 2 -/

/-- The arrays `key_count` and `best_file`, with the keys of the first. -/
structure Registry where
  keys : List Tuple
  keyCount : Tuple → Nat
  bestFile : Tuple → Option Text

def Registry.empty : Registry := ⟨[], fun _ => 0, fun _ => none⟩

/-- One line of the trace of `fn`. -/
def Registry.add (fn : Text) (registry : Registry) (key : Tuple) : Registry :=
  { keys := if key ∈ registry.keys then registry.keys else registry.keys ++ [key]
    keyCount := Function.update registry.keyCount key (registry.keyCount key + 1)
    bestFile :=
      if (registry.bestFile key).isSome then registry.bestFile
      else Function.update registry.bestFile key (some fn) }

def registerAll (traces : Text → List Tuple) (infilesSmallToBig : List Text) : Registry :=
  infilesSmallToBig.foldl (fun registry fn => (traces fn).foldl (Registry.add fn) registry)
    Registry.empty

/-! ## Step 3 -/

/-- `sort -k1n` on the counts and keys. -/
def sortedKeys (tools : Tools) (registry : Registry) : List Tuple :=
  registry.keys.insertionSort fun left right =>
    registry.keyCount left < registry.keyCount right ∨
      (registry.keyCount left = registry.keyCount right ∧ tools.collates left right = true)

structure Cover where
  keyAlreadyKnown : List Tuple
  fileAlreadyCopied : List Text
  /-- Paths and the names in `out_dir`. -/
  copies : List (Text × Text)

/-- An element that was never assigned is the empty string. -/
def awkString (element : Option Text) : Text := element.getD []

def Cover.visit (tools : Tools) (traces : Text → List Tuple) (pathOf : Text → Option Text)
    (registry : Registry) (cover : Cover) (key : Tuple) : Cover :=
  if key ∈ cover.keyAlreadyKnown then cover
  else
    let fn := awkString (registry.bestFile key)
    let known := cover.keyAlreadyKnown ++ traces fn
    if fn ∈ cover.fileAlreadyCopied then { cover with keyAlreadyKnown := known }
    else
      { keyAlreadyKnown := known
        fileAlreadyCopied := cover.fileAlreadyCopied ++ [fn]
        copies := cover.copies ++ tools.copy (awkString (pathOf fn)) fn }

/-- What is recorded and copied. -/
structure Outcome where
  /-- The path of the best file of a tuple. -/
  best : Tuple → Option Text
  copies : List (Text × Text)

/-- The script after `afl-showmap` has written the traces of the inputs in some order. -/
def aflCmin (tools : Tools) (corpus : Corpus) (tuples : Text → List Tuple)
    (written : List InFile) : Outcome :=
  let full := infilesSmallToBigFull tools corpus.files
  let pathOf := infilesSmallToBigMap full
  let traces := traceDir tuples written
  let registry := registerAll traces (full.map baseName)
  let cover := (sortedKeys tools registry).foldl
    (Cover.visit tools traces pathOf registry) ⟨[], [], []⟩
  ⟨fun key => (registry.bestFile key).bind pathOf, cover.copies⟩

/-! Which corpora the minimization keeps the coverage of: those in which no two
inputs have the same base name. -/

/-! ## Names -/

theorem baseName_path (file : InFile) : baseName file.path = file.name := by
  have ownName : ∀ c ∈ file.name.reverse, decide (c ≠ '/') = true := by
    intro c inName
    exact decide_eq_true fun same => file.noSlash (same ▸ List.mem_reverse.mp inName)
  rw [baseName, InFile.path, List.reverse_append, List.takeWhile_append_of_pos ownName]
  have stops : (terminated '/' file.dirs).reverse.takeWhile (· ≠ '/') = [] := by
    cases List.eq_nil_or_concat file.dirs with
    | inl top => rw [top]; rfl
    | inr below =>
        obtain ⟨dirs, last, split⟩ := below
        rw [split, List.concat_eq_append, terminated_append, terminated_cons, terminated_nil]
        simp
  rw [stops, List.append_nil, List.reverse_reverse]

theorem Plain.suffix {left right : Text} (plain : Plain (left ++ right)) : Plain right :=
  fun c inRight => plain c (List.mem_append_right _ inRight)

theorem Plain.name {file : InFile} (plain : Plain file.path) : Plain file.name := plain.suffix

/-! ## Lines of the listing -/

theorem toDigits_isDigit (n : Nat) : ∀ c ∈ Nat.toDigits 10 n, c.isDigit = true :=
  fun _ => Nat.isDigit_of_mem_toDigits (by decide) (by decide)

theorem takeWhile_statLine (file : InFile) :
    (statLine file).takeWhile Char.isDigit = Nat.toDigits 10 file.size := by
  rw [statLine, List.takeWhile_append_of_pos (toDigits_isDigit _),
    List.takeWhile_cons_of_neg (by decide), List.append_nil]

theorem dropWhile_statLine (file : InFile) :
    (statLine file).dropWhile Char.isDigit = ' ' :: '.' :: '/' :: file.path := by
  rw [statLine, List.dropWhile_append_of_pos (toDigits_isDigit _),
    List.dropWhile_cons_of_neg (by decide)]

theorem leadingNumber_statLine (file : InFile) : leadingNumber (statLine file) = file.size := by
  rw [leadingNumber, takeWhile_statLine, Nat.ofDigitChars_ten_toDigits]

theorem stripSize_statLine (file : InFile) : stripSize (statLine file) = file.path := by
  obtain ⟨digit, digits, split⟩ :=
    List.exists_cons_of_ne_nil (Nat.toDigits_ne_nil (n := file.size) (b := 10))
  rw [stripSize, takeWhile_statLine, dropWhile_statLine, split]
  rfl

/-- Only the number 0 begins with that digit. -/
theorem head?_toDigits (n : Nat) : (Nat.toDigits 10 n).head? = some '0' ↔ n = 0 := by
  induction n using Nat.strongRecOn with
  | ind n ih =>
      rw [Nat.toDigits_eq_if (by decide)]
      split
      · next small => simp
      · next big =>
        obtain ⟨digit, digits, split⟩ :=
          List.exists_cons_of_ne_nil (Nat.toDigits_ne_nil (n := n / 10) (b := 10))
        have quotient := ih (n / 10) (by omega)
        rw [split] at quotient ⊢
        rw [List.cons_append, List.head?_cons, ← List.head?_cons (l := digits), quotient]
        omega

theorem head?_statLine (file : InFile) : (statLine file).head? ≠ some '0' ↔ 0 < file.size := by
  rw [statLine, List.head?_append_of_ne_nil _ Nat.toDigits_ne_nil, ne_eq, head?_toDigits,
    Nat.pos_iff_ne_zero]

theorem lines_terminated {records : List Text} (oneLine : ∀ record ∈ records, '\n' ∉ record) :
    lines (terminated '\n' records) = records := by
  rw [lines, splitOn_terminated oneLine, List.dropLast_concat]

theorem statLine_oneLine {file : InFile} (plain : Plain file.path) : '\n' ∉ statLine file := by
  intro inLine
  rcases List.mem_append.mp inLine with inSize | inRest
  · exact absurd (toDigits_isDigit _ _ inSize) (by decide)
  · simp only [List.mem_cons] at inRest
    rcases inRest with bad | bad | bad | inPath
    · exact absurd bad (by decide)
    · exact absurd bad (by decide)
    · exact absurd bad (by decide)
    · exact (plain _ inPath).1 rfl

section

variable (tools : Tools)

instance : Std.Total (sortsBefore tools) where
  total left right := by
    rcases Nat.lt_trichotomy (leadingNumber left) (leadingNumber right) with less | same | more
    · exact .inl (.inl less)
    · rcases tools.total right left with first | second
      · exact .inl (.inr ⟨same, first⟩)
      · exact .inr (.inr ⟨same.symm, second⟩)
    · exact .inr (.inl more)

instance : IsTrans Text (sortsBefore tools) where
  trans first second third low high := by
    rcases low with less | ⟨same, low⟩
    · rcases high with less' | ⟨same', -⟩
      · exact .inl (Nat.lt_trans less less')
      · exact .inl (same' ▸ less)
    · rcases high with less' | ⟨same', high⟩
      · exact .inl (same ▸ less')
      · exact .inr ⟨same.trans same', tools.trans _ _ _ high low⟩

end

/-- The list holds the nonempty files from small to big. -/
theorem infilesSmallToBigFull_spec (tools : Tools) {corpus : Corpus}
    (plain : ∀ file ∈ corpus.files, Plain file.path) :
    ∃ sorted : List InFile, infilesSmallToBigFull tools corpus.files = sorted.map InFile.path ∧
      sorted.Perm corpus.nonempty ∧ sorted.Pairwise (·.size ≤ ·.size) := by
  have oneLine : ∀ record ∈ corpus.files.map statLine, '\n' ∉ record := by
    intro record isLine
    obtain ⟨file, inCorpus, rfl⟩ := List.mem_map.mp isLine
    exact statLine_oneLine (plain file inCorpus)
  let before (left right : InFile) : Prop := sortsBefore tools (statLine left) (statLine right)
  have decides : DecidableRel before := fun left right =>
    inferInstanceAs (Decidable (sortsBefore tools (statLine left) (statLine right)))
  have sortLines : (corpus.files.map statLine).insertionSort (sortsBefore tools) =
      (corpus.files.insertionSort before).map statLine :=
    (List.map_insertionSort before (sortsBefore tools) statLine corpus.files
      fun _ _ _ _ => Iff.rfl).symm
  refine ⟨(corpus.files.insertionSort before).filter (0 < ·.size), ?_, ?_, ?_⟩
  · rw [infilesSmallToBigFull, lines_terminated oneLine, sortLines, List.filter_map, List.map_map]
    have path : stripSize ∘ statLine = InFile.path := funext stripSize_statLine
    have keeps : ((fun line : Text => decide (line.head? ≠ some '0')) ∘ statLine) =
        fun file : InFile => decide (0 < file.size) := by
      funext file
      exact decide_eq_decide.mpr (head?_statLine file)
    rw [path, keeps]
  · exact (List.perm_insertionSort before corpus.files).filter _
  · refine List.Pairwise.filter _ ?_
    have ordered := List.pairwise_insertionSort (sortsBefore tools) (corpus.files.map statLine)
    rw [sortLines, List.pairwise_map] at ordered
    refine ordered.imp fun {left right} first => ?_
    rw [sortsBefore, leadingNumber_statLine, leadingNumber_statLine] at first
    rcases first with less | ⟨same, -⟩
    · exact Nat.le_of_lt less
    · exact Nat.le_of_eq same

/-! ## Arrays -/

section

variable {ι κ α : Type} [DecidableEq κ] {key : ι → κ} {value : ι → α}

/-- An element is what the last item with its index assigned, if there is one. -/
theorem assignAll_spec (items : List ι) (array : κ → α) (index : κ) :
    (∃ item ∈ items, key item = index ∧ assignAll key value items array index = value item) ∨
      ((∀ item ∈ items, key item ≠ index) ∧
        assignAll key value items array index = array index) := by
  induction items generalizing array with
  | nil => exact .inr ⟨List.forall_mem_nil _, rfl⟩
  | cons item items ih =>
      rcases ih (Function.update array (key item) (value item)) with
        ⟨later, inItems, isIndex, assigned⟩ | ⟨others, kept⟩
      · exact .inl ⟨later, List.mem_cons_of_mem _ inItems, isIndex, assigned⟩
      · by_cases isIndex : key item = index
        · refine .inl ⟨item, List.mem_cons_self, isIndex, kept.trans ?_⟩
          rw [isIndex, Function.update_self]
        · refine .inr ⟨List.forall_mem_cons.mpr ⟨isIndex, others⟩, kept.trans ?_⟩
          rw [Function.update_of_ne (Ne.symm isIndex)]

theorem assignAll_of_mem {items : List ι} (array : κ → α) {item : ι} (inItems : item ∈ items)
    (unique : ∀ other ∈ items, key other = key item → other = item) :
    assignAll key value items array (key item) = value item := by
  rcases assignAll_spec items array (key item) with ⟨other, inItems', same, assigned⟩ | ⟨absent, -⟩
  · rw [assigned, unique other inItems' same]
  · exact absurd rfl (absent item inItems)

end

/-! ## Step 2 -/

theorem Registry.foldl_add (fn : Text) (lines : List Tuple) (registry : Registry) :
    let added := lines.foldl (Registry.add fn) registry
    (∀ key, key ∈ added.keys ↔ key ∈ registry.keys ∨ key ∈ lines) ∧
      ∀ key, added.bestFile key =
        (registry.bestFile key).or (if key ∈ lines then some fn else none) := by
  induction lines generalizing registry with
  | nil => simp
  | cons line lines ih =>
      obtain ⟨keys, best⟩ := ih (registry.add fn line)
      refine ⟨fun key => ?_, fun key => ?_⟩
      · rw [List.foldl_cons, keys, List.mem_cons, ← or_assoc]
        refine or_congr_left ?_
        unfold Registry.add
        split
        · next known => exact ⟨.inl, fun either => either.elim id fun same => same ▸ known⟩
        · rw [List.mem_append, List.mem_singleton]
      · rw [List.foldl_cons, best]
        simp only [Registry.add, List.mem_cons]
        cases known : registry.bestFile line with
        | some first =>
            by_cases same : key = line
            · subst same
              simp [known]
            · simp [same]
        | none =>
            by_cases same : key = line
            · subst same
              simp [known]
            · simp [same, Function.update_of_ne]

/-- The keys are the tuples of the traces, and the best file of a tuple is the
first one listed that has it. -/
theorem registerAll_spec (traces : Text → List Tuple) (names : List Text) :
    (∀ key, key ∈ (registerAll traces names).keys ↔ ∃ fn ∈ names, key ∈ traces fn) ∧
      ∀ key, (registerAll traces names).bestFile key = names.find? (key ∈ traces ·) := by
  induction names using List.reverseRecOn with
  | nil => simp [registerAll, Registry.empty]
  | append_singleton names fn ih =>
      obtain ⟨keys, best⟩ := ih
      have added := Registry.foldl_add fn (traces fn) (registerAll traces names)
      have unfolded : registerAll traces (names ++ [fn]) =
          (traces fn).foldl (Registry.add fn) (registerAll traces names) := by
        rw [registerAll, List.foldl_append]
        rfl
      rw [unfolded]
      refine ⟨fun key => ?_, fun key => ?_⟩
      · rw [added.1, keys]
        simp [or_and_right, exists_or]
      · rw [added.2, best, List.find?_append, List.find?_singleton]
        simp only [decide_eq_true_eq]

/-! ## Step 3 -/

section

variable {tools : Tools} {traces : Text → List Tuple} {pathOf : Text → Option Text}
  {registry : Registry}

/-- What holds while the loop goes through the keys. -/
structure Cover.Valid (traces : Text → List Tuple) (pathOf : Text → Option Text)
    (registry : Registry) (cover : Cover) : Prop where
  known : ∀ key ∈ cover.keyAlreadyKnown, ∃ fn ∈ cover.fileAlreadyCopied, key ∈ traces fn
  recorded : ∀ fn ∈ cover.fileAlreadyCopied, ∃ key, registry.bestFile key = some fn
  nodup : cover.fileAlreadyCopied.Nodup
  copies : cover.copies = cover.fileAlreadyCopied.map fun fn => (awkString (pathOf fn), fn)

theorem Cover.visit_known_subset (cover : Cover) (key : Tuple) :
    cover.keyAlreadyKnown ⊆ (cover.visit tools traces pathOf registry key).keyAlreadyKnown := by
  unfold Cover.visit
  split
  · exact List.Subset.refl _
  · dsimp only
    split <;> exact List.subset_append_left _ _

/-- A visited key has a best file that has the key, so the key is known afterwards. -/
theorem Cover.visit_valid {cover : Cover} (valid : cover.Valid traces pathOf registry)
    {key : Tuple} {fn : Text} (best : registry.bestFile key = some fn) (has : key ∈ traces fn)
    (plain : Plain (awkString (pathOf fn)) ∧ Plain fn ∧ fn ∉ ownNames) :
    (cover.visit tools traces pathOf registry key).Valid traces pathOf registry ∧
      key ∈ (cover.visit tools traces pathOf registry key).keyAlreadyKnown := by
  unfold Cover.visit
  split
  · next alreadyKnown => exact ⟨valid, alreadyKnown⟩
  · rw [best]
    dsimp only [awkString, Option.getD_some]
    by_cases copied : fn ∈ cover.fileAlreadyCopied
    · rw [if_pos copied]
      refine ⟨{ valid with known := ?_ }, List.mem_append_right _ has⟩
      intro other isKnown
      rcases List.mem_append.mp isKnown with before | now
      · exact valid.known other before
      · exact ⟨fn, copied, now⟩
    · rw [if_neg copied]
      refine ⟨?_, List.mem_append_right _ has⟩
      constructor
      · intro other isKnown
        rcases List.mem_append.mp isKnown with before | now
        · obtain ⟨source, isCopied, inTrace⟩ := valid.known other before
          exact ⟨source, List.mem_append_left _ isCopied, inTrace⟩
        · exact ⟨fn, List.mem_append_right _ (List.mem_singleton_self fn), now⟩
      · intro source isCopied
        rcases List.mem_append.mp isCopied with before | now
        · exact valid.recorded source before
        · exact ⟨key, (List.mem_singleton.mp now) ▸ best⟩
      · exact List.nodup_append_comm.mp (List.nodup_cons.mpr ⟨copied, valid.nodup⟩)
      · have copy := tools.copy_plain _ _ plain.1 plain.2.1 plain.2.2
        rw [awkString] at copy
        rw [copy, valid.copies, List.map_append]
        rfl

/-- Every key is known in the end, whatever the order of the keys. -/
theorem Cover.foldl_valid (keys : List Tuple) (each : ∀ key ∈ keys, ∃ fn,
    registry.bestFile key = some fn ∧ key ∈ traces fn ∧
      Plain (awkString (pathOf fn)) ∧ Plain fn ∧ fn ∉ ownNames) :
    let cover := keys.foldl (Cover.visit tools traces pathOf registry) ⟨[], [], []⟩
    cover.Valid traces pathOf registry ∧ keys ⊆ cover.keyAlreadyKnown := by
  induction keys using List.reverseRecOn with
  | nil => exact ⟨⟨by simp, by simp, List.nodup_nil, rfl⟩, List.nil_subset _⟩
  | append_singleton keys key ih =>
      obtain ⟨valid, known⟩ := ih fun other inKeys => each other (List.mem_append_left _ inKeys)
      obtain ⟨fn, best, has, plain⟩ :=
        each key (List.mem_append_right _ (List.mem_singleton_self key))
      rw [List.foldl_append]
      have visited := @Cover.visit_valid tools _ _ _ _ valid _ _ best has plain
      refine ⟨visited.1, List.append_subset.mpr ⟨?_, ?_⟩⟩
      · exact List.Subset.trans known (Cover.visit_known_subset _ key)
      · exact List.cons_subset.mpr ⟨visited.2, List.nil_subset _⟩

end

/-! ## The whole script -/

/-- What a minimization has to do. -/
structure Minimizes (corpus : Corpus) (tuples : Text → List Tuple) (outcome : Outcome) : Prop where
  covers : ∀ key, (∃ copy ∈ outcome.copies, ∃ file ∈ corpus.files, copy.1 = file.path ∧
    key ∈ tuples file.path) ↔ ∃ file ∈ corpus.nonempty, key ∈ tuples file.path
  once : (outcome.copies.map Prod.fst).Nodup
  apart : (outcome.copies.map Prod.snd).Nodup
  best : ∀ key, (∃ file ∈ corpus.nonempty, key ∈ tuples file.path) →
    ∃ file ∈ corpus.nonempty, outcome.best key = some file.path ∧ key ∈ tuples file.path ∧
      ∀ other ∈ corpus.nonempty, key ∈ tuples other.path → file.size ≤ other.size

theorem Corpus.mem_nonempty {corpus : Corpus} {file : InFile} :
    file ∈ corpus.nonempty ↔ file ∈ corpus.files ∧ 0 < file.size := by
  simp [Corpus.nonempty]

/-- The path kept for a listed name is one of those with that name. -/
theorem infilesSmallToBigMap_listed {sorted : List InFile} {file : InFile}
    (listed : file ∈ sorted) :
    ∃ other ∈ sorted, other.name = file.name ∧
      infilesSmallToBigMap (sorted.map InFile.path) file.name = some other.path := by
  have spec := @assignAll_spec _ _ _ _ baseName some (sorted.map InFile.path) (fun _ => none)
    file.name
  rcases spec with ⟨path, isPath, sameName, assigned⟩ | ⟨absent, -⟩
  · obtain ⟨other, otherListed, rfl⟩ := List.mem_map.mp isPath
    exact ⟨other, otherListed, (baseName_path other).symm.trans sameName, assigned⟩
  · exact absurd (baseName_path file) (absent _ (List.mem_map_of_mem listed))

section

variable (tools : Tools) {corpus : Corpus} (plain : ∀ file ∈ corpus.files, Plain file.path)
  (foreign : ∀ file ∈ corpus.nonempty, file.name ∉ ownNames)
  (tuples : Text → List Tuple) (written : List InFile)

include plain foreign

/-- The copied files, one for each chosen base name, have all tuples of the traces. -/
theorem aflCmin_spec :
    ∃ sorted : List InFile, sorted.Perm corpus.nonempty ∧ sorted.Pairwise (·.size ≤ ·.size) ∧
      (∀ key, (aflCmin tools corpus tuples written).best key =
        ((sorted.map InFile.name).find? (key ∈ traceDir tuples written ·)).bind
          (infilesSmallToBigMap (sorted.map InFile.path))) ∧
      ∃ chosen : List Text, chosen.Nodup ∧ (∀ fn ∈ chosen, ∃ file ∈ sorted, file.name = fn) ∧
        (aflCmin tools corpus tuples written).copies = chosen.map (fun fn =>
          (awkString (infilesSmallToBigMap (sorted.map InFile.path) fn), fn)) ∧
        ∀ file ∈ sorted, ∀ key ∈ traceDir tuples written file.name,
          ∃ fn ∈ chosen, key ∈ traceDir tuples written fn := by
  obtain ⟨sorted, full, perm, ordered⟩ := infilesSmallToBigFull_spec tools plain
  have names : (sorted.map InFile.path).map baseName = sorted.map InFile.name := by
    rw [List.map_map]
    exact List.map_congr_left fun file _ => baseName_path file
  have registered := registerAll_spec (traceDir tuples written) (sorted.map InFile.name)
  have each : ∀ key ∈ sortedKeys tools (registerAll (traceDir tuples written)
      (sorted.map InFile.name)), ∃ fn,
        (registerAll (traceDir tuples written) (sorted.map InFile.name)).bestFile key = some fn ∧
          key ∈ traceDir tuples written fn ∧
          Plain (awkString (infilesSmallToBigMap (sorted.map InFile.path) fn)) ∧ Plain fn ∧
            fn ∉ ownNames := by
    intro key isKey
    rw [sortedKeys, List.mem_insertionSort, registered.1] at isKey
    obtain ⟨name, isName, has⟩ := isKey
    have found : ((sorted.map InFile.name).find? (key ∈ traceDir tuples written ·)).isSome :=
      List.find?_isSome.mpr ⟨name, isName, decide_eq_true has⟩
    obtain ⟨fn, best⟩ := Option.isSome_iff_exists.mp found
    obtain ⟨file, listed, rfl⟩ := List.mem_map.mp (List.mem_of_find?_eq_some best)
    obtain ⟨other, otherListed, -, path⟩ := infilesSmallToBigMap_listed listed
    have hasKey := List.find?_some best
    have inCorpus := perm.mem_iff.mp listed
    refine ⟨file.name, (registered.2 key).trans best, of_decide_eq_true hasKey, ?_, ?_,
      foreign file inCorpus⟩
    · rw [path]
      exact plain other (Corpus.mem_nonempty.mp (perm.mem_iff.mp otherListed)).1
    · exact (plain file (Corpus.mem_nonempty.mp inCorpus).1).name
  obtain ⟨valid, known⟩ := @Cover.foldl_valid tools _ _ _ _ each
  refine ⟨sorted, perm, ordered, ?_, _, valid.nodup, ?_, ?_, ?_⟩
  · intro key
    simp only [aflCmin, full, names, registered.2]
  · intro fn isChosen
    obtain ⟨key, best⟩ := valid.recorded fn isChosen
    rw [registered.2] at best
    exact List.mem_map.mp (List.mem_of_find?_eq_some best)
  · simp only [aflCmin, full, names]
    exact valid.copies
  · intro file listed key has
    refine valid.known key (known ?_)
    rw [sortedKeys, List.mem_insertionSort, registered.1]
    exact ⟨file.name, List.mem_map_of_mem listed, has⟩

end

/-- Different names: a trace, and a path, for every file. -/
theorem traceDir_of_distinct {corpus : Corpus} {tuples : Text → List Tuple}
    {written : List InFile} (perm : written.Perm corpus.nonempty)
    (distinct : (corpus.nonempty.map InFile.name).Nodup) {file : InFile}
    (inCorpus : file ∈ corpus.nonempty) : traceDir tuples written file.name = tuples file.path :=
  assignAll_of_mem (fun _ => []) (perm.mem_iff.mpr inCorpus) fun _ isWritten same =>
    List.inj_on_of_nodup_map distinct (perm.mem_iff.mp isWritten) inCorpus same

theorem pathOf_of_distinct {corpus : Corpus} {sorted : List InFile}
    (perm : sorted.Perm corpus.nonempty) (distinct : (corpus.nonempty.map InFile.name).Nodup)
    {file : InFile} (listed : file ∈ sorted) :
    infilesSmallToBigMap (sorted.map InFile.path) file.name = some file.path := by
  obtain ⟨other, otherListed, sameName, path⟩ := infilesSmallToBigMap_listed listed
  have same : other = file := List.inj_on_of_nodup_map distinct (perm.mem_iff.mp otherListed)
    (perm.mem_iff.mp listed) sameName
  rw [path, same]

/-- The first of the listed files that has a tuple is one of the smallest. -/
theorem find?_smallest {sorted : List InFile} (ordered : sorted.Pairwise (·.size ≤ ·.size))
    {has : InFile → Bool} {file : InFile} (found : sorted.find? has = some file) {other : InFile}
    (listed : other ∈ sorted) (otherHas : has other = true) : file.size ≤ other.size := by
  obtain ⟨-, before, after, split, lack⟩ := List.find?_eq_some_iff_append.mp found
  subst split
  rcases List.mem_append.mp listed with early | late
  · exact absurd otherHas (by simpa using lack other early)
  · rcases List.mem_cons.mp late with rfl | later
    · exact Nat.le_refl _
    · exact (List.pairwise_cons.mp (List.pairwise_append.mp ordered).2.1).1 other later

/-- With different names, every copied file is the one that was traced. -/
theorem aflCmin_minimizes (tools : Tools) {corpus : Corpus}
    (plain : ∀ file ∈ corpus.files, Plain file.path)
    (foreign : ∀ file ∈ corpus.nonempty, file.name ∉ ownNames) {written : List InFile}
    (perm : written.Perm corpus.nonempty)
    (distinct : (corpus.nonempty.map InFile.name).Nodup) (tuples : Text → List Tuple) :
    Minimizes corpus tuples (aflCmin tools corpus tuples written) := by
  obtain ⟨sorted, sortedPerm, ordered, best, chosen, nodup, fromSorted, copies, covered⟩ :=
    aflCmin_spec tools plain foreign tuples written
  have trace {file : InFile} (listed : file ∈ sorted) :
      traceDir tuples written file.name = tuples file.path :=
    traceDir_of_distinct perm distinct (sortedPerm.mem_iff.mp listed)
  have path {file : InFile} (listed : file ∈ sorted) :
      infilesSmallToBigMap (sorted.map InFile.path) file.name = some file.path :=
    pathOf_of_distinct sortedPerm distinct listed
  constructor
  · intro key
    rw [copies]
    constructor
    · rintro ⟨copy, isCopy, source, -, samePath, has⟩
      obtain ⟨fn, isChosen, rfl⟩ := List.mem_map.mp isCopy
      obtain ⟨file, listed, rfl⟩ := fromSorted fn isChosen
      rw [path listed] at samePath
      rw [← samePath] at has
      exact ⟨file, sortedPerm.mem_iff.mp listed, has⟩
    · rintro ⟨file, inCorpus, has⟩
      have listed := sortedPerm.mem_iff.mpr inCorpus
      obtain ⟨fn, isChosen, inTrace⟩ := covered file listed key (trace listed ▸ has)
      obtain ⟨source, sourceListed, rfl⟩ := fromSorted fn isChosen
      refine ⟨_, List.mem_map_of_mem isChosen, source,
        (Corpus.mem_nonempty.mp (sortedPerm.mem_iff.mp sourceListed)).1, ?_, ?_⟩
      · rw [path sourceListed]
        rfl
      · exact trace sourceListed ▸ inTrace
  · rw [copies, List.map_map]
    refine List.Nodup.map_on ?_ nodup
    intro left leftChosen right rightChosen same
    obtain ⟨first, firstListed, rfl⟩ := fromSorted left leftChosen
    obtain ⟨second, secondListed, rfl⟩ := fromSorted right rightChosen
    simp only [Function.comp_apply, path firstListed, path secondListed, awkString,
      Option.getD_some] at same
    rw [← baseName_path first, same, baseName_path second]
  · rw [copies, List.map_map]
    exact (List.map_id chosen).symm ▸ nodup
  · rintro key ⟨sample, inCorpus, sampleHas⟩
    have sampleListed := sortedPerm.mem_iff.mpr inCorpus
    let inTrace : InFile → Bool := fun file => key ∈ traceDir tuples written file.name
    have someFound : (sorted.find? inTrace).isSome :=
      List.find?_isSome.mpr ⟨sample, sampleListed, decide_eq_true (trace sampleListed ▸ sampleHas)⟩
    obtain ⟨file, found⟩ := Option.isSome_iff_exists.mp someFound
    have listed := List.mem_of_find?_eq_some found
    have hasKey := List.find?_some found
    have fileHas : key ∈ traceDir tuples written file.name := of_decide_eq_true hasKey
    refine ⟨file, sortedPerm.mem_iff.mp listed, ?_, trace listed ▸ fileHas, ?_⟩
    · have byName : (sorted.map InFile.name).find? (key ∈ traceDir tuples written ·) =
          some file.name := by
        rw [List.find?_map]
        exact congrArg (Option.map InFile.name) found
      rw [best, byName, Option.bind_some, path listed]
    · intro other inCorpus' otherHas
      have otherListed := sortedPerm.mem_iff.mpr inCorpus'
      exact find?_smallest ordered found otherListed (decide_eq_true (trace otherListed ▸ otherHas))

/-- When the script copies a file for each file's own tuple, every base name
stands for the file that bears it. -/
theorem aflCmin_standsFor (tools : Tools) {corpus : Corpus}
    (plain : ∀ file ∈ corpus.files, Plain file.path)
    (foreign : ∀ file ∈ corpus.nonempty, file.name ∉ ownNames) {written : List InFile}
    (minimizes : Minimizes corpus (fun path => [path])
      (aflCmin tools corpus (fun path => [path]) written)) :
    ∃ pathOf : Text → Option Text, ∀ file ∈ corpus.nonempty, pathOf file.name = some file.path := by
  obtain ⟨sorted, -, -, -, chosen, -, fromSorted, copies, -⟩ :=
    aflCmin_spec tools plain foreign (fun path => [path]) written
  refine ⟨infilesSmallToBigMap (sorted.map InFile.path), fun file inCorpus => ?_⟩
  obtain ⟨copy, isCopy, source, -, samePath, has⟩ :=
    (minimizes.covers file.path).mpr ⟨file, inCorpus, List.mem_singleton_self _⟩
  rw [copies] at isCopy
  obtain ⟨fn, isChosen, rfl⟩ := List.mem_map.mp isCopy
  obtain ⟨named, listed, rfl⟩ := fromSorted fn isChosen
  obtain ⟨other, -, sameName, found⟩ := infilesSmallToBigMap_listed listed
  rw [found] at samePath
  have isOther : file.path = other.path := (List.mem_singleton.mp has).trans samePath.symm
  have ownName : file.name = named.name := by
    rw [← baseName_path file, isOther, baseName_path, sameName]
  rw [ownName, found, isOther]

theorem Corpus.nodup_nonempty (corpus : Corpus) : (corpus.nonempty.map InFile.path).Nodup :=
  corpus.distinct.sublist (List.filter_sublist.map _)

/-- The minimization does its work for all tuple sets exactly when no two
nonempty inputs have the same base name. -/
theorem aflCmin_minimizes_iff (tools : Tools) {corpus : Corpus}
    (plain : ∀ file ∈ corpus.files, Plain file.path)
    (foreign : ∀ file ∈ corpus.nonempty, file.name ∉ ownNames) {written : List InFile}
    (perm : written.Perm corpus.nonempty) :
    (∀ tuples, Minimizes corpus tuples (aflCmin tools corpus tuples written)) ↔
      (corpus.nonempty.map InFile.name).Nodup := by
  constructor
  · intro minimizes
    obtain ⟨pathOf, standsFor⟩ := aflCmin_standsFor tools plain foreign (minimizes _)
    refine List.Nodup.map_on ?_ corpus.nodup_nonempty.of_map
    intro left inLeft right inRight sameName
    have samePath : some left.path = some right.path := by
      rw [← standsFor left inLeft, sameName, standsFor right inRight]
    exact List.inj_on_of_nodup_map corpus.nodup_nonempty inLeft inRight (Option.some.inj samePath)
  · exact aflCmin_minimizes tools plain foreign perm

/-! ## Two inputs of one name -/

/-- A shell that copies what it is told to, in a locale that keeps equal sizes in order. -/
def plainTools : Tools where
  collates _ _ := true
  total _ _ := .inl rfl
  trans _ _ _ _ _ := rfl
  copy realfile fn := [(realfile, fn)]
  copy_plain _ _ _ _ _ := rfl

/-- The inputs `a/x` of one byte and `b/y` of two. -/
def twoNames : Corpus where
  files := [⟨[['a']], ['x'], 1, by decide⟩, ⟨[['b']], ['y'], 2, by decide⟩]
  distinct := by decide

theorem aflCmin_minimizes_iff_twoNames :
    (∀ tuples, Minimizes twoNames tuples (aflCmin plainTools twoNames tuples twoNames.nonempty)) ↔
      (twoNames.nonempty.map InFile.name).Nodup := by
  have plain : ∀ file ∈ twoNames.files, Plain file.path := by
    simp [twoNames, Plain, InFile.path, shellSpecials, terminated, or_imp, forall_and]
  exact aflCmin_minimizes_iff plainTools plain (by decide) (List.Perm.refl _)

/-- The inputs `a/x` of one byte and `b/x` of two. -/
def oneName : Corpus where
  files := [⟨[['a']], ['x'], 1, by decide⟩, ⟨[['b']], ['x'], 2, by decide⟩]
  distinct := by decide

/-- The tuple of the smaller of two inputs `x` is not covered by the copied one. -/
theorem sameName_losesCoverage :
    ¬ Minimizes oneName (fun path => [path])
      (aflCmin plainTools oneName (fun path => [path]) oneName.nonempty) := by
  intro minimizes
  have plain : ∀ file ∈ oneName.files, Plain file.path := by
    simp [oneName, Plain, InFile.path, shellSpecials, terminated, or_imp, forall_and]
  obtain ⟨pathOf, standsFor⟩ := @aflCmin_standsFor plainTools oneName plain (by decide) _ minimizes
  have small := standsFor ⟨[['a']], ['x'], 1, by decide⟩ (by simp [Corpus.nonempty, oneName])
  have big := standsFor ⟨[['b']], ['x'], 2, by decide⟩ (by simp [Corpus.nonempty, oneName])
  exact absurd (small.symm.trans big) (by decide)

end SbFuzz.Utils
