import Mathlib.Data.List.Infix
import Mathlib.Data.List.TakeWhile
import SbFuzz.Systems.Glob

/-! `afl-llvm-common.cc`: which functions the instrumentation passes leave out. -/

set_option autoImplicit false

namespace SbFuzz.Instrumentation.InstrumentList

/-- A `std::string`, with a character for each byte. -/
abbrev Str : Type := List Char

/-- The C string in a `std::string`. -/
def cStr (s : Str) : Str := s.takeWhile (· ≠ '\x00')

/-! ## The list files -/

inductive Fault where
  /-- Both an allow list and a deny list are given. -/
  | bothLists
  | unableToOpen (list : String)
  | invalidLine (list : String) (line : Str)
  deriving DecidableEq

/-- The file names in the environment. -/
structure Env where
  aflLlvmAllowlist : Option Str
  aflLlvmInstrumentFile : Option Str
  aflLlvmWhitelist : Option Str
  aflLlvmDenylist : Option Str
  aflLlvmBlocklist : Option Str

structure Entries where
  files : List Str
  functions : List Str

def Entries.none : Entries := ⟨[], []⟩

def Entries.isEmpty (entries : Entries) : Bool := entries.files.isEmpty && entries.functions.isEmpty

structure Lists where
  allow : Entries
  deny : Entries

/-- `isspace` in the C locale. -/
def isspace (c : Char) : Bool := [' ', '\t', '\n', '\x0b', '\x0c', '\r'].contains c

/-- The lines that `getline` reads after `line`; an empty one at the end of the file is none. -/
def getlines (line : Str) : Str → List Str
  | [] => if line.isEmpty then [] else [line]
  | c :: contents =>
      if c = '\n' then line :: getlines [] contents else getlines (line ++ [c]) contents

/-- Whether the line says that it is about a file, and the line without that. -/
def isFile (line : Str) : Option Bool × Str :=
  if "fun:".toList.isPrefixOf line then (some false, line.drop 4)
  else if "function:".toList.isPrefixOf line then (some false, line.drop 9)
  else if "src:".toList.isPrefixOf line then (some true, line.drop 4)
  else if "source:".toList.isPrefixOf line then (some true, line.drop 7)
  else (none, line)

def Entries.add (list : String) (entries : Entries) (originalLine : Str) :
    Except Fault Entries :=
  let line := (originalLine.filter fun c => !isspace c).takeWhile (· ≠ '#')
  let (said, line) := isFile line
  if line.contains ':' then .error (.invalidLine list originalLine)
  else if line.length > 0 then
    if said.getD (line.contains '/' || line.contains '.') then
      .ok { entries with files := entries.files ++ [line] }
    else .ok { entries with functions := entries.functions ++ [line] }
  else .ok entries

def Entries.addAll (list : String) (entries : Entries) : List Str → Except Fault Entries
  | [] => .ok entries
  | line :: lines => do
      let entries ← entries.add list line
      entries.addAll list lines

def readList (files : Str → Option Str) (list : String) : Option Str → Except Fault Entries
  | none => .ok .none
  | some path =>
      match files path with
      | none => .error (.unableToOpen list)
      | some contents => Entries.none.addAll list (getlines [] contents)

def initInstrumentList (env : Env) (files : Str → Option Str) : Except Fault Lists := do
  let allowlist := env.aflLlvmAllowlist <|> env.aflLlvmInstrumentFile <|> env.aflLlvmWhitelist
  let denylist := env.aflLlvmDenylist <|> env.aflLlvmBlocklist
  if allowlist.isSome && denylist.isSome then .error .bothLists
  else
    let allow ← readList files "AFL_LLVM_ALLOWLIST" allowlist
    let deny ← readList files "AFL_LLVM_DENYLIST" denylist
    .ok ⟨allow, deny⟩

/-- The resolvers and constructors that `scanForDangerousFunctions` finds in a module are put into
the deny list. -/
def Lists.scanForDangerousFunctions (lists : Lists) (names : List Str) : Lists :=
  { lists with deny := { lists.deny with functions := lists.deny.functions ++ names } }

/-! ## Functions -/

/-- A location with its file, and the file of the location where it is inlined. -/
structure DILocation where
  filename : Str
  inlinedAt : Option Str

structure Function where
  name : Str
  size : Nat
  /-- The location of its first instruction. -/
  debugLoc : Option DILocation

def ignoreList : List Str :=
  ["asan.", "llvm.", "sancov.", "__ubsan", "ign.", "__afl", "_fini", "__libc_", "__asan", "__msan",
    "__cmplog", "__sancov", "__san", "__cxx_", "__decide_deferred", "_GLOBAL", "_ZZN6__asan",
    "_ZZN6__lsan", "msan.", "LLVMFuzzerM", "LLVMFuzzerC", "LLVMFuzzerI", "maybe_duplicate_stderr",
    "discard_output", "close_stdout", "dup_and_close_stderr", "maybe_close_fd_mask",
    "ExecuteFilesOnyByOne"].map String.toList

def ignoreSubstringList : List Str :=
  ["__asan", "__msan", "__ubsan", "__lsan", "__san", "__sanitize", "DebugCounter", "DwarfDebug",
    "DebugLoc"].map String.toList

def isIgnoreFunction (f : Function) : Bool :=
  (ignoreList.any fun ignored => ignored.isPrefixOf f.name) ||
    ignoreSubstringList.any fun ignored => decide (ignored <:+: f.name)

def getSourceName (f : Function) : Str :=
  match f.debugLoc with
  | none => []
  | some location =>
      if location.filename.isEmpty then location.inlinedAt.getD [] else location.filename

def sourceFile (f : Function) (filename : Str) : Str :=
  if (getSourceName f).isEmpty then filename else getSourceName f

section

-- Whether `fnmatch` of a pattern and a text returns 0.
variable (fnmatch : Str → Str → Bool)

def accepts (text entry : Str) : Bool := fnmatch (cStr ('*' :: entry)) (cStr text)

/-- The two tests of an entry in every loop of `isInInstrumentList`. -/
def found (text entry : Str) : Bool :=
  decide (text.length ≥ entry.length) && accepts fnmatch text entry

def isInInstrumentList (lists : Lists) (f : Function) (filename : Str) : Bool :=
  if f.size = 0 || isIgnoreFunction f then false
  else if lists.deny.functions.any (found fnmatch f.name) then false
  else if !(sourceFile f filename).isEmpty &&
      lists.deny.files.any (found fnmatch (sourceFile f filename)) then false
  else if !lists.allow.files.isEmpty || !lists.allow.functions.isEmpty then
    if lists.allow.functions.any (found fnmatch f.name) then true
    else if !lists.allow.files.isEmpty then
      if !(sourceFile f filename).isEmpty then
        lists.allow.files.any (found fnmatch (sourceFile f filename))
      else false
    else false
  else true

end

/-! When the lists decide as their entries match: an entry longer than the text that it matches is
overlooked. -/

open Systems

/-! ## The entries of the files -/

def Entries.Named (entries : Entries) : Prop := ∀ entry ∈ entries.files, entry ≠ []

theorem Entries.Named.add {list : String} {entries after : Entries} {line : Str}
    (named : entries.Named) (added : entries.add list line = .ok after) : after.Named := by
  unfold Entries.add at added
  generalize isFile ((line.filter fun c => !isspace c).takeWhile (· ≠ '#')) = read at added
  obtain ⟨said, line⟩ := read
  dsimp only at added
  split at added
  · cases added
  · split at added
    · next some =>
      split at added
      · cases added
        intro entry inside
        cases List.mem_append.mp inside with
        | inl old => exact named entry old
        | inr new =>
            rw [List.mem_singleton.mp new]
            exact List.ne_nil_of_length_pos some
      · cases added
        exact named
    · cases added
      exact named

theorem Entries.Named.addAll {list : String} (lines : List Str) {entries after : Entries}
    (named : entries.Named) (added : entries.addAll list lines = .ok after) : after.Named := by
  induction lines generalizing entries with
  | nil =>
      cases added
      exact named
  | cons line lines ih =>
      rw [Entries.addAll] at added
      cases step : entries.add list line with
      | error fault =>
          rw [step] at added
          cases added
      | ok next =>
          rw [step] at added
          exact ih (named.add step) added

theorem readList_named {files : Str → Option Str} {list : String} {path : Option Str}
    {entries : Entries} (read : readList files list path = .ok entries) : entries.Named := by
  have start : Entries.none.Named := fun entry inside => nomatch inside
  cases path with
  | none =>
      cases read
      exact start
  | some path =>
      rw [readList] at read
      cases opened : files path with
      | none =>
          rw [opened] at read
          cases read
      | some contents =>
          rw [opened] at read
          exact start.addAll _ read

theorem initInstrumentList_named {env : Env} {files : Str → Option Str} {lists : Lists}
    (loaded : initInstrumentList env files = .ok lists) : lists.allow.Named ∧ lists.deny.Named := by
  unfold initInstrumentList at loaded
  dsimp only at loaded
  split at loaded
  · cases loaded
  · generalize (env.aflLlvmAllowlist <|> env.aflLlvmInstrumentFile <|> env.aflLlvmWhitelist) =
      allowlist at loaded
    generalize (env.aflLlvmDenylist <|> env.aflLlvmBlocklist) = denylist at loaded
    cases allow : readList files "AFL_LLVM_ALLOWLIST" allowlist with
    | error fault =>
        rw [allow] at loaded
        cases loaded
    | ok allowed =>
        cases deny : readList files "AFL_LLVM_DENYLIST" denylist with
        | error fault =>
            rw [allow, deny] at loaded
            cases loaded
        | ok denied =>
            rw [allow, deny] at loaded
            cases loaded
            exact ⟨readList_named allow, readList_named deny⟩

/-! ## What the lists decide -/

def Entries.matched (entries : Entries) (test : Str → Str → Bool) (f : Function)
    (filename : Str) : Bool :=
  entries.functions.any (test f.name) || entries.files.any (test (sourceFile f filename))

section

variable (fnmatch : Str → Str → Bool)

/-- The decision that the entries call for. -/
def Instrumented (lists : Lists) (f : Function) (filename : Str) : Prop :=
  f.size ≠ 0 ∧ isIgnoreFunction f = false ∧
    lists.deny.matched (accepts fnmatch) f filename = false ∧
    (lists.allow.isEmpty = true ∨ lists.allow.matched (accepts fnmatch) f filename = true)

def overlooked (text entry : Str) : Bool :=
  decide (text.length < entry.length) && accepts fnmatch text entry

/-- Overlooked entries decide nothing: an entry that is found stands before them, or the other
list gives the same answer. -/
def Harmless (lists : Lists) (f : Function) (filename : Str) : Prop :=
  f.size = 0 ∨ isIgnoreFunction f = true ∨ lists.deny.matched (found fnmatch) f filename = true ∨
    if lists.deny.matched (overlooked fnmatch) f filename then
      lists.allow.isEmpty = false ∧ lists.allow.matched (found fnmatch) f filename = false
    else
      lists.allow.isEmpty = true ∨ lists.allow.matched (found fnmatch) f filename = true ∨
        lists.allow.matched (overlooked fnmatch) f filename = false

end

variable {fnmatch : Str → Str → Bool}

theorem accepts_eq (text entry : Str) :
    accepts fnmatch text entry = (found fnmatch text entry || overlooked fnmatch text entry) := by
  unfold found overlooked
  by_cases short : entry.length ≤ text.length
  · rw [decide_eq_true short, decide_eq_false (Nat.not_lt_of_le short), Bool.true_and,
      Bool.false_and, Bool.or_false]
  · rw [decide_eq_false short, decide_eq_true (Nat.lt_of_not_le short), Bool.true_and,
      Bool.false_and, Bool.false_or]

theorem any_accepts (text : Str) (entries : List Str) :
    entries.any (accepts fnmatch text) =
      (entries.any (found fnmatch text) || entries.any (overlooked fnmatch text)) := by
  induction entries with
  | nil => rfl
  | cons entry entries ih =>
      simp only [List.any_cons, ih, accepts_eq]
      ac_rfl

theorem Entries.matched_accepts (entries : Entries) (f : Function) (filename : Str) :
    entries.matched (accepts fnmatch) f filename =
      (entries.matched (found fnmatch) f filename ||
        entries.matched (overlooked fnmatch) f filename) := by
  simp only [Entries.matched, any_accepts]
  ac_rfl

/-- Nothing is found for a source without a name. -/
theorem any_found_nil {entries : List Str} (named : ∀ entry ∈ entries, entry ≠ []) :
    entries.any (found fnmatch []) = false := by
  rw [List.any_eq_false]
  intro entry inside
  have longer : ¬([] : Str).length ≥ entry.length :=
    Nat.not_le_of_lt (List.length_pos_iff.mpr (named entry inside))
  rw [found, decide_eq_false longer, Bool.false_and]
  exact Bool.false_ne_true

theorem any_found_source (fnmatch : Str → Str → Bool) {entries : List Str}
    (named : ∀ entry ∈ entries, entry ≠ []) (source : Str) :
    (!source.isEmpty && entries.any (found fnmatch source)) =
      entries.any (found fnmatch source) := by
  cases source with
  | nil =>
      rw [any_found_nil named]
      rfl
  | cons c source => rfl

theorem isInInstrumentList_eq {lists : Lists} (allow : lists.allow.Named)
    (deny : lists.deny.Named) (f : Function) (filename : Str) :
    isInInstrumentList fnmatch lists f filename =
      (!(f.size = 0 || isIgnoreFunction f) &&
        !lists.deny.matched (found fnmatch) f filename &&
        (lists.allow.isEmpty || lists.allow.matched (found fnmatch) f filename)) := by
  have denied := any_found_source fnmatch deny (sourceFile f filename)
  have allowed := any_found_source fnmatch allow (sourceFile f filename)
  have source (entries : List Str) :
      (if (!(sourceFile f filename).isEmpty) = true then
        entries.any (found fnmatch (sourceFile f filename)) else false) =
        (!(sourceFile f filename).isEmpty &&
          entries.any (found fnmatch (sourceFile f filename))) := by
    cases (sourceFile f filename).isEmpty <;> rfl
  have none : lists.allow.files.isEmpty = true →
      lists.allow.files.any (found fnmatch (sourceFile f filename)) = false := by
    intro empty
    rw [List.isEmpty_iff.mp empty]
    rfl
  unfold isInInstrumentList Entries.matched Entries.isEmpty
  rw [denied, source, allowed]
  generalize (decide (f.size = 0) || isIgnoreFunction f) = skipped
  generalize lists.deny.functions.any (found fnmatch f.name) = deniedName
  generalize lists.deny.files.any (found fnmatch (sourceFile f filename)) = deniedSource
  generalize lists.allow.functions.any (found fnmatch f.name) = allowedName
  generalize lists.allow.files.any (found fnmatch (sourceFile f filename)) = allowedSource at none ⊢
  cases skipped with
  | true => rfl
  | false =>
      cases deniedName with
      | true => rfl
      | false =>
          cases deniedSource with
          | true => rfl
          | false =>
              cases files : lists.allow.files.isEmpty with
              | true =>
                  rw [none files]
                  cases lists.allow.functions.isEmpty <;> cases allowedName <;> rfl
              | false => cases allowedName <;> cases allowedSource <;> rfl

/-! ## The exact condition -/

theorem decides_iff (skipped deniedShort deniedLong empty allowedShort allowedLong : Bool) :
    ((!skipped && !deniedShort && (empty || allowedShort)) = true ↔
        skipped = false ∧ (deniedShort || deniedLong) = false ∧
          (empty = true ∨ (allowedShort || allowedLong) = true)) ↔
      skipped = true ∨ deniedShort = true ∨
        if deniedLong then empty = false ∧ allowedShort = false
        else empty = true ∨ allowedShort = true ∨ allowedLong = false := by
  cases skipped with
  | true => simp
  | false =>
      cases deniedShort with
      | true => simp
      | false =>
          cases deniedLong with
          | true => cases empty <;> cases allowedShort <;> simp
          | false => cases empty <;> cases allowedShort <;> cases allowedLong <;> simp

/-- With every `fnmatch`, environment, list file, module and function, the decision is the one that
the entries call for exactly when the entries that are overlooked are harmless. -/
theorem isInInstrumentList_decides_iff (fnmatch : Str → Str → Bool) (env : Env)
    (files : Str → Option Str) {loaded : Lists}
    (init : initInstrumentList env files = .ok loaded) (names : List Str) (f : Function)
    (filename : Str) :
    (isInInstrumentList fnmatch (loaded.scanForDangerousFunctions names) f filename = true ↔
        Instrumented fnmatch (loaded.scanForDangerousFunctions names) f filename) ↔
      Harmless fnmatch (loaded.scanForDangerousFunctions names) f filename := by
  obtain ⟨allow, deny⟩ := initInstrumentList_named init
  generalize hl : loaded.scanForDangerousFunctions names = lists
  have sameAllow : lists.allow = loaded.allow := by rw [← hl]; rfl
  have sameDeny : lists.deny.files = loaded.deny.files := by rw [← hl]; rfl
  have allowNamed : lists.allow.Named := sameAllow ▸ allow
  have denyNamed : lists.deny.Named := fun entry inside => deny entry (sameDeny ▸ inside)
  have skipped : (f.size ≠ 0 ∧ isIgnoreFunction f = false) ↔
      (decide (f.size = 0) || isIgnoreFunction f) = false := by
    rw [Bool.or_eq_false_iff, decide_eq_false_iff_not]
  have skips : (f.size = 0 ∨ isIgnoreFunction f = true) ↔
      (decide (f.size = 0) || isIgnoreFunction f) = true := by
    rw [Bool.or_eq_true, decide_eq_true_iff]
  rw [isInInstrumentList_eq allowNamed denyNamed, Instrumented, Harmless, ← and_assoc, skipped,
    ← or_assoc, skips, Entries.matched_accepts, Entries.matched_accepts]
  exact decides_iff _ _ _ _ _ _

/-- The allow file has one entry, which is the end of the name. -/
theorem isInInstrumentList_decides_iff_suffix :
    isInInstrumentList Glob.accepts ⟨⟨[], ["parse".toList]⟩, .none⟩
        ⟨"do_parse".toList, 1, none⟩ "parse.c".toList = true ↔
      Instrumented Glob.accepts ⟨⟨[], ["parse".toList]⟩, .none⟩
        ⟨"do_parse".toList, 1, none⟩ "parse.c".toList :=
  (isInInstrumentList_decides_iff Glob.accepts ⟨some "allow".toList, none, none, none, none⟩
    (fun _ => some "fun:parse # the parser\n".toList) rfl [] ⟨"do_parse".toList, 1, none⟩
    "parse.c".toList).mpr (.inr (.inr (.inr (.inr (.inl (by decide))))))

/-- `fun:parse*` allows the function `parse`, and the pass leaves it out. -/
theorem isInInstrumentList_overlooks :
    initInstrumentList ⟨some "allow".toList, none, none, none, none⟩
        (fun _ => some "fun:parse*\n".toList) =
      .ok ⟨⟨[], ["parse*".toList]⟩, .none⟩ ∧
    ¬(isInInstrumentList Glob.accepts ⟨⟨[], ["parse*".toList]⟩, .none⟩
          ⟨"parse".toList, 1, none⟩ "parse.c".toList = true ↔
        Instrumented Glob.accepts ⟨⟨[], ["parse*".toList]⟩, .none⟩
          ⟨"parse".toList, 1, none⟩ "parse.c".toList) := by
  constructor
  · rfl
  · intro decides
    have allowed : Instrumented Glob.accepts ⟨⟨[], ["parse*".toList]⟩, .none⟩
        ⟨"parse".toList, 1, none⟩ "parse.c".toList :=
      ⟨by decide, by decide, by decide, .inr (by decide)⟩
    exact absurd (decides.mpr allowed) (by decide)

end SbFuzz.Instrumentation.InstrumentList
