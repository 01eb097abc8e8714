import Mathlib.Data.List.Basic
import SbFuzz.Systems.Strings

/-! Command lines from test cases (`argv-fuzz-inl.h`): read from stdin in a fresh
process, or parsed in the shared test-case buffer of a persistent one. -/

set_option autoImplicit false

namespace SbFuzz.Utils

def maxCmdlineLen : Nat := 100000

def maxCmdlinePar : Nat := 50000

def maxFile : Nat := 1024 * 1024

/-- A C string without its terminator. -/
abbrev Arg := List UInt8

/-- The static array `ret`: the strings behind its pointers, nothing for NULL. -/
abbrev Ret := Nat → Option Arg

/-- The string at a pointer and the memory behind its terminator; nothing when
the loop `while (*ptr)` leaves the memory. -/
def cstring : List UInt8 → Option (Arg × List UInt8)
  | [] => none
  | c :: rest =>
      if c = 0 then some ([], rest)
      else (cstring rest).map fun found => (c :: found.1, found.2)

/-- `if (ret[rc][0] == 0x02 && !ret[rc][1]) ret[rc]++`: a lone 0x02 stands for
the empty string. -/
def adjust (arg : Arg) : Arg := if arg = [0x02] then [] else arg

/-- The loop over `ptr`, with the number of slots that `ret` still has. -/
def parseArgs : Nat → List UInt8 → Option (List Arg)
  | _, [] => none
  | 0, _ :: _ => some []
  | slots + 1, c :: rest =>
      if c = 0 then some []
      else
        match cstring (c :: rest) with
        | none => none
        | some (arg, behind) => (parseArgs slots behind).map (adjust arg :: ·)

def Ret.fill (ret : Ret) (args : List Arg) : Ret := fun i => args[i]?.or (ret i)

structure Parsed where
  argc : Nat
  argv : Ret

/-- `afl_init_argv` in a fresh process; an empty stdin makes it exit. -/
def aflInitArgv (stdin : List UInt8) : Option Parsed :=
  let inBuf := stdin.take (maxCmdlineLen - 2)
  if inBuf = [] then none
  else
    (parseArgs maxCmdlinePar (inBuf ++ [0, 0])).map fun args =>
      ⟨args.length, Ret.fill (fun _ => none) args⟩

def aflInitArgvPersistent (ret : Ret) (persistentBuff : List UInt8) : Option Parsed :=
  (parseArgs maxCmdlinePar persistentBuff).map fun args => ⟨args.length, ret.fill args⟩

/-! ## Persistent processes -/

/-- What persists: the shared buffer and the static array. -/
structure Process where
  buff : List UInt8
  ret : Ret

/-- `afl_fsrv_write_to_testcase` with shared memory. -/
def place (buff testcase : List UInt8) : List UInt8 :=
  testcase.take maxFile ++ buff.drop (testcase.take maxFile).length

def Process.round (process : Process) (testcase : List UInt8) : Option Parsed × Process :=
  let buff := place process.buff testcase
  let parsed := aflInitArgvPersistent process.ret buff
  (parsed, { buff, ret := (parsed.map Parsed.argv).getD process.ret })

/-! When the persistent variant of the argv decoding returns what the other one
returns: the text of a command line is what the parser reads back. -/

open SbFuzz.Systems

/-! ## Command lines as text -/

/-- Strings with their terminators, one after the other. -/
def rendered (args : List Arg) : List UInt8 := terminated 0 args

/-- Strings that a command line in memory can have. -/
def Proper (arg : Arg) : Prop := arg ≠ [] ∧ 0 ∉ arg

theorem rendered_cons (arg : Arg) (args : List Arg) :
    rendered (arg :: args) = arg ++ 0 :: rendered args := terminated_cons 0 arg args

theorem cstring_append {arg : Arg} (noNul : 0 ∉ arg) (behind : List UInt8) :
    cstring (arg ++ 0 :: behind) = some (arg, behind) := by
  induction arg with
  | nil => rfl
  | cons c arg ih =>
      have nonzero : c ≠ 0 := Ne.symm (List.ne_of_not_mem_cons noNul)
      rw [List.cons_append, cstring, if_neg nonzero,
        ih (List.not_mem_of_not_mem_cons noNul)]
      rfl

theorem cstring_spec {memory behind : List UInt8} {arg : Arg}
    (found : cstring memory = some (arg, behind)) : 0 ∉ arg ∧ memory = arg ++ 0 :: behind := by
  induction memory generalizing arg with
  | nil => cases found
  | cons c rest ih =>
      unfold cstring at found
      split at found
      · next zero =>
        cases found
        exact ⟨List.not_mem_nil, zero ▸ rfl⟩
      · next nonzero =>
        obtain ⟨⟨inner, after⟩, more, same⟩ := Option.map_eq_some_iff.mp found
        cases same
        obtain ⟨noNul, text⟩ := ih more
        exact ⟨List.not_mem_cons_of_ne_of_not_mem (Ne.symm nonzero) noNul, text ▸ rfl⟩

/-- The parser reads a command line that an empty string ends. -/
theorem parseArgs_rendered {args : List Arg} (proper : ∀ arg ∈ args, Proper arg) {slots : Nat}
    (few : args.length < slots) {memory : List UInt8} (text : rendered args ++ [0] <+: memory) :
    parseArgs slots memory = some (args.map adjust) := by
  obtain ⟨behind, rfl⟩ := text
  induction args generalizing slots with
  | nil =>
      obtain ⟨slots, rfl⟩ := Nat.exists_eq_add_of_lt few
      simp [rendered, parseArgs]
  | cons arg args ih =>
      obtain ⟨⟨nonempty, noNul⟩, others⟩ := List.forall_mem_cons.mp proper
      obtain ⟨c, tail, rfl⟩ := List.exists_cons_of_ne_nil nonempty
      have nonzero : c ≠ 0 := Ne.symm (List.ne_of_not_mem_cons noNul)
      cases slots with
      | zero => cases few
      | succ slots =>
          have later := ih others (Nat.lt_of_succ_lt_succ few)
          have found := cstring_append noNul (rendered args ++ [0] ++ behind)
          simp only [rendered_cons, List.cons_append, List.append_assoc] at found later ⊢
          rw [parseArgs, if_neg nonzero, found]
          simp only [later, Option.map_some, List.map_cons]

/-- Whatever the parser returns before it runs out of slots is such a command line. -/
theorem parseArgs_spec {slots : Nat} {memory : List UInt8} {strings : List Arg}
    (parsed : parseArgs slots memory = some strings) (few : strings.length < slots) :
    ∃ args, (∀ arg ∈ args, Proper arg) ∧ strings = args.map adjust ∧
      rendered args ++ [0] <+: memory := by
  induction slots generalizing memory strings with
  | zero => cases few
  | succ slots ih =>
      cases memory with
      | nil => cases parsed
      | cons c rest =>
          unfold parseArgs at parsed
          split at parsed
          · next zero =>
            cases parsed
            exact ⟨[], List.forall_mem_nil _, rfl, rest, by simp [rendered, zero]⟩
          · next nonzero =>
            split at parsed
            · cases parsed
            · next arg behind found =>
              obtain ⟨others, more, same⟩ := Option.map_eq_some_iff.mp parsed
              subst same
              obtain ⟨noNul, text⟩ := cstring_spec found
              obtain ⟨args, proper, rfl, remaining⟩ := ih more (Nat.lt_of_succ_lt_succ few)
              refine ⟨arg :: args, List.forall_mem_cons.mpr ⟨⟨?_, noNul⟩, proper⟩, rfl, ?_⟩
              · rintro rfl
                exact nonzero (List.cons.inj text).1
              · rw [text, rendered_cons, List.append_assoc, List.cons_append]
                exact (List.prefix_append_right_inj _).mpr
                  ((List.prefix_cons_inj _).mpr remaining)

theorem adjust_inj {left right : Arg} (leftProper : Proper left) (rightProper : Proper right)
    (same : adjust left = adjust right) : left = right := by
  unfold adjust at same
  split at same <;> split at same
  · next isLeft isRight => exact isLeft.trans isRight.symm
  · exact absurd same.symm rightProper.1
  · exact absurd same leftProper.1
  · exact same

/-- Replacing lone 0x02s confuses no two command lines. -/
theorem map_adjust_inj {left right : List Arg} (leftProper : ∀ arg ∈ left, Proper arg)
    (rightProper : ∀ arg ∈ right, Proper arg) (same : left.map adjust = right.map adjust) :
    left = right := by
  induction left generalizing right with
  | nil => exact (List.map_eq_nil_iff.mp same.symm).symm
  | cons arg left ih =>
      cases right with
      | nil => cases same
      | cons other right =>
          obtain ⟨head, tail⟩ := List.cons.inj same
          obtain ⟨argProper, leftProper⟩ := List.forall_mem_cons.mp leftProper
          obtain ⟨otherProper, rightProper⟩ := List.forall_mem_cons.mp rightProper
          rw [adjust_inj argProper otherProper head, ih leftProper rightProper tail]

/-! ## What stdin says -/

/-- The strings of a test case in front of the first empty one. -/
def arguments (testcase : List UInt8) : List Arg :=
  ((testcase.take (maxCmdlineLen - 2)).splitOn 0).takeWhile (· ≠ [])

theorem arguments_proper (testcase : List UInt8) : ∀ arg ∈ arguments testcase, Proper arg := by
  intro arg isArgument
  have nonempty := List.all_eq_true.mp List.all_takeWhile arg isArgument
  exact ⟨of_decide_eq_true nonempty,
    not_mem_of_mem_splitOn ((List.takeWhile_subset _) isArgument)⟩

/-- The terminators behind the input end the last string or the command line. -/
theorem rendered_arguments (testcase : List UInt8) :
    rendered (arguments testcase) ++ [0] <+: testcase.take (maxCmdlineLen - 2) ++ [0, 0] := by
  have text := terminated_splitOn 0 (testcase.take (maxCmdlineLen - 2))
  rw [← List.takeWhile_append_dropWhile (p := (· ≠ []))
    (l := (testcase.take (maxCmdlineLen - 2)).splitOn 0)] at text
  generalize left : ((testcase.take (maxCmdlineLen - 2)).splitOn 0).dropWhile (· ≠ []) = others
    at text
  rw [show testcase.take (maxCmdlineLen - 2) ++ [0, 0] =
    (testcase.take (maxCmdlineLen - 2) ++ [0]) ++ [0] by simp, ← text]
  cases others with
  | nil => exact ⟨[], by simp [rendered, terminated, arguments]⟩
  | cons first others =>
      have empty : first = [] := by
        have stopped := List.head?_dropWhile_not (· ≠ [])
          ((testcase.take (maxCmdlineLen - 2)).splitOn 0)
        rw [left] at stopped
        simpa using stopped
      exact ⟨rendered others ++ [0], by simp [rendered, terminated, arguments, empty]⟩

theorem length_rendered {args : List Arg} (proper : ∀ arg ∈ args, Proper arg) :
    2 * args.length ≤ (rendered args).length := by
  induction args with
  | nil => exact Nat.zero_le _
  | cons arg args ih =>
      obtain ⟨⟨nonempty, -⟩, others⟩ := List.forall_mem_cons.mp proper
      have positive := List.length_pos_iff.mpr nonempty
      have rest := ih others
      rw [rendered_cons, List.length_append, List.length_cons, List.length_cons]
      omega

/-- A command line read from stdin never fills the array. -/
theorem arguments_few (testcase : List UInt8) :
    (arguments testcase).length < maxCmdlinePar := by
  have fits := (rendered_arguments testcase).length_le
  have twice := length_rendered (arguments_proper testcase)
  simp only [List.length_append, List.length_take, List.length_cons, List.length_nil,
    maxCmdlineLen, maxCmdlinePar] at fits ⊢
  omega

theorem aflInitArgv_eq {testcase : List UInt8} (nonempty : testcase ≠ []) :
    aflInitArgv testcase = some ⟨(arguments testcase).length,
      Ret.fill (fun _ => none) ((arguments testcase).map adjust)⟩ := by
  have taken : testcase.take (maxCmdlineLen - 2) ≠ [] := by
    simpa [maxCmdlineLen] using nonempty
  rw [aflInitArgv, if_neg taken, parseArgs_rendered (arguments_proper testcase)
    (arguments_few testcase) (rendered_arguments testcase), Option.map_some, List.length_map]

/-! ## One test case after the other -/

/-- Both variants return the same strings, and NULL behind them. -/
structure Agrees (oneShot persistent : Parsed) : Prop where
  argc : persistent.argc = oneShot.argc
  argv : ∀ i < oneShot.argc, persistent.argv i = oneShot.argv i
  room : persistent.argc < maxCmdlinePar
  ended : persistent.argv persistent.argc = none

def Decodes (testcase : List UInt8) (parsed : Option Parsed) : Prop :=
  ∃ oneShot persistent, aflInitArgv testcase = some oneShot ∧ parsed = some persistent ∧
    Agrees oneShot persistent

def DecodesAll (process : Process) : List (List UInt8) → Prop
  | [] => True
  | testcase :: later =>
      Decodes testcase (process.round testcase).1 ∧ DecodesAll (process.round testcase).2 later

/-- What the buffer holds is ended where the test case's own command line ends,
and no array slot behind it is left from a longer one. -/
def Clean (buff : List UInt8) (most : Nat) : List (List UInt8) → Prop
  | [] => True
  | testcase :: later =>
      testcase ≠ [] ∧ rendered (arguments testcase) ++ [0] <+: place buff testcase ∧
        most ≤ (arguments testcase).length ∧
        Clean (place buff testcase) (arguments testcase).length later

/-- The array has exactly its first slots set. -/
def Ret.Filled (ret : Ret) (most : Nat) : Prop := ∀ i, ret i = none ↔ most ≤ i

theorem Ret.fill_none {ret : Ret} {args : List Arg} {i : Nat} :
    ret.fill args i = none ↔ args.length ≤ i ∧ ret i = none := by
  rw [Ret.fill, Option.or_eq_none_iff, List.getElem?_eq_none_iff]

theorem Ret.fill_lt {ret other : Ret} {args : List Arg} {i : Nat} (inside : i < args.length) :
    ret.fill args i = other.fill args i := by
  simp [Ret.fill, List.getElem?_eq_getElem inside]

theorem Ret.fill_filled {ret : Ret} {most : Nat} (filled : ret.Filled most) {args : List Arg}
    (longer : most ≤ args.length) : (ret.fill args).Filled args.length := by
  intro i
  rw [Ret.fill_none, filled i]
  exact ⟨And.left, fun behind => ⟨behind, Nat.le_trans longer behind⟩⟩

theorem Ret.fill_eq {ret other : Ret} {args others : List Arg}
    (sameLength : args.length = others.length)
    (same : ∀ i < others.length, ret.fill args i = other.fill others i) : args = others := by
  refine List.ext_getElem sameLength fun i inside inside' => ?_
  have atIndex := same i inside'
  simpa [Ret.fill, List.getElem?_eq_getElem, inside, inside'] using atIndex

/-- The step of the buffer when it holds the test case's own command line. -/
theorem Process.round_eq (process : Process) {testcase : List UInt8}
    (ownText : rendered (arguments testcase) ++ [0] <+: place process.buff testcase) :
    process.round testcase =
      (some ⟨(arguments testcase).length, process.ret.fill ((arguments testcase).map adjust)⟩,
        ⟨place process.buff testcase, process.ret.fill ((arguments testcase).map adjust)⟩) := by
  have parsed := parseArgs_rendered (arguments_proper testcase) (arguments_few testcase) ownText
  simp [Process.round, aflInitArgvPersistent, parsed]

/-- One test case decodes alike exactly when nothing is left behind its command line. -/
theorem Process.round_decodes_iff {process : Process} {most : Nat}
    (filled : process.ret.Filled most) (testcase : List UInt8) :
    Decodes testcase (process.round testcase).1 ↔
      testcase ≠ [] ∧ rendered (arguments testcase) ++ [0] <+: place process.buff testcase ∧
        most ≤ (arguments testcase).length := by
  constructor
  · rintro ⟨oneShot, persistent, read, decoded, agrees⟩
    have nonempty : testcase ≠ [] := by
      rintro rfl
      cases read
    rw [aflInitArgv_eq nonempty] at read
    cases read
    obtain ⟨strings, parsed, rfl⟩ := Option.map_eq_some_iff.mp decoded
    have count : strings.length = ((arguments testcase).map adjust).length := by
      rw [List.length_map]
      exact agrees.argc
    have sameStrings : strings = (arguments testcase).map adjust :=
      Ret.fill_eq count (by simpa using agrees.argv)
    have few : strings.length < maxCmdlinePar := agrees.room
    obtain ⟨args, proper, rfl, text⟩ := parseArgs_spec parsed few
    have sameArgs := map_adjust_inj proper (arguments_proper testcase) sameStrings
    subst sameArgs
    have ended := (Ret.fill_none.mp agrees.ended).2
    rw [filled, List.length_map] at ended
    exact ⟨nonempty, text, ended⟩
  · rintro ⟨nonempty, ownText, longer⟩
    rw [process.round_eq ownText]
    refine ⟨_, _, aflInitArgv_eq nonempty, rfl, rfl, ?_, arguments_few testcase, ?_⟩
    · intro i inside
      rw [← List.length_map adjust] at inside
      change process.ret.fill _ i = Ret.fill (fun _ => none) _ i
      exact Ret.fill_lt inside
    · rw [Ret.fill_none, List.length_map, filled]
      exact ⟨Nat.le_refl _, longer⟩

theorem decodesAll_of_filled {process : Process} {most : Nat}
    (filled : process.ret.Filled most) (testcases : List (List UInt8)) :
    DecodesAll process testcases ↔ Clean process.buff most testcases := by
  induction testcases generalizing process most with
  | nil => exact Iff.rfl
  | cons testcase later ih =>
      rw [DecodesAll, Clean, process.round_decodes_iff filled, and_assoc, and_assoc]
      refine and_congr_right fun _ => and_congr_right fun ownText => and_congr_right fun longer => ?_
      rw [process.round_eq ownText]
      have longEnough : most ≤ ((arguments testcase).map adjust).length := by
        rwa [List.length_map]
      have stillFilled := Ret.fill_filled filled longEnough
      rw [List.length_map] at stillFilled
      exact ih stillFilled

/-- The persistent variant decodes a sequence of test cases as fresh processes
do exactly when none is empty, each is followed in the buffer by the end of its
own command line, and none has fewer arguments than an earlier one. -/
theorem persistent_decodesAll_iff (buff : List UInt8) (testcases : List (List UInt8)) :
    DecodesAll ⟨buff, fun _ => none⟩ testcases ↔ Clean buff 0 testcases :=
  decodesAll_of_filled (fun i => ⟨fun _ => Nat.zero_le i, fun _ => rfl⟩) testcases

/-- In a fresh buffer, `x` is read with the rest of `abc` behind it. -/
theorem shorterTestcase_decodesStale :
    ¬ ∀ buff testcases, DecodesAll ⟨buff, fun _ => none⟩ testcases := by
  intro always
  obtain ⟨-, ⟨oneShot, persistent, read, decoded, agrees⟩, -⟩ :=
    always (List.replicate 8 0) [[97, 98, 99], [120]]
  have one : aflInitArgv [120] = some ⟨1, Ret.fill (fun _ => none) [[120]]⟩ := rfl
  cases one.symm.trans read
  cases decoded
  exact absurd (agrees.argv 0 Nat.one_pos) (by decide)

end SbFuzz.Utils
