import SbFuzz.Fuzzer.DictionaryProperties
import SbFuzz.Fuzzer.Queue
import SbFuzz.Systems.Loops
import Mathlib.Data.List.GetD

/-! The four stages that put tokens of the dictionaries into an input: over its
bytes, and between them. -/

set_option autoImplicit false

namespace SbFuzz.Fuzzer

open SbFuzz.Systems

def useAutoExtras : Nat := 4096

/-- The last sort of `maybe_add_auto`, which orders the tokens that are used most. -/
def sortAutoExtras (qsort : QSort) (aExtras : List Token) : List Token :=
  qsort.sort (aExtras.take useAutoExtras) ++ aExtras.drop useAutoExtras

/-- The tokens while an entry is fuzzed. `randBelow i j` is drawn for the token `j`
at the position `i`. -/
structure Dictionary where
  extras : List Token
  aExtras : List Token
  extrasSorted : Ranked List.length extras
  aExtrasSorted : Ranked List.length (aExtras.take useAutoExtras)
  maxDetExtras : Nat
  randBelow : Nat → Nat → Nat

theorem sortAutoExtras_ranked (qsort : QSort) (aExtras : List Token) :
    Ranked List.length ((sortAutoExtras qsort aExtras).take useAutoExtras) := by
  have size : (qsort.sort (aExtras.take useAutoExtras)).length ≤ useAutoExtras := by
    rw [(qsort.perm _).length_eq]
    exact List.length_take_le _ _
  rw [sortAutoExtras, List.take_append, List.take_of_length_le size]
  rcases Nat.lt_or_ge aExtras.length useAutoExtras with few | many
  · rw [List.drop_of_length_le (Nat.le_of_lt few), List.take_nil, List.append_nil]
    exact qsort.ranked _
  · rw [(qsort.perm _).length_eq, List.length_take_of_le many, Nat.sub_self, List.take_zero,
      List.append_nil]
    exact qsort.ranked _

/-- What any operations on the user tokens lead to, with any automatic tokens. -/
def Dictionary.ofOps (qsort : QSort) (ops : List DictOp) (aExtras : List Token)
    (maxDetExtras : Nat) (randBelow : Nat → Nat → Nat) : Dictionary where
  extras := ops.foldl (DictOp.apply qsort) []
  aExtras := sortAutoExtras qsort aExtras
  extrasSorted := dictOps_ranked qsort ops
  aExtrasSorted := sortAutoExtras_ranked qsort aExtras
  maxDetExtras
  randBelow

inductive StageKind where
  | overwrite
  | insert
  deriving DecidableEq

/-- What is handed to `common_fuzz_stuff`, and from which step of a stage. -/
structure Candidate where
  kind : StageKind
  stageCurByte : Nat
  extra : Token
  buf : List UInt8
  deriving DecidableEq

/-- The token took the place of the bytes at the position, or went between them. -/
def Candidate.Placed (inBuf : List UInt8) (candidate : Candidate) : Prop :=
  match candidate.kind with
  | .overwrite =>
      candidate.stageCurByte + candidate.extra.length ≤ inBuf.length ∧
        candidate.buf = inBuf.take candidate.stageCurByte ++ candidate.extra ++
          inBuf.drop (candidate.stageCurByte + candidate.extra.length)
  | .insert =>
      candidate.stageCurByte ≤ inBuf.length ∧
        candidate.buf = inBuf.take candidate.stageCurByte ++ candidate.extra ++
          inBuf.drop candidate.stageCurByte

/-- The candidate is the input with one of the tokens. -/
def Candidate.Exact (tokens : List Token) (inBuf : List UInt8) (candidate : Candidate) : Prop :=
  candidate.extra ∈ tokens ∧ candidate.Placed inBuf

/-! ## The overwrite stages -/

/-- `memcpy` into a buffer that has room. -/
def memcpyAt (buf : List UInt8) (i : Nat) (data : List UInt8) : List UInt8 :=
  buf.take i ++ data ++ buf.drop (i + data.length)

/-- The tokens from `j` on at the position `i`: what is executed, the buffer
afterwards and `last_len`. -/
def overExtras (skipExtra : Nat → Bool) (i j : Nat) (outBuf : List UInt8) (lastLen : Nat) :
    List Token → List Candidate × List UInt8 × Nat
  | [] => ([], outBuf, lastLen)
  | extra :: extras =>
      if skipExtra j ∨ outBuf.length - i < extra.length ∨
          extra = (outBuf.drop i).take extra.length then
        overExtras skipExtra i (j + 1) outBuf lastLen extras
      else
        let outBuf := memcpyAt outBuf i extra
        let later := overExtras skipExtra i (j + 1) outBuf extra.length extras
        (⟨.overwrite, i, extra, outBuf⟩ :: later.1, later.2)

/-- One round of the outer loop, which restores what was written last. -/
def overRound (skipEffMap : Nat → Bool) (skipExtra : Nat → Nat → Bool) (inBuf : List UInt8)
    (extras : List Token) (state : List Candidate × List UInt8) (i : Nat) :
    List Candidate × List UInt8 :=
  if skipEffMap i then
    let (executed, outBuf, lastLen) := overExtras (skipExtra i) i 0 state.2 0 extras
    (state.1 ++ executed, memcpyAt outBuf i ((inBuf.drop i).take lastLen))
  else state

def overStage (skipEffMap : Nat → Bool) (skipExtra : Nat → Nat → Bool) (inBuf : List UInt8)
    (extras : List Token) (outBuf : List UInt8) : List Candidate × List UInt8 :=
  (List.range inBuf.length).foldl (overRound skipEffMap skipExtra inBuf extras) ([], outBuf)

/-! ## The insert stages -/

/-- The memory behind `ex_tmp`. -/
abbrev Scratch := Nat → UInt8

def Scratch.copy (exTmp : Scratch) (i : Nat) (data : List UInt8) : Scratch :=
  fun k => if i ≤ k ∧ k < i + data.length then data.getD (k - i) 0 else exTmp k

def Scratch.bytes (exTmp : Scratch) (len : Nat) : List UInt8 := (List.range len).map exTmp

/-- The token is written at `i`, and the tail behind it. -/
def Scratch.insert (exTmp : Scratch) (i : Nat) (extra : Token) (outBuf : List UInt8) : Scratch :=
  (exTmp.copy i extra).copy (i + extra.length) (outBuf.drop i)

def insertExtras (outBuf : List UInt8) (i : Nat) (exTmp : Scratch) :
    List Token → List Candidate × Scratch
  | [] => ([], exTmp)
  | extra :: extras =>
      if maxFile < outBuf.length + extra.length then insertExtras outBuf i exTmp extras
      else
        let exTmp := exTmp.insert i extra outBuf
        let later := insertExtras outBuf i exTmp extras
        (⟨.insert, i, extra, exTmp.bytes (outBuf.length + extra.length)⟩ :: later.1, later.2)

/-- One round of the outer loop. A position that is skipped leaves the head as it
is; behind the last position the byte that is copied is never executed. -/
def insertRound (skipEffMap : Nat → Bool) (extras : List Token) (outBuf : List UInt8)
    (state : List Candidate × Scratch) (i : Nat) : List Candidate × Scratch :=
  if skipEffMap (i % outBuf.length) then
    let (executed, exTmp) := insertExtras outBuf i state.2 extras
    (state.1 ++ executed, exTmp.copy i [outBuf.getD i 0])
  else state

def insertStage (skipEffMap : Nat → Bool) (extras : List Token) (outBuf : List UInt8)
    (exTmp : Scratch) : List Candidate × Scratch :=
  (List.range (outBuf.length + 1)).foldl (insertRound skipEffMap extras outBuf) ([], exTmp)

/-! ## All stages -/

/-- The token is left to chance when there are more than `max_det_extras`. -/
def Dictionary.skipExtra (dict : Dictionary) (i j : Nat) : Bool :=
  dict.maxDetExtras < dict.extras.length && dict.maxDetExtras ≤ dict.randBelow i j

/-- An overwrite stage and the insert stage behind it. -/
def tokenStages (skipEffMap : Nat → Bool) (skipExtra : Nat → Nat → Bool) (inBuf : List UInt8)
    (overTokens insertTokens : List Token) (outBuf : List UInt8) (exTmp : Scratch) :
    List Candidate × List UInt8 × Scratch :=
  let written := overStage skipEffMap skipExtra inBuf overTokens outBuf
  let insert := insertStage skipEffMap insertTokens written.2 exTmp
  (written.1 ++ insert.1, written.2, insert.2)

def userStages (dict : Dictionary) (skipEffMap : Nat → Bool) (inBuf outBuf : List UInt8)
    (exTmp : Scratch) : List Candidate × List UInt8 × Scratch :=
  if dict.extras = [] then ([], outBuf, exTmp)
  else tokenStages skipEffMap dict.skipExtra inBuf dict.extras dict.extras outBuf exTmp

def autoStages (dict : Dictionary) (skipEffMap : Nat → Bool) (inBuf outBuf : List UInt8)
    (exTmp : Scratch) : List Candidate × List UInt8 × Scratch :=
  if dict.aExtras = [] then ([], outBuf, exTmp)
  else tokenStages skipEffMap (fun _ _ => false) inBuf (dict.aExtras.take useAutoExtras)
    dict.aExtras outBuf exTmp

/-- What the dictionary stages execute, when `abandonAfter` executions are made
before a timeout or an abandoned entry ends them. `exTmp` is what memory holds. -/
def dictionaryStages (dict : Dictionary) (skipEffMap : Nat → Bool) (inBuf : List UInt8)
    (exTmp : Scratch) (abandonAfter : Nat) : List Candidate :=
  let user := userStages dict skipEffMap inBuf inBuf exTmp
  let auto := autoStages dict skipEffMap inBuf user.2.1 user.2.2
  (user.1 ++ auto.1).take abandonAfter

theorem Candidate.Exact.mono {tokens more : List Token} {inBuf : List UInt8}
    {candidate : Candidate} (exact : candidate.Exact tokens inBuf) (sub : tokens ⊆ more) :
    candidate.Exact more inBuf := ⟨sub exact.1, exact.2⟩

/-! ## Tokens over the input -/

section

variable {inBuf outBuf : List UInt8} {i lastLen : Nat}

/-- The buffer is the input but for `lastLen` bytes from `i` on. -/
structure Clobbered (inBuf outBuf : List UInt8) (i lastLen : Nat) : Prop where
  head : outBuf.take i = inBuf.take i
  tail : outBuf.drop (i + lastLen) = inBuf.drop (i + lastLen)
  room : i + lastLen ≤ inBuf.length
  size : outBuf.length = inBuf.length

theorem Clobbered.refl (inside : i ≤ inBuf.length) : Clobbered inBuf inBuf i 0 :=
  ⟨rfl, rfl, inside, rfl⟩

theorem Clobbered.memcpyAt_eq (clobbered : Clobbered inBuf outBuf i lastLen) {data : List UInt8}
    (longer : lastLen ≤ data.length) :
    memcpyAt outBuf i data = inBuf.take i ++ data ++ inBuf.drop (i + data.length) := by
  have split : i + data.length = i + lastLen + (data.length - lastLen) := by omega
  rw [memcpyAt, clobbered.head, split, ← List.drop_drop, clobbered.tail, List.drop_drop]

theorem Clobbered.next (clobbered : Clobbered inBuf outBuf i lastLen) {data : List UInt8}
    (longer : lastLen ≤ data.length) (room : i + data.length ≤ inBuf.length) :
    Clobbered inBuf (memcpyAt outBuf i data) i data.length := by
  have headLength : (inBuf.take i).length = i := by
    rw [List.length_take]
    omega
  rw [clobbered.memcpyAt_eq longer]
  refine ⟨?_, ?_, room, ?_⟩
  · rw [List.append_assoc, List.take_left' headLength]
  · exact List.drop_left' (by rw [List.length_append, headLength])
  · rw [List.length_append, List.length_append, headLength, List.length_drop]
    omega

theorem Clobbered.restored (clobbered : Clobbered inBuf outBuf i lastLen) :
    memcpyAt outBuf i ((inBuf.drop i).take lastLen) = inBuf := by
  have room := clobbered.room
  have size : ((inBuf.drop i).take lastLen).length = lastLen := by
    rw [List.length_take, List.length_drop]
    omega
  rw [clobbered.memcpyAt_eq (Nat.le_of_eq size.symm), size, List.append_assoc, ← List.drop_drop,
    List.take_append_drop, List.take_append_drop]

/-- At one position the tokens get longer, so each one covers what the one before
left: by induction on the tokens that remain. -/
theorem overExtras_spec (skipExtra : Nat → Bool) {extras : List Token} (j : Nat)
    (clobbered : Clobbered inBuf outBuf i lastLen) (sorted : Ranked List.length extras)
    (longer : ∀ extra ∈ extras, lastLen ≤ extra.length) :
    (∀ candidate ∈ (overExtras skipExtra i j outBuf lastLen extras).1,
      candidate.Exact extras inBuf) ∧
    Clobbered inBuf (overExtras skipExtra i j outBuf lastLen extras).2.1 i
      (overExtras skipExtra i j outBuf lastLen extras).2.2 := by
  induction extras generalizing j outBuf lastLen with
  | nil => exact ⟨by simp [overExtras], clobbered⟩
  | cons extra extras ih =>
      have longerLater : ∀ later ∈ extras, lastLen ≤ later.length := fun later member =>
        longer later (List.mem_cons_of_mem _ member)
      rw [overExtras]
      split
      · obtain ⟨exact, left⟩ := ih (j + 1) clobbered sorted.tail longerLater
        exact ⟨fun candidate member => (exact candidate member).mono (List.subset_cons_self _ _),
          left⟩
      · next executed =>
        simp only [not_or, Nat.not_lt] at executed
        have fits := clobbered.room
        have room : i + extra.length ≤ inBuf.length := by
          have size := clobbered.size
          omega
        have longerHere := longer extra List.mem_cons_self
        obtain ⟨exact, left⟩ := ih (j + 1) (clobbered.next longerHere room) sorted.tail
          fun later member => sorted.head_le member
        refine ⟨fun candidate member => ?_, left⟩
        rcases List.mem_cons.mp member with rfl | later
        · exact ⟨List.mem_cons_self, room, clobbered.memcpyAt_eq longerHere⟩
        · exact (exact candidate later).mono (List.subset_cons_self _ _)

theorem overStage_spec (skipEffMap : Nat → Bool) (skipExtra : Nat → Nat → Bool)
    {extras : List Token} (sorted : Ranked List.length extras) :
    (∀ candidate ∈ (overStage skipEffMap skipExtra inBuf extras inBuf).1,
      candidate.Exact extras inBuf) ∧
    (overStage skipEffMap skipExtra inBuf extras inBuf).2 = inBuf := by
  apply foldl_range_invariant fun state : List Candidate × List UInt8 =>
    (∀ candidate ∈ state.1, candidate.Exact extras inBuf) ∧ state.2 = inBuf
  · simp
  · rintro i below ⟨executed, outBuf⟩ ⟨exact, rfl⟩
    unfold overRound
    split
    · obtain ⟨exactHere, left⟩ := overExtras_spec (skipExtra i) 0
        (Clobbered.refl (Nat.le_of_lt below)) sorted fun _ _ => Nat.zero_le _
      refine ⟨fun candidate member => ?_, left.restored⟩
      rcases List.mem_append.mp member with before | here
      · exact exact candidate before
      · exact exactHere candidate here
    · exact ⟨exact, rfl⟩

end

/-! ## Tokens between the bytes -/

section

variable {inBuf : List UInt8} {i : Nat}

/-- The tokens that an input of this length has room for. -/
def fitting (len : Nat) (extras : List Token) : List Token :=
  extras.filter fun extra => len + extra.length ≤ maxFile

theorem Scratch.insert_apply (exTmp : Scratch) (extra : Token) (inside : i ≤ inBuf.length)
    (k : Nat) : exTmp.insert i extra inBuf k =
      if k < i then exTmp k
      else if k < inBuf.length + extra.length then (extra ++ inBuf.drop i).getD (k - i) 0
      else exTmp k := by
  simp only [insert, copy, List.length_drop]
  rcases Nat.lt_or_ge k i with before | after
  · rw [if_neg (by omega), if_neg (by omega), if_pos before]
  · rw [if_neg (Nat.not_lt.mpr after)]
    rcases Nat.lt_or_ge k (i + extra.length) with token | tail
    · rw [if_neg (by omega), if_pos ⟨after, token⟩, if_pos (by omega),
        List.getD_append _ _ _ _ (by omega)]
    · rcases Nat.lt_or_ge k (inBuf.length + extra.length) with inTail | behind
      · rw [if_pos ⟨tail, by omega⟩, if_pos inTail, List.getD_append_right _ _ _ _ (by omega),
          Nat.sub_sub]
      · rw [if_neg (by omega), if_neg (by omega), if_neg (by omega)]

theorem Scratch.insert_bytes (exTmp : Scratch) (extra : Token) (inside : i ≤ inBuf.length) :
    (exTmp.insert i extra inBuf).bytes (inBuf.length + extra.length) =
      exTmp.bytes i ++ (extra ++ inBuf.drop i) := by
  apply List.ext_getElem
  · simp only [bytes, List.length_map, List.length_range, List.length_append, List.length_drop]
    omega
  · intro k below _
    simp only [bytes, List.length_map, List.length_range] at below
    simp only [bytes, List.getElem_append, List.getElem_map, List.getElem_range, List.length_map,
      List.length_range, insert_apply exTmp extra inside, if_pos below]
    split
    · rfl
    · have inside : k - i < (extra ++ inBuf.drop i).length := by
        rw [List.length_append, List.length_drop]
        omega
      rw [List.getD_eq_getElem _ _ inside, List.getElem_append]

theorem Scratch.insert_head (exTmp : Scratch) (extra : Token) (inside : i ≤ inBuf.length) :
    (exTmp.insert i extra inBuf).bytes i = exTmp.bytes i := by
  apply List.map_congr_left
  intro k below
  rw [insert_apply exTmp extra inside, if_pos (List.mem_range.mp below)]

/-- What is executed at one position, and what is left in the buffer as far as
the input reaches: by induction on the tokens that remain. -/
theorem insertExtras_spec (inside : i ≤ inBuf.length) (exTmp : Scratch) (extras : List Token) :
    (insertExtras inBuf i exTmp extras).1 = (fitting inBuf.length extras).map (fun extra =>
      ⟨.insert, i, extra, exTmp.bytes i ++ (extra ++ inBuf.drop i)⟩) ∧
    ∀ k < inBuf.length, (insertExtras inBuf i exTmp extras).2 k =
      if k < i then exTmp k
      else match (fitting inBuf.length extras).getLast? with
        | none => exTmp k
        | some last => (last ++ inBuf.drop i).getD (k - i) 0 := by
  induction extras generalizing exTmp with
  | nil => simp [insertExtras, fitting]
  | cons extra extras ih =>
      rw [insertExtras]
      split
      · next long =>
        have dropped : fitting inBuf.length (extra :: extras) = fitting inBuf.length extras :=
          List.filter_cons_of_neg (by simpa using long)
        rw [dropped]
        exact ih exTmp
      · next short =>
        have kept : fitting inBuf.length (extra :: extras) =
            extra :: fitting inBuf.length extras :=
          List.filter_cons_of_pos (by simpa using short)
        obtain ⟨executed, left⟩ := ih (exTmp.insert i extra inBuf)
        refine ⟨?_, fun k below => ?_⟩
        · simp only [executed, exTmp.insert_head extra inside, exTmp.insert_bytes extra inside, kept,
            List.map_cons]
        · simp only [left k below, exTmp.insert_apply extra inside]
          split
          · rfl
          · rw [kept, if_pos (by omega)]
            cases fitting inBuf.length extras with
            | nil => rfl
            | cons next later => rw [List.getLast?_cons_cons, List.getLast?_cons]

end

/-! ## Bytes left over from earlier positions -/

section

variable (inBuf : List UInt8) (skipEffMap : Nat → Bool) (exTmp : Scratch)

/-- The last position before `p` that was not skipped. -/
def lastEffective : Nat → Option Nat
  | 0 => none
  | p + 1 => if skipEffMap p then some p else lastEffective p

/-- What the last token that was put in at a position before `i` left behind it. -/
def leftover (last : Option Token) (i k : Nat) : UInt8 :=
  match lastEffective skipEffMap i, last with
  | some q, some token => (token ++ inBuf.drop q).getD (k - q) 0
  | _, _ => exTmp k

/-- The head at the position `p`: a position that is not skipped copies its byte
of the input. -/
def headByte (last : Option Token) (p : Nat) : UInt8 :=
  if skipEffMap p then inBuf.getD p 0 else leftover inBuf skipEffMap exTmp last p p

/-- What an insert stage executes at one position. -/
def insertedAt (extras : List Token) (i : Nat) : List Candidate :=
  if skipEffMap (i % inBuf.length) then
    (fitting inBuf.length extras).map fun extra =>
      ⟨.insert, i, extra, (List.range i).map (headByte inBuf skipEffMap exTmp
        (fitting inBuf.length extras).getLast?) ++ (extra ++ inBuf.drop i)⟩
  else []

/-- The stage before the position `n`. -/
structure InsertedBefore (extras : List Token) (n : Nat)
    (state : List Candidate × Scratch) : Prop where
  executed : state.1 = (List.range n).flatMap (insertedAt inBuf skipEffMap exTmp extras)
  scratch : ∀ k < inBuf.length, state.2 k =
    if k < n then headByte inBuf skipEffMap exTmp (fitting inBuf.length extras).getLast? k
    else leftover inBuf skipEffMap exTmp (fitting inBuf.length extras).getLast? n k

variable {inBuf skipEffMap exTmp} {extras : List Token} {i : Nat}
  {state : List Candidate × Scratch}

theorem InsertedBefore.skip (before : InsertedBefore inBuf skipEffMap exTmp extras i state)
    (skipped : skipEffMap (i % inBuf.length) = false) :
    InsertedBefore inBuf skipEffMap exTmp extras (i + 1) state := by
  refine ⟨?_, fun k below => ?_⟩
  · rw [List.range_succ, List.flatMap_append, ← before.executed]
    simp [insertedAt, skipped]
  · rw [before.scratch k below]
    rcases Nat.lt_trichotomy k i with earlier | rfl | later
    · rw [if_pos earlier, if_pos (by omega)]
    · rw [Nat.mod_eq_of_lt below] at skipped
      simp [headByte, skipped]
    · rw [Nat.mod_eq_of_lt (by omega)] at skipped
      rw [if_neg (by omega), if_neg (by omega)]
      simp [leftover, lastEffective, skipped]

theorem InsertedBefore.insert (before : InsertedBefore inBuf skipEffMap exTmp extras i state)
    (inside : i ≤ inBuf.length) (effective : skipEffMap (i % inBuf.length) = true) :
    InsertedBefore inBuf skipEffMap exTmp extras (i + 1)
      (state.1 ++ (insertExtras inBuf i state.2 extras).1,
        (insertExtras inBuf i state.2 extras).2.copy i [inBuf.getD i 0]) := by
  obtain ⟨executed, left⟩ := insertExtras_spec inside state.2 extras
  have head : state.2.bytes i = (List.range i).map (headByte inBuf skipEffMap exTmp
      (fitting inBuf.length extras).getLast?) := by
    apply List.map_congr_left
    intro k member
    have below := List.mem_range.mp member
    rw [before.scratch k (by omega), if_pos below]
  refine ⟨?_, fun k below => ?_⟩
  · rw [List.range_succ, List.flatMap_append, ← before.executed, executed, head]
    simp [insertedAt, effective]
  · simp only [Scratch.copy, List.length_singleton]
    rcases Nat.lt_trichotomy k i with earlier | rfl | later
    · rw [if_neg (by omega), left k below, if_pos earlier, before.scratch k below, if_pos earlier,
        if_pos (by omega)]
    · rw [Nat.mod_eq_of_lt below] at effective
      simp [headByte, effective]
    · rw [Nat.mod_eq_of_lt (by omega)] at effective
      rw [if_neg (by omega), left k below, if_neg (by omega), before.scratch k below,
        if_neg (by omega), if_neg (by omega)]
      cases (fitting inBuf.length extras).getLast? with
      | none => simp [leftover]
      | some last => simp [leftover, lastEffective, effective]

theorem insertStage_spec (inBuf : List UInt8) (skipEffMap : Nat → Bool) (exTmp : Scratch)
    (extras : List Token) :
    InsertedBefore inBuf skipEffMap exTmp extras (inBuf.length + 1)
      (insertStage skipEffMap extras inBuf exTmp) := by
  apply foldl_range_induction (InsertedBefore inBuf skipEffMap exTmp extras)
  · exact ⟨rfl, fun k _ => by simp [leftover, lastEffective]⟩
  · intro i below state before
    unfold insertRound
    split
    · next effective => exact before.insert (by omega) effective
    · next skipped => exact before.skip (by simpa using skipped)

/-! ## When the candidates are exact -/

variable (inBuf skipEffMap exTmp extras) in
/-- Where a token is put in, the bytes that stand at the skipped positions before
it are those of the input: what the last token that fits, put in at the last
position that was not skipped, left there, or what memory held at first. -/
def HeadKept : Prop :=
  ∀ last, (fitting inBuf.length extras).getLast? = some last →
    ∀ i ≤ inBuf.length, skipEffMap (i % inBuf.length) = true →
      ∀ p < i, skipEffMap p = false →
        leftover inBuf skipEffMap exTmp (some last) p p = inBuf.getD p 0

variable (inBuf) in
theorem take_eq_map_iff (byte : Nat → UInt8) (inside : i ≤ inBuf.length) :
    (List.range i).map byte = inBuf.take i ↔ ∀ p < i, byte p = inBuf.getD p 0 := by
  have short : (inBuf.take i).length = i := by
    rw [List.length_take]
    omega
  have given : inBuf.take i = (List.range i).map fun p => inBuf.getD p 0 := by
    apply List.ext_getElem
    · rw [short, List.length_map, List.length_range]
    · intro p below _
      rw [List.getElem_take, List.getElem_map, List.getElem_range, List.getD_eq_getElem]
  rw [given, List.map_inj_left]
  simp only [List.mem_range]

theorem insertStage_exact_iff {tokens : List Token} (sub : extras ⊆ tokens) :
    (∀ candidate ∈ (insertStage skipEffMap extras inBuf exTmp).1,
      candidate.Exact tokens inBuf) ↔
    HeadKept inBuf skipEffMap exTmp extras := by
  rw [(insertStage_spec inBuf skipEffMap exTmp extras).executed]
  constructor
  · intro exact last isLast i inside effective p below skipped
    have candidate : (⟨.insert, i, last, (List.range i).map (headByte inBuf skipEffMap exTmp
        (some last)) ++ (last ++ inBuf.drop i)⟩ : Candidate) ∈
        (List.range (inBuf.length + 1)).flatMap (insertedAt inBuf skipEffMap exTmp extras) := by
      rw [List.mem_flatMap]
      refine ⟨i, List.mem_range.mpr (by omega), ?_⟩
      rw [insertedAt, if_pos effective, List.mem_map]
      exact ⟨last, List.mem_of_getLast? isLast, by rw [isLast]⟩
    obtain ⟨_, _, same⟩ := exact _ candidate
    rw [List.append_assoc] at same
    have head := (take_eq_map_iff inBuf _ inside).mp (List.append_cancel_right same) p below
    simpa [headByte, skipped] using head
  · intro kept candidate member
    obtain ⟨i, inRange, member⟩ := List.mem_flatMap.mp member
    have inside : i ≤ inBuf.length := Nat.le_of_lt_succ (List.mem_range.mp inRange)
    unfold insertedAt at member
    split at member
    · next effective =>
      obtain ⟨extra, fits, rfl⟩ := List.mem_map.mp member
      refine ⟨sub (List.mem_of_mem_filter fits), inside, ?_⟩
      rw [List.append_assoc, List.append_cancel_right_eq, take_eq_map_iff inBuf _ inside]
      intro p below
      cases isLast : (fitting inBuf.length extras).getLast? with
      | none =>
          rw [List.getLast?_eq_none_iff.mp isLast] at fits
          cases fits
      | some last =>
          cases skipped : skipEffMap p with
          | true => simp [headByte, skipped]
          | false =>
              have same := kept last isLast i inside effective p below skipped
              simpa [headByte, skipped] using same
    · cases member

/-- Of what memory held at first, only the bytes before the first position that is
not skipped count. -/
theorem HeadKept.of_same {exTmp' : Scratch} (kept : HeadKept inBuf skipEffMap exTmp extras)
    (same : ∀ p < inBuf.length, lastEffective skipEffMap p = none → skipEffMap p = false →
      exTmp' p = exTmp p) :
    HeadKept inBuf skipEffMap exTmp' extras := by
  intro last isLast i inside effective p below skipped
  rw [← kept last isLast i inside effective p below skipped]
  unfold leftover
  cases before : lastEffective skipEffMap p with
  | none => exact same p (by omega) before skipped
  | some q => rfl

/-- An insert stage leaves these bytes alone. -/
theorem insertStage_keeps {p : Nat} (below : p < inBuf.length)
    (first : lastEffective skipEffMap p = none) (skipped : skipEffMap p = false) :
    (insertStage skipEffMap extras inBuf exTmp).2 p = exTmp p := by
  rw [(insertStage_spec inBuf skipEffMap exTmp extras).scratch p below, if_pos (by omega)]
  simp [headByte, skipped, leftover, first]

variable {tokens : List Token}

theorem tokenStages_spec (skipExtra : Nat → Nat → Bool) {overTokens : List Token}
    (sorted : Ranked List.length overTokens) (subOver : overTokens ⊆ tokens)
    (sub : extras ⊆ tokens) :
    ((∀ candidate ∈ (tokenStages skipEffMap skipExtra inBuf overTokens extras inBuf exTmp).1,
      candidate.Exact tokens inBuf) ↔ HeadKept inBuf skipEffMap exTmp extras) ∧
    (tokenStages skipEffMap skipExtra inBuf overTokens extras inBuf exTmp).2.1 = inBuf := by
  obtain ⟨written, restored⟩ := @overStage_spec inBuf skipEffMap skipExtra overTokens sorted
  simp only [tokenStages, restored, and_true]
  rw [← insertStage_exact_iff sub]
  constructor
  · exact fun exact candidate member => exact candidate (List.mem_append_right _ member)
  · intro exact candidate member
    rcases List.mem_append.mp member with first | second
    · exact (written candidate first).mono subOver
    · exact exact candidate second

theorem headKept_nil : HeadKept inBuf skipEffMap exTmp [] := by
  intro last never
  cases never

theorem userStages_spec (dict : Dictionary) (sub : dict.extras ⊆ tokens) :
    ((∀ candidate ∈ (userStages dict skipEffMap inBuf inBuf exTmp).1,
      candidate.Exact tokens inBuf) ↔ HeadKept inBuf skipEffMap exTmp dict.extras) ∧
    (userStages dict skipEffMap inBuf inBuf exTmp).2.1 = inBuf ∧
    ∀ p < inBuf.length, lastEffective skipEffMap p = none → skipEffMap p = false →
      (userStages dict skipEffMap inBuf inBuf exTmp).2.2 p = exTmp p := by
  unfold userStages
  split
  · next none =>
    rw [none]
    exact ⟨⟨fun _ => headKept_nil, fun _ _ never => by cases never⟩, rfl, fun _ _ _ _ => rfl⟩
  · obtain ⟨exact, restored⟩ :=
      @tokenStages_spec inBuf skipEffMap exTmp dict.extras tokens dict.skipExtra _
        dict.extrasSorted sub sub
    refine ⟨exact, restored, fun p below first skipped => ?_⟩
    have written := @overStage_spec inBuf skipEffMap dict.skipExtra _ dict.extrasSorted
    simp only [tokenStages, written.2]
    exact insertStage_keeps below first skipped

theorem autoStages_spec (dict : Dictionary) (sub : dict.aExtras ⊆ tokens) :
    (∀ candidate ∈ (autoStages dict skipEffMap inBuf inBuf exTmp).1,
      candidate.Exact tokens inBuf) ↔ HeadKept inBuf skipEffMap exTmp dict.aExtras := by
  unfold autoStages
  split
  · next none =>
    rw [none]
    exact ⟨fun _ => headKept_nil, fun _ _ never => by cases never⟩
  · have subTop := List.Subset.trans (List.take_subset useAutoExtras dict.aExtras) sub
    exact (tokenStages_spec (fun _ _ => false) dict.aExtrasSorted subTop sub).1

end

/-- Every candidate of the dictionary stages is the input with one token over it or
in it exactly when the head of the scratch buffer keeps up with the skipped
positions. -/
theorem dictionaryStages_exact_iff (dict : Dictionary) (skipEffMap : Nat → Bool)
    (inBuf : List UInt8) (exTmp : Scratch) :
    (∀ abandonAfter, ∀ candidate ∈ dictionaryStages dict skipEffMap inBuf exTmp abandonAfter,
      candidate.Exact (dict.extras ++ dict.aExtras) inBuf) ↔
    HeadKept inBuf skipEffMap exTmp dict.extras ∧
      HeadKept inBuf skipEffMap exTmp dict.aExtras := by
  obtain ⟨user, restored, kept⟩ := @userStages_spec inBuf skipEffMap exTmp _ dict
    (List.subset_append_left dict.extras dict.aExtras)
  have auto := @autoStages_spec inBuf skipEffMap
    (userStages dict skipEffMap inBuf inBuf exTmp).2.2 _ dict
    (List.subset_append_right dict.extras dict.aExtras)
  have scratch : HeadKept inBuf skipEffMap (userStages dict skipEffMap inBuf inBuf exTmp).2.2
      dict.aExtras ↔ HeadKept inBuf skipEffMap exTmp dict.aExtras := by
    constructor
    · exact fun head => head.of_same fun p below first skipped =>
        (kept p below first skipped).symm
    · exact fun head => head.of_same kept
  rw [← user, ← scratch, ← auto]
  simp only [dictionaryStages, restored]
  constructor
  · intro exact
    have all : ∀ candidate ∈ (userStages dict skipEffMap inBuf inBuf exTmp).1 ++
        (autoStages dict skipEffMap inBuf inBuf
          (userStages dict skipEffMap inBuf inBuf exTmp).2.2).1,
        candidate.Exact (dict.extras ++ dict.aExtras) inBuf := by
      intro candidate member
      apply exact (List.length _) candidate
      rwa [List.take_length]
    exact ⟨fun candidate member => all candidate (List.mem_append_left _ member),
      fun candidate member => all candidate (List.mem_append_right _ member)⟩
  · rintro ⟨first, second⟩ abandonAfter candidate member
    rcases List.mem_append.mp (List.mem_of_mem_take member) with inUser | inAuto
    · exact first candidate inUser
    · exact second candidate inAuto

def oneToken : Dictionary where
  extras := [[0x58]]
  aExtras := []
  extrasSorted := by simp [Ranked]
  aExtrasSorted := by simp [Ranked]
  maxDetExtras := 200
  randBelow := fun _ _ => 0

/-- The position 1 is skipped, so that the insertion at 2 is made behind what the
insertion at 0 left. -/
theorem dictionaryStages_stale :
    ¬ ∀ (dict : Dictionary) (skipEffMap : Nat → Bool) (inBuf : List UInt8) (exTmp : Scratch)
        (abandonAfter : Nat),
      ∀ candidate ∈ dictionaryStages dict skipEffMap inBuf exTmp abandonAfter,
        candidate.Exact (dict.extras ++ dict.aExtras) inBuf := by
  intro holds
  let candidate : Candidate := ⟨.insert, 2, [0x58], [0x61, 0x61, 0x58, 0x63]⟩
  have executed : candidate ∈
      dictionaryStages oneToken (fun i => i ≠ 1) [0x61, 0x62, 0x63] (fun _ => 0) 100 := by
    decide +kernel
  obtain ⟨_, _, same⟩ := holds _ _ _ _ _ candidate executed
  revert same
  decide

end SbFuzz.Fuzzer
