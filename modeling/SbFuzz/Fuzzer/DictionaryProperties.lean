import SbFuzz.Fuzzer.Dictionary
import SbFuzz.Systems.RankedLists

/-! The array of user tokens: every operation leaves it in the order of lengths,
and after the duplicates are removed none comes back. -/

set_option autoImplicit false

namespace SbFuzz.Fuzzer

open SbFuzz.Systems

section

variable {extras : List Token} {mem : Token}

theorem QSort.ranked (qsort : QSort) (extras : List Token) :
    Ranked List.length (qsort.sort extras) := by
  apply (qsort.sorted extras).imp
  intro e1 e2 ordered
  simp only [compareExtrasLen] at ordered
  omega

/-! ## Duplicates -/

/-- From `j` on, the inner loop drops the copies of the token before it: by
induction on the tokens that it has not looked at. -/
theorem dedupAfter_eq {token : Token} (before between : List Token) {after : List Token}
    (ranked : Ranked List.length (token :: after)) :
    dedupAfter (before ++ token :: between ++ after) before.length
        (before.length + 1 + between.length) =
      before ++ token :: between ++ after.filter fun other => !other == token := by
  induction after generalizing between with
  | nil =>
      rw [dedupAfter, dif_neg (by simp; omega)]
      simp
  | cons other after ih =>
      have inside : before.length + 1 + between.length <
          (before ++ token :: between ++ other :: after).length := by
        simp
        omega
      have here : (before ++ token :: between ++ other :: after).getD before.length [] =
          token := by simp
      have next : (before ++ token :: between ++ other :: after)[before.length + 1 +
          between.length] = other := by
        rw [List.getElem_append_right (by simp; omega)]
        simp [Nat.add_assoc, Nat.add_comm 1]
      rw [dedupAfter, dif_pos inside, here, next]
      have rankedAfter : Ranked List.length (token :: after) :=
        ranked.sublist (List.Sublist.cons_cons token (List.sublist_cons_self other after))
      split
      · next longer =>
        -- all tokens from here on are longer
        have less : token.length < other.length :=
          Nat.lt_of_le_of_ne (ranked.head_le (by simp)) longer
        have absent : token ∉ other :: after := ranked.tail.not_mem_of_lt less
        have kept : (other :: after).filter (fun other => !other == token) = other :: after := by
          rw [List.filter_eq_self]
          intro later member
          have different : later ≠ token := fun same => absent (same ▸ member)
          simpa using different
        rw [kept]
      · split
        · next copy =>
          have erased : (before ++ token :: between ++ other :: after).eraseIdx
              (before.length + 1 + between.length) = before ++ token :: between ++ after := by
            rw [List.eraseIdx_append_of_length_le (by simp; omega)]
            simp [Nat.add_assoc, Nat.add_comm 1]
          rw [erased, ih between rankedAfter]
          simp [copy]
        · next different =>
          have moved : before ++ token :: between ++ other :: after =
              before ++ token :: (between ++ [other]) ++ after := by simp
          have further : before.length + 1 + between.length + 1 =
              before.length + 1 + (between ++ [other]).length := by
            simp
            omega
          rw [moved, further, ih (between ++ [other]) rankedAfter]
          simp [Ne.symm different]

theorem dedupFrom_eq (done : List Token) {rest : List Token} (ranked : Ranked List.length rest) :
    dedupFrom (done ++ rest) done.length = done ++ rest.eraseDups := by
  induction hn : rest.length using Nat.strongRecOn generalizing done rest with
  | ind n ih =>
      cases rest with
      | nil =>
          rw [dedupFrom, if_neg (by simp)]
          simp
      | cons token after =>
          have filtered : Ranked List.length (after.filter fun other => !other == token) :=
            ranked.tail.sublist List.filter_sublist
          have shorter : (after.filter fun other => !other == token).length < n := by
            have bound := List.length_filter_le (fun other => !other == token) after
            simp only [List.length_cons] at hn
            omega
          rw [dedupFrom, List.eraseDups_cons]
          split
          · have round := dedupAfter_eq done [] ranked
            simp only [List.length_nil, Nat.add_zero, List.append_assoc, List.cons_append,
              List.nil_append] at round
            rw [round]
            have next := ih _ shorter (done ++ [token]) filtered rfl
            simpa using next
          · next last =>
            have none : after = [] := by
              cases after with
              | nil => rfl
              | cons other after => simp at last
            simp [none]

/-- Of every token its first occurrence stays. -/
theorem dedupExtras_eq (ranked : Ranked List.length extras) :
    dedupExtras extras = extras.eraseDups := by
  unfold dedupExtras
  split
  · next few =>
    match extras, few with
    | [], _ => simp
    | [token], _ => simp [List.eraseDups_cons]
  · have whole := dedupFrom_eq [] ranked
    simpa using whole

/-! ## Insertion -/

/-- The search for a token in the tokens of its length finds it. -/
theorem alreadyAdded_iff {found : Bool} (ranked : Ranked List.length extras)
    (reached : found = true → ∀ extra ∈ extras, mem.length ≤ extra.length) :
    alreadyAdded mem found extras = true ↔ mem ∈ extras := by
  induction extras generalizing found with
  | nil => simp [alreadyAdded]
  | cons extra extras ih =>
      rw [alreadyAdded]
      split
      · next sameLength =>
        split
        · next same => simp [same]
        · next different =>
          rw [ih ranked.tail fun _ other member => sameLength ▸ ranked.head_le member]
          simp [Ne.symm different]
      · next otherLength =>
        have different : mem ≠ extra := fun same => otherLength (same ▸ rfl)
        split
        · next passed =>
          have longer : mem.length < extra.length :=
            Nat.lt_of_le_of_ne (reached passed extra (by simp)) (Ne.symm otherLength)
          have absent := ranked.not_mem_of_lt longer
          simp only [absent, Bool.false_eq_true]
        · next searching =>
          rw [ih ranked.tail fun now => absurd now searching]
          simp [different]

variable (qsort : QSort)

theorem addExtra_ranked (ranked : Ranked List.length extras) :
    Ranked List.length (addExtra qsort extras mem) := by
  unfold addExtra
  split
  · exact ranked
  · split
    · exact ranked
    · exact qsort.ranked _

theorem addExtra_nodup (ranked : Ranked List.length extras) (distinct : extras.Nodup) :
    (addExtra qsort extras mem).Nodup := by
  unfold addExtra
  split
  · exact distinct
  · next fresh =>
    split
    · exact distinct
    · rw [(qsort.perm _).nodup_iff]
      have absent : mem ∉ extras := by
        rwa [alreadyAdded_iff ranked fun never => Bool.noConfusion never] at fresh
      rw [List.nodup_append]
      refine ⟨distinct, by simp, fun extra member other same => ?_⟩
      rw [List.mem_singleton.mp same]
      rintro rfl
      exact absent member

/-! ## Sequences of operations -/

inductive DictOp where
  | load (source : DictSource)
  | deunicode
  | dedup
  | add (mem : Token)

def DictOp.apply (extras : List Token) : DictOp → List Token
  | .load source => loadExtras qsort extras source
  | .deunicode => deunicodeExtras qsort extras
  | .dedup => dedupExtras extras
  | .add mem => addExtra qsort extras mem

theorem extrasCheckAndSort_ranked (extras : List Token) :
    Ranked List.length (extrasCheckAndSort qsort extras) := by
  unfold extrasCheckAndSort
  split
  · next empty =>
    rw [empty]
    exact List.Pairwise.nil
  · exact qsort.ranked extras

theorem DictOp.apply_ranked (ranked : Ranked List.length extras) (op : DictOp) :
    Ranked List.length (op.apply qsort extras) := by
  cases op with
  | load source =>
      cases source with
      | file dictLevel content => exact extrasCheckAndSort_ranked qsort _
      | directory files => exact extrasCheckAndSort_ranked qsort _
  | deunicode =>
      simp only [DictOp.apply, deunicodeExtras]
      split
      · exact ranked
      · exact qsort.ranked _
  | dedup =>
      simp only [DictOp.apply, dedupExtras_eq ranked]
      exact ranked.sublist (eraseDups_sublist extras)
  | add mem => exact addExtra_ranked qsort ranked

theorem dictOps_ranked (ops : List DictOp) :
    Ranked List.length (ops.foldl (DictOp.apply qsort) []) := by
  have loop : ∀ start, Ranked List.length start →
      Ranked List.length (ops.foldl (DictOp.apply qsort) start) := by
    induction ops with
    | nil => exact fun start ranked => ranked
    | cons op ops ih => exact fun start ranked => ih _ (op.apply_ranked qsort ranked)
  exact loop [] List.Pairwise.nil

theorem addExtras_keeps (adds : List Token) (ranked : Ranked List.length extras)
    (distinct : extras.Nodup) : Ranked List.length (adds.foldl (addExtra qsort) extras) ∧
      (adds.foldl (addExtra qsort) extras).Nodup := by
  induction adds generalizing extras with
  | nil => exact ⟨ranked, distinct⟩
  | cons mem adds ih =>
      exact ih (addExtra_ranked qsort ranked) (addExtra_nodup qsort ranked distinct)

end

/-- After any operations the tokens are in the order of their lengths;
`dedup_extras` keeps exactly the tokens that were there and makes them
pairwise distinct, and they stay so while tokens are added. -/
theorem dictionary_keeps (qsort : QSort) (ops : List DictOp) (adds : List Token) :
    Ranked List.length (ops.foldl (DictOp.apply qsort) []) ∧
    (∀ token, token ∈ dedupExtras (ops.foldl (DictOp.apply qsort) []) ↔
      token ∈ ops.foldl (DictOp.apply qsort) []) ∧
    (dedupExtras (ops.foldl (DictOp.apply qsort) [])).Nodup ∧
    Ranked List.length (adds.foldl (addExtra qsort)
      (dedupExtras (ops.foldl (DictOp.apply qsort) []))) ∧
    (adds.foldl (addExtra qsort) (dedupExtras (ops.foldl (DictOp.apply qsort) []))).Nodup := by
  have ranked := dictOps_ranked qsort ops
  have unique := dedupExtras_eq ranked
  have distinct : (dedupExtras (ops.foldl (DictOp.apply qsort) [])).Nodup :=
    unique ▸ nodup_eraseDups _
  have rankedAfter : Ranked List.length (dedupExtras (ops.foldl (DictOp.apply qsort) [])) :=
    unique ▸ ranked.sublist (eraseDups_sublist _)
  refine ⟨ranked, fun token => ?_, distinct, addExtras_keeps qsort adds rankedAfter distinct⟩
  rw [unique, List.mem_eraseDups]

example : dedupExtras [[1], [2], [1], [1, 1], [2, 2], [1, 1]] = [[1], [2], [1, 1], [2, 2]] := by
  decide +kernel

end SbFuzz.Fuzzer
