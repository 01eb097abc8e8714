import Mathlib.Data.List.TakeDrop
import SbFuzz.CustomMutators.Autotokens

/-! Splitting a text into tokens ends, and loses and doubles no byte. -/

set_option autoImplicit false

namespace SbFuzz.CustomMutators.Autotokens

open SbFuzz.Fuzzer

/-! ## Quoted strings -/

theorem quoteType?_isSome_iff (c : UInt8) :
    (quoteType? c).isSome = true ↔ c = quote ∨ c = apostrophe := by
  unfold quoteType?
  split
  · next double => simp [double]
  · next notDouble =>
    split
    · next single => simp [single]
    · next notSingle => simp [notDouble, notSingle]

/-- The byte at an index of the text is a quotation mark. -/
def MarkAt (text : List UInt8) (k : Nat) : Prop :=
  ∃ c, text[k]? = some c ∧ (quoteType? c).isSome = true

theorem MarkAt.lt {text : List UInt8} {k : Nat} (mark : MarkAt text k) : k < text.length := by
  obtain ⟨c, here, -⟩ := mark
  exact (List.getElem?_eq_some_iff.mp here).1

theorem searchLoop_spec {text before rest : List UInt8} (split : text = before ++ rest)
    {previous : Option UInt8} {quoteType : Option (QuoteType × Nat)}
    (opened : ∀ type foundBegin, quoteType = some (type, foundBegin) →
      foundBegin < before.length ∧ MarkAt text foundBegin)
    {matchBegin matchEnd : Nat}
    (found : searchLoop previous quoteType before.length rest = some (matchBegin, matchEnd)) :
    matchBegin < matchEnd ∧ matchEnd ≤ text.length ∧ MarkAt text matchBegin := by
  induction rest generalizing before previous quoteType with
  | nil => simp [searchLoop] at found
  | cons c rest ih =>
      have next : text = (before ++ [c]) ++ rest := by simp [split]
      have size : (before ++ [c]).length = before.length + 1 := by simp
      have here : text[before.length]? = some c := by simp [split]
      -- The state of the quotes may stay as it is for the bytes behind this one.
      have keep : ∀ type foundBegin, quoteType = some (type, foundBegin) →
          foundBegin < (before ++ [c]).length ∧ MarkAt text foundBegin := by
        intro type foundBegin same
        obtain ⟨inside, mark⟩ := opened type foundBegin same
        exact ⟨by omega, mark⟩
      rw [searchLoop] at found
      cases kind : quoteType? c with
      | none =>
          simp only [kind] at found
          by_cases ends : endsQuote quoteType c = true
          · rw [if_pos ends, ← size] at found
            exact ih next (fun _ _ same => by cases same) found
          · rw [if_neg ends, ← size] at found
            exact ih next keep found
      | some type =>
          simp only [kind] at found
          have mark : MarkAt text before.length := ⟨c, here, by simp [kind]⟩
          by_cases escaped : previous = some backslash
          · rw [if_pos escaped, ← size] at found
            exact ih next keep found
          · rw [if_neg escaped] at found
            cases quoteType with
            | none =>
                simp only [← size] at found
                refine ih next ?_ found
                intro opening foundBegin same
                cases same
                exact ⟨by omega, mark⟩
            | some state =>
                obtain ⟨opening, foundBegin⟩ := state
                simp only at found
                by_cases closes : opening = type
                · rw [if_pos closes] at found
                  cases found
                  obtain ⟨inside, began⟩ := opened opening matchBegin rfl
                  have behind := mark.lt
                  exact ⟨by omega, by omega, began⟩
                · rw [if_neg closes, ← size] at found
                  exact ih next keep found

theorem mySearchString_spec {text : List UInt8} {matchBegin matchEnd : Nat}
    (found : mySearchString text = some (matchBegin, matchEnd)) :
    matchBegin < matchEnd ∧ matchEnd ≤ text.length ∧ MarkAt text matchBegin :=
  @searchLoop_spec text [] text rfl none none (fun _ _ same => by cases same) _ _ found

/-! ## Gaps -/

/-- No run goes over a quotation mark. -/
theorem mark_ends {c : UInt8} (mark : (quoteType? c).isSome = true) :
    isSpace c = false ∧ startsIdentifier c = false ∧ continuesIdentifier c = false := by
  rcases (quoteType?_isSome_iff c).mp mark with rfl | rfl
  · decide
  · decide

theorem frontToken_ne_nil {text : List UInt8} (nonempty : text ≠ []) : frontToken text ≠ [] := by
  cases text with
  | nil => exact absurd rfl nonempty
  | cons c rest =>
      rw [frontToken]
      split
      · next space => simp [space]
      · split
        · next starts => simp [continuesIdentifier, starts]
        · simp

theorem frontToken_prefix (text : List UInt8) : frontToken text <+: text := by
  cases text with
  | nil => exact List.prefix_rfl
  | cons c rest =>
      rw [frontToken]
      split
      · exact List.takeWhile_prefix _
      · split
        · exact List.takeWhile_prefix _
        · exact ⟨rest, rfl⟩

theorem takeWhile_length_le {p : UInt8 → Bool} {text : List UInt8} {k : Nat} {c : UInt8}
    (here : text[k]? = some c) (fails : p c = false) : (text.takeWhile p).length ≤ k := by
  induction text generalizing k with
  | nil => simp
  | cons d rest ih =>
      by_cases holds : p d = true
      · cases k with
        | zero =>
            simp only [List.getElem?_cons_zero, Option.some.injEq] at here
            rw [here, fails] at holds
            cases holds
        | succ k =>
            rw [List.takeWhile_cons_of_pos holds, List.length_cons]
            exact Nat.succ_le_succ (ih (by simpa using here))
      · simp [List.takeWhile_cons_of_neg holds]

/-- The token at the front ends in front of the quotation mark that follows. -/
theorem frontToken_length_le {text : List UInt8} {k : Nat} (mark : MarkAt text (k + 1)) :
    (frontToken text).length ≤ k + 1 := by
  obtain ⟨c, here, isMark⟩ := mark
  obtain ⟨noSpace, -, noByte⟩ := mark_ends isMark
  cases text with
  | nil => simp [frontToken]
  | cons d rest =>
      rw [frontToken]
      split
      · exact takeWhile_length_le here noSpace
      · split
        · exact takeWhile_length_le here noByte
        · simp

/-- Tokens that make up a text. -/
def Covers (tokens : List Token) (text : List UInt8) : Prop :=
  tokens.flatten = text ∧ [] ∉ tokens

theorem Covers.nil : Covers [] [] := ⟨rfl, by simp⟩

theorem Covers.cons {token : Token} {tokens : List Token} {text : List UInt8}
    (nonempty : token ≠ []) (covers : Covers tokens text) :
    Covers (token :: tokens) (token ++ text) := by
  refine ⟨by simp [covers.1], ?_⟩
  intro member
  rcases List.mem_cons.mp member with same | later
  · exact nonempty same.symm
  · exact covers.2 later

theorem Covers.append {first second : List Token} {left right : List UInt8}
    (start : Covers first left) (rest : Covers second right) :
    Covers (first ++ second) (left ++ right) := by
  refine ⟨by simp [start.1, rest.1], ?_⟩
  intro member
  rcases List.mem_append.mp member with here | there
  · exact start.2 here
  · exact rest.2 there

/-- What is left behind the token at the front still has `found` at a quotation mark, or at the
end. -/
theorem lexGap_covers {text : List UInt8} {found : Nat}
    (stops : MarkAt text found ∨ found = text.length) {fuel : Nat} (enough : found ≤ fuel) :
    ∃ tokens, lexGap fuel found text = some tokens ∧ Covers tokens (text.take found) := by
  induction fuel generalizing text found with
  | zero =>
      have none : found = 0 := by omega
      subst none
      exact ⟨[], by simp [lexGap], by simpa using Covers.nil⟩
  | succ fuel ih =>
      cases found with
      | zero => exact ⟨[], by simp [lexGap], by simpa using Covers.nil⟩
      | succ found =>
          have nonempty : text ≠ [] := by
            rintro rfl
            rcases stops with mark | stop
            · exact absurd mark.lt (by simp)
            · cases stop
          obtain ⟨rest, split⟩ := frontToken_prefix text
          have size : text.length = (frontToken text).length + rest.length := by
            rw [← List.length_append, split]
          have positive : 0 < (frontToken text).length :=
            List.length_pos_iff.mpr (frontToken_ne_nil nonempty)
          have within : (frontToken text).length ≤ found + 1 := by
            rcases stops with mark | stop
            · exact frontToken_length_le mark
            · omega
          have left : text.drop (frontToken text).length = rest := by
            have dropped := @List.drop_left _ (frontToken text) rest
            rwa [split] at dropped
          have stopsLater : MarkAt rest (found + 1 - (frontToken text).length) ∨
              found + 1 - (frontToken text).length = rest.length := by
            rcases stops with mark | stop
            · left
              obtain ⟨c, here, isMark⟩ := mark
              refine ⟨c, ?_, isMark⟩
              rw [← left, List.getElem?_drop]
              rw [Nat.add_sub_cancel' within]
              exact here
            · right
              omega
          obtain ⟨tokens, lexed, covers⟩ := ih stopsLater (by omega)
          refine ⟨frontToken text :: tokens, ?_, ?_⟩
          · simp only [lexGap, left, lexed, Option.map_some]
          · have cut : text.take (found + 1) =
                frontToken text ++ rest.take (found + 1 - (frontToken text).length) := by
              have taken := @List.take_append _ (frontToken text) rest (found + 1)
              rwa [split, List.take_of_length_le within] at taken
            rw [cut]
            exact covers.cons (frontToken_ne_nil nonempty)

/-! ## The whole text -/

/-- The scan ends, and its tokens make up the text. -/
theorem extractTokens_covers {text : List UInt8} {fuel : Nat} (enough : text.length < fuel) :
    ∃ tokens, extractTokens fuel text = some tokens ∧ Covers tokens text := by
  induction fuel generalizing text with
  | zero => exact absurd enough (Nat.not_lt_zero _)
  | succ fuel ih =>
      cases search : mySearchString text with
      | none =>
          obtain ⟨tokens, lexed, covers⟩ :=
            lexGap_covers (.inr rfl) (Nat.le_of_lt_succ enough)
          refine ⟨tokens, ?_, ?_⟩
          · simp only [extractTokens, search, lexed]
          · rwa [List.take_length] at covers
      | some found =>
          obtain ⟨matchBegin, matchEnd⟩ := found
          obtain ⟨nonempty, inside, mark⟩ := mySearchString_spec search
          obtain ⟨gap, lexedGap, coversGap⟩ :=
            @lexGap_covers text matchBegin (.inl mark) fuel (by omega)
          have shorter : (text.drop matchEnd).length < fuel := by
            rw [List.length_drop]
            omega
          obtain ⟨tokens, lexed, covers⟩ := ih shorter
          have quoted : (text.take matchEnd).drop matchBegin ≠ [] := by
            apply List.ne_nil_of_length_pos
            rw [List.length_drop, List.length_take, Nat.min_eq_left inside]
            omega
          have joined : text.take matchBegin ++
              ((text.take matchEnd).drop matchBegin ++ text.drop matchEnd) = text := by
            have front : (text.take matchEnd).take matchBegin = text.take matchBegin := by
              rw [List.take_take, Nat.min_eq_left (Nat.le_of_lt nonempty)]
            rw [← List.append_assoc, ← front, List.take_append_drop, List.take_append_drop]
          refine ⟨gap ++ (text.take matchEnd).drop matchBegin :: tokens, ?_, ?_⟩
          · simp only [extractTokens, search, lexedGap, lexed, Option.bind_eq_bind,
              Option.bind_some, Option.pure_def]
          · have all := coversGap.append (covers.cons quoted)
            rwa [joined] at all

end SbFuzz.CustomMutators.Autotokens
