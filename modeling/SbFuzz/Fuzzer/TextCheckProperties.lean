import SbFuzz.Fuzzer.TextCheck
import Mathlib.Data.Nat.Count

/-! What the scan for text counts, over the positions of a buffer. -/

set_option autoImplicit false

namespace SbFuzz.Fuzzer.TextCheck

/-! ## Positions -/

def InSequence (buf : List UInt8) (pos : Nat) : Prop :=
  ∃ start c, CharAt buf start c ∧ start ≤ pos ∧ pos < start + c.utf8Size

open Classical in
/-- The bytes that belong to sequences of several bytes. -/
noncomputable def sequenceBytes (buf : List UInt8) : Nat := Nat.count (InSequence buf) buf.length

/-- A sequence of several bytes begins here. -/
def StartsSequence (buf : List UInt8) (pos : Nat) : Prop := ∃ c, CharAt buf pos c

open Classical in
noncomputable def sequences (buf : List UInt8) : Nat := Nat.count (StartsSequence buf) buf.length

def printableBytes (buf : List UInt8) : Nat := buf.countP printable

def control (byte : UInt8) : Bool := byte < 0x80 && !printable byte

/-- ASCII that is not printable. -/
def controlBytes (buf : List UInt8) : Nat := buf.countP control

/-- The bytes that belong to well-formed sequences. -/
noncomputable def textBytes (buf : List UInt8) : Nat := printableBytes buf + sequenceBytes buf

theorem sequenceSize_of_charAt {buf : List UInt8} {pos : Nat} {c : Char} (char : CharAt buf pos c) :
    sequenceSize (buf.drop pos) = c.utf8Size := by
  obtain ⟨wide, rest, same⟩ := char
  rw [← same, sequenceSize_encode wide]

theorem startsSequence_iff (buf : List UInt8) (pos : Nat) :
    StartsSequence buf pos ↔ sequenceSize (buf.drop pos) ≠ 0 := by
  constructor
  · intro ⟨c, char⟩
    rw [sequenceSize_of_charAt char]
    exact Nat.ne_of_gt c.utf8Size_pos
  · intro starts
    obtain ⟨c, wide, encoded⟩ := exists_char_of_sequenceSize starts
    exact ⟨c, wide, encoded⟩

theorem charAt_append (front rest : List UInt8) (pos : Nat) (c : Char) :
    CharAt (front ++ rest) (front.length + pos) c ↔ CharAt rest pos c := by
  unfold CharAt
  rw [← List.drop_drop, List.drop_left]

/-! ## Pieces -/

/-- The bytes behind the lead of a sequence start none. -/
theorem encode_cons {c : Char} (wide : Wide c) : ∃ lead conts,
    String.utf8EncodeChar c = lead :: conts ∧ conts.length + 1 = c.utf8Size ∧
      0xC2 ≤ lead.toNat ∧ ∀ byte ∈ conts, 0x80 ≤ byte.toNat ∧ byte.toNat ≤ 0xBF := by
  have starts := sequenceSize_encode wide []
  have nonzero : c.utf8Size ≠ 0 := Nat.ne_of_gt c.utf8Size_pos
  have cont (v : Nat) : 0x80 ≤ (UInt8.ofNat (v % 0x40 + 0x80)).toNat ∧
      (UInt8.ofNat (v % 0x40 + 0x80)).toNat ≤ 0xBF := by
    rw [toNat_ofNat_byte (by omega)]
    omega
  rw [List.append_nil] at starts
  rcases char_bytes wide with ⟨_, _, size, bytes⟩ | ⟨_, _, size, bytes⟩ | ⟨_, size, bytes⟩
  · rw [bytes] at starts
    refine ⟨_, _, bytes, size.symm, lead_of_sequenceSize (starts.trans_ne nonzero), fun byte member => ?_⟩
    cases List.mem_singleton.mp member
    exact cont _
  · rw [bytes] at starts
    refine ⟨_, _, bytes, size.symm, lead_of_sequenceSize (starts.trans_ne nonzero), fun byte member => ?_⟩
    simp only [List.mem_cons, List.not_mem_nil, or_false] at member
    rcases member with rfl | rfl
    · exact cont _
    · exact cont _
  · rw [bytes] at starts
    refine ⟨_, _, bytes, size.symm, lead_of_sequenceSize (starts.trans_ne nonzero), fun byte member => ?_⟩
    simp only [List.mem_cons, List.not_mem_nil, or_false] at member
    rcases member with rfl | rfl | rfl
    · exact cont _
    · exact cont _
    · exact cont _

theorem encode_length {c : Char} (wide : Wide c) : (String.utf8EncodeChar c).length = c.utf8Size := by
  obtain ⟨lead, conts, bytes, size, _⟩ := encode_cons wide
  rw [bytes, List.length_cons, size]

theorem not_printable {byte : UInt8} (large : 0x80 ≤ byte.toNat) : printable byte = false := by
  simp only [printable, Bool.or_eq_false_iff, beq_eq_false_iff_ne, Bool.and_eq_false_iff,
    decide_eq_false_iff_not, UInt8.le_iff_toNat_le, ne_eq, ← UInt8.toNat_inj]
  have small : (0x7E : UInt8).toNat = 126 := rfl
  refine ⟨⟨⟨fun same => ?_, fun same => ?_⟩, fun same => ?_⟩, .inr (by omega)⟩
  · exact absurd (same ▸ large) (by decide)
  · exact absurd (same ▸ large) (by decide)
  · exact absurd (same ▸ large) (by decide)

theorem not_control {byte : UInt8} (large : 0x80 ≤ byte.toNat) : control byte = false := by
  have above : ¬ byte < 0x80 := fun below => absurd (UInt8.lt_iff_toNat_lt.mp below) (by
    have ascii : (0x80 : UInt8).toNat = 128 := rfl
    omega)
  simp [control, above]

/-- A buffer is made of printable bytes, sequences and other bytes. -/
theorem piece_induction {motive : List UInt8 → Prop} (nil : motive [])
    (ascii : ∀ byte rest, printable byte = true → motive rest → motive (byte :: rest))
    (char : ∀ c rest, Wide c → motive rest → motive (String.utf8EncodeChar c ++ rest))
    (stray : ∀ byte rest, printable byte = false → sequenceSize (byte :: rest) = 0 → motive rest →
      motive (byte :: rest)) (buf : List UInt8) : motive buf := by
  suffices short : ∀ n (buf : List UInt8), buf.length ≤ n → motive buf from
    short buf.length buf (Nat.le_refl _)
  intro n
  induction n with
  | zero =>
    intro buf empty
    rwa [List.length_eq_zero_iff.mp (Nat.le_zero.mp empty)]
  | succ n ih =>
    intro buf bound
    cases buf with
    | nil => exact nil
    | cons byte rest =>
      have smaller : rest.length ≤ n := Nat.le_of_succ_le_succ bound
      cases kind : printable byte with
      | true => exact ascii byte rest kind (ih rest smaller)
      | false =>
        by_cases starts : sequenceSize (byte :: rest) = 0
        · exact stray byte rest kind starts (ih rest smaller)
        · obtain ⟨c, wide, behind, same⟩ := exists_char_of_sequenceSize starts
          have lengths := congrArg List.length same
          rw [List.length_append, encode_length wide] at lengths
          have positive := c.utf8Size_pos
          rw [← same]
          exact char c behind wide (ih behind (by omega))

/-! ## Counts -/

theorem sequences_nil : sequences [] = 0 := by
  classical
  exact Nat.count_zero _

theorem sequenceBytes_nil : sequenceBytes [] = 0 := by
  classical
  exact Nat.count_zero _

theorem sequences_cons (byte : UInt8) (rest : List UInt8) :
    sequences (byte :: rest) = sequences rest + if sequenceSize (byte :: rest) ≠ 0 then 1 else 0 := by
  unfold sequences
  rw [List.length_cons, Nat.count_succ']
  exact congrArg _ (ite_congr (propext (startsSequence_iff (byte :: rest) 0)) (fun _ => rfl)
    fun _ => rfl)

theorem sequences_conts {conts : List UInt8} (inside : ∀ byte ∈ conts, byte.toNat ≤ 0xBF)
    (rest : List UInt8) : sequences (conts ++ rest) = sequences rest := by
  induction conts with
  | nil => rfl
  | cons byte conts ih =>
    have small := inside byte List.mem_cons_self
    have stray : sequenceSize (byte :: (conts ++ rest)) = 0 := by
      by_contra starts
      have lead := lead_of_sequenceSize starts
      omega
    rw [List.cons_append, sequences_cons, stray, if_neg (not_not.mpr rfl), Nat.add_zero]
    exact ih fun byte member => inside byte (List.mem_cons_of_mem _ member)

theorem sequences_encode {c : Char} (wide : Wide c) (rest : List UInt8) :
    sequences (String.utf8EncodeChar c ++ rest) = sequences rest + 1 := by
  obtain ⟨lead, conts, bytes, _, _, inside⟩ := encode_cons wide
  have starts := sequenceSize_encode wide rest
  rw [bytes] at starts ⊢
  rw [List.cons_append] at starts ⊢
  rw [sequences_cons, starts, if_pos (Nat.ne_of_gt c.utf8Size_pos),
    sequences_conts fun byte member => (inside byte member).2]

/-- Nothing starts within a sequence. -/
theorem charAt_encode {c d : Char} (wide : Wide c) {rest : List UInt8} {pos : Nat}
    (char : CharAt (String.utf8EncodeChar c ++ rest) pos d) (inside : pos < c.utf8Size) : pos = 0 := by
  obtain ⟨lead, conts, bytes, size, _, small⟩ := encode_cons wide
  have starts := (startsSequence_iff _ _).mp ⟨d, char⟩
  cases pos with
  | zero => rfl
  | succ pos =>
    have here : pos < conts.length := by omega
    rw [bytes, List.cons_append, List.drop_succ_cons, List.drop_append_of_le_length (by omega),
      List.drop_eq_getElem_cons here, List.cons_append] at starts
    have lead' := lead_of_sequenceSize starts
    have bound := (small _ (List.getElem_mem here)).2
    omega

theorem sequenceBytes_encode {c : Char} (wide : Wide c) (rest : List UInt8) :
    sequenceBytes (String.utf8EncodeChar c ++ rest) = c.utf8Size + sequenceBytes rest := by
  classical
  have length := encode_length wide
  unfold sequenceBytes
  rw [List.length_append, length, Nat.count_add]
  congr 1
  · refine Nat.count_of_forall fun pos inside => ⟨0, c, ⟨wide, rest, rfl⟩, Nat.zero_le _, ?_⟩
    rwa [Nat.zero_add]
  · congr 1
    funext pos
    refine propext ⟨fun ⟨start, d, char, before, behind⟩ => ?_, fun ⟨start, d, char, before, behind⟩ => ?_⟩
    · rcases Nat.lt_or_ge start c.utf8Size with within | outside
      · have front := charAt_encode wide char within
        subst front
        have size := sequenceSize_of_charAt char
        rw [List.drop_zero, sequenceSize_encode wide] at size
        omega
      · obtain ⟨start, rfl⟩ := Nat.exists_eq_add_of_le outside
        rw [← length, charAt_append] at char
        exact ⟨start, d, char, by omega, by omega⟩
    · exact ⟨c.utf8Size + start, d, length ▸ (charAt_append _ _ _ _).mpr char, by omega, by omega⟩

theorem sequenceBytes_stray {byte : UInt8} {rest : List UInt8}
    (stray : sequenceSize (byte :: rest) = 0) : sequenceBytes (byte :: rest) = sequenceBytes rest := by
  classical
  have none' (c : Char) : ¬ CharAt (byte :: rest) 0 c := fun char =>
    (startsSequence_iff (byte :: rest) 0).mp ⟨c, char⟩ stray
  unfold sequenceBytes
  rw [List.length_cons, Nat.count_succ', if_neg, Nat.add_zero]
  · congr 1
    funext pos
    refine propext ⟨fun ⟨start, c, char, before, behind⟩ => ?_, fun ⟨start, c, char, before, behind⟩ => ?_⟩
    · cases start with
      | zero => exact absurd char (none' c)
      | succ start => exact ⟨start, c, char, by omega, by omega⟩
    · exact ⟨start + 1, c, char, by omega, by omega⟩
  · intro ⟨start, c, char, before, _⟩
    cases Nat.le_zero.mp before
    exact none' c char

theorem printable_stray {byte : UInt8} (kind : printable byte = true) (rest : List UInt8) :
    sequenceSize (byte :: rest) = 0 := by
  by_contra starts
  have lead := lead_of_sequenceSize starts
  rw [not_printable (by omega)] at kind
  cases kind

theorem countP_encode {p : UInt8 → Bool} (none' : ∀ byte : UInt8, 0x80 ≤ byte.toNat → p byte = false)
    {c : Char} (wide : Wide c) (rest : List UInt8) :
    (String.utf8EncodeChar c ++ rest).countP p = rest.countP p := by
  obtain ⟨lead, conts, bytes, _, large, inside⟩ := encode_cons wide
  have outside : (String.utf8EncodeChar c).countP p = 0 := by
    rw [List.countP_eq_zero, bytes]
    intro byte member
    rcases List.mem_cons.mp member with rfl | member
    · exact Bool.not_eq_true _ ▸ none' _ (by omega)
    · exact Bool.not_eq_true _ ▸ none' _ (inside byte member).1
  rw [List.countP_append, outside, Nat.zero_add]

theorem sequenceBytes_bounds (buf : List UInt8) :
    2 * sequences buf ≤ sequenceBytes buf ∧ sequenceBytes buf ≤ 4 * sequences buf := by
  induction buf using piece_induction with
  | nil =>
    rw [sequences_nil, sequenceBytes_nil]
    exact ⟨Nat.le_refl 0, Nat.le_refl 0⟩
  | ascii byte rest kind ih =>
    have stray := printable_stray kind rest
    rwa [sequences_cons, stray, if_neg (not_not.mpr rfl), Nat.add_zero, sequenceBytes_stray stray]
  | char c rest wide ih =>
    have most := c.utf8Size_le_four
    rw [sequences_encode wide, sequenceBytes_encode wide]
    unfold Wide at wide
    omega
  | stray byte rest kind stray ih =>
    rwa [sequences_cons, stray, if_neg (not_not.mpr rfl), Nat.add_zero, sequenceBytes_stray stray]

/-! ## The scan -/

theorem readIn_eq {buf : List UInt8} {offset : Nat} {ranges : List Range}
    (inside : offset + ranges.length ≤ buf.length) :
    readIn buf offset ranges = some (inRanges ranges (buf.drop offset)) := by
  induction ranges generalizing offset with
  | nil => rfl
  | cons range ranges ih =>
    rw [List.length_cons] at inside
    have here : offset < buf.length := by omega
    rw [readIn, List.getElem?_eq_getElem here, Option.bind_some, List.drop_eq_getElem_cons here,
      inRanges]
    split
    · next fits =>
      rw [ih (by omega), decide_eq_true fits.1, decide_eq_true fits.2, Bool.true_and, Bool.true_and]
    · next misses =>
      have outside : (decide (range.1 ≤ buf[offset]) && decide (buf[offset] ≤ range.2)) = false :=
        Bool.and_eq_false_imp.mpr fun low =>
          decide_eq_false fun high => misses ⟨of_decide_eq_true low, high⟩
      rw [outside, Bool.false_and]

theorem readAny_eq {buf : List UInt8} {offset : Nat} {forms : List (List Range)}
    (inside : ∀ form ∈ forms, offset + form.length ≤ buf.length) :
    readAny buf offset forms = some (forms.any (inRanges · (buf.drop offset))) := by
  induction forms with
  | nil => rfl
  | cons form forms ih =>
    rw [readAny, readIn_eq (inside form List.mem_cons_self), Option.bind_some, List.any_cons,
      ih fun other member => inside other (List.mem_cons_of_mem _ member)]
    cases inRanges form (buf.drop offset) with
    | true => rfl
    | false => rfl

theorem length_of_inRanges {ranges : List Range} {bytes : List UInt8}
    (fits : inRanges ranges bytes = true) : ranges.length ≤ bytes.length := by
  induction ranges generalizing bytes with
  | nil => exact Nat.zero_le _
  | cons range ranges ih =>
    cases bytes with
    | nil => cases fits
    | cons byte bytes => exact Nat.succ_le_succ (ih (Bool.and_eq_true_iff.mp fits).2)

/-- A branch reads its sequences when there is room for them, and only then. -/
theorem branch_eq {buf : List UInt8} {offset size : Nat} {forms : List (List Range)}
    (positive : 0 < size) (sized : ∀ form ∈ forms, form.length = size) :
    branch buf offset size forms = some (forms.any (inRanges · (buf.drop offset))) := by
  unfold branch
  split
  · next room =>
    refine readAny_eq fun form member => ?_
    rw [sized form member]
    omega
  · next short =>
    refine congrArg some (Eq.symm (List.any_eq_false.mpr fun form member fits => ?_))
    have long := length_of_inRanges fits
    rw [sized form member, List.length_drop] at long
    omega

/-- What a byte that is not printable adds. -/
def Counts.other (counts : Counts) (byte : UInt8) : Counts :=
  if byte < 0x80 then { counts with ascii := counts.ascii + 1 } else counts

theorem advance_eq {buf : List UInt8} {offset : Nat} {byte : UInt8} {rest : List UInt8}
    (here : buf.drop offset = byte :: rest) (counts : Counts) :
    advance buf offset counts = some (
      if printable byte then
        (offset + 1, { counts with utf8 := counts.utf8 + 1, ascii := counts.ascii + 1 })
      else if sequenceSize (byte :: rest) = 0 then (offset + 1, counts.other byte)
      else (offset + sequenceSize (byte :: rest),
        { counts.other byte with
          utf8 := (counts.other byte).utf8 + 1
          comp := (counts.other byte).comp - ((sequenceSize (byte :: rest) : Int) - 1) })) := by
  have first : buf[offset]? = some byte := by
    rw [← List.head?_drop, here]
    rfl
  have two := @branch_eq buf offset 2 twoByte (by decide) (by decide)
  have three := @branch_eq buf offset 3 threeByte (by decide) (by decide)
  have four := @branch_eq buf offset 4 fourByte (by decide) (by decide)
  rw [here] at two three four
  unfold advance
  rw [first, Option.bind_some]
  cases printable byte with
  | true => rfl
  | false =>
    dsimp only
    rw [two, three, four]
    unfold sequenceSize Counts.other
    simp only [Option.bind_some, Bool.false_eq_true, if_false]
    split
    · rfl
    · split
      · rfl
      · split
        · rfl
        · rfl

theorem Counts.other_printable {byte : UInt8} (kind : printable byte = false) (counts : Counts) :
    counts.other byte =
      { counts with ascii := counts.ascii + if control byte then 1 else 0 } := by
  unfold Counts.other control
  rw [kind]
  by_cases ascii : byte < 0x80
  · simp [ascii]
  · simp [ascii]

theorem scan_cons {buf : List UInt8} {fuel offset : Nat} {byte : UInt8} {rest : List UInt8}
    (here : buf.drop offset = byte :: rest) (counts : Counts) :
    scan buf (fuel + 1) offset counts =
      (advance buf offset counts).bind fun advanced => scan buf fuel advanced.1 advanced.2 := by
  have room : offset < buf.length := by
    by_contra outside
    rw [List.drop_of_length_le (Nat.le_of_not_lt outside)] at here
    cases here
  rw [scan, if_pos room]

/-- From an offset on, the scan never reads past the end, and adds up what is behind it. -/
theorem scan_eq {buf rest : List UInt8} {fuel offset : Nat} (counts : Counts)
    (behind : buf.drop offset = rest) (enough : rest.length ≤ fuel) :
    scan buf fuel offset counts = some
      ⟨counts.ascii + (printableBytes rest + controlBytes rest),
        counts.utf8 + (printableBytes rest + sequences rest),
        counts.comp - ((sequenceBytes rest : Int) - sequences rest)⟩ := by
  have next {byte : UInt8} {rest : List UInt8} {offset : Nat}
      (behind : buf.drop offset = byte :: rest) : buf.drop (offset + 1) = rest := by
    rw [← List.drop_drop, behind, List.drop_one, List.tail_cons]
  induction rest using piece_induction generalizing fuel offset counts with
  | nil =>
    have outside : buf.length ≤ offset := List.drop_eq_nil_iff.mp behind
    unfold scan
    rw [if_neg (Nat.not_lt.mpr outside), sequences_nil, sequenceBytes_nil]
    exact congrArg some (Counts.mk.injEq .. |>.mpr ⟨rfl, rfl, (Int.sub_zero _).symm⟩)
  | ascii byte rest kind ih =>
    have stray := printable_stray kind rest
    have plain : control byte = false := by simp [control, kind]
    obtain ⟨fuel, rfl⟩ := Nat.exists_eq_add_of_lt enough
    rw [scan_cons behind, advance_eq behind, if_pos kind, Option.bind_some,
      ih _ (next behind) (by omega), sequences_cons, stray, sequenceBytes_stray stray]
    simp only [printableBytes, controlBytes, List.countP_cons, kind, plain, if_true, if_false,
      Bool.false_eq_true, ne_eq, not_true_eq_false, Option.some.injEq, Counts.mk.injEq]
    omega
  | char c rest wide ih =>
    obtain ⟨lead, conts, bytes, size, large, _⟩ := encode_cons wide
    have starts := sequenceSize_encode wide rest
    have after : buf.drop (offset + c.utf8Size) = rest := by
      rw [← List.drop_drop, behind, ← encode_length wide, List.drop_left]
    have positive := c.utf8Size_pos
    rw [List.length_append, encode_length wide] at enough
    rw [sequences_encode wide, sequenceBytes_encode wide, printableBytes, controlBytes,
      countP_encode (fun _ => not_printable) wide, countP_encode (fun _ => not_control) wide]
    rw [bytes, List.cons_append] at behind starts
    obtain ⟨fuel, rfl⟩ := Nat.exists_eq_add_of_lt (Nat.lt_of_lt_of_le (Nat.zero_lt_of_lt wide)
      (Nat.le_trans (Nat.le_add_right _ _) enough))
    rw [Nat.zero_add] at enough ⊢
    rw [scan_cons behind, advance_eq behind, not_printable (by omega : 0x80 ≤ lead.toNat), starts,
      if_neg Bool.false_ne_true, if_neg (Nat.ne_of_gt positive), Option.bind_some,
      ih _ after (by omega), Counts.other_printable (not_printable (by omega)),
      not_control (by omega)]
    simp only [printableBytes, controlBytes, Bool.false_eq_true, if_false, Option.some.injEq,
      Counts.mk.injEq, Nat.add_zero, true_and]
    push_cast
    omega
  | stray byte rest kind stray ih =>
    obtain ⟨fuel, rfl⟩ := Nat.exists_eq_add_of_lt enough
    rw [scan_cons behind, advance_eq behind, kind, stray, if_neg Bool.false_ne_true, if_pos rfl,
      Option.bind_some, ih _ (next behind) (by omega), Counts.other_printable kind, sequences_cons,
      stray, sequenceBytes_stray stray]
    simp only [printableBytes, controlBytes, List.countP_cons, kind, if_false, ne_eq,
      Bool.false_eq_true, not_true_eq_false, Option.some.injEq, Counts.mk.injEq]
    omega

/-! ## Classification -/

/-- Each sequence is counted once, and the counter is returned as a byte. -/
theorem checkIfTextBuf_eq (buf : List UInt8) :
    checkIfTextBuf buf =
      some (.ofNat (printableBytes buf + max (sequences buf) (controlBytes buf))) := by
  unfold checkIfTextBuf
  rw [scan_eq _ List.drop_zero (Nat.le_refl _), Option.map_some]
  refine congrArg (fun n => some (UInt8.ofNat n)) ?_
  dsimp only
  split <;> omega

theorem checkIfTextBuf_counts_iff (buf : List UInt8) :
    (∃ count, checkIfTextBuf buf = some count ∧ count.toNat = textBytes buf) ↔
      textBytes buf < 256 ∧ sequenceBytes buf ≤ controlBytes buf ∧
        256 ∣ controlBytes buf - sequenceBytes buf := by
  have bounds := sequenceBytes_bounds buf
  rw [checkIfTextBuf_eq]
  unfold textBytes
  constructor
  · intro ⟨count, returned, same⟩
    cases returned
    rw [UInt8.toNat_ofNat'] at same
    omega
  · intro ⟨small, less, k, wraps⟩
    refine ⟨_, rfl, ?_⟩
    rw [UInt8.toNat_ofNat']
    omega

theorem control_le (buf : List UInt8) : printableBytes buf + controlBytes buf ≤ buf.length := by
  induction buf with
  | nil => exact Nat.le_refl 0
  | cons byte rest ih =>
    unfold printableBytes controlBytes at ih ⊢
    rw [List.countP_cons, List.countP_cons, List.length_cons]
    cases kind : printable byte with
    | true =>
      have plain : control byte = false := by simp [control, kind]
      rw [plain, if_pos rfl, if_neg Bool.false_ne_true]
      omega
    | false =>
      rw [if_neg Bool.false_ne_true]
      split <;> omega

/-- A well-formed file of the length that the guards leave is all UTF-8. -/
theorem checkIfText_of_long {file : List UInt8} (text : textBytes file = file.length)
    (length : file.length = aflTxtMaxLen) : checkIfText file.length (some file) = some 2 := by
  have bound := control_le file
  have bounds := sequenceBytes_bounds file
  have whole : file.take file.length = file := List.take_length
  unfold textBytes at text
  unfold aflTxtMaxLen at length
  unfold checkIfText aflTxtMinLen aflTxtMaxLen maxFile
  rw [if_neg (by omega), if_neg (by omega)]
  dsimp only
  rw [whole, if_neg (not_not.mpr rfl), scan_eq _ List.drop_zero (Nat.le_refl _), Option.map_some]
  refine congrArg some (if_pos ?_)
  dsimp only
  -- As many characters are counted as are left in `comp`.
  have comp : (file.length : Int) - ((sequenceBytes file : Int) - sequences file) =
      ((0 + (printableBytes file + sequences file) : Nat) : Int) := by omega
  have all : ((0 + (printableBytes file + sequences file) : Nat) * 100 : Int) /
      ((0 + (printableBytes file + sequences file) : Nat) : Int) = 100 :=
    Int.mul_ediv_cancel_left 100 (by omega)
  have positive : (0 : Int) < file.length := by omega
  have most : ((0 + (printableBytes file + controlBytes file) : Nat) * 100 : Int) ≤
      100 * file.length := by omega
  have ascii := Int.ediv_le_of_le_mul positive most
  rw [comp, all]
  exact ⟨ascii, by decide⟩

/-- The byte that is returned is the number of bytes in well-formed sequences only without longer
sequences, up to as many control bytes and a wrap-around; and of the well-formed files that are to
be classified as text, only those of the greatest length are. -/
theorem checkIfText_iff (buf : List UInt8) {file : List UInt8}
    (text : textBytes file = file.length) (most : file.length ≤ aflTxtMaxLen) :
    ((∃ count, checkIfTextBuf buf = some count ∧ count.toNat = textBytes buf) ∧
        ∃ kind, checkIfText file.length (some file) = some kind ∧ kind ≠ 0) ↔
      (textBytes buf < 256 ∧ sequenceBytes buf ≤ controlBytes buf ∧
        256 ∣ controlBytes buf - sequenceBytes buf) ∧ file.length = aflTxtMaxLen := by
  refine and_congr (checkIfTextBuf_counts_iff buf) ⟨fun ⟨kind, classified, known⟩ => ?_,
    fun longest => ⟨2, checkIfText_of_long text longest, by decide⟩⟩
  by_contra short
  unfold checkIfText at classified
  rw [if_pos (.inr (by omega))] at classified
  cases classified
  exact known rfl

theorem textBytes_replicate (len : Nat) : textBytes (List.replicate len 0x41) = len := by
  unfold textBytes
  induction len with
  | zero => exact congrArg (0 + ·) sequenceBytes_nil
  | succ len ih =>
    have kind : printable 0x41 = true := by decide
    rw [List.replicate_succ, sequenceBytes_stray (printable_stray kind _), printableBytes,
      List.countP_cons, if_pos kind]
    unfold printableBytes at ih
    omega

theorem checkIfText_iff_letters :
    ((∃ count, checkIfTextBuf (List.replicate 3 0x41) = some count ∧
          count.toNat = textBytes (List.replicate 3 0x41)) ∧
        ∃ kind, checkIfText (List.replicate 65535 (0x41 : UInt8)).length
          (some (List.replicate 65535 0x41)) = some kind ∧ kind ≠ 0) := by
  have length : (List.replicate 65535 (0x41 : UInt8)).length = aflTxtMaxLen := List.length_replicate
  have letters : sequenceBytes (List.replicate 3 0x41) = 0 := by
    have all := textBytes_replicate 3
    unfold textBytes at all
    have printed : printableBytes (List.replicate 3 0x41) = 3 := by decide
    omega
  refine (checkIfText_iff (List.replicate 3 0x41) ?_ ?_).mpr ⟨⟨?_, ?_, ?_⟩, length⟩
  · rw [textBytes_replicate, List.length_replicate]
  · exact Nat.le_of_eq length
  · rw [textBytes_replicate]
    decide
  · rw [letters]
    exact Nat.zero_le _
  · rw [letters]
    decide

/-- An `é` counts as one byte, and twelve letters are no text. -/
theorem checkIfText_fails :
    (checkIfTextBuf [0xC3, 0xA9] = some 1 ∧ textBytes [0xC3, 0xA9] = 2) ∧
      textBytes (List.replicate 12 0x41) = 12 ∧
      checkIfText 12 (some (List.replicate 12 0x41)) = some 0 := by
  have bytes : String.utf8EncodeChar (Char.ofNat 0xE9) = [0xC3, 0xA9] := by decide
  have wide : 1 < (Char.ofNat 0xE9).utf8Size := by decide
  have covered := sequenceBytes_encode wide []
  rw [bytes, sequenceBytes_nil] at covered
  refine ⟨⟨by decide, ?_⟩, textBytes_replicate 12, by decide⟩
  unfold textBytes
  exact congrArg (0 + ·) covered

end SbFuzz.Fuzzer.TextCheck
