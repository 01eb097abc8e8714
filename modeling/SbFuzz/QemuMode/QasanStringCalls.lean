import SbFuzz.QemuMode.QasanStringProperties

/-! Calls of QASan's memory and string functions: which of them return what the C library requires,
without an access outside of their objects. -/

set_option autoImplicit false

namespace SbFuzz.QemuMode.QasanString

open SbFuzz.Memory

/-- An object of `memchr` is what its caller vouches for: as many bytes as the length says, or fewer
up to a byte that matches. `temp` is the block that `__libqasan_malloc` returns. -/
inductive Call where
  | memmove (dest src n : Nat) (temp : Option Region)
  | memchr (object : Region) (c : UInt32) (n : Nat)
  | memrchr (s : Nat) (c : UInt32) (n : Nat)
  | strstr (haystack needle : Region)
  | memmem (haystack needle : Region)
  | strchr (object : Region) (c : UInt32)
  | strrchr (object : Region) (c : UInt32)
  | wcslen (object : Region)
  | wcscmp (first second : Region)

inductive Value where
  | pointer (p : Option Nat)
  | length (n : Nat)
  | sign (result : Int)

/-- The memory behind the call and its result, or a fault. -/
def Call.run (mem : Cells) : Call → Option (Cells × Value)
  | .memmove dest src n temp =>
      (QasanString.memmove ⟨dest, n⟩ ⟨src, n⟩ temp mem n).map fun (mem, p) =>
        (mem, .pointer (some p))
  | .memchr object c n => (QasanString.memchr object mem c n).map fun p => (mem, .pointer p)
  | .memrchr s c n => (QasanString.memrchr ⟨s, n⟩ mem c n).map fun p => (mem, .pointer p)
  | .strstr haystack needle =>
      (QasanString.strstr haystack needle mem).map fun p => (mem, .pointer p)
  | .memmem haystack needle =>
      (QasanString.memmem haystack needle mem haystack.len needle.len).map fun p =>
        (mem, .pointer p)
  | .strchr object c => (QasanString.strchr object mem c).map fun p => (mem, .pointer p)
  | .strrchr object c => (QasanString.strrchr object mem c).map fun p => (mem, .pointer p)
  | .wcslen object => (QasanString.wcslen object mem fuel 0).map fun n => (mem, .length n)
  | .wcscmp first second =>
      (QasanString.wcscmp first second mem fuel first.start second.start).map fun result =>
        (mem, .sign result)

/-! ## What the C library admits and requires -/

def IsString (mem : Cells) (object : Region) : Prop :=
  object.start + object.len < 2 ^ 64 ∧ ∃ len, StringAt mem object object.start len

def IsWide (mem : Cells) (object : Region) : Prop :=
  object.start + object.len < 2 ^ 64 ∧ ∃ w len, WideAt mem object object.start w len

def Call.Admitted (mem : Cells) : Call → Prop
  | .memmove dest src n temp =>
      dest + n < 2 ^ 64 ∧ src + n < 2 ^ 64 ∧
        ∀ block, temp = some block → block.Apart ⟨dest, n⟩ ∧ block.Apart ⟨src, n⟩
  | .memchr object c n =>
      object.start + object.len < 2 ^ 64 ∧ object.len ≤ n ∧
        (object.len = n ∨ ∃ i < object.len, mem (object.start + i) = c.toUInt8)
  | .memrchr s _ n => s + n < 2 ^ 64 ∧ n < 2 ^ 63
  | .strstr haystack needle => IsString mem haystack ∧ IsString mem needle
  | .memmem haystack needle =>
      haystack.start + haystack.len < 2 ^ 64 ∧ needle.start + needle.len < 2 ^ 64
  | .strchr object _ => IsString mem object
  | .strrchr object _ => IsString mem object
  | .wcslen object => IsWide mem object
  | .wcscmp first second => IsWide mem first ∧ IsWide mem second

/-- The needle stands at this position of the haystack. -/
def Occurs (mem : Cells) (haystack needle len needleLen i : Nat) : Prop :=
  i + needleLen ≤ len ∧ ∀ k < needleLen, mem (haystack + i + k) = mem (needle + k)

/-- The result points to the position that was found, or nowhere. -/
def Points (base : Nat) (spec : Option Nat → Prop) (value : Value) : Prop :=
  ∃ found, spec found ∧ value = .pointer (found.map (base + ·))

def Call.Required (mem after : Cells) (value : Value) : Call → Prop
  | .memmove dest src n temp =>
      value = .pointer (some dest) ∧ (∀ k < n, after (dest + k) = mem (src + k)) ∧
        ∀ address, ¬ (Region.mk dest n).Has address →
          (∀ block, temp = some block → ¬ block.Has address) → after address = mem address
  | .memchr object c n => after = mem ∧
      Points object.start (FirstOf (fun i => mem (object.start + i) = c.toUInt8) n) value
  | .memrchr s c n => after = mem ∧
      Points s (LastOf (fun i => mem (s + i) = c.toUInt8) n) value
  | .strstr haystack needle => after = mem ∧ ∃ len needleLen,
      StringAt mem haystack haystack.start len ∧ StringAt mem needle needle.start needleLen ∧
        Points haystack.start
          (FirstOf (Occurs mem haystack.start needle.start len needleLen) (len + 1)) value
  | .memmem haystack needle => after = mem ∧ Points haystack.start
      (FirstOf (Occurs mem haystack.start needle.start haystack.len needle.len)
        (haystack.len + 1)) value
  | .strchr object c => after = mem ∧ ∃ len, StringAt mem object object.start len ∧
      Points object.start (FirstOf (fun i => mem (object.start + i) = c.toUInt8) (len + 1)) value
  | .strrchr object c => after = mem ∧ ∃ len, StringAt mem object object.start len ∧
      Points object.start (LastOf (fun i => mem (object.start + i) = c.toUInt8) (len + 1)) value
  | .wcslen object => after = mem ∧ ∃ w len, WideAt mem object object.start w len ∧
      value = .length len
  | .wcscmp first second => after = mem ∧ ∃ w1 len1 w2 len2 result,
      WideAt mem first first.start w1 len1 ∧ WideAt mem second second.start w2 len2 ∧
        value = .sign result ∧ Compares w1 w2 result

/-- There is no fault, and the result is right. -/
def Call.Meets (mem : Cells) (call : Call) : Prop :=
  ∃ after value, call.run mem = some (after, value) ∧ call.Required mem after value

/-- `memrchr` never fits; `memmove` needs a block wherever it does not copy directly. -/
def Call.Fits : Call → Prop
  | .memmove dest src n temp => n = 0 ∨ ¬ (src ≤ dest + n ∧ dest ≤ src + n) ∨
      ∃ block, temp = some block ∧ n ≤ block.len
  | .memrchr _ _ _ => False
  | _ => True

/-! ## The functions -/

section

variable {mem : Cells}

theorem has_mk (start len k : Nat) : (Region.mk start len).Has (start + k) ↔ k < len := by
  unfold Region.Has
  dsimp only
  omega

theorem memmove_apart {dest src n : Nat} (temp : Option Region) (some_ : n ≠ 0)
    (apart : ¬ (src ≤ dest + n ∧ dest ≤ src + n)) :
    Call.Meets mem (.memmove dest src n temp) := by
  refine ⟨copied mem dest src n, _, ?_, rfl, fun k => copied_at mem, fun address outside _ => ?_⟩
  · unfold Call.run memmove
    simp only [if_neg some_]
    rw [if_pos apart, memcpy_eq (fun k less => (has_mk dest n k).mpr less)
      (fun k less => (has_mk src n k).mpr less) (by omega)]
    rfl
  · unfold Region.Has at outside
    dsimp only at outside
    exact copied_outside mem (by omega)

theorem memmove_overlap {dest src n : Nat} {block : Region} (some_ : n ≠ 0)
    (overlap : src ≤ dest + n ∧ dest ≤ src + n) (fits : n ≤ block.len)
    (apart : block.Apart ⟨dest, n⟩) (srcApart : block.Apart ⟨src, n⟩) :
    Call.Meets mem (.memmove dest src n (some block)) := by
  unfold Region.Apart at apart srcApart
  dsimp only at apart srcApart
  have inBlock (k : Nat) (less : k < n) : block.Has (block.start + k) :=
    (has_mk block.start block.len k).mpr (Nat.lt_of_lt_of_le less fits)
  refine ⟨copied (copied mem block.start src n) dest block.start n, _, ?_, rfl, fun k less => ?_,
    fun address outside elsewhere => ?_⟩
  · rw [Call.run, memmove]
    simp only [if_neg some_]
    rw [if_neg (not_not.mpr overlap)]
    simp only [bind, Option.bind]
    rw [memcpy_eq inBlock (fun k less => (has_mk src n k).mpr less) (by omega)]
    simp only
    rw [memcpy_eq (fun k less => (has_mk dest n k).mpr less) inBlock (by omega)]
    rfl
  · rw [copied_at _ less, copied_at _ less]
  · have unblocked := elsewhere block rfl
    unfold Region.Has at outside unblocked
    dsimp only at outside
    rw [copied_outside _ (by omega), copied_outside _ (by omega)]

theorem memmove_misses {dest src n : Nat} {temp : Option Region} (some_ : n ≠ 0)
    (overlap : src ≤ dest + n ∧ dest ≤ src + n)
    (short : ∀ block, temp = some block → block.len < n) :
    ¬ Call.Meets mem (.memmove dest src n temp) := by
  rintro ⟨after, value, ran, -⟩
  unfold Call.run memmove at ran
  simp only [if_neg some_] at ran
  rw [if_neg (not_not.mpr overlap)] at ran
  cases temp with
  | none => exact nomatch ran
  | some block =>
      have outside : ¬ block.Has (block.start + block.len) := fun inside =>
        Nat.lt_irrefl _ ((has_mk block.start block.len block.len).mp inside)
      simp only [bind, Option.bind] at ran
      rw [memcpy_none (short block rfl) outside] at ran
      exact nomatch ran

theorem points_of {base : Nat} {spec : Option Nat → Prop} {found : Option Nat}
    (holds : spec found) : Points base spec (.pointer (found.map (base + ·))) := ⟨found, holds, rfl⟩

theorem memchr_meets {object : Region} {c : UInt32} {n : Nat}
    (admitted : Call.Admitted mem (.memchr object c n)) : Call.Meets mem (.memchr object c n) := by
  obtain ⟨-, short, whole⟩ := admitted
  have reads (i : Nat) (less : i < n) (before : ∀ j < i, mem (object.start + j) ≠ c.toUInt8) :
      object.Has (object.start + i) := by
    refine (has_mk object.start object.len i).mpr ?_
    rcases whole with all | ⟨stop, below, same⟩
    · omega
    · by_contra beyond
      exact before stop (by omega) same
  obtain ⟨found, result, first⟩ := memchrLoop_spec reads
  refine ⟨mem, _, ?_, rfl, points_of first⟩
  rw [Call.run, memchr, result]
  rfl

theorem memrchr_misses {s : Nat} {c : UInt32} {n : Nat} (admitted : Call.Admitted mem (.memrchr s c n)) :
    ¬ Call.Meets mem (.memrchr s c n) := by
  rintro ⟨after, value, ran, -⟩
  have outside : ¬ (Region.mk s n).Has (s + n) := fun inside =>
    Nat.lt_irrefl n ((has_mk s n n).mp inside)
  rw [Call.run, memrchr, if_neg (Nat.not_le.mpr admitted.2), memrchrLoop_none outside] at ran
  exact nomatch ran

theorem fuel_of_inside {object : Region} {i : Nat} (space : object.start + object.len < 2 ^ 64)
    (inside : object.Has (object.start + i)) : i < fuel := by
  have below := inside.2
  unfold fuel
  omega

theorem strstr_meets {haystack needle : Region}
    (admitted : Call.Admitted mem (.strstr haystack needle)) :
    Call.Meets mem (.strstr haystack needle) := by
  obtain ⟨⟨space, len, string⟩, ⟨space', needleLen, pattern⟩⟩ := admitted
  obtain ⟨found, result, first⟩ := strstrLoop_spec string pattern
    (fuel_of_inside space (string.reads len (Nat.le_refl _)))
    (fuel_of_inside space' (pattern.reads needleLen (Nat.le_refl _)))
  refine ⟨mem, _, ?_, rfl, len, needleLen, string, pattern, points_of first⟩
  rw [Call.run, strstr, result]
  rfl

theorem strchr_meets {object : Region} {c : UInt32} (admitted : IsString mem object) :
    Call.Meets mem (.strchr object c) := by
  obtain ⟨space, len, string⟩ := admitted
  obtain ⟨found, result, first⟩ := strchrLoop_spec (c := c.toUInt8) string
    (fuel_of_inside space (string.reads len (Nat.le_refl _)))
  refine ⟨mem, _, ?_, rfl, len, string, points_of first⟩
  rw [Call.run, strchr, result]
  rfl

theorem strrchr_meets {object : Region} {c : UInt32} (admitted : IsString mem object) :
    Call.Meets mem (.strrchr object c) := by
  obtain ⟨space, len, string⟩ := admitted
  obtain ⟨found, result, last⟩ := strrchrLoop_spec (c := c.toUInt8) string
    (fuel_of_inside space (string.reads len (Nat.le_refl _))) none
  rw [Option.or_none] at result
  refine ⟨mem, _, ?_, rfl, len, string, points_of last⟩
  rw [Call.run, strrchr, result]
  rfl

theorem wideLen_lt {object : Region} {w : Nat → Int} {len : Nat}
    (space : object.start + object.len < 2 ^ 64) {s : Nat} (string : WideAt mem object s w len) :
    len < fuel := by
  have reads := string.reads len (Nat.le_refl _)
  unfold loadWide at reads
  split at reads
  · unfold fuel
    omega
  · exact nomatch reads

theorem wcslen_meets {object : Region} (admitted : IsWide mem object) :
    Call.Meets mem (.wcslen object) := by
  obtain ⟨space, w, len, string⟩ := admitted
  have result : QasanString.wcslen object mem fuel 0 = some len :=
    wcslen_eq string (Nat.zero_le len) (by
      rw [Nat.zero_add]
      exact wideLen_lt space string)
  refine ⟨mem, .length len, ?_, rfl, w, len, string, rfl⟩
  rw [Call.run, result]
  rfl

theorem wcscmp_meets {first second : Region} (admitted : Call.Admitted mem (.wcscmp first second)) :
    Call.Meets mem (.wcscmp first second) := by
  obtain ⟨⟨-, w1, len1, string1⟩, ⟨space, w2, len2, string2⟩⟩ := admitted
  obtain ⟨result, compared, differs⟩ := wcscmp_spec string1 string2 (wideLen_lt space string2)
  refine ⟨mem, .sign result, ?_, rfl, w1, len1, w2, len2, result, string1, string2, rfl, differs⟩
  rw [Call.run, compared]
  rfl

theorem memmem_meets {haystack needle : Region}
    (admitted : Call.Admitted mem (.memmem haystack needle)) :
    Call.Meets mem (.memmem haystack needle) := by
  obtain ⟨space, -⟩ := admitted
  have inHaystack (k : Nat) : haystack.Has (haystack.start + k) ↔ k < haystack.len :=
    has_mk haystack.start haystack.len k
  have inNeedle (k : Nat) : needle.Has (needle.start + k) ↔ k < needle.len :=
    has_mk needle.start needle.len k
  by_cases long : haystack.len < needle.len
  · refine ⟨mem, .pointer none, ?_, rfl, none, fun i _ occurs => ?_, rfl⟩
    · rw [Call.run, memmem, if_pos long]
      rfl
    · have fits := occurs.1
      omega
  · by_cases empty : needle.len = 0
    · refine ⟨mem, .pointer (some haystack.start), ?_, rfl, some 0, .here ⟨?_, ?_⟩, rfl⟩
      · rw [Call.run, memmem, if_neg long, if_pos empty]
        rfl
      · omega
      · intro k less
        omega
    · by_cases single : needle.len = 1
      · have there : readByte mem needle needle.start = some (mem needle.start) :=
          readByte_inside ((inNeedle 0).mpr (by omega))
        have reads (i : Nat) (less : i < haystack.len)
            (_ : ∀ j < i, mem (haystack.start + j) ≠ mem needle.start) :
            haystack.Has (haystack.start + i) := (inHaystack i).mpr less
        obtain ⟨found, result, first⟩ := memchrLoop_spec reads
        have same : (mem needle.start).toUInt32.toUInt8 = mem needle.start := by
          simp
        refine ⟨mem, _, ?_, rfl, points_of (first.widen (Nat.le_succ _) fun i less => ?_)⟩
        · rw [Call.run, memmem, if_neg long, if_neg empty, if_pos single, there]
          simp only [bind, Option.bind, memchr, same, result]
          rfl
        · unfold Occurs
          rw [single]
          refine and_congr_right fun _ => ?_
          constructor
          · exact fun all => all 0 Nat.one_pos
          · intro head k below
            obtain rfl := Nat.lt_one_iff.mp below
            exact head
      · have reads (k : Nat) (less : k < haystack.len - needle.len + needle.len) :
            haystack.Has (haystack.start + k) := (inHaystack k).mpr (by omega)
        obtain ⟨found, result, first⟩ := @memmemLoop_spec mem _ _ _ _ _ (Nat.pos_of_ne_zero empty)
          reads fun k less => (inNeedle k).mpr less
        refine ⟨mem, _, ?_, rfl, points_of (first.widen (by omega) fun i less => ?_)⟩
        · rw [Call.run, memmem, if_neg long, if_neg empty, if_neg single, result]
          rfl
        · unfold Occurs
          refine and_congr_left fun _ => ?_
          omega

end

/-- A call meets what is required of it exactly when it fits. -/
theorem call_meets_iff (mem : Cells) (call : Call) (admitted : call.Admitted mem) :
    call.Meets mem ↔ call.Fits := by
  cases call with
  | memmove dest src n temp =>
      by_cases none : n = 0
      · refine iff_of_true ⟨mem, .pointer (some dest), ?_, rfl, fun k less => ?_,
          fun _ _ _ => rfl⟩ (.inl none)
        · unfold Call.run memmove
          simp only [if_pos none]
          rfl
        · omega
      · by_cases overlap : src ≤ dest + n ∧ dest ≤ src + n
        · by_cases room : ∃ block, temp = some block ∧ n ≤ block.len
          · obtain ⟨block, rfl, fits⟩ := room
            obtain ⟨-, -, apart⟩ := admitted
            exact iff_of_true (memmove_overlap none overlap fits (apart block rfl).1
              (apart block rfl).2) (.inr (.inr ⟨block, rfl, fits⟩))
          · refine iff_of_false (memmove_misses none overlap fun block same => ?_) ?_
            · by_contra fits
              exact room ⟨block, same, Nat.not_lt.mp fits⟩
            · rintro (empty | apart | fits)
              · exact none empty
              · exact apart overlap
              · exact room fits
        · exact iff_of_true (memmove_apart temp none overlap) (.inr (.inl overlap))
  | memchr object c n => exact iff_of_true (memchr_meets admitted) trivial
  | memrchr s c n => exact iff_of_false (memrchr_misses admitted) id
  | strstr haystack needle => exact iff_of_true (strstr_meets admitted) trivial
  | memmem haystack needle => exact iff_of_true (memmem_meets admitted) trivial
  | strchr object c => exact iff_of_true (strchr_meets admitted) trivial
  | strrchr object c => exact iff_of_true (strrchr_meets admitted) trivial
  | wcslen object => exact iff_of_true (wcslen_meets admitted) trivial
  | wcscmp first second => exact iff_of_true (wcscmp_meets admitted) trivial

theorem call_meets_memmove :
    Call.Meets (fun k => UInt8.ofNat k) (.memmove 100 98 4 (some ⟨1000, 4⟩)) := by
  have admitted : Call.Admitted (fun k => UInt8.ofNat k) (.memmove 100 98 4 (some ⟨1000, 4⟩)) := by
    refine ⟨by decide, by decide, fun block same => ?_⟩
    cases same
    exact ⟨by decide, by decide⟩
  exact (call_meets_iff _ _ admitted).mpr (.inr (.inr ⟨_, rfl, by decide⟩))

/-- The search for the last byte begins behind the object. -/
theorem memrchr_not_meets :
    ¬ ∀ (mem : Cells) (call : Call), call.Admitted mem → call.Meets mem := fun all =>
  have admitted : Call.Admitted (fun _ => 0) (.memrchr 100 0x61 1) := ⟨by decide, by decide⟩
  memrchr_misses admitted (all _ _ admitted)

end SbFuzz.QemuMode.QasanString
