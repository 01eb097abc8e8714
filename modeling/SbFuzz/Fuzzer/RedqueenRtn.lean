import SbFuzz.Fuzzer.RedqueenBase64
import SbFuzz.Fuzzer.RedqueenEncoding

/-! `rtn_extend_encoding`: the candidates for one comparison of two memory areas. -/

set_option autoImplicit false

namespace SbFuzz.Fuzzer.RedqueenRtn

open Memory (Cells)
open Redqueen (Target TestState Run itsFuzz overwrite lvl3)
open RedqueenBase64 (toBase64 decoded)
open RedqueenEncoding (lvl1 unlessFound)
open Systems Systems.Program

/-! ## Operands -/

structure CmpfnOperands where
  v0 : Vector UInt8 32
  v0Len : UInt8
  v1 : Vector UInt8 32
  v1Len : UInt8
  /-- What stands behind the record. -/
  behind : List UInt8

def CmpfnOperands.fromV1 (o : CmpfnOperands) : Cells := fun k =>
  (o.v1.toList ++ o.v1Len :: o.behind).getD k 0

def CmpfnOperands.fromV0 (o : CmpfnOperands) : Cells := fun k =>
  (o.v0.toList ++ o.v0Len :: (o.v1.toList ++ o.v1Len :: o.behind)).getD k 0

structure Call where
  target : Target
  cmplogEnableTransform : Bool
  cmplogEnableXtremeTransform : Bool
  entry : UInt8
  o : CmpfnOperands
  origO : CmpfnOperands
  idx : Nat
  taintLen : Nat
  origBuf : List UInt8
  lvl : UInt8
  /-- What the stack holds where `save` is. -/
  stack : List UInt8

section

variable (call : Call)

def Call.pattern : Cells := if call.entry = 0 then call.o.fromV0 else call.o.fromV1

def Call.repl : Cells := if call.entry = 0 then call.o.fromV1 else call.o.fromV0

def Call.oPattern : Cells := if call.entry = 0 then call.origO.fromV0 else call.origO.fromV1

def Call.changedVal : Cells := if call.entry = 0 then call.origO.fromV1 else call.origO.fromV0

/-- `orig_buf` -/
def Call.orig : Cells := fun k => call.origBuf.getD k 0

/-- A text is marked by the top bit. -/
def unmarked (l : UInt8) : UInt8 := if l ≥ 0x80 then l - 0x80 else l

def Call.lmax (hshape : Nat) : Nat :=
  let (l0, l1) :=
    if call.entry = 0 then (call.o.v0Len, call.o.v1Len) else (call.o.v1Len, call.o.v0Len)
  let (ol0, ol1) :=
    if call.entry = 0 then (call.origO.v0Len, call.origO.v1Len)
    else (call.origO.v1Len, call.origO.v0Len)
  let strip := if l0 ≥ 0x80 ∨ ol0 ≥ 0x80 then unmarked else id
  let lengths := [strip l0, strip l1, strip ol0, strip ol1]
  if lengths.any fun l => l = 0 || l > 32 then (UInt8.ofNat hshape).toNat
  else max (strip l0).toNat (strip ol0).toNat

def Call.itsLen (st : TestState) : Nat :=
  min (min (min (call.lmax st.hshape) st.hshape) (st.buf.length - call.idx)) call.taintLen

def execute : Run Unit := do
  let st ← look
  itsFuzz call.target st.buf

/-! ## Direct replacement -/

/-- The bytes that are compared so many bytes further on. -/
def Call.matches (buf : List UInt8) (start i : Nat) : Bool :=
  call.pattern i = buf.getD (start + i) 0 && call.oPattern i = call.orig (start + i)

/-- The loop over `i`, which is returned. -/
def directLoop (start : Nat) : Nat → Nat → Run Nat
  | 0, i => pure i
  | left + 1, i => do
      let st ← look
      if ¬call.matches st.buf start i ∨ st.status = 1 then pure i
      else do
        update fun st => { st with buf := overwrite st.buf (start + i) [call.repl i] }
        execute call
        update fun st =>
          { st with
            cbuf :=
              if st.status = 1 then overwrite st.cbuf start ((st.buf.drop start).take i) else st.cbuf }
        directLoop start left (i + 1)

/-- What is in front of the compared bytes is what is in front of the replacement. -/
def Call.continues (buf : List UInt8) (pre : Nat) : Bool :=
  (List.range pre).all fun k => buf.getD (call.idx - pre + k) 0 = call.repl k

def direct (save : List UInt8) (toPre itsLen pre : Nat) : Run Unit := do
  let st ← look
  if st.status ≠ 1 ∧ call.continues st.buf pre then do
    let i ← directLoop call (call.idx - pre) (itsLen + pre) 0
    update fun st =>
      { st with buf := overwrite st.buf (call.idx - pre) ((save.drop (toPre - pre)).take i) }
  else pure ()

/-! ## Encoded replacements -/

def isHex (str : Cells) (pos : Nat) : Bool := isXdigit (str pos) && isXdigit (str (pos + 1))

def isBase64 (str : Cells) (pos : Nat) : Bool :=
  (List.range 4).all fun k =>
    let c := str (pos + k)
    (0x30 ≤ c && c ≤ 0x39) || (0x41 ≤ c && c ≤ 0x5a) || (0x61 ≤ c && c ≤ 0x7a) ||
      c = 0x2b || c = 0x2f || c = 0x3d

/-- 1 for an upper case digit and 2 for a lower case one. -/
def caseOf (up : Nat) (c : UInt8) : Nat :=
  if 0x41 ≤ c ∧ c ≤ 0x46 then 1 else if 0x61 ≤ c ∧ c ≤ 0x66 then 2 else up

structure Encodings where
  tohex : Nat := 0
  fromhex : Nat := 0
  tob64 : Nat := 0
  fromb64 : Nat := 0
  from0 : Nat := 0
  fromx : Nat := 0
  fromX : Nat := 0
  fromSlash : Nat := 0
  fromUp : Nat := 0
  to0 : Nat := 0
  tox : Nat := 0
  toSlash : Nat := 0
  toUp : Nat := 0

def Encodings.marks (i : Nat) (seen : Encodings) : Encodings :=
  let c := call.orig (call.idx + i)
  let r := call.repl i
  if i = 0 then
    { seen with
      from0 := if c = 0x30 then 1 else seen.from0
      fromSlash := if c = 0x5c then 1 else seen.fromSlash
      to0 := if r = 0x30 then 1 else seen.to0
      toSlash := if r = 0x5c then 1 else seen.toSlash }
  else if i = 1 then
    { seen with
      fromx := if c = 0x78 ∨ c = 0x58 then 1 else seen.fromx
      fromX := if c = 0x58 then 1 else seen.fromX
      tox := if r = 0x78 ∨ r = 0x58 then 1 else seen.tox }
  else seen

def Encodings.replHex (i : Nat) (seen : Encodings) : Encodings :=
  if i < 16 ∧ isHex call.repl (2 * i) then
    { seen with
      tohex := seen.tohex + 1
      toUp :=
        if seen.toUp = 0 then caseOf (caseOf 0 (call.repl (2 * i))) (call.repl (2 * i + 1))
        else seen.toUp }
  else seen

def Encodings.origHex (len i : Nat) (seen : Encodings) : Encodings :=
  if i % 2 = 1 ∧ len > call.idx + i + 1 ∧ isHex call.orig (call.idx + i - 1) then
    { seen with
      fromhex := seen.fromhex + 2
      fromUp :=
        if seen.fromUp = 0 then
          caseOf (caseOf 0 (call.orig (call.idx + i))) (call.orig (call.idx + i - 1))
        else seen.fromUp }
  else seen

def Encodings.base64 (i : Nat) (seen : Encodings) : Encodings :=
  { seen with
    tob64 :=
      if i % 3 = 2 ∧ i < 24 ∧ isBase64 call.repl (i / 3 * 4) then seen.tob64 + 3 else seen.tob64
    fromb64 :=
      if i % 4 = 3 ∧ i < 24 ∧ isBase64 call.orig (call.idx + i - 3) then seen.fromb64 + 4
      else seen.fromb64 }

def Encodings.measure (len i : Nat) (seen : Encodings) : Encodings :=
  let seen := seen.marks call i
  if call.cmplogEnableXtremeTransform then
    ((seen.replHex call i).origHex call len i).base64 call i
  else seen

/-- The base64 texts of the replacement. -/
def fromBase64Texts (len itsLen i : Nat) (seen : Encodings) : List (List UInt8) :=
  if call.cmplogEnableXtremeTransform ∧ i % 4 = 3 ∧ i < 24 ∧ seen.fromb64 > i then
    let lens := (List.range' i (itsLen + 1 - i)).takeWhile fun hlen => hlen + call.idx < len
    (lens.map fun hlen => (toBase64 call.repl (fun _ => 0) (.ofNat hlen)).text).filter
      fun text => text.length + call.idx < len
  else []

/-- The bytes whose base64 text the replacement is. -/
def toBase64Texts (i : Nat) (seen : Encodings) : List (List UInt8) :=
  if call.cmplogEnableXtremeTransform ∧ i % 3 = 2 ∧ i < 24 ∧ seen.tob64 > i then
    (decoded call.repl (fun _ => 0) (.ofNat (i + 1))).toList
  else []

def hexTable : List UInt8 :=
  [0, 1, 2, 3,  4,  5,  6,  7,  8,  9,  0,  0,  0, 0,
   0, 0, 0, 10, 11, 12, 13, 14, 15, 0,  0,  0,  0, 0,
   0, 0, 0, 0,  0,  0,  0,  0,  0,  0,  0,  0,  0, 0,
   0, 0, 0, 0,  0,  0,  0,  10, 11, 12, 13, 14, 15]

/-- The bytes whose hexadecimal text the replacement is. -/
def toHexTexts (i : Nat) (seen : Encodings) : List (List UInt8) :=
  if call.cmplogEnableXtremeTransform ∧ i < 16 ∧ seen.tohex > i then
    let off := if seen.toSlash + seen.tox + seen.to0 = 2 then 2 else 0
    let digit (pos : Nat) := hexTable.getD ((call.repl (off + pos)).toNat - 0x30) 0
    [(List.range (i + 1)).map fun j => (digit (2 * j) <<< 4) + digit (2 * j + 1)]
  else []

def hexTableUp : List UInt8 := "0123456789ABCDEF".toList.map fun c => .ofNat c.toNat

def hexTableLow : List UInt8 := "0123456789abcdef".toList.map fun c => .ofNat c.toNat

/-- The hexadecimal texts of the replacement. -/
def fromHexTexts (len i : Nat) (seen : Encodings) : List (List UInt8) :=
  if call.cmplogEnableXtremeTransform ∧ i % 2 = 1 ∧ i < 16 ∧ seen.fromhex ≠ 0 ∧
      seen.fromhex + seen.fromSlash + seen.fromx + seen.from0 > i then
    let x : UInt8 := if seen.fromX ≠ 0 then 0x58 else 0x78
    let lead : List UInt8 :=
      if seen.fromSlash ≠ 0 ∧ seen.fromx ≠ 0 then [0x5c, x]
      else if seen.from0 ≠ 0 ∧ seen.fromx ≠ 0 then [0x30, x] else []
    let table := if seen.toUp = 1 then hexTableUp else hexTableLow
    let digits (hlen : Nat) := (List.range (hlen / 2 + 1)).flatMap fun j =>
      [table.getD (call.repl j >>> 4).toNat 0, table.getD (call.repl j % 16).toNat 0]
    ([i, 2 * i].takeWhile fun hlen => hlen + call.idx < len).map fun hlen =>
      (lead ++ digits hlen).take (hlen + 1 + lead.length)
  else []

/-! ## Transformed replacements -/

inductive Transform where
  | xor
  | arith
  | toupper
  | tolower

def Transform.fits (i : Nat) (byte : UInt8) : Transform → Bool
  | .xor =>
      let xorVal := call.pattern i ^^^ byte
      call.oPattern i ^^^ call.orig (call.idx + i) = xorVal && xorVal ≠ 0
  | .arith =>
      let arithVal := call.pattern i - byte
      ((call.oPattern i).toNat : Int) - (call.orig (call.idx + i)).toNat = arithVal.toNat &&
        arithVal ≠ 0
  | .toupper =>
      byte &&& 0x5a = call.pattern i && call.orig (call.idx + i) &&& 0x5a = call.oPattern i
  | .tolower =>
      byte ||| 0x20 = call.pattern i && call.orig (call.idx + i) ||| 0x20 = call.oPattern i

/-- A byte of the replacement as it is before its transformation. -/
def Transform.undo (repl xorVal arithVal : UInt8) : Transform → UInt8
  | .xor => repl ^^^ xorVal
  | .arith => repl - arithVal
  | .toupper => repl ||| 0x20
  | .tolower => repl &&& 0x5f

structure Counts where
  encodings : Encodings := {}
  fitting : Transform → Nat := fun _ => 0
  xorVal : List UInt8 := []
  arithVal : List UInt8 := []

def Counts.measure (len i : Nat) (byte : UInt8) (counts : Counts) : Counts where
  encodings := counts.encodings.measure call len i
  fitting := fun transform =>
    if transform.fits call i byte then counts.fitting transform + 1 else counts.fitting transform
  xorVal := counts.xorVal ++ [call.pattern i ^^^ byte]
  arithVal := counts.arithVal ++ [call.pattern i - byte]

def Counts.bytes (counts : Counts) (i : Nat) (transform : Transform) : List UInt8 :=
  (List.range (i + 1)).map fun j =>
    transform.undo (call.repl j) (counts.xorVal.getD j 0) (counts.arithVal.getD j 0)

/-- No encoding keeps up with the loop. -/
def Encodings.gone (i : Nat) (seen : Encodings) : Prop :=
  7 ≤ i ∧ i > seen.tohex ∧ i > seen.fromhex + seen.from0 + seen.fromx + seen.fromSlash + 1 ∧
    i > seen.tob64 + 3 ∧ i > seen.fromb64 + 4

def Counts.gone (counts : Counts) (i : Nat) : Prop :=
  call.cmplogEnableXtremeTransform ∧ counts.encodings.gone i ∧
    i ≥ counts.fitting .xor ∧ i ≥ counts.fitting .arith ∧ i ≥ counts.fitting .tolower ∧
    i ≥ counts.fitting .toupper

instance (i : Nat) (seen : Encodings) : Decidable (seen.gone i) := by
  unfold Encodings.gone; infer_instance

instance (counts : Counts) (i : Nat) : Decidable (counts.gone call i) := by
  unfold Counts.gone; infer_instance

/-! ## Attempts -/

def tryPatch (bytes : List UInt8) : Run Unit := do
  update fun st => { st with buf := overwrite st.buf call.idx bytes }
  execute call

/-- A hexadecimal text is taken back at once. -/
def tryHex (save bytes : List UInt8) : Run Unit := do
  tryPatch call bytes
  update fun st => { st with buf := overwrite st.buf call.idx (save.take bytes.length) }

def tryEncodings (save : List UInt8) (len itsLen i : Nat) (seen : Encodings) : Run Unit := do
  each (tryPatch call) (fromBase64Texts call len itsLen i seen)
  each (tryPatch call) (toBase64Texts call i seen)
  each (tryPatch call) (toHexTexts call i seen)
  each (tryHex call save) (fromHexTexts call len i seen)

def tryTransform (counts : Counts) (i : Nat) (transform : Transform) : Run Unit :=
  if counts.fitting transform > i then tryPatch call (counts.bytes call i transform) else pure ()

def tryTransforms (counts : Counts) (i : Nat) : Run Unit := do
  tryTransform call counts i .xor
  unlessFound (tryTransform call counts i .arith)
  unlessFound (tryTransform call counts i .toupper)
  unlessFound (tryTransform call counts i .tolower)

/-- The candidates of a byte. -/
def tryCandidates (save : List UInt8) (len itsLen i : Nat) (counts : Counts) : Run Unit := do
  tryEncodings call save len itsLen i counts.encodings
  tryTransforms call counts i
  update fun st =>
    { st with
      cbuf :=
        if st.status = 1 then overwrite st.cbuf call.idx ((st.buf.drop call.idx).take (i + 1))
        else st.cbuf }

/-- The loop over `i`, which is returned. -/
def transformLoop (save : List UInt8) (itsLen : Nat) : Nat → Nat → Counts → Run Nat
  | 0, i, _ => pure i
  | left + 1, i, counts => do
      let st ← look
      let counts := counts.measure call st.buf.length i (st.buf.getD (call.idx + i) 0)
      tryCandidates call save st.buf.length itsLen i counts
      let st ← look
      if counts.gone call i ∨ call.repl i ≠ call.changedVal i ∨ st.status = 1 then pure i
      else transformLoop save itsLen left (i + 1) counts

def transformSolving (save : List UInt8) (itsLen : Nat) : Run Unit := do
  let st ← look
  let save := overwrite save 0 ((st.buf.drop call.idx).take itsLen)
  let i ← transformLoop call save itsLen itsLen 0 {}
  update fun st => { st with buf := overwrite st.buf call.idx (save.take i) }

/-! ## The function -/

def Call.lvl3 : Bool := call.lvl &&& Redqueen.lvl3 ≠ 0

def Call.admits (itsLen : Nat) : Bool :=
  1 < itsLen &&
    (!call.lvl3 || (List.range itsLen).all fun k => call.changedVal k = call.repl k)

def Call.toPre : Nat := if call.lvl3 then min 4 call.idx else 0

def Call.fromPre : Nat := if call.lvl3 ∧ call.lvl &&& lvl1 = 0 ∧ call.toPre ≠ 0 then 1 else 0

/-- `save`: the bytes from the first one on that may be changed. -/
def Call.save (buf : List UInt8) (itsLen : Nat) : List UInt8 :=
  overwrite call.stack 0 ((buf.drop (call.idx - call.toPre)).take (itsLen + call.toPre))

def solveTransforms (save : List UInt8) (itsLen : Nat) : Run Unit :=
  if call.cmplogEnableTransform ∧ call.lvl3 then transformSolving call save itsLen else pure ()

def solve (save : List UInt8) (itsLen : Nat) : Run Unit := do
  each (direct call save call.toPre itsLen)
    (List.range' call.fromPre (call.toPre + 1 - call.fromPre))
  unlessFound (solveTransforms call save itsLen)

def rtnExtendEncoding : Run Unit := do
  let st ← look
  if call.admits (call.itsLen st) then solve call (call.save st.buf (call.itsLen st)) (call.itsLen st)
  else pure ()

end

end SbFuzz.Fuzzer.RedqueenRtn
