import SbFuzz.Memory.Regions
import SbFuzz.Memory.Cells

/-! The memory and string functions of QASan, without their prefix `__libqasan_`. A pointer comes
with the object that it points to, and no access leaves it. -/

set_option autoImplicit false

namespace SbFuzz.QemuMode.QasanString

open SbFuzz.Memory

/-- More steps than there are addresses. -/
def fuel : Nat := 2 ^ 64

/-! ## Memory -/

def memcpy (dst src : Region) (mem : Cells) (d s : Nat) : Nat → Option Cells
  | 0 => some mem
  | n + 1 => do
      let byte ← readByte mem src s
      let mem ← writeByte mem dst d byte
      memcpy dst src mem (d + 1) (s + 1) n

/-- `temp` is the block that `__libqasan_malloc` returns. -/
def memmove (dst src : Region) (temp : Option Region) (mem : Cells) (n : Nat) :
    Option (Cells × Nat) :=
  let d := dst.start
  let s := src.start
  if n = 0 then some (mem, d)
  else if ¬ (d + n ≥ s ∧ d ≤ s + n) then (memcpy dst src mem d s n).map fun mem => (mem, d)
  else
    match temp with
    | none => none
    | some block => do
        let mem ← memcpy block src mem block.start s n
        let mem ← memcpy dst block mem d block.start n
        return (mem, d)

/-- The loop of `__libqasan_memchr`, on what is left of `n`. -/
def memchrLoop (object : Region) (mem : Cells) (c : UInt8) (m : Nat) : Nat → Option (Option Nat)
  | 0 => some none
  | n + 1 => do
      if (← readByte mem object m) = c then return some m
      memchrLoop object mem c (m + 1) n

/-- `__libqasan_memchr`; the first element of a result is a fault, the second NULL. -/
def memchr (object : Region) (mem : Cells) (c : UInt32) (n : Nat) : Option (Option Nat) :=
  memchrLoop object mem c.toUInt8 object.start n

/-- The loop of `__libqasan_memrchr`, from `i` on downwards. -/
def memrchrLoop (object : Region) (mem : Cells) (c : UInt8) (m : Nat) : Nat → Option (Option Nat)
  | 0 => do
      if (← readByte mem object m) = c then return some m
      return none
  | i + 1 => do
      if (← readByte mem object (m + (i + 1))) = c then return some (m + (i + 1))
      memrchrLoop object mem c m i

/-- `__libqasan_memrchr`; `i` is a `long`. -/
def memrchr (object : Region) (mem : Cells) (c : UInt32) (n : Nat) : Option (Option Nat) :=
  if 2 ^ 63 ≤ n then some none else memrchrLoop object mem c.toUInt8 object.start n

def memcmp (first second : Region) (mem : Cells) (m1 m2 : Nat) : Nat → Option Int
  | 0 => some 0
  | len + 1 => do
      let c1 ← readByte mem first m1
      let c2 ← readByte mem second m2
      if c1 ≠ c2 then return if c1 > c2 then 1 else -1
      memcmp first second mem (m1 + 1) (m2 + 1) len

/-- The loop of `__libqasan_memmem`; `rest` is what `end` is ahead. -/
def memmemLoop (haystack needle : Region) (mem : Cells) (needleLen h : Nat) :
    Nat → Option (Option Nat)
  | 0 => do
      if (← readByte mem haystack h) = (← readByte mem needle needle.start) then
        if (← memcmp haystack needle mem h needle.start needleLen) = 0 then return some h
      return none
  | rest + 1 => do
      if (← readByte mem haystack h) = (← readByte mem needle needle.start) then
        if (← memcmp haystack needle mem h needle.start needleLen) = 0 then return some h
      memmemLoop haystack needle mem needleLen (h + 1) rest

def memmem (haystack needle : Region) (mem : Cells) (haystackLen needleLen : Nat) :
    Option (Option Nat) :=
  if haystackLen < needleLen then some none
  else if needleLen = 0 then some (some haystack.start)
  else if needleLen = 1 then do
    memchr haystack mem (← readByte mem needle needle.start).toUInt32 haystackLen
  else memmemLoop haystack needle mem needleLen haystack.start (haystackLen - needleLen)

/-! ## Strings -/

/-- The inner loop of `__libqasan_strstr`: whether it ends at the end of the needle. -/
def strstrMatches (haystack needle : Region) (mem : Cells) : Nat → Nat → Nat → Option Bool
  | 0, _, _ => none
  | fuel + 1, h, n => do
      let a ← readByte mem needle n
      if a = 0 then return true
      let b ← readByte mem haystack h
      if b = 0 ∨ a ≠ b then return false
      strstrMatches haystack needle mem fuel (h + 1) (n + 1)

def strstrLoop (haystack needle : Region) (mem : Cells) : Nat → Nat → Option (Option Nat)
  | 0, _ => none
  | steps + 1, h => do
      if ← strstrMatches haystack needle mem fuel h needle.start then return some h
      if (← readByte mem haystack h) = 0 then return none
      strstrLoop haystack needle mem steps (h + 1)

def strstr (haystack needle : Region) (mem : Cells) : Option (Option Nat) :=
  strstrLoop haystack needle mem fuel haystack.start

def strchrLoop (object : Region) (mem : Cells) (c : UInt8) : Nat → Nat → Option (Option Nat)
  | 0, _ => none
  | fuel + 1, s => do
      let byte ← readByte mem object s
      if byte = c then return some s
      if byte = 0 then return none
      strchrLoop object mem c fuel (s + 1)

def strchr (object : Region) (mem : Cells) (c : UInt32) : Option (Option Nat) :=
  strchrLoop object mem c.toUInt8 fuel object.start

def strrchrLoop (object : Region) (mem : Cells) (c : UInt8) :
    Nat → Nat → Option Nat → Option (Option Nat)
  | 0, _, _ => none
  | fuel + 1, s, r => do
      let byte ← readByte mem object s
      let r := if byte = c then some s else r
      if byte = 0 then return r
      strrchrLoop object mem c fuel (s + 1) r

def strrchr (object : Region) (mem : Cells) (c : UInt32) : Option (Option Nat) :=
  strrchrLoop object mem c.toUInt8 fuel object.start none

/-! ## Wide strings -/

/-- A `wchar_t`, that is an `int`. -/
def wide (mem : Cells) (address : Nat) : Int := (dword mem address : Int).bmod (2 ^ 32)

def loadWide (mem : Cells) (object : Region) (address : Nat) : Option Int :=
  if object.start ≤ address ∧ address + 4 ≤ object.start + object.len then some (wide mem address)
  else none

def wcslen (object : Region) (mem : Cells) : Nat → Nat → Option Nat
  | 0, _ => none
  | fuel + 1, len => do
      if (← loadWide mem object (object.start + 4 * len)) = 0 then return len
      if (← loadWide mem object (object.start + 4 * (len + 1))) = 0 then return len + 1
      if (← loadWide mem object (object.start + 4 * (len + 2))) = 0 then return len + 2
      if (← loadWide mem object (object.start + 4 * (len + 3))) = 0 then return len + 3
      wcslen object mem fuel (len + 4)

def wcscmp (first second : Region) (mem : Cells) : Nat → Nat → Nat → Option Int
  | 0, _, _ => none
  | fuel + 1, s1, s2 => do
      let c1 ← loadWide mem first s1
      let c2 ← loadWide mem second s2
      if c2 = 0 then return c1 - c2
      if c1 = c2 then wcscmp first second mem fuel (s1 + 4) (s2 + 4)
      else return if c1 < c2 then -1 else 1

end SbFuzz.QemuMode.QasanString
