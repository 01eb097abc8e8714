import Mathlib.Data.List.Basic

/-! The compare-transform pass: calls of string comparison functions with one
constant argument become chains of byte comparisons. -/

set_option autoImplicit false

namespace SbFuzz.Instrumentation.CompareTransform

/-! ## Calls -/

/-- The third argument of a sized function. -/
inductive Size where
  | const (n : Nat)
  | runtime
  deriving DecidableEq

inductive Callee where
  | strcmp
  | memcmp (size : Size)
  | strncmp (size : Size)
  | strcasecmp
  | strncasecmp (size : Size)
  deriving DecidableEq

def Callee.isMemcmp : Callee → Bool
  | .memcmp _ => true
  | _ => false

def Callee.isCaseInsensitive : Callee → Bool
  | .strcasecmp | .strncasecmp _ => true
  | _ => false

/-- `sizedValue`, for the functions with `isSizedcmp`. -/
def Callee.sizedValue : Callee → Option Size
  | .strcmp | .strcasecmp => none
  | .memcmp size | .strncmp size | .strncasecmp size => some size

/-- Where the bytes of the constant argument come from. -/
inductive Source where
  /-- `getConstantStringInfo`: the array from the pointer on. -/
  | literal (array : List UInt8)
  /-- The initializer of a global that the argument points into. -/
  | initializer (array : List UInt8) (offset : Nat)

/-- What the pass takes for the string: up to the first NUL, or the raw data of
the whole array. -/
def Source.str : Source → List UInt8
  | .literal array => array.takeWhile (· ≠ 0)
  | .initializer array _ => array

/-- The bytes behind the pointer. -/
def Source.memory : Source → List UInt8
  | .literal array => array
  | .initializer array offset => array.drop offset

structure Call where
  callee : Callee
  /-- The constant is the first argument. -/
  hasStr1 : Bool
  constant : Source

/-! ## Library functions -/

def tolower (c : UInt8) : UInt8 := if 0x41 ≤ c ∧ c ≤ 0x5a then c + 0x20 else c

def Callee.fold (callee : Callee) (c : UInt8) : UInt8 :=
  if callee.isCaseInsensitive then tolower c else c

/-- The value of the size argument; without one there is no limit. -/
def Callee.limit (callee : Callee) (n : Nat) : Option Nat :=
  callee.sizedValue.map fun
    | .const c => c
    | .runtime => n

/-- The comparison of two arguments in memory, nothing when it reads behind
either. Strings end with a NUL, what `memcmp` compares does not. -/
def compareBytes (callee : Callee) : Option Nat → List UInt8 → List UInt8 → Option Int
  | some 0, _, _ => some 0
  | limit, a :: left, b :: right =>
      if callee.fold a ≠ callee.fold b then
        some ((callee.fold a).toNat - (callee.fold b).toNat)
      else if ¬ callee.isMemcmp ∧ a = 0 then some 0
      else compareBytes callee (limit.map (· - 1)) left right
  | _, _, _ => none

def Call.library (call : Call) (other : List UInt8) (n : Nat) : Option Int :=
  if call.hasStr1 then compareBytes call.callee (call.callee.limit n) call.constant.memory other
  else compareBytes call.callee (call.callee.limit n) other call.constant.memory

/-! ## The constant that is unrolled -/

/-- The checks of the size argument; the other calls stay as they are. -/
def Callee.selected : Callee → Bool
  | .memcmp .runtime => false
  | .memcmp (.const n) | .strncmp (.const n) | .strncasecmp (.const n) => 2 ≤ n
  | _ => true

def tooShort (str : List UInt8) : Bool :=
  str.length < 2 || (str.length = 2 && str[1]? = some 0)

/-- `TmpConstStr`: a terminator where the function needs one, nothing behind the first. -/
def Callee.constStr (callee : Callee) (str : List UInt8) : List UInt8 :=
  let ended := if callee.sizedValue = none ∧ str.getLast? ≠ some 0 then str ++ [0] else str
  if callee.isMemcmp then ended else ended.take (ended.findIdx (· = 0) + 1)

def Callee.unrollLen (callee : Callee) (constStrLen : Nat) : Nat :=
  match callee.sizedValue with
  | some (.const constSizedLen) => if constSizedLen < constStrLen then constSizedLen else constStrLen
  | _ => constStrLen

/-! ## Chains of blocks -/

/-- Every block goes on to the next one or gives a value to the phi in `end_bb`. -/
inductive Block where
  /-- The size argument against a constant; the value is 0 where they are equal. -/
  | lenCheck (i : Nat)
  /-- Byte `i` of the other argument against `c`. -/
  | cmpAdded (i : Nat) (c : UInt8) (last : Bool)

def blocks (checked : Bool) : List UInt8 → Nat → List Block
  | [], _ => []
  | c :: cs, i =>
      (if checked then [Block.lenCheck i] else []) ++
        .cmpAdded i c cs.isEmpty :: blocks checked cs (i + 1)

/-- The bytes of the constant that are compared. -/
def Call.unrolled (call : Call) : List UInt8 :=
  let str := call.callee.constStr call.constant.str
  (str.take (call.callee.unrollLen str.length)).map call.callee.fold

/-- The chain that replaces a call, nothing where the call stays. -/
def Call.transform (call : Call) : Option (List Block) :=
  if call.callee.selected = false ∨ tooShort call.constant.str = true then none
  else some (blocks (call.callee.sizedValue = some .runtime) call.unrolled 0)

/-- `sext i8 isub to i32`. -/
def sext (isub : UInt8) : Int := isub.toInt8.toInt

/-- The subtraction in a block, on 8 bits. -/
def Call.isub (call : Call) (load c : UInt8) : UInt8 :=
  if call.hasStr1 then c - load else load - c

/-- The value of the phi, nothing when a load reads behind the other argument. -/
def Call.run (call : Call) (other : List UInt8) (n : Nat) : List Block → Option Int
  | [] => none
  | .lenCheck i :: rest => if n = i then some 0 else call.run other n rest
  | .cmpAdded i c last :: rest =>
      other[i]?.bind fun byte =>
        let isub := call.isub (call.callee.fold byte) c
        if last ∨ isub ≠ 0 then some (sext isub) else call.run other n rest

end SbFuzz.Instrumentation.CompareTransform
