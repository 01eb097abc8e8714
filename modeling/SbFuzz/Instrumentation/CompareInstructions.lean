import SbFuzz.Numeric.FloatFormat
import SbFuzz.Systems.ControlFlow

/-! Comparisons of integers and of floating-point numbers, and the values that are
computed from the operands of one. -/

set_option autoImplicit false

namespace SbFuzz.Instrumentation

open SbFuzz.Numeric

/-! ## Predicates -/

inductive ICmp where
  | eq | ne | ugt | uge | ult | ule | sgt | sge | slt | sle
  deriving DecidableEq

def ICmp.holds {n : Nat} (x y : BitVec n) : ICmp → Bool
  | .eq => x = y
  | .ne => x ≠ y
  | .ugt => y < x
  | .uge => y ≤ x
  | .ult => x < y
  | .ule => x ≤ y
  | .sgt => y.toInt < x.toInt
  | .sge => y.toInt ≤ x.toInt
  | .slt => x.toInt < y.toInt
  | .sle => x.toInt ≤ y.toInt

/-- An `o` predicate wants numbers; a `u` predicate is true of a NaN. -/
inductive FCmp where
  | oeq | ueq | one | une | ogt | ugt | olt | ult | oge | uge | ole | ule
  deriving DecidableEq

def FCmp.unordered : FCmp → Bool
  | .ueq | .une | .ugt | .ult | .uge | .ule => true
  | _ => false

def FCmp.compares (x y : Number) : FCmp → Bool
  | .oeq | .ueq => x = y
  | .one | .une => x ≠ y
  | .ogt | .ugt => y < x
  | .olt | .ult => x < y
  | .oge | .uge => y ≤ x
  | .ole | .ule => x ≤ y

def FCmp.holds (format : FloatFormat) (x y : Nat) (pred : FCmp) : Bool :=
  if format.isNaN x || format.isNaN y then pred.unordered
  else pred.compares (format.value x) (format.value y)

/-! ## Instructions -/

/-- What is computed from the operands of a comparison, of `w` bits, as an integer of a
number of bits. -/
inductive Value (w : Nat) : Nat → Type where
  | operand0 : Value w w
  | operand1 : Value w w
  | const {n : Nat} (value : BitVec n) : Value w n
  | lshr {n : Nat} (value : Value w n) (amount : Nat) : Value w n
  | shl {n : Nat} (value : Value w n) (amount : Nat) : Value w n
  | trunc {n : Nat} (value : Value w n) (m : Nat) : Value w m
  | and {n : Nat} (value : Value w n) (mask : BitVec n) : Value w n
  | or {n : Nat} (left right : Value w n) : Value w n
  | xor {n : Nat} (left right : Value w n) : Value w n
  | icmp {n : Nat} (pred : ICmp) (left right : Value w n) : Value w 1
  | select {n : Nat} (cond : Value w 1) (yes no : Value w n) : Value w n

/-- An instruction whose result is one bit. -/
inductive Inst (w : Nat) where
  | icmp {n : Nat} (pred : ICmp) (left right : Value w n)
  /-- Of the operands, as floating-point numbers. -/
  | fcmp (pred : FCmp)
  | bit (value : Value w 1)

section

variable {w : Nat} (x y : BitVec w)

def Value.eval {n : Nat} : Value w n → BitVec n
  | .operand0 => x
  | .operand1 => y
  | .const value => value
  | .lshr value amount => value.eval >>> amount
  | .shl value amount => value.eval <<< amount
  | .trunc value m => value.eval.setWidth m
  | .and value mask => value.eval &&& mask
  | .or left right => left.eval ||| right.eval
  | .xor left right => left.eval ^^^ right.eval
  | .icmp pred left right => .ofBool (pred.holds left.eval right.eval)
  | .select cond yes no => if cond.eval = 1#1 then yes.eval else no.eval

def Inst.eval (format : FloatFormat) : Inst w → Bool
  | .icmp pred left right => pred.holds (left.eval x y) (right.eval x y)
  | .fcmp pred => pred.holds format x.toNat y.toNat
  | .bit value => value.eval x y = 1#1

end

end SbFuzz.Instrumentation
