import Mathlib.Data.BitVec

/-!
# Value-based arithmetic shared by the CPU cores

The fixed-width integers of the source, its overflow rules, the status bits and `src/alu.rs`.
-/

namespace Rs65x

abbrev U8 := BitVec 8
abbrev U16 := BitVec 16
abbrev U32 := BitVec 32

/-- A plain `+`, `-` or `<<` that overflows panics in a debug build and wraps in a release build. -/
inductive Profile where
  | debug | release
  deriving DecidableEq, Repr

/-- The ways in which a call can end without returning. -/
inductive Fault where
  | overflow | shiftOverflow
  | unimplemented | todo | unreachable | unwrapNone
  /-- A failed `debug_assert!`, or the unchecked queue access that it guards. -/
  | queueBounds
  | debugAssert
  deriving DecidableEq, Repr

section Plain
variable {w : Nat} (prof : Profile)

def plainAdd (a b : BitVec w) : Except Fault (BitVec w) :=
  if prof = .debug ∧ 2 ^ w ≤ a.toNat + b.toNat then .error .overflow else .ok (a + b)

def plainSub (a b : BitVec w) : Except Fault (BitVec w) :=
  if prof = .debug ∧ a.toNat < b.toNat then .error .overflow else .ok (a - b)

/-- Subtraction in a signed type, such as `i32`. -/
def plainSubSigned (a b : BitVec w) : Except Fault (BitVec w) :=
  if prof = .debug ∧ (a - b).toInt ≠ a.toInt - b.toInt then .error .overflow else .ok (a - b)

/-- A release build masks the shift amount. -/
def plainShl (a : BitVec w) (n : Nat) : Except Fault (BitVec w) :=
  if prof = .debug ∧ w ≤ n then .error .shiftOverflow else .ok (a <<< (n % w))

end Plain

namespace Psr

def N : U8 := 0b10000000
def V : U8 := 0b01000000
def D : U8 := 0b00001000
def I : U8 := 0b00000100
def Z : U8 := 0b00000010
def C : U8 := 0b00000001
def B6502 : U8 := 0b00010000
def U6502 : U8 := 0b00100000

end Psr

/-- `p & mask != 0`. -/
def flagSet (p mask : U8) : Bool := p &&& mask != 0

inductive DecimalSemantics where
  | none | nmos6502 | cmos65C02 | wdc65C816
  deriving DecidableEq, Repr

namespace Alu

structure AluResult (T : Type) where
  value : T
  flags : U8
  flagMask : U8
  deriving DecidableEq, Repr

/-- The returned value and the new status. -/
def AluResult.apply {T : Type} (r : AluResult T) (p : U8) : T × U8 :=
  (r.value, (p &&& ~~~r.flagMask) ||| (r.flags &&& r.flagMask))

def setFlag (p mask : U8) (value : Bool) : U8 :=
  if value then p ||| mask else p &&& ~~~mask

class AluWord (T : Type) where
  mask : U32
  sign : U32
  widen : T → U32
  truncate : U32 → T

instance : AluWord U8 where
  mask := 0xff
  sign := 0x80
  widen v := v.setWidth 32
  truncate v := v.setWidth 8

instance : AluWord U16 where
  mask := 0xffff
  sign := 0x8000
  widen v := v.setWidth 32
  truncate v := v.setWidth 16

open AluWord

section
variable {T : Type} [AluWord T]

def zn (value : T) : AluResult T where
  value
  flags := (if widen value &&& sign T != 0 then Psr.N else 0) |||
    (if widen value == 0 then Psr.Z else 0)
  flagMask := Psr.Z ||| Psr.N

def withShiftFlags (value : T) (carry : Bool) : AluResult T :=
  let result := zn value
  { result with
    flagMask := result.flagMask ||| Psr.C
    flags := setFlag result.flags Psr.C carry }

def asl (value : T) : AluResult T :=
  withShiftFlags (truncate (widen value <<< 1)) (widen value &&& sign T != 0)

def lsr (value : T) : AluResult T :=
  withShiftFlags (truncate (widen value >>> 1)) (widen value &&& 1 != 0)

def rol (value : T) (carry : Bool) : AluResult T :=
  withShiftFlags (truncate ((widen value <<< 1) ||| (if carry then 1 else 0)))
    (widen value &&& sign T != 0)

def ror (value : T) (carry : Bool) : AluResult T :=
  withShiftFlags (truncate ((widen value >>> 1) ||| (if carry then sign T else 0)))
    (widen value &&& 1 != 0)

def inc (prof : Profile) (value : T) : Except Fault (AluResult T) := do
  return zn (truncate (← plainAdd prof (widen value) 1))

def dec (value : T) : AluResult T := zn (truncate (widen value - 1))

def tsb (a value : T) : AluResult T where
  value := truncate (widen value ||| widen a)
  flags := if widen a &&& widen value == 0 then Psr.Z else 0
  flagMask := Psr.Z

def trb (a value : T) : AluResult T where
  value := truncate (widen value &&& ~~~(widen a))
  flags := if widen a &&& widen value == 0 then Psr.Z else 0
  flagMask := Psr.Z

def withArithFlags (value : T) (carry overflow : Bool) : AluResult T :=
  let result := withShiftFlags value carry
  { result with
    flagMask := result.flagMask ||| Psr.V
    flags := setFlag result.flags Psr.V overflow }

variable (T) in
def nibbles : Nat := if mask T = 0xFF then 2 else 4

/-- The variables that the digit loops carry. -/
structure Digits where
  value : U32
  preHigh : U32
  /-- The running carry of `adc`, or the running borrow of `sbc`. -/
  carry : U32

variable (T) in
/-- `pre_high` after a turn whose digit is `nibble`, before its decimal correction. -/
def preHigh (prof : Profile) (s : Digits) (nibble : U32) (digit : Nat) : Except Fault U32 :=
  if digit = nibbles T - 1 then do return s.value ||| (← plainShl prof nibble (digit * 4))
  else .ok s.preHigh

variable (T) in
/-- One turn of the digit loop of `adc`. -/
def adcDigit (prof : Profile) (a b : U32) (s : Digits) (digit : Nat) : Except Fault Digits := do
  let shift := digit * 4
  let nibble ← plainAdd prof
    (← plainAdd prof ((a >>> shift) &&& 0xf) ((b >>> shift) &&& 0xf)) s.carry
  let preHigh ← preHigh T prof s nibble digit
  let carry : U32 := if nibble > 9 then 1 else 0
  let nibble ← (if carry != 0 then plainAdd prof nibble 6 else .ok nibble)
  return ⟨s.value ||| (← plainShl prof (nibble &&& 0xf) shift), preHigh, carry⟩

def adc (prof : Profile) (acc operand : T) (p : U8) (semantics : DecimalSemantics) :
    Except Fault (AluResult T) := do
  let a := widen acc
  let b := widen operand
  let carry : U32 := if flagSet p Psr.C then 1 else 0
  let sum ← plainAdd prof (← plainAdd prof a b) carry
  let overflow (value : U32) : Bool := ~~~(a ^^^ b) &&& (a ^^^ value) &&& sign T != 0
  if !flagSet p Psr.D || semantics = .none then
    return withArithFlags (truncate sum) (sum > mask T) (overflow sum)
  let s ← (List.range (nibbles T)).foldlM (adcDigit T prof a b) ⟨0, 0, carry⟩
  let result : AluResult T := withArithFlags (truncate s.value) (s.carry != 0) (overflow s.preHigh)
  if semantics = .nmos6502 then
    let flags := setFlag result.flags Psr.Z (sum &&& mask T == 0)
    return { result with flags := setFlag flags Psr.N (s.preHigh &&& sign T != 0) }
  return result

/-- One turn of the prefix loop of the 65C02 branch of `sbc`. -/
def sbcPrefix (prof : Profile) (a b borrowIn : U32) (value : U32) (digit : Nat) :
    Except Fault U32 := do
  let shift := digit * 4
  let prefixMask ← plainSub prof (← plainShl prof 1 (shift + 4)) 1
  let difference ← plainSubSigned prof
    (← plainSubSigned prof (a &&& prefixMask) (b &&& prefixMask)) borrowIn
  if difference.slt 0 then return value - (← plainShl prof 6 shift)
  return value

variable (T) in
/-- One turn of the digit loop of the NMOS and 65816 branch of `sbc`. The nibble is an `i32`. -/
def sbcDigit (prof : Profile) (a b : U32) (s : Digits) (digit : Nat) : Except Fault Digits := do
  let shift := digit * 4
  let nibble ← plainSubSigned prof
    (← plainSubSigned prof ((a >>> shift) &&& 0xf) ((b >>> shift) &&& 0xf)) s.carry
  let preHigh ← preHigh T prof s nibble digit
  let borrow : U32 := if nibble.slt 0 then 1 else 0
  let nibble ← (if borrow != 0 then plainSubSigned prof nibble 6 else .ok nibble)
  return ⟨s.value ||| (← plainShl prof (nibble &&& 0xf) shift), preHigh, borrow⟩

def sbc (prof : Profile) (acc operand : T) (p : U8) (semantics : DecimalSemantics) :
    Except Fault (AluResult T) := do
  let a := widen acc
  let b := widen operand
  let borrowIn : U32 := if flagSet p Psr.C then 0 else 1
  let sum ← plainAdd prof (← plainAdd prof a (b ^^^ mask T)) (if flagSet p Psr.C then 1 else 0)
  let binary := sum &&& mask T
  let carry : Bool := sum > mask T
  let overflow (value : U32) : Bool := (a ^^^ b) &&& (a ^^^ value) &&& sign T != 0
  if !flagSet p Psr.D || semantics = .none then
    return withArithFlags (truncate binary) carry (overflow binary)
  if semantics = .cmos65C02 then
    let value ← (List.range (nibbles T)).foldlM (sbcPrefix prof a b borrowIn) binary
    return withArithFlags (truncate value) carry (overflow binary)
  let s ← (List.range (nibbles T)).foldlM (sbcDigit T prof a b) ⟨0, 0, borrowIn⟩
  let result : AluResult T := withArithFlags (truncate s.value) (s.carry == 0) (overflow s.preHigh)
  if semantics = .nmos6502 then
    let binaryResult : AluResult T := withArithFlags (truncate binary) carry (overflow binary)
    return { result with flags := binaryResult.flags }
  return result

end

end Alu
end Rs65x
