import Rs65x.Alu
import Rs65x.Isa.Table
import Rs65x.Lib.Machine

/-!
# The programmer's model: stores and read-modify-write
-/

namespace Rs65x
open Alu

def signZero (p value : U8) : U8 := setFlag (setFlag p Psr.N value.msb) Psr.Z (value == 0)

def shifted (p value : U8) (out : Bool) : U8 := setFlag (signZero p value) Psr.C out

def compared (p register value : U8) : U8 :=
  setFlag (signZero p (register - value)) Psr.C (value ≤ register)

/-- The byte that a store or a push writes, SHA, SHX, SHY and TAS apart. -/
def Mnemonic.stored (op : Mnemonic) (a x y p : U8) : Option U8 :=
  match op with
  | .sta | .pha => some a
  | .stx | .phx => some x
  | .sty | .phy => some y
  | .stz => some 0
  | .sax => some (a &&& x)
  | .php => some (p ||| Psr.B6502)
  | _ => none

/-- The new operand, A and the status after a read-modify-write instruction. -/
structure Modified where
  value : U8
  a : U8
  p : U8

/-- The bit that RMBn and SMBn are about. -/
def Mnemonic.resetBit : Mnemonic → Option Nat
  | .rmb0 => some 0 | .rmb1 => some 1 | .rmb2 => some 2 | .rmb3 => some 3
  | .rmb4 => some 4 | .rmb5 => some 5 | .rmb6 => some 6 | .rmb7 => some 7
  | _ => none

def Mnemonic.setBit : Mnemonic → Option Nat
  | .smb0 => some 0 | .smb1 => some 1 | .smb2 => some 2 | .smb3 => some 3
  | .smb4 => some 4 | .smb5 => some 5 | .smb6 => some 6 | .smb7 => some 7
  | _ => none

/-- What a read-modify-write instruction does to its operand, A and the status. -/
def Mnemonic.modify (op : Mnemonic) (decimal : DecimalSemantics) (a p old : U8) : Modified :=
  let carry := flagSet p Psr.C
  let left : U8 := old <<< 1
  let right : U8 := old >>> 1
  let rolled : U8 := left ||| (if carry then 1 else 0)
  let rored : U8 := right ||| (if carry then 0x80 else 0)
  match op with
  | .asl => ⟨left, a, shifted p left old.msb⟩
  | .lsr => ⟨right, a, shifted p right (old.getLsbD 0)⟩
  | .rol => ⟨rolled, a, shifted p rolled old.msb⟩
  | .ror => ⟨rored, a, shifted p rored (old.getLsbD 0)⟩
  | .inc => ⟨old + 1, a, signZero p (old + 1)⟩
  | .dec => ⟨old - 1, a, signZero p (old - 1)⟩
  | .tsb => ⟨old ||| a, a, setFlag p Psr.Z (a &&& old == 0)⟩
  | .trb => ⟨old &&& ~~~a, a, setFlag p Psr.Z (a &&& old == 0)⟩
  | .slo => ⟨left, a ||| left, shifted p (a ||| left) old.msb⟩
  | .rla => ⟨rolled, a &&& rolled, shifted p (a &&& rolled) old.msb⟩
  | .sre => ⟨right, a ^^^ right, shifted p (a ^^^ right) (old.getLsbD 0)⟩
  | .rra =>
      let sum := Fallible.get (Alu.adc .release a rored (shifted p rored (old.getLsbD 0)) decimal) (zn a)
      ⟨rored, sum.value, (sum.apply (shifted p rored (old.getLsbD 0))).2⟩
  | .dcp => ⟨old - 1, a, compared p a (old - 1)⟩
  | .isc =>
      let difference := Fallible.get (Alu.sbc .release a (old + 1) p decimal) (zn a)
      ⟨old + 1, difference.value, (difference.apply p).2⟩
  | op =>
      match op.resetBit, op.setBit with
      | some n, _ => ⟨old &&& ~~~((1 : U8) <<< n), a, p⟩
      | none, some n => ⟨old ||| (1 : U8) <<< n, a, p⟩
      | none, none => ⟨old, a, p⟩

end Rs65x
