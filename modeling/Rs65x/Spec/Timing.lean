import Rs65x.Cpu6502.Flavor
import Rs65x.Spec.Arch
import Rs65x.Spec.Documented

/-!
# The programmer's model: cycles and accesses

What the operand of an instruction costs. Accesses are a direction, true for a read, and an address.
-/

namespace Rs65x
open Words

def Variant.isCmos : Variant → Bool
  | .nmos6502 | .nes => false
  | .wdc65C02 | .synertek65C02 | .rockwell65C02 => true

namespace Arch
variable (s : Arch) (mode : AddressMode)

def crosses : Bool :=
  256 ≤ (loByte (s.baseAddress mode)).toNat + (s.index mode.wordIndex).toNat

def uncarried : U16 :=
  fromLeBytes (loByte (s.baseAddress mode) + s.index mode.wordIndex) (hiByte (s.baseAddress mode))

def lastByte : U16 := s.pc + mode.length - 1

variable (F : Flavor) (i : Instruction)

def operandAccesses : List (Bool × U16) :=
  let addr := s.effectiveAddress i.addressMode
  match i.memoryAction with
  | .read => [(true, addr)]
  | .write => [(false, addr)]
  | .readModifyWrite => [(true, addr), (!F.rmwDummyWrite, addr), (false, addr)]

theorem uncarried_eq {s : Arch} {mode : AddressMode} (inPage : s.crosses mode = false) :
    s.uncarried mode = s.effectiveAddress mode := by
  rw [s.effectiveAddress_eq, uncarried, add_lo]
  simpa [crosses] using inPage

theorem operandAccesses_at : ∀ access ∈ s.operandAccesses F i,
    access.2 = s.effectiveAddress i.addressMode := by
  intro access mem
  rw [operandAccesses] at mem
  split at mem <;> simp only [List.mem_cons, List.not_mem_nil, or_false] at mem
  · rw [mem]
  · rw [mem]
  · rcases mem with rfl | rfl | rfl <;> rfl

theorem operandAccesses_ne : s.operandAccesses F i ≠ [] := by
  rw [operandAccesses]
  split <;> exact List.cons_ne_nil _ _

/-- INC and DEC, whose abs,X form takes its last cycle in any case. -/
def stepsByOne : Bool := i.mnemonic = .inc || i.mnemonic = .dec

/-- The read on the way to the indexed address, if there is one. -/
def dummyAccesses : List (Bool × U16) :=
  if i.addressMode.wordIndex = .none then []
  else if F.invalidAddrRead then [(true, s.uncarried i.addressMode)]
  else if s.crosses i.addressMode || i.memoryAction = .write || stepsByOne i then
    [(true, s.lastByte i.addressMode)]
  else []

/-- The read at the uncarried address has served the operand. -/
def servedByDummy : Bool :=
  i.addressMode.wordIndex ≠ .none && F.invalidAddrRead && i.memoryAction = .read &&
    !s.crosses i.addressMode

/-- The accesses after the bytes of the instruction and of its pointer. -/
def accesses : List (Bool × U16) :=
  s.dummyAccesses F i ++ if s.servedByDummy F i then [] else s.operandAccesses F i

/-- The accesses after the opcode fetch. -/
def trail : List (Bool × U16) := (s.pointerReads i.addressMode).map (true, ·) ++ s.accesses F i

variable {i}

theorem accesses_plain (plain : i.addressMode.wordIndex = .none) :
    s.accesses F i = s.operandAccesses F i := by
  simp [accesses, dummyAccesses, servedByDummy, plain]

theorem accesses_fixed (indexed : i.addressMode.wordIndex ≠ .none)
    (loads : i.memoryAction = .read → stepsByOne i = false)
    (fixes : (s.crosses i.addressMode || i.memoryAction = .write || stepsByOne i) = true) :
    s.accesses F i = [(true, if F.invalidAddrRead then s.uncarried i.addressMode
      else s.lastByte i.addressMode)] ++ s.operandAccesses F i := by
  have unserved : s.servedByDummy F i = false := by
    cases read : i.memoryAction <;> simp_all [servedByDummy]
  rw [accesses, unserved, dummyAccesses, if_neg indexed, if_pos fixes]
  cases F.invalidAddrRead <;> rfl

theorem accesses_inPage (indexed : i.addressMode.wordIndex ≠ .none)
    (stays : (s.crosses i.addressMode || i.memoryAction = .write || stepsByOne i) = false) :
    s.accesses F i = if F.invalidAddrRead && i.memoryAction = .readModifyWrite then
      [(true, s.effectiveAddress i.addressMode)] ++ s.operandAccesses F i
      else s.operandAccesses F i := by
  have same := stays
  simp only [Bool.or_eq_false_iff, decide_eq_false_iff_not] at stays
  obtain ⟨⟨inPage, notWrite⟩, -⟩ := stays
  rw [accesses, dummyAccesses, if_neg indexed, uncarried_eq inPage, same]
  cases invalid : F.invalidAddrRead with
  | false => simp [servedByDummy, invalid]
  | true =>
      cases action : i.memoryAction with
      | write => exact absurd action notWrite
      | read => simp [servedByDummy, operandAccesses, indexed, invalid, action, inPage]
      | readModifyWrite => simp [servedByDummy, invalid, action]

/-! ## Cycles -/

/-- ADC and SBC in decimal mode take one cycle more on a CMOS core. -/
def addsDecimalCycle (v : Variant) (i : Instruction) : Bool :=
  (i.mnemonic = .adc || i.mnemonic = .sbc) && v.isCmos && flagSet s.p Psr.D

/-- The documented number of cycles of an instruction with an operand, without that one. -/
def cycles (v : Variant) (i : Instruction) : Nat :=
  let crossing := if s.crosses i.addressMode then 1 else 0
  match i.memoryAction, i.addressMode with
  | .read, .noMemory _ => 2
  | .read, .directPage .none | .write, .directPage .none => 3
  | .read, .directPage _ | .write, .directPage _ => 4
  | .read, .absolute .none | .write, .absolute .none => 4
  | .read, .absolute _ => 4 + crossing
  | .write, .absolute _ => 5
  | .read, .dpIndirect .none | .write, .dpIndirect .none => 5
  | .read, .dpIndirect .x | .write, .dpIndirect .x => 6
  | .read, .dpIndirect .y => 5 + crossing
  | .write, .dpIndirect .y => 6
  | .readModifyWrite, .directPage .none => 5
  | .readModifyWrite, .directPage _ => 6
  | .readModifyWrite, .absolute .none => 6
  | .readModifyWrite, .absolute _ => if v.isCmos && !stepsByOne i then 6 + crossing else 7
  | .readModifyWrite, .dpIndirect .none => 7
  | .readModifyWrite, .dpIndirect _ => 8
  | _, _ => 0

end Arch

/-! ## Branches -/

/-- The bit that BBRn and BBSn test, and the value with which they branch. -/
def Mnemonic.testedBit : Mnemonic → Option (Nat × Bool)
  | .bbr0 => some (0, false) | .bbr1 => some (1, false) | .bbr2 => some (2, false)
  | .bbr3 => some (3, false) | .bbr4 => some (4, false) | .bbr5 => some (5, false)
  | .bbr6 => some (6, false) | .bbr7 => some (7, false)
  | .bbs0 => some (0, true) | .bbs1 => some (1, true) | .bbs2 => some (2, true)
  | .bbs3 => some (3, true) | .bbs4 => some (4, true) | .bbs5 => some (5, true)
  | .bbs6 => some (6, true) | .bbs7 => some (7, true)
  | _ => none

/-- The condition of a branch on the status or on a byte of the zero page. -/
def Mnemonic.branches (op : Mnemonic) (p byte : U8) : Bool :=
  match op.testedBit with
  | some (n, value) => byte.getLsbD n == value
  | none => op = .bra || op.taken p

namespace Arch

/-- The cycles in which a taken branch moves PC. -/
def hops (pc target : U16) : Nat := if hiByte target = hiByte pc then 1 else 2

variable (s : Arch) (i : Instruction)

/-- The number of bytes of a branch before its offset. -/
def branchPrefix : U16 := if i.addressMode = .branch .dpRelative then 2 else 1

def branchFollowing : U16 := s.pc + (branchPrefix i + 1)

def branchTarget : U16 := s.branchFollowing i + (s.ram (s.pc + branchPrefix i)).signExtend 16

def branchTaken : Bool := i.mnemonic.branches s.p (s.ram (s.operand.setWidth 16))

def branchCycles : Nat :=
  (if i.addressMode = .branch .dpRelative then 5 else 2) +
    if s.branchTaken i then hops (s.branchFollowing i) (s.branchTarget i) else 0

end Arch

end Rs65x
