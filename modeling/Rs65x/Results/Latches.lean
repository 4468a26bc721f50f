import Rs65x.Proof.Narrow

/-!
# The latches

Each byte latch is written, read and added to apart from the others, but for the high bytes of EA
and of the pointer: an addition there puts the low byte of PC beside them.
-/

namespace Rs65x
open Words

namespace Latch

def byte : Latch → Latch
  | .ea => .eaLo
  | .ptr => .ptrLo
  | .pc => .pcLo
  | .brkStatus => .status
  | latch => latch

def holdsByte : Latch → Bool
  | .eaLo | .eaHi | .op0 | .ptrLo | .ptrHi | .pcLo | .pcHi | .sp | .signedOffset8 => true
  | _ => false

def isHalf : Latch → Bool
  | .pcLo | .pcHi | .eaLo | .eaHi | .ptrLo | .ptrHi => true
  | _ => false

end Latch

namespace MicroExecutor

/-- One byte latch is `value` now, and everything else is as it was. -/
structure OnlyChanges (latch : Latch) (value : U8) (s : MicroExecutor) (ctx : MicroCtx6502)
    (t : MicroExecutor × MicroCtx6502) : Prop where
  written : t.1.readLatch t.2 latch = value
  others : ∀ other : Latch, other.byte ≠ latch → t.1.readLatch t.2 other = s.readLatch ctx other
  bank : t.1.ea &&& 0xFF0000 = s.ea &&& 0xFF0000
  rest : ∃ ea ptr op0 signedOffset8 pc sp,
    t = ({ s with ea, ptr, op0, signedOffset8 }, { ctx with pc, sp })

inductive LatchCall where
  | write (latch : Latch) (value : U8)
  | add (latch : Latch) (offset : U16)

namespace LatchCall

def suits : LatchCall → Bool
  | write latch _ => latch.holdsByte
  | add latch _ => latch.isHalf

/-- The use changes the latch that it names and no other one. -/
def Obeys (s : MicroExecutor) (ctx : MicroCtx6502) : LatchCall → Prop
  | write latch value => OnlyChanges latch value s ctx (s.writeLatch ctx latch value) ∧
      (s.writeLatch ctx latch value).1.ea &&& ~~~(0xFFFF : U32) = s.ea &&& ~~~(0xFFFF : U32)
  | add latch offset => ∃ t, s.addOffset ctx latch offset = .ok t ∧
      OnlyChanges latch (s.readLatch ctx latch + offset.setWidth 8) s ctx t

/-- An addition to the high byte of EA or of the pointer takes place beside the low byte of PC. -/
def Beside (s : MicroExecutor) (ctx : MicroCtx6502) : LatchCall → Prop
  | add .eaHi _ => s.ea.setWidth 8 = (ctx.pc.setWidth 8 : U8)
  | add .ptrHi _ => s.ptr.setWidth 8 = (ctx.pc.setWidth 8 : U8)
  | _ => True

end LatchCall

section
variable (s : MicroExecutor) (ctx : MicroCtx6502) {value : U8}

theorem readLatch_ea (ea : U32) {latch : Latch} (lo : latch.byte ≠ .eaLo) (hi : latch ≠ .eaHi) :
    { s with ea }.readLatch ctx latch = s.readLatch ctx latch := by
  cases latch with
  | ea | eaLo => exact absurd rfl lo
  | eaHi => exact absurd rfl hi
  | _ => rfl

theorem readLatch_ptr (ptr : U16) {latch : Latch} (lo : latch.byte ≠ .ptrLo) (hi : latch ≠ .ptrHi) :
    { s with ptr }.readLatch ctx latch = s.readLatch ctx latch := by
  cases latch with
  | ptr | ptrLo => exact absurd rfl lo
  | ptrHi => exact absurd rfl hi
  | _ => rfl

theorem readLatch_pc (pc : U16) {latch : Latch} (lo : latch.byte ≠ .pcLo) (hi : latch ≠ .pcHi) :
    s.readLatch { ctx with pc } latch = s.readLatch ctx latch := by
  cases latch with
  | pc | pcLo => exact absurd rfl lo
  | pcHi => exact absurd rfl hi
  | _ => rfl

theorem OnlyChanges.eaLo {ea : U32} (word : ea.setWidth 16 = fromLeBytes value (hiByte (s.ea.setWidth 16)))
    (bank : ea &&& 0xFF0000 = s.ea &&& 0xFF0000) :
    OnlyChanges .eaLo value s ctx ({ s with ea }, ctx) where
  written := by
    change ea.setWidth 8 = value
    rw [← loByte_setWidth, word, loByte_fromLeBytes]
  others other lo := by
    by_cases hi : other = .eaHi
    · subst hi
      change (ea >>> 8).setWidth 8 = (s.ea >>> 8).setWidth 8
      rw [← hiByte_setWidth, word, hiByte_fromLeBytes, hiByte_setWidth]
    · exact readLatch_ea s ctx ea lo hi
  bank := bank
  rest := ⟨ea, s.ptr, s.op0, s.signedOffset8, ctx.pc, ctx.sp, rfl⟩

theorem OnlyChanges.eaHi {ea : U32} (word : ea.setWidth 16 = fromLeBytes (loByte (s.ea.setWidth 16)) value)
    (bank : ea &&& 0xFF0000 = s.ea &&& 0xFF0000) :
    OnlyChanges .eaHi value s ctx ({ s with ea }, ctx) where
  written := by
    change (ea >>> 8).setWidth 8 = value
    rw [← hiByte_setWidth, word, hiByte_fromLeBytes]
  others other hi := by
    by_cases lo : other.byte = .eaLo
    · have same : ea.setWidth 8 = (s.ea.setWidth 8 : U8) := by
        rw [← loByte_setWidth, word, loByte_fromLeBytes, loByte_setWidth]
      cases other with
      | ea | eaLo => exact same
      | _ => cases lo
    · refine readLatch_ea s ctx ea lo fun eq => hi ?_
      rw [eq]
      rfl
  bank := bank
  rest := ⟨ea, s.ptr, s.op0, s.signedOffset8, ctx.pc, ctx.sp, rfl⟩

theorem OnlyChanges.ptrLo (value : U8) : OnlyChanges .ptrLo value s ctx
    ({ s with ptr := fromLeBytes value (hiByte s.ptr) }, ctx) where
  written := loByte_fromLeBytes _ _
  others other lo := by
    by_cases hi : other = .ptrHi
    · subst hi
      exact hiByte_fromLeBytes _ _
    · exact readLatch_ptr s ctx _ lo hi
  bank := rfl
  rest := ⟨s.ea, _, s.op0, s.signedOffset8, ctx.pc, ctx.sp, rfl⟩

theorem OnlyChanges.ptrHi (value : U8) : OnlyChanges .ptrHi value s ctx
    ({ s with ptr := fromLeBytes (loByte s.ptr) value }, ctx) where
  written := hiByte_fromLeBytes _ _
  others other hi := by
    by_cases lo : other.byte = .ptrLo
    · cases other with
      | ptr | ptrLo => exact loByte_fromLeBytes _ _
      | _ => cases lo
    · refine readLatch_ptr s ctx _ lo fun eq => hi ?_
      rw [eq]
      rfl
  bank := rfl
  rest := ⟨s.ea, _, s.op0, s.signedOffset8, ctx.pc, ctx.sp, rfl⟩

theorem OnlyChanges.pcLo (value : U8) : OnlyChanges .pcLo value s ctx
    (s, { ctx with pc := fromLeBytes value (hiByte ctx.pc) }) where
  written := loByte_fromLeBytes _ _
  others other lo := by
    by_cases hi : other = .pcHi
    · subst hi
      exact hiByte_fromLeBytes _ _
    · exact readLatch_pc s ctx _ lo hi
  bank := rfl
  rest := ⟨s.ea, s.ptr, s.op0, s.signedOffset8, _, ctx.sp, rfl⟩

theorem OnlyChanges.pcHi (value : U8) : OnlyChanges .pcHi value s ctx
    (s, { ctx with pc := fromLeBytes (loByte ctx.pc) value }) where
  written := hiByte_fromLeBytes _ _
  others other hi := by
    by_cases lo : other.byte = .pcLo
    · cases other with
      | pc | pcLo => exact loByte_fromLeBytes _ _
      | _ => cases lo
    · refine readLatch_pc s ctx _ lo fun eq => hi ?_
      rw [eq]
      rfl
  bank := rfl
  rest := ⟨s.ea, s.ptr, s.op0, s.signedOffset8, _, ctx.sp, rfl⟩

theorem write_obeys {latch : Latch} (byte : latch.holdsByte) :
    (LatchCall.write latch value).Obeys s ctx := by
  have small := fits_setWidth value (by decide)
  cases latch with
  | eaLo =>
      refine ⟨.eaLo s ctx (setWidth_replace_lo s.ea value) ?_, ?_⟩
      · exact and_replace (by decide) (small.and_eq_zero (by decide))
      · exact and_replace (by decide) (small.and_eq_zero (by decide))
  | eaHi =>
      have small := fits_shiftLeft value
      refine ⟨.eaHi s ctx (setWidth_replace_hi s.ea value) ?_, ?_⟩
      · exact and_replace (by decide) (small.and_eq_zero (by decide))
      · exact and_replace (by decide) (small.and_eq_zero (by decide))
  | ptrLo =>
      have same := OnlyChanges.ptrLo s ctx value
      rw [← replace_lo] at same
      exact ⟨same, rfl⟩
  | ptrHi =>
      have same := OnlyChanges.ptrHi s ctx value
      rw [← replace_hi] at same
      exact ⟨same, rfl⟩
  | pcLo =>
      have same := OnlyChanges.pcLo s ctx value
      rw [← replace_lo] at same
      exact ⟨same, rfl⟩
  | pcHi =>
      have same := OnlyChanges.pcHi s ctx value
      rw [← replace_hi] at same
      exact ⟨same, rfl⟩
  | op0 | sp | signedOffset8 =>
      refine ⟨⟨rfl, fun other ne => ?_, rfl, ⟨_, _, _, _, _, _, rfl⟩⟩, rfl⟩
      cases other <;> first | rfl | exact absurd rfl ne
  | _ => cases byte

theorem addHi_eq (pc w : U16) (offset : U16) :
    addHi pc w offset = fromLeBytes (loByte pc) (hiByte w + offset.setWidth 8) := by
  have low : pc &&& 0xFF = (loByte pc).setWidth 16 := mask_lo pc
  rw [addHi, low]
  rfl

theorem bank_of_word (ea : U32) (word : U16) :
    ((ea &&& 0xFF0000) ||| word.setWidth 32).setWidth 16 = word ∧
      ((ea &&& 0xFF0000) ||| word.setWidth 32) &&& 0xFF0000 = ea &&& 0xFF0000 := by
  constructor
  · rw [BitVec.setWidth_or, BitVec.setWidth_and, BitVec.setWidth_setWidth_of_le _ (by decide),
      BitVec.setWidth_eq]
    exact (congrArg (· ||| word) BitVec.and_zero).trans BitVec.zero_or
  · exact and_replace rfl ((fits_setWidth word (Nat.le_refl 16)).and_eq_zero (by decide))

theorem add_obeys {latch : Latch} (half : latch.isHalf) (offset : U16)
    (beside : (LatchCall.add latch offset).Beside s ctx) :
    (LatchCall.add latch offset).Obeys s ctx := by
  cases latch with
  | eaLo =>
      refine ⟨_, rfl, ?_⟩
      obtain ⟨word, bank⟩ := bank_of_word s.ea (addLo (s.ea.setWidth 16) offset)
      refine .eaLo s ctx ?_ bank
      rw [word, addLo_eq, loByte_setWidth]
      rfl
  | eaHi =>
      refine ⟨_, rfl, ?_⟩
      obtain ⟨word, bank⟩ := bank_of_word s.ea (addHi ctx.pc (s.ea.setWidth 16) offset)
      refine .eaHi s ctx ?_ bank
      have low : loByte ctx.pc = loByte (s.ea.setWidth 16) := by
        rw [loByte_setWidth]
        exact beside.symm
      rw [word, addHi_eq, low, hiByte_setWidth]
      rfl
  | ptrLo =>
      have same := OnlyChanges.ptrLo s ctx (loByte s.ptr + offset.setWidth 8)
      rw [← addLo_eq] at same
      exact ⟨_, rfl, same⟩
  | ptrHi =>
      have same := OnlyChanges.ptrHi s ctx (hiByte s.ptr + offset.setWidth 8)
      have low : loByte s.ptr = loByte ctx.pc := beside
      rw [low, ← addHi_eq] at same
      exact ⟨_, rfl, same⟩
  | pcLo =>
      have same := OnlyChanges.pcLo s ctx (loByte ctx.pc + offset.setWidth 8)
      rw [← addLo_eq] at same
      exact ⟨_, rfl, same⟩
  | pcHi =>
      have same := OnlyChanges.pcHi s ctx (hiByte ctx.pc + offset.setWidth 8)
      rw [← addHi_eq] at same
      exact ⟨_, rfl, same⟩
  | _ => cases half

theorem beside_of_obeys {latch : Latch} {offset : U16}
    (obeys : (LatchCall.add latch offset).Obeys s ctx) :
    (LatchCall.add latch offset).Beside s ctx := by
  cases latch with
  | eaHi =>
      obtain ⟨t, run, changes⟩ := obeys
      cases run
      have low := changes.others .eaLo (by decide)
      change ((s.ea &&& 0xFF0000) ||| (addHi ctx.pc (s.ea.setWidth 16) offset).setWidth 32).setWidth 8 =
        s.ea.setWidth 8 at low
      rw [← loByte_setWidth, (bank_of_word _ _).1, addHi_eq, loByte_fromLeBytes] at low
      exact low.symm
  | ptrHi =>
      obtain ⟨t, run, changes⟩ := obeys
      cases run
      have low := changes.others .ptrLo (by decide)
      change loByte (addHi ctx.pc s.ptr offset) = loByte s.ptr at low
      rw [addHi_eq, loByte_fromLeBytes] at low
      exact low.symm
  | _ => trivial

/-- A use of a latch obeys its laws unless it adds to the high byte of EA or of the pointer beside
another low byte than that of PC. -/
theorem latch_laws_iff (s : MicroExecutor) (ctx : MicroCtx6502) (call : LatchCall)
    (suits : call.suits) : call.Obeys s ctx ↔ call.Beside s ctx := by
  cases call with
  | write latch value => exact iff_of_true (write_obeys s ctx suits) trivial
  | add latch offset => exact ⟨beside_of_obeys s ctx, add_obeys s ctx suits offset⟩

end

def startCtx : MicroCtx6502 :=
  -- The registers of a core that has just been made, at the first cycle of an instruction.
  ⟨0, 0xFD, 0x24, 0, 0, 0, .undefined, 0⟩

def busyLatches : MicroExecutor :=
  -- EA and PC with the same low byte, and a pointer with another.
  ⟨0x11, 0x12A45C, 0xFF3D, 0x22, 0x80, .read⟩

def busyCtx : MicroCtx6502 := ⟨0x815C, 0xF0, 0x24, 1, 2, 3, .undefined, 0xB1⟩

theorem latch_laws_busy :
    (∃ t, busyLatches.addOffset busyCtx .eaHi 0x72 = .ok t ∧ OnlyChanges .eaHi 0x16 busyLatches busyCtx t) ∧
    ¬ (LatchCall.add .ptrHi 0x72).Obeys busyLatches busyCtx := by
  constructor
  · exact (latch_laws_iff busyLatches busyCtx (.add .eaHi 0x72) rfl).2 rfl
  · intro obeys
    have beside : (busyLatches.ptr.setWidth 8 : U8) = busyCtx.pc.setWidth 8 :=
      (latch_laws_iff busyLatches busyCtx (.add .ptrHi 0x72) rfl).1 obeys
    exact absurd beside (by decide)

/-- EA is $007F in a new executor; with PC at zero, $01 in its high byte makes it $0100. -/
theorem high_latch_disturbed : ¬ ∀ (s : MicroExecutor) (ctx : MicroCtx6502) (call : LatchCall),
    call.suits → call.Obeys s ctx := by
  intro laws
  have beside : (MicroExecutor.new.ea.setWidth 8 : U8) = startCtx.pc.setWidth 8 :=
    beside_of_obeys .new startCtx (laws .new startCtx (.add .eaHi 1) rfl)
  exact absurd beside (by decide)

end MicroExecutor

end Rs65x
