import Rs65x.Cpu6502.Core
import Rs65x.Proof.Arith
import Rs65x.Proof.Queue

/-!
# What a micro-op does

Every latch that a micro-op addresses or adds to is one that the executor supports. For such a
micro-op `execUcyc` is a total function of the executor's state, up to the queue and to the plain
addition of `FixPtr`.
-/

namespace Rs65x
open Fallible

def Latch.addressable : Latch → Bool
  | .constant _ | .pc | .sp | .ea | .eaLo | .ptr | .ptrLo => true
  | _ => false

def Latch.offsettable : Latch → Bool
  | .pc | .pcLo | .pcHi | .ea | .eaLo | .eaHi | .ptr | .ptrLo | .ptrHi | .sp => true
  | _ => false

/-- A micro-op that asks `address_of` and `add_offset` for supported latches only. -/
def MicroOp.supported (u : MicroOp) : Bool :=
  u.bus.addr.addressable && (!u.incSrc || u.bus.addr.offsettable) &&
    match u.alu with
    | .addOffset latch _ | .incLatch latch => latch.offsettable
    | _ => true

namespace Alu

theorem apply_and {T : Type} (r : AluResult T) (p : U8) {mask : U8} (h : r.flagMask &&& mask = 0) :
    (r.apply p).2 &&& mask = p &&& mask := by
  change (p &&& ~~~r.flagMask ||| r.flags &&& r.flagMask) &&& mask = p &&& mask
  ext i hi
  have bit := congrArg (·[i]) h
  simp only [BitVec.getElem_and] at bit
  simp only [BitVec.getElem_and, BitVec.getElem_or, BitVec.getElem_not]
  cases hm : r.flagMask[i] <;> simp_all

theorem setFlag_and (p : U8) {mask other : U8} (apart : mask &&& other = 0#8) (b : Bool) :
    setFlag p mask b &&& other = p &&& other := by
  cases b with
  | true => rw [setFlag, if_pos rfl, BitVec.and_or_distrib_right, apart, BitVec.or_zero]
  | false =>
      have same := apply_and (⟨p, 0, mask⟩ : AluResult U8) p apart
      simpa [AluResult.apply, setFlag] using same

theorem flagSet_setFlag (p : U8) {mask other : U8} (apart : mask &&& other = 0#8) (b : Bool) :
    flagSet (setFlag p mask b) other = flagSet p other := by
  rw [flagSet, flagSet, setFlag_and p apart b]

theorem flagSet_apply {T : Type} (r : AluResult T) (p : U8) {mask : U8}
    (h : r.flagMask &&& mask = 0) : flagSet (r.apply p).2 mask = flagSet p mask := by
  rw [flagSet, flagSet, apply_and r p h]

end Alu

namespace MicroExecutor
variable (scratch : MicroExecutor) (ctx : MicroCtx6502)

def address : Latch → U32
  | .constant c => c.setWidth 32
  | .pc => ctx.pc.setWidth 32
  | .sp => MicroCtx6502.stackBase.setWidth 32 + ctx.sp.setWidth 32
  | .ea => scratch.ea
  | .eaLo => scratch.ea &&& 0xFF
  | .ptr => scratch.ptr.setWidth 32
  | .ptrLo => (scratch.ptr &&& 0xFF).setWidth 32
  | _ => 0

theorem toNat_stackBase : (MicroCtx6502.stackBase.setWidth 32 : U32).toNat = 256 := by
  decide

theorem addressOf_sp (prof : Profile) :
    scratch.addressOf prof .sp ctx = .ok (scratch.address ctx .sp) := by
  have small : (MicroCtx6502.stackBase.setWidth 32 : U32).toNat + (ctx.sp.setWidth 32 : U32).toNat <
      2 ^ 32 := by
    have := ctx.sp.isLt
    rw [toNat_stackBase, BitVec.toNat_setWidth]
    generalize ctx.sp.toNat = n at *
    omega
  obtain ⟨sum, sum_eq, eq⟩ := plainAdd_always small
  change plainAdd prof _ _ = _
  exact (eq prof).trans (congrArg _ sum_eq)

theorem toNat_address_sp : (scratch.address ctx .sp).toNat = 256 + ctx.sp.toNat := by
  have small := ctx.sp.isLt
  change (MicroCtx6502.stackBase.setWidth 32 + ctx.sp.setWidth 32 : U32).toNat = _
  rw [BitVec.toNat_add, toNat_stackBase, BitVec.toNat_setWidth]
  generalize ctx.sp.toNat = n at *
  omega

theorem addressOf_eq {latch : Latch} (h : latch.addressable) (prof : Profile) :
    scratch.addressOf prof latch ctx = .ok (scratch.address ctx latch) := by
  cases latch
  case sp => exact addressOf_sp scratch ctx prof
  case constant | pc | ea | eaLo | ptr | ptrLo => rfl
  all_goals cases h

end MicroExecutor

namespace Exec
variable {β : Type}

def addTo (e : Exec β) (latch : Latch) (offset : U16) : Exec β := get (e.addOffset latch offset) e

theorem addOffset_eq (e : Exec β) {latch : Latch} (h : latch.offsettable) (offset : U16) :
    e.addOffset latch offset = .ok (e.addTo latch offset) := by
  cases latch <;> first | rfl | simp [Latch.offsettable] at h

def body [Bus β] (F : Flavor) (e : Exec β) (u : MicroOp) : Exec β × Option U32 :=
  let (e, fixedAddr) := (e.prepareStore u).prepareAlu F u.alu
  let addr := e.scratch.address e.ctx u.bus.addr
  let e := e.access u (if u.alu = .specialAddOffset then addr - 1 else addr)
  (if u.incSrc then e.addTo u.bus.addr 1 else e, fixedAddr)

theorem execUcyc_eq [Bus β] (F : Flavor) (prof : Profile) (e : Exec β) {u : MicroOp}
    (h : u.supported) (queue : UcycQueue) :
    e.execUcyc F prof u queue =
      (e.body F u).1.finishAlu F prof u.alu (e.body F u).2 queue := by
  simp only [MicroOp.supported, Bool.and_eq_true] at h
  obtain ⟨⟨addressable, inc⟩, -⟩ := h
  simp only [execUcyc, body, MicroExecutor.addressOf_eq _ _ addressable, ok_bind]
  cases hi : u.incSrc with
  | false => simp
  | true => simp [addOffset_eq _ (by simpa [hi] using inc : u.bus.addr.offsettable = true)]

end Exec

/-! ## The modify phase -/

namespace MicroCtx6502

theorem bitIndexRmb_lt {op bit : U8} (h : bitIndexRmb op = some bit) : bit.toNat < 8 := by
  have all : ∀ op : U8, (bitIndexRmb op).all (·.toNat < 8) := by decide
  simpa [h] using all op

theorem bitIndexSmb_lt {op bit : U8} (h : bitIndexSmb op = some bit) : bit.toNat < 8 := by
  have all : ∀ op : U8, (bitIndexSmb op).all (·.toNat < 8) := by decide
  simpa [h] using all op

theorem aluModify_always (F : Flavor) (ctx : MicroCtx6502) (scratch : MicroExecutor) :
    Always (fun prof => ctx.aluModify F prof scratch) (fun r => ∃ a status op0,
      r = ({ ctx with a, status }, { scratch with op0 })) := by
  unfold aluModify
  cases ctx.instruction.mnemonic
  case inc => exact (Alu.inc_always _).bind fun r _ => .ok ⟨ctx.a, _, r.value, rfl⟩
  case rra => exact (Alu.adc_always _ _ _ _).bind fun r _ => .ok ⟨r.value, _, _, rfl⟩
  case isc => exact (Alu.sbc_always _ _ _ _).bind fun r _ => .ok ⟨r.value, _, _, rfl⟩
  case asl | lsr | rol | ror | dec | tsb | trb => exact .ok ⟨ctx.a, _, _, rfl⟩
  case slo | rla | sre => exact .ok ⟨_, _, _, rfl⟩
  case dcp => exact .ok ⟨ctx.a, _, _, rfl⟩
  all_goals
    cases h : bitIndexRmb ctx.opcode with
    | some bit =>
        simp only
        exact (plainShl_always 1 (bitIndexRmb_lt h)).bind fun _ _ => .ok ⟨ctx.a, ctx.status, _, rfl⟩
    | none =>
        cases h : bitIndexSmb ctx.opcode with
        | some bit =>
            simp only
            exact (plainShl_always 1 (bitIndexSmb_lt h)).bind fun _ _ => .ok ⟨ctx.a, ctx.status, _, rfl⟩
        | none => exact .ok ⟨ctx.a, ctx.status, scratch.op0, rfl⟩

theorem branchBitInfo_lt {op : U8} {r : U8 × Bool} (h : branchBitInfo op = some r) :
    r.1.toNat < 8 := by
  have all : ∀ op : U8, (branchBitInfo op).all (·.1.toNat < 8) := by decide
  simpa [h] using all op

theorem aluBranch_always (ctx : MicroCtx6502) (scratch : MicroExecutor) :
    Always (fun prof => ctx.aluBranch prof scratch) (fun _ => True) := by
  unfold aluBranch
  cases ctx.instruction.mnemonic
  case bcc | bcs | beq | bne | bmi | bpl | bvc | bvs | bra => exact .ok trivial
  all_goals
    cases h : branchBitInfo ctx.opcode with
    | none => exact .ok trivial
    | some r =>
        simp only
        exact (plainShl_always 1 (branchBitInfo_lt h)).bind fun _ _ => .ok trivial

end MicroCtx6502

/-! ## One turn of the list of live micro-ops -/

/-- What a micro-op asks of the micro-ops that are live behind it. -/
def MicroOp.fits (u : MicroOp) (rest : List MicroOp) : Bool :=
  u.supported && match u.alu with
    | .jam => !rest.isEmpty
    | .branch => rest.isEmpty
    | .fixPtr => u.localLatch = .pcHi && !u.incSrc
    | _ => true

namespace Exec
variable {β : Type}

def modified (F : Flavor) (e : Exec β) : Exec β :=
  let (ctx, scratch) := get (e.ctx.aluModify F .release e.scratch) (e.ctx, e.scratch)
  { e with ctx, scratch }

def branches (e : Exec β) : Bool := get (e.ctx.aluBranch .release e.scratch) false

/-- The micro-ops that a branch leaves to execute. -/
def branchTail (e : Exec β) : List MicroOp :=
  let newPc := e.ctx.pc + e.scratch.signedOffset8.signExtend 16
  let maybeInvalid := (e.ctx.pc &&& 0xFF00) ||| (newPc &&& 0xFF)
  if !e.branches then []
  else if newPc ≠ maybeInvalid then
    [if e.ctx.opcode &&& 0x0F = 0x0F then .read .pc .none false else .readPcSetPc maybeInvalid,
      .readPcSetPc newPc]
  else [.readPcSetPc newPc]

def turn (F : Flavor) (e : Exec β) (u : MicroOp) (fixedAddr : Option U32) (rest : List MicroOp) :
    Exec β × List MicroOp :=
  match u.alu with
  | .none => (e, rest)
  | .addOffset latch offset => (e.addTo latch (e.ctx.offset offset), rest)
  | .specialAddOffset => (e.addTo .ea e.ctx.regX, rest)
  | .offsetWithExtraCycle _ =>
      match fixedAddr with
      | some addr => ({ e with scratch := { e.scratch with ea := addr } }, rest)
      | none =>
          if e.scratch.memoryAction = .read then (e, [])
          else if e.scratch.memoryAction = .readModifyWrite && !F.invalidAddrRead &&
              !isIncdecAbsX e.ctx.opcode then (e, rest.tail)
          else (e, rest)
  | .incLatch latch => (e.addTo latch 1, rest)
  | .decSp => ({ e with ctx := { e.ctx with sp := e.ctx.sp - 1 } }, rest)
  | .modify => (e.modified F, rest)
  | .swapEaPc =>
      ({ e with
        ctx := { e.ctx with pc := e.scratch.ea.setWidth 16 }
        scratch := { e.scratch with ea := e.ctx.pc.setWidth 32 } }, rest)
  | .branch => (e, e.branchTail)
  | .setPc newPc => ({ e with ctx := { e.ctx with pc := newPc } }, rest)
  | .jam => (e, u :: rest)
  | .fixPtr =>
      if e.scratch.ptr &&& 0xFF = 0 then
        ({ e with scratch := { e.scratch with ptr := e.scratch.ptr + 0x100 } }, rest)
      else if e.ctx.opcode = 0x7C then (e, [])
      else (e, rest)

def next [Bus β] (F : Flavor) (e : Exec β) (u : MicroOp) (rest : List MicroOp) :
    Exec β × List MicroOp :=
  (e.body F u).1.turn F u (e.body F u).2 rest

def PtrFits (prof : Profile) (e : Exec β) (u : MicroOp) : Prop :=
  prof = .release ∨ ¬ (u.alu = .fixPtr ∧ e.scratch.ptr = 0xFF00)

theorem fixPtr_add {prof : Profile} {ptr : U16} (aligned : ptr &&& 0xFF = 0)
    (h : prof = .release ∨ ptr ≠ 0xFF00) : plainAdd prof ptr 0x100 = .ok (ptr + 0x100) := by
  obtain rfl | h := h
  · rfl
  refine if_neg fun large => h (BitVec.eq_of_toNat_eq ?_)
  have low : ptr.toNat % 256 = 0 := by
    rw [← Nat.and_two_pow_sub_one_eq_mod _ 8]
    exact congrArg BitVec.toNat aligned
  have bound := ptr.isLt
  have high : 2 ^ 16 ≤ ptr.toNat + 256 := large.2
  change ptr.toNat = 65280
  omega

theorem finishBranch_pushes (F : Flavor) (prof : Profile) (e : Exec β) (fixedAddr : Option U32)
    {q : UcycQueue} (drained : q.Drained) :
    e.finishAlu F prof .branch fixedAddr q = q.pushAll e.branchTail >>= fun q' => .ok (e, q') := by
  obtain ⟨taken, -⟩ := (e.ctx.aluBranch_always e.scratch).eq_get prof .release false
  cases h : e.branches with
  | false =>
      simp only [finishAlu, taken, show get _ false = false from h, branchTail, h, drained.clear_eq]
      rfl
  | true =>
      simp only [finishAlu, taken, show get _ false = true from h, branchTail, h,
        UcycQueue.pushAll, ok_bind, Bool.not_true, Bool.false_eq_true, ↓reduceIte]
      by_cases crossed : e.ctx.pc + e.scratch.signedOffset8.signExtend 16 =
        (e.ctx.pc &&& 0xFF00#16) ||| (e.ctx.pc + e.scratch.signedOffset8.signExtend 16 &&& 0xFF#16)
      · simp [if_pos crossed]
      · by_cases bit : e.ctx.opcode &&& 0x0F#8 = 0x0F#8
        · simp [crossed, bit]
        · simp [crossed, bit]

theorem branchTail_length (e : Exec β) : e.branchTail.length ≤ 2 := by
  simp only [branchTail]
  split
  · simp
  · split <;> simp

theorem finishBranch_eq (F : Flavor) (prof : Profile) (e : Exec β) (fixedAddr : Option U32)
    {q : UcycQueue} (drained : q.Drained) :
    ∃ q', e.finishAlu F prof .branch fixedAddr q = .ok (e, q') ∧ q'.Wf ∧ q'.live = e.branchTail := by
  have few := e.branchTail_length
  obtain ⟨q', pushes, wf, live⟩ := drained.pushAll (Nat.le_trans few (by decide))
  exact ⟨q', by rw [finishBranch_pushes F prof e fixedAddr drained, pushes]; rfl, wf, live⟩

theorem finishAlu_eq (F : Flavor) {prof : Profile} {e : Exec β} {u : MicroOp}
    (fixedAddr : Option U32) {q : UcycQueue} (fits : u.fits q.live) (wf : q.Wf)
    (again : u.alu = .jam → ∃ q', q.decHead prof = .ok q' ∧ q'.Wf ∧ q'.live = u :: q.live)
    (small : PtrFits prof e u) :
    ∃ q', e.finishAlu F prof u.alu fixedAddr q = .ok ((e.turn F u fixedAddr q.live).1, q') ∧
      q'.Wf ∧ q'.live = (e.turn F u fixedAddr q.live).2 := by
  simp only [MicroOp.fits, MicroOp.supported, Bool.and_eq_true] at fits
  obtain ⟨⟨-, latch_ok⟩, fits⟩ := fits
  have cleared := q.clear_drained.wf
  cases alu : u.alu with
  | none | decSp | swapEaPc | setPc => exact ⟨q, by simp [finishAlu, turn, alu], wf, by simp [turn, alu]⟩
  | addOffset latch offset | incLatch latch =>
      simp only [alu] at latch_ok
      exact ⟨q, by simp [finishAlu, turn, alu, addOffset_eq e latch_ok], wf, by simp [turn, alu]⟩
  | specialAddOffset =>
      exact ⟨q, by simp [finishAlu, turn, alu, addOffset_eq e (rfl : Latch.ea.offsettable = true)], wf,
        by simp [turn, alu]⟩
  | modify =>
      obtain ⟨eq, -⟩ := (e.ctx.aluModify_always F e.scratch).eq_get prof .release (e.ctx, e.scratch)
      exact ⟨q, by simp [finishAlu, turn, alu, eq, modified], wf, by simp [turn, alu]⟩
  | offsetWithExtraCycle offset =>
      cases fixedAddr with
      | some addr => exact ⟨q, by simp [finishAlu, turn, alu], wf, by simp [turn, alu]⟩
      | none =>
          simp only [finishAlu, turn, alu]
          split
          · exact ⟨q.clear, rfl, cleared, q.live_clear⟩
          · split
            · exact ⟨q.pop.2, rfl, wf.pop_tail⟩
            · exact ⟨q, rfl, wf, rfl⟩
  | branch =>
      simp only [alu, List.isEmpty_iff] at fits
      simp only [turn, alu]
      exact finishBranch_eq F prof e fixedAddr (wf.live_eq_nil.1 fits)
  | jam =>
      obtain ⟨q', dec, wf', live'⟩ := again alu
      exact ⟨q', by simp [finishAlu, turn, alu, dec], wf', by simpa [turn, alu] using live'⟩
  | fixPtr =>
      simp only [finishAlu, turn, alu]
      split
      · next aligned =>
          rw [fixPtr_add aligned (small.imp_right fun h eq => h ⟨alu, eq⟩)]
          exact ⟨q, rfl, wf, rfl⟩
      · split
        · exact ⟨q.clear, rfl, cleared, q.live_clear⟩
        · exact ⟨q, rfl, wf, rfl⟩

theorem body_ptr [Bus β] (F : Flavor) (e : Exec β) {u : MicroOp} (alu : u.alu = .fixPtr)
    (dest : u.localLatch = .pcHi) (inc : u.incSrc = false) :
    (e.body F u).1.scratch.ptr = e.scratch.ptr := by
  have stored : (e.prepareStore u).scratch.ptr = e.scratch.ptr := by
    simp only [prepareStore]
    split
    · rfl
    · simp only [MicroCtx6502.aluPrepareStore]
      split
      · rfl
      · split <;> rfl
  simp only [body, alu, prepareAlu, inc, access, dest, MicroExecutor.writeLatch,
    Bool.false_eq_true, if_false]
  cases u.bus.read <;> exact stored

theorem execUcyc_next [Bus β] (F : Flavor) {prof : Profile} {e : Exec β} {u : MicroOp}
    {rest : List MicroOp} {q : UcycQueue} (wf : q.Wf) (live : q.live = u :: rest)
    (fits : u.fits rest) (small : PtrFits prof e u) :
    ∃ q₁ q', q.pop = (some u, q₁) ∧
      e.execUcyc F prof u q₁ = .ok ((e.next F u rest).1, q') ∧ q'.Wf ∧
      q'.live = (e.next F u rest).2 := by
  obtain ⟨q₁, pop, wf₁, live₁, back⟩ := wf.pop_cons live
  have supported : u.supported := by
    simp only [MicroOp.fits, Bool.and_eq_true] at fits
    exact fits.1
  subst live₁
  have again : u.alu = .jam → ∃ q', q₁.decHead prof = .ok q' ∧ q'.Wf ∧ q'.live = u :: q₁.live := by
    intro alu
    simp only [MicroOp.fits, alu, Bool.and_eq_true, Bool.not_eq_true', List.isEmpty_eq_false_iff]
      at fits
    exact ⟨q, back fits.2 prof, wf, live⟩
  have small' : PtrFits prof (e.body F u).1 u := by
    refine small.imp_right fun ne ⟨alu, ptr⟩ => ne ⟨alu, ?_⟩
    simp only [MicroOp.fits, alu, Bool.and_eq_true, decide_eq_true_eq, Bool.not_eq_true'] at fits
    rw [← ptr, body_ptr F e alu fits.2.1 fits.2.2]
  obtain ⟨q', run, wf', live'⟩ := finishAlu_eq F (e.body F u).2 fits wf₁ again small'
  exact ⟨q₁, q', pop, by rw [execUcyc_eq F prof e supported, run, next], wf', live'⟩

end Exec

end Rs65x
