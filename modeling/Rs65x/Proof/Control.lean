import Rs65x.Proof.Instruction
import Rs65x.Spec.Documented

/-!
# Instructions without an operand in memory

The accesses of the stack, of the jumps and of the branches on a simple bus.
-/

namespace Rs65x
open Fallible Words Worklist

namespace Latch

def isAddress : Latch → Bool
  | .pc | .sp | .ptr | .constant _ => true
  | _ => false

def isByte : Latch → Bool
  | .none | .op0 | .eaLo | .eaHi | .ptrLo | .ptrHi | .pcLo | .pcHi | .status | .signedOffset8 => true
  | _ => false

def counts : Latch → Bool
  | .pc | .sp => true
  | _ => false

end Latch

namespace MicroExecutor
variable (scratch : MicroExecutor) (ctx : MicroCtx6502)

theorem readLatch_pcHi : scratch.readLatch ctx .pcHi = hiByte ctx.pc := rfl

theorem readLatch_pcLo : scratch.readLatch ctx .pcLo = loByte ctx.pc := rfl

theorem readLatch_brkStatus :
    scratch.readLatch ctx .brkStatus = ctx.status ||| Psr.B6502 ||| Psr.U6502 := rfl

end MicroExecutor

theorem stackAddr_setWidth (sp : U8) :
    (Arch.stackAddr sp).setWidth 32 = MicroCtx6502.stackBase.setWidth 32 + sp.setWidth 32 := by
  apply BitVec.eq_of_toNat_eq
  have lt := sp.isLt
  have base : (0x0100 : U16).toNat = 256 := rfl
  simp only [Arch.stackAddr, MicroCtx6502.stackBase, BitVec.toNat_setWidth, BitVec.toNat_add, base]
  omega

theorem write_stack (r : Recorder SimpleBus) (sp value : U8) :
    Bus.write r (MicroCtx6502.stackBase.setWidth 32 + sp.setWidth 32) value true false =
      ⟨⟨Function.update r.bus.ram (Arch.stackAddr sp) value⟩,
        r.log ++ [.write ((Arch.stackAddr sp).setWidth 32) value true false]⟩ := by
  have cell : ((Arch.stackAddr sp).setWidth 32).setWidth 16 = Arch.stackAddr sp := by simp
  rw [← stackAddr_setWidth]
  change Recorder.mk (SimpleBus.mk (Function.update r.bus.ram
    (((Arch.stackAddr sp).setWidth 32).setWidth 16) value)) _ = _
  rw [cell]

namespace Narrow
variable (m : Narrow)

def addr : Latch → U16
  | .pc => m.ctx.pc
  | .sp => Arch.stackAddr m.ctx.sp
  | .ptr => m.ptr
  | .constant c => c
  | _ => 0

def put (dest : Latch) (value : U8) : Narrow :=
  match dest with
  | .op0 => { m with op0 := value }
  | .eaLo => { m with ea := fromLeBytes value (hiByte m.ea) }
  | .eaHi => { m with ea := fromLeBytes (loByte m.ea) value }
  | .ptrLo => { m with ptr := fromLeBytes value (hiByte m.ptr) }
  | .ptrHi => { m with ptr := fromLeBytes (loByte m.ptr) value }
  | .pcLo => { m with ctx := { m.ctx with pc := fromLeBytes value (hiByte m.ctx.pc) } }
  | .pcHi => { m with ctx := { m.ctx with pc := fromLeBytes (loByte m.ctx.pc) value } }
  | .status => { m with ctx := { m.ctx with status := pulledStatus value } }
  | .signedOffset8 => { m with signedOffset8 := value }
  | _ => m

def bump : Latch → Narrow
  | .pc => { m with ctx := { m.ctx with pc := m.ctx.pc + 1 } }
  | .sp => { m with ctx := { m.ctx with sp := m.ctx.sp + 1 } }
  | _ => m

def load (src dest : Latch) (vda vpa : Bool) : Narrow :=
  (m.reading (m.addr src) vda vpa).put dest (m.ram (m.addr src))

def pushing (value : U8) : Narrow :=
  { m with
    dataLatch := value
    ctx := { m.ctx with sp := m.ctx.sp - 1 }
    ram := Function.update m.ram (Arch.stackAddr m.ctx.sp) value
    log := m.log ++ [.write ((Arch.stackAddr m.ctx.sp).setWidth 32) value true false] }

theorem address_eq {latch : Latch} (h : latch.isAddress) :
    m.exec.scratch.address m.exec.ctx latch = (m.addr latch).setWidth 32 := by
  cases latch
  case sp => exact (stackAddr_setWidth _).symm
  case pc | ptr | constant => rfl
  all_goals cases h

theorem loading_eq {u : MicroOp} (dest : u.localLatch.isByte) (src : Latch) :
    m.exec.loading u (m.addr src) =
      (m.load src u.localLatch u.bus.vda u.bus.vpa).exec := by
  rw [Exec.loading]
  cases h : u.localLatch
  case eaLo =>
    change Exec.mk ⟨_, (m.ea.setWidth 32 &&& ~~~(0xFF#32)) ||| (m.ram _).setWidth 32, _, _, _, _⟩ _ _ = _
    rw [replace_lo32]
    rfl
  case eaHi =>
    change Exec.mk ⟨_, (m.ea.setWidth 32 &&& ~~~(0xFF00#32)) ||| ((m.ram _).setWidth 32 <<< 8),
      _, _, _, _⟩ _ _ = _
    rw [replace_hi32]
    rfl
  case ptrLo =>
    change Exec.mk ⟨_, _, (m.ptr &&& 0xFF00#16) ||| (m.ram _).setWidth 16, _, _, _⟩ _ _ = _
    rw [replace_lo]
    rfl
  case ptrHi =>
    change Exec.mk ⟨_, _, (m.ptr &&& 0x00FF#16) ||| ((m.ram _).setWidth 16 <<< 8), _, _, _⟩ _ _ = _
    rw [replace_hi]
    rfl
  case pcLo =>
    change Exec.mk _ ⟨(m.ctx.pc &&& 0xFF00#16) ||| (m.ram _).setWidth 16, _, _, _, _, _, _, _⟩ _ = _
    rw [replace_lo]
    rfl
  case pcHi =>
    change Exec.mk _ ⟨(m.ctx.pc &&& 0x00FF#16) ||| ((m.ram _).setWidth 16 <<< 8),
      _, _, _, _, _, _, _⟩ _ = _
    rw [replace_hi]
    rfl
  case none | op0 | status | signedOffset8 => rfl
  all_goals simp [h, Latch.isByte] at dest

theorem addTo_bump {src : Latch} (h : src.counts) : m.exec.addTo src 1 = (m.bump src).exec := by
  cases src
  case pc | sp => rfl
  all_goals cases h

def after (src dest : Latch) (inc vda vpa : Bool) : Narrow :=
  if inc then (m.load src dest vda vpa).bump src else m.load src dest vda vpa

variable (F : Flavor) (rest : List MicroOp)

theorem next_access {u : MicroOp} (src : u.bus.addr.isAddress) (dest : u.localLatch.isByte)
    (read : u.bus.read = true) (alu : u.alu.delayed = true)
    (inc : !u.incSrc || u.bus.addr.counts) :
    m.exec.next F u rest =
      (m.after u.bus.addr u.localLatch u.incSrc u.bus.vda u.bus.vpa).exec.turn F u none rest := by
  rw [Exec.next_reads F m.exec rest _ (m.address_eq src) read alu, m.loading_eq dest]
  cases h : u.incSrc with
  | true =>
      have counts : u.bus.addr.counts := by simpa [h] using inc
      rw [if_pos rfl, addTo_bump _ counts, after, if_pos rfl]
  | false => rw [if_neg (by simp), after, if_neg (by simp)]

theorem next_read {src dest : Latch} (address : src.isAddress) (byte : dest.isByte) {inc : Bool}
    (counts : !inc || src.counts) :
    m.exec.next F (.read src dest inc) rest =
      ((m.after src dest inc (!(src = .pc)) (src = .pc)).exec, rest) :=
  m.next_access F rest address byte rfl rfl counts

structure Quiet : Prop where
  action : m.action = .read
  mnemonic : m.ctx.instruction.mnemonic.action = .read

theorem exec_pushing (value : U8) : m.exec.pushing value = (m.pushing value).exec := by
  change Exec.mk _ _ (Bus.write (⟨⟨m.ram⟩, m.log⟩ : Recorder SimpleBus)
    (MicroCtx6502.stackBase.setWidth 32 + m.ctx.sp.setWidth 32) value true false) = _
  rw [write_stack]
  rfl

theorem next_push (quiet : m.Quiet) {src : Latch} (some : src ≠ .none) :
    m.exec.next F (.push src) rest =
      ((m.pushing (m.exec.scratch.readLatch m.ctx src)).exec, rest) := by
  have storeless : m.exec.Storeless := ⟨quiet.action, quiet.mnemonic⟩
  rw [Exec.next_push storeless F some rest, exec_pushing]
  rfl

theorem next_aluPush {value : U8} (prepared : m.exec.ctx.aluPrepareStore m.exec.scratch =
      (m.exec.ctx, { m.exec.scratch with dataLatch := value })) :
    m.exec.next F .aluPush rest = ((m.pushing value).exec, rest) := by
  rw [← exec_pushing]
  exact Exec.next_stored F prepared .none rest

/-! ## ALU operations of the jumps -/

def swap : Narrow := { m with ea := m.ctx.pc, ctx := { m.ctx with pc := m.ea } }

theorem turn_swap {u : MicroOp} (alu : u.alu = .swapEaPc) :
    m.exec.turn F u none rest = (m.swap.exec, rest) := by
  have same : (m.ea.setWidth 32).setWidth 16 = m.ea := by simp
  rw [Exec.turn, alu]
  change (Exec.mk _ { m.ctx with pc := (m.ea.setWidth 32).setWidth 16 } _, _) = _
  rw [same]
  rfl

theorem turn_incPtrLo {u : MicroOp} (alu : u.alu = .incLatch .ptrLo) :
    m.exec.turn F u none rest =
      ({ m with ptr := fromLeBytes (loByte m.ptr + 1) (hiByte m.ptr) }.exec, rest) := by
  rw [Exec.turn, alu]
  change (Exec.mk ⟨_, _, MicroExecutor.addLo m.ptr 1, _, _, _⟩ _ _, _) = _
  rw [MicroExecutor.addLo_eq]
  rfl

def fixed : Narrow := { m with ptr := if loByte m.ptr = 0 then m.ptr + 0x100 else m.ptr }

theorem turn_fixPtr {u : MicroOp} (alu : u.alu = .fixPtr) (other : m.ctx.opcode ≠ 0x7C) :
    m.exec.turn F u none rest = (m.fixed.exec, rest) := by
  have low : m.ptr &&& 0xFF = 0 ↔ loByte m.ptr = 0 := by
    rw [show (0xFF : U16) = 0xFF#16 from rfl, mask_lo]
    constructor
    · intro h
      have := congrArg (BitVec.setWidth 8) h
      simpa using this
    · intro h
      rw [h]
      rfl
  have opcode : ¬ m.exec.ctx.opcode = 0x7C := other
  have ptr : m.exec.scratch.ptr = m.ptr := rfl
  simp only [Exec.turn, alu, ptr, low, if_neg opcode, fixed]
  split <;> rfl

theorem next_ea_op0 : m.exec.next F (.read .ea .op0 false) rest =
    ({ m.reading m.ea true false with op0 := m.ram m.ea }.exec, rest) :=
  Exec.next_reads F m.exec rest m.ea rfl rfl rfl

theorem next_setPc (newPc : U16) : m.exec.next F (.readPcSetPc newPc) rest =
    ({ m.reading m.ctx.pc false true with ctx := { m.ctx with pc := newPc } }.exec, rest) :=
  m.next_access F rest rfl rfl rfl rfl rfl

end Narrow

theorem Arch.ctx_pc (s : Arch) (i : Instruction) (op : U8) {length pc : U16} (eq : s.pc + length = pc) :
    s.ctx i op length = { s.ctx i op 1 with pc } := by
  rw [Arch.ctx, eq]
  rfl

namespace Exec

section
variable (v : Variant) (s : Arch) (op : U8) (log : List Access)

theorem turns_implied (implied : (v.decode op).addressMode = .noMemory .implied) :
    ∃ e, Exec.Turns v.flavor (s.opening (v.decode op) op log).exec (v.emission op) 1 e [] ∧
      e.arch = { s with pc := s.pc + 1 } := by
  have emission : v.emission op = [.read .pc .none false] := by
    rw [Variant.emission, implied]
    cases v <;> rfl
  rw [emission]
  exact ⟨_, .single (fits rfl) (Narrow.next_read _ _ [] rfl rfl rfl), rfl⟩

theorem turns_jmpAbsolute (jump : (v.decode op).addressMode = .jump .jmpAbsolute) :
    ∃ e, Exec.Turns v.flavor (s.opening (v.decode op) op log).exec (v.emission op) 2 e [] ∧
      e.arch = { s with pc := Arch.word s.ram (s.pc + 1) } := by
  have emission : v.emission op =
      [.read .pc .eaLo true, ⟨⟨.pc, false, true, true⟩, true, .eaHi, .swapEaPc⟩] := by
    rw [Variant.emission, jump]
    cases v <;> rfl
  rw [emission]
  have last (m : Narrow) :
      m.exec.next v.flavor ⟨⟨.pc, false, true, true⟩, true, .eaHi, .swapEaPc⟩ [] =
        ((m.after .pc .eaHi true false true).swap.exec, []) := by
    rw [m.next_access v.flavor [] rfl rfl rfl rfl rfl, Narrow.turn_swap _ _ _ rfl]
  refine ⟨_, .step (fits rfl) (Narrow.next_read _ _ _ rfl rfl rfl)
    (.single (fits rfl) (last _)), ?_⟩
  simp [arch, Narrow.exec, Narrow.swap, Narrow.after, Narrow.bump, Narrow.load, Narrow.put,
    Narrow.reading, Narrow.addr, Arch.opening, Arch.ctx, Arch.word]

theorem turns_stack_write (stack : (v.decode op).addressMode = .stack)
    {value : U8} (stored : (v.decode op).mnemonic.stored s.a s.x s.y s.p = some value) :
    ∃ e, Exec.Turns v.flavor (s.opening (v.decode op) op log).exec (v.emission op) 2 e [] ∧
      e.arch = { s.push value with pc := s.pc + 1 } ∧
      Access.writes e.bus.log = Access.writes log ++ [(Arch.stackAddr s.s, value)] := by
  have write : (v.decode op).memoryAction = .write := (v.decode_action op).trans (stored_action stored)
  have emission : v.emission op = [.read .pc .none false, .aluPush] := by
    rw [Variant.emission, stack, write]
    cases v <;> rfl
  rw [emission]
  have other : (v.decode op).memoryAction ≠ .readModifyWrite := by
    rw [write]
    decide
  refine ⟨_, .step (fits rfl) (Narrow.next_read _ _ _ rfl rfl rfl)
    (.single (fits rfl) (Narrow.next_aluPush _ _ [] (aluPrepareStore_stored other stored))), rfl, ?_⟩
  have same : ((Arch.stackAddr s.s).setWidth 32).setWidth 16 = Arch.stackAddr s.s := by simp
  refine (Access.writes_write _ ((Arch.stackAddr s.s).setWidth 32) value true false).trans ?_
  rw [Narrow.after, if_neg (by decide), Narrow.load, same]
  exact congrArg (· ++ _) (Access.writes_read log _ _ _ _)

theorem turns_stack_read (stack : (v.decode op).addressMode = .stack)
    (read : (v.decode op).memoryAction = .read) :
    ∃ e, Exec.Turns v.flavor (s.opening (v.decode op) op log).exec (v.emission op) 3 e [] ∧
      e.arch = { s.drop with pc := s.pc + 1 } ∧ e.scratch.op0 = s.top := by
  have emission : v.emission op =
      [.read .pc .none false, .read .sp .none true, .read .sp .op0 false] := by
    rw [Variant.emission, stack, read]
    cases v <;> rfl
  rw [emission]
  exact ⟨_, .step (fits rfl) (Narrow.next_read _ _ _ rfl rfl rfl)
    (.step (fits rfl) (Narrow.next_read _ _ _ rfl rfl rfl)
    (.single (fits rfl) (Narrow.next_read _ _ _ rfl rfl rfl))), rfl, rfl⟩

theorem turns_rts (jump : (v.decode op).addressMode = .jump .fromSubroutine) :
    ∃ e, Exec.Turns v.flavor (s.opening (v.decode op) op log).exec (v.emission op) 5 e [] ∧
      e.arch = { s.drop.drop with pc := fromLeBytes s.top s.drop.top + 1 } := by
  have emission : v.emission op = [.dummyRead .pc, .read .sp .none true, .read .sp .pcLo true,
      .read .sp .pcHi false, .read .pc .none true] := by
    rw [Variant.emission, jump]
    cases v <;> rfl
  rw [emission]
  refine ⟨_, .step (fits rfl) (Narrow.next_access _ _ _ rfl rfl rfl rfl rfl)
    (.step (fits rfl) (Narrow.next_read _ _ _ rfl rfl rfl)
    (.step (fits rfl) (Narrow.next_read _ _ _ rfl rfl rfl)
    (.step (fits rfl) (Narrow.next_read _ _ _ rfl rfl rfl)
    (.single (fits rfl) (Narrow.next_read _ _ _ rfl rfl rfl))))), ?_⟩
  simp [arch, Narrow.exec, Narrow.after, Narrow.bump, Narrow.load, Narrow.put, Narrow.reading,
    Narrow.addr, Arch.opening, Arch.ctx, MicroOp.dummyRead, Arch.drop, Arch.top]

theorem turns_rti (jump : (v.decode op).addressMode = .jump .fromInterrupt) :
    ∃ e, Exec.Turns v.flavor (s.opening (v.decode op) op log).exec (v.emission op) 5 e [] ∧
      e.arch = { s.drop.drop.drop with
        p := pulledStatus s.top
        pc := fromLeBytes s.drop.top s.drop.drop.top } := by
  have emission : v.emission op = [.read .pc .none false, .read .sp .none true,
      .read .sp .status true, .read .sp .pcLo true, .read .sp .pcHi false] := by
    rw [Variant.emission, jump]
    cases v <;> rfl
  rw [emission]
  refine ⟨_, .step (fits rfl) (Narrow.next_read _ _ _ rfl rfl rfl)
    (.step (fits rfl) (Narrow.next_read _ _ _ rfl rfl rfl)
    (.step (fits rfl) (Narrow.next_read _ _ _ rfl rfl rfl)
    (.step (fits rfl) (Narrow.next_read _ _ _ rfl rfl rfl)
    (.single (fits rfl) (Narrow.next_read _ _ _ rfl rfl rfl))))), ?_⟩
  simp [arch, Narrow.exec, Narrow.after, Narrow.bump, Narrow.load, Narrow.put, Narrow.reading,
    Narrow.addr, Arch.opening, Arch.ctx, Arch.drop, Arch.top]

theorem turns_jsr (jump : (v.decode op).addressMode = .jump .toSubroutine)
    (read : (v.decode op).memoryAction = .read) :
    let called := (s.push (hiByte (s.pc + 2))).push (loByte (s.pc + 2))
    ∃ e, Exec.Turns v.flavor (s.opening (v.decode op) op log).exec (v.emission op) 5 e [] ∧
      e.arch = { called with pc := fromLeBytes s.operand (called.ram (s.pc + 2)) } := by
  intro called
  have emission : v.emission op = [.read .pc .eaLo true, .read .sp .none false, .push .pcHi,
      .push .pcLo, ⟨⟨.pc, false, true, true⟩, false, .eaHi, .swapEaPc⟩] := by
    rw [Variant.emission, jump]
    cases v <;> rfl
  rw [emission]
  have quiet : (v.decode op).mnemonic.action = .read := (v.decode_action op).symm.trans read
  have last (m : Narrow) :
      m.exec.next v.flavor ⟨⟨.pc, false, true, true⟩, false, .eaHi, .swapEaPc⟩ [] =
        ((m.after .pc .eaHi false false true).swap.exec, []) := by
    rw [m.next_access v.flavor [] rfl rfl rfl rfl rfl, Narrow.turn_swap _ _ _ rfl]
  refine ⟨_, .step (fits rfl) (Narrow.next_read _ _ _ rfl rfl rfl)
    (.step (fits rfl) (Narrow.next_read _ _ _ rfl rfl rfl)
    (.step (fits rfl) (Narrow.next_push _ _ _ ⟨read, quiet⟩ (by decide))
    (.step (fits rfl) (Narrow.next_push _ _ _ ⟨read, quiet⟩ (by decide))
    (.single (fits rfl) (last _))))), ?_⟩
  simp [arch, Narrow.exec, Narrow.swap, Narrow.after, Narrow.bump, Narrow.load, Narrow.put,
    Narrow.reading, Narrow.addr, Narrow.pushing, Arch.opening, Arch.ctx, BitVec.add_assoc,
    MicroExecutor.readLatch_pcHi, MicroExecutor.readLatch_pcLo, called, Arch.push, Arch.operand]

theorem turns_brk (brk : (v.decode op).addressMode = .interrupt .brk)
    (read : (v.decode op).memoryAction = .read) :
    let pushed := ((s.push (hiByte (s.pc + 2))).push (loByte (s.pc + 2))).push
      (s.p ||| Psr.B6502 ||| Psr.U6502)
    ∃ e, Exec.Turns v.flavor (s.opening (v.decode op) op log).exec (v.emission op) 6 e [] ∧
      e.arch = { pushed with pc := Arch.word pushed.ram 0xFFFE } := by
  intro pushed
  have emission : v.emission op = [.read .pc .none true, .push .pcHi, .push .pcLo,
      .push .brkStatus, .read (.constant 0xFFFE) .pcLo false, .read (.constant 0xFFFF) .pcHi false] := by
    rw [Variant.emission, brk]
    cases v <;> rfl
  rw [emission]
  have quiet : (v.decode op).mnemonic.action = .read := (v.decode_action op).symm.trans read
  refine ⟨_, .step (fits rfl) (Narrow.next_read _ _ _ rfl rfl rfl)
    (.step (fits rfl) (Narrow.next_push _ _ _ ⟨read, quiet⟩ (by decide))
    (.step (fits rfl) (Narrow.next_push _ _ _ ⟨read, quiet⟩ (by decide))
    (.step (fits rfl) (Narrow.next_push _ _ _ ⟨read, quiet⟩ (by decide))
    (.step (fits rfl) (Narrow.next_read _ _ _ rfl rfl rfl)
    (.single (fits rfl) (Narrow.next_read _ _ _ rfl rfl rfl)))))), ?_⟩
  simp [arch, Narrow.exec, Narrow.after, Narrow.bump, Narrow.load, Narrow.put,
    Narrow.reading, Narrow.addr, Narrow.pushing, Arch.opening, Arch.ctx, BitVec.add_assoc,
    MicroExecutor.readLatch_pcHi, MicroExecutor.readLatch_pcLo, MicroExecutor.readLatch_brkStatus,
    pushed, Arch.push, Arch.word]

theorem turns_pointerWord (F : Flavor) (i : Instruction) (rest : List MicroOp) {w : U16}
    (pointer : Arch.word s.ram (s.pc + 1) = w) : ∃ m : Narrow,
    Exec.Turns F (s.opening i op log).exec (.read .pc .ptrLo true :: .read .pc .ptrHi false ::
      ⟨⟨.ptr, true, false, true⟩, false, .pcLo, .incLatch .ptrLo⟩ :: rest) 3 m.exec rest ∧
    m.ctx = { s.ctx i op 2 with pc := fromLeBytes (s.ram w) (hiByte (s.pc + 2)) } ∧
    m.ptr = fromLeBytes (loByte w + 1) (hiByte w) ∧ m.ram = s.ram ∧
    Access.writes m.log = Access.writes log := by
  have third (m : Narrow) :
      m.exec.next F ⟨⟨.ptr, true, false, true⟩, false, .pcLo, .incLatch .ptrLo⟩ rest =
        ({ m.after .ptr .pcLo false true false with
          ptr := fromLeBytes (loByte m.ptr + 1#8) (hiByte m.ptr) }.exec, rest) := by
    refine (m.next_access F rest rfl rfl rfl rfl rfl).trans ?_
    rw [Narrow.turn_incPtrLo _ _ _ rfl]
    rfl
  have bytes : fromLeBytes (s.ram (s.pc + 1#16)) (s.ram (s.pc + 2#16)) = w := by
    simpa [Arch.word, BitVec.add_assoc] using pointer
  refine ⟨_, .step (fits rfl) (Narrow.next_read _ _ _ rfl rfl rfl)
    (.step (fits rfl) (Narrow.next_read _ _ _ rfl rfl rfl) (.single (fits rfl) (third _))), ?_, ?_,
    rfl, ?_⟩
  · simp [Narrow.after, Narrow.bump, Narrow.load, Narrow.put, Narrow.reading, Narrow.addr,
      Arch.opening, Arch.ctx, BitVec.add_assoc, bytes]
  · rw [← bytes]
    simp [Narrow.after, Narrow.bump, Narrow.load, Narrow.put, Narrow.reading, Narrow.addr,
      Arch.opening, Arch.ctx, BitVec.add_assoc]
  · exact (Access.writes_read _ _ _ _ _).trans ((Access.writes_read _ _ _ _ _).trans
      (Access.writes_read log _ _ _ _))

theorem turns_jmpIndirect_nmos (jump : (v.decode op).addressMode = .jump .jmpIndirect) {w : U16}
    (pointer : Arch.word s.ram (s.pc + 1) = w) (nmos : v.flavor.invalidAddrRead = true) :
    ∃ e, Exec.Turns v.flavor (s.opening (v.decode op) op log).exec (v.emission op) 4 e [] ∧
      e.arch = { s with
        pc := fromLeBytes (s.ram w) (s.ram (fromLeBytes (loByte w + 1) (hiByte w))) } ∧
      Access.writes e.bus.log = Access.writes log := by
  have emission : v.emission op = [.read .pc .ptrLo true, .read .pc .ptrHi false,
      ⟨⟨.ptr, true, false, true⟩, false, .pcLo, .incLatch .ptrLo⟩, .read .ptr .pcHi false] := by
    rw [Variant.emission, jump]
    cases v <;> first | rfl | cases nmos
  obtain ⟨m, first, ctx, ptr, ram, writes⟩ := turns_pointerWord s op log v.flavor (v.decode op)
    [.read .ptr .pcHi false] pointer
  rw [emission]
  refine ⟨_, first.trans (.single (fits rfl) (Narrow.next_read _ _ _ rfl rfl rfl)), ?_, ?_⟩
  · simp [arch, Narrow.exec, Narrow.after, Narrow.load, Narrow.put, Narrow.reading, Narrow.addr,
      ctx, ram, ptr, Arch.ctx]
  · exact (Access.writes_read _ _ _ _ _).trans writes

theorem turns_jmpIndirect_cmos (jump : (v.decode op).addressMode = .jump .jmpIndirect) {w : U16}
    (pointer : Arch.word s.ram (s.pc + 1) = w) (cmos : v.flavor.invalidAddrRead = false)
    (other : op ≠ 0x7C) :
    ∃ e, (∀ prof, prof = .release ∨ w ≠ 0xFFFF →
        Exec.TurnsIn prof v.flavor (s.opening (v.decode op) op log).exec (v.emission op) 5 e []) ∧
      e.arch = { s with pc := Arch.word s.ram w } ∧
      Access.writes e.bus.log = Access.writes log := by
  have emission : v.emission op = [.read .pc .ptrLo true, .read .pc .ptrHi false,
      ⟨⟨.ptr, true, false, true⟩, false, .pcLo, .incLatch .ptrLo⟩, .readInvPtr2 .pcHi,
      .read .ptr .pcHi false] := by
    rw [Variant.emission, jump]
    cases v <;> first | rfl | cases cmos
  obtain ⟨m, first, ctx, ptr, ram, writes⟩ := turns_pointerWord s op log v.flavor (v.decode op)
    [.readInvPtr2 .pcHi, .read .ptr .pcHi false] pointer
  obtain ⟨m', fourth, ctx', ptr', ram', writes'⟩ : ∃ m' : Narrow,
      m.exec.next v.flavor (.readInvPtr2 .pcHi) [.read .ptr .pcHi false] =
        (m'.exec, [.read .ptr .pcHi false]) ∧
      m'.ctx = { m.ctx with pc := fromLeBytes (loByte m.ctx.pc) (m.ram m.ptr) } ∧
      m'.ptr = w + 1 ∧ m'.ram = s.ram ∧ Access.writes m'.log = Access.writes log := by
    have same : (m.after .ptr .pcHi false true false).ptr = m.ptr := rfl
    have opcode : (m.after .ptr .pcHi false true false).ctx.opcode ≠ 0x7C := by
      rw [show (m.after .ptr .pcHi false true false).ctx.opcode = m.ctx.opcode from rfl, ctx]
      exact other
    refine ⟨(m.after .ptr .pcHi false true false).fixed, (m.next_access v.flavor _ rfl rfl rfl rfl
      rfl).trans (Narrow.turn_fixPtr _ v.flavor _ rfl opcode), rfl, ?_, ram, ?_⟩
    · rw [Narrow.fixed, same, ptr, loByte_fromLeBytes]
      exact fromLeBytes_carry w
    · exact (Access.writes_read _ _ _ _ _).trans writes
  rw [emission]
  refine ⟨_, fun prof small => (first.anywhere prof).trans (.step ?_ fourth
    (.single (.inr (fits rfl)) (Narrow.next_read _ _ _ rfl rfl rfl))), ?_, ?_⟩
  · refine small.imp_right fun other bad => other ?_
    have overflow : m.ptr = 0xFF00 := bad.2
    exact eq_top_of_carry (ptr ▸ overflow)
  · simp [arch, Narrow.exec, Narrow.after, Narrow.load, Narrow.put, Narrow.reading, Narrow.addr,
      ctx', ptr', ram', ctx, ram, ptr, Arch.ctx, Arch.word]
  · exact (Access.writes_read _ _ _ _ _).trans writes'

theorem turns_jmpIndirect (jump : (v.decode op).addressMode = .jump .jmpIndirect)
    (other : op ≠ 0x7C) (inPage : loByte (Arch.word s.ram (s.pc + 1)) ≠ 0xFF) :
    ∃ n e, Exec.Turns v.flavor (s.opening (v.decode op) op log).exec (v.emission op) (n + 1) e [] ∧
      e.arch = { s with pc := Arch.word s.ram (Arch.word s.ram (s.pc + 1)) } := by
  generalize pointer : Arch.word s.ram (s.pc + 1) = w at inPage
  cases cmos : v.flavor.invalidAddrRead with
  | true =>
      obtain ⟨e, turns, arch, -⟩ := turns_jmpIndirect_nmos v s op log jump pointer cmos
      refine ⟨3, e, turns, arch.trans ?_⟩
      rw [show loByte w + 1 = loByte w + 1#8 from rfl, fromLeBytes_succ inPage]
      rfl
  | false =>
      obtain ⟨e, turns, arch, -⟩ := turns_jmpIndirect_cmos v s op log jump pointer cmos other
      have low : w ≠ 0xFFFF := fun eq => inPage (by rw [eq]; rfl)
      exact ⟨4, e, (turns .debug (.inr low)).mono fun _ _ ok => ok.resolve_left (by decide), arch⟩

def peeked (e : Exec (Recorder SimpleBus)) (ea : U32) (pc : U16) : Exec (Recorder SimpleBus) :=
  let data := e.bus.bus.ram (e.scratch.ea.setWidth 16)
  ⟨{ e.scratch with dataLatch := data, ea }, { e.ctx with pc },
    ⟨e.bus.bus, e.bus.log ++ [.read e.scratch.ea true false data]⟩⟩

theorem next_ea_pcLo (F : Flavor) (e : Exec (Recorder SimpleBus)) (rest : List MicroOp) :
    e.next F (.read .ea .pcLo true) rest = (e.peeked (e.scratch.ea + 1)
      (fromLeBytes (e.bus.bus.ram (e.scratch.ea.setWidth 16)) (hiByte e.ctx.pc)), rest) := by
  rw [← replace_lo]
  rfl

theorem next_ea_pcHi (F : Flavor) (e : Exec (Recorder SimpleBus)) (rest : List MicroOp) :
    e.next F (.read .ea .pcHi false) rest = (e.peeked e.scratch.ea
      (fromLeBytes (loByte e.ctx.pc) (e.bus.bus.ram (e.scratch.ea.setWidth 16))), rest) := by
  rw [← replace_hi]
  rfl

theorem turns_jmpAbsoluteX (jump : (v.decode op).addressMode = .jump .jmpAbsoluteX) {w : U16}
    (pointer : Arch.word s.ram (s.pc + 1) = w) :
    ∃ e, Exec.Turns v.flavor (s.opening (v.decode op) op log).exec (v.emission op) 5 e [] ∧
      e.arch = { s with pc := Arch.word s.ram (w + s.x.setWidth 16) } ∧
      Access.writes e.bus.log = Access.writes log := by
  have emission : v.emission op = [.read .pc .eaLo true, .read .pc .eaHi false,
      ⟨⟨.pc, false, true, true⟩, false, .none, .specialAddOffset⟩,
      .read .ea .pcLo true, .read .ea .pcHi false] := by
    rw [Variant.emission, jump]
    cases v <;> rfl
  have bytes : fromLeBytes (s.ram (s.pc + 1#16)) (s.ram (s.pc + 2#16)) = w := by
    simpa [Arch.word, BitVec.add_assoc] using pointer
  obtain ⟨m, first, ctx, ea, ram, writes⟩ : ∃ m : Narrow,
      Exec.Turns v.flavor (s.opening (v.decode op) op log).exec (v.emission op) 2 m.exec
        [⟨⟨.pc, false, true, true⟩, false, .none, .specialAddOffset⟩, .read .ea .pcLo true,
          .read .ea .pcHi false] ∧
      m.ctx = s.ctx (v.decode op) op 2 ∧ m.ea = w ∧ m.ram = s.ram ∧
      Access.writes m.log = Access.writes log := by
    rw [emission]
    refine ⟨_, .step (fits rfl) (Narrow.next_read _ _ _ rfl rfl rfl)
      (.single (fits rfl) (Narrow.next_read _ _ _ rfl rfl rfl)), ?_, ?_, rfl, ?_⟩
    · simp [Narrow.after, Narrow.bump, Narrow.load, Narrow.put, Narrow.reading, Narrow.addr,
        Arch.opening, Arch.ctx, BitVec.add_assoc]
    · rw [← bytes]
      simp [Narrow.after, Narrow.bump, Narrow.load, Narrow.put, Narrow.reading, Narrow.addr,
        Arch.opening, Arch.ctx, BitVec.add_assoc]
    · exact (Access.writes_read _ _ _ _ _).trans (Access.writes_read log _ _ _ _)
  obtain ⟨e, third, ctx', ea', bus, writes'⟩ : ∃ e : Exec (Recorder SimpleBus),
      m.exec.next v.flavor ⟨⟨.pc, false, true, true⟩, false, .none, .specialAddOffset⟩
        [.read .ea .pcLo true, .read .ea .pcHi false] =
        (e, [.read .ea .pcLo true, .read .ea .pcHi false]) ∧
      e.ctx = m.ctx ∧ e.scratch.ea = m.ea.setWidth 32 + m.ctx.regX.setWidth 32 ∧
      e.bus.bus = ⟨m.ram⟩ ∧ Access.writes e.bus.log = Access.writes m.log :=
    ⟨_, rfl, rfl, rfl, rfl, Access.writes_read _ _ _ _ _⟩
  have low : e.scratch.ea.setWidth 16 = w + s.x.setWidth 16 := by
    rw [ea', ea, ctx, BitVec.setWidth_add _ _ (by omega)]
    simp [MicroCtx6502.regX, Arch.ctx]
  have high : (e.scratch.ea + 1#32).setWidth 16 = w + s.x.setWidth 16 + 1#16 := by
    rw [BitVec.setWidth_add _ _ (by omega), low]
    rfl
  refine ⟨_, first.trans (.step (fits rfl) third (.step (fits rfl) (next_ea_pcLo _ _ _)
    (.single (fits rfl) (next_ea_pcHi _ _ _)))), ?_, ?_⟩
  · simp [arch, peeked, ctx', ctx, bus, ram, low, high, Arch.ctx, Arch.word]
  · exact (Access.writes_read _ _ _ _ _).trans ((Access.writes_read _ _ _ _ _).trans
      (writes'.trans writes))

/-! ## Branches -/

theorem turns_branchTail (m : Narrow) {taken : Bool} (decides : m.exec.branches = taken) :
    let target := m.ctx.pc + m.signedOffset8.signExtend 16
    ∃ e, Exec.Turns v.flavor m.exec m.exec.branchTail
        (if taken then Arch.hops m.ctx.pc target else 0) e [] ∧
      e.arch = { m.exec.arch with pc := if taken then target else m.ctx.pc } ∧
      Access.writes e.bus.log = Access.writes m.log := by
  intro target
  have page : target ≠ ((m.ctx.pc &&& 0xFF00#16) ||| (target &&& 0xFF#16)) ↔
      hiByte target ≠ hiByte m.ctx.pc := by
    rw [mask_lo, replace_lo, not_iff_not]
    constructor <;> intro same
    · rw [same, hiByte_fromLeBytes]
    · rw [← same, fromLeBytes_halves]
  rw [branchTail, decides]
  cases taken with
  | false => exact ⟨_, .refl, rfl, rfl⟩
  | true =>
      change ∃ e, Exec.Turns v.flavor m.exec
        (if target ≠ ((m.ctx.pc &&& 0xFF00#16) ||| (target &&& 0xFF#16)) then _ else _) _ e [] ∧ _
      simp only [page, if_true]
      by_cases inPage : hiByte target = hiByte m.ctx.pc
      · rw [if_neg (not_not.2 inPage), Arch.hops, if_pos inPage]
        exact ⟨_, .single (fits rfl) (Narrow.next_setPc _ _ _ _), rfl, Access.writes_read _ _ _ _ _⟩
      · rw [if_pos inPage, Arch.hops, if_neg inPage]
        split
        · exact ⟨_, .step (fits rfl) (Narrow.next_read _ _ _ rfl rfl rfl)
            (.single (fits rfl) (Narrow.next_setPc _ _ _ _)), rfl,
            (Access.writes_read _ _ _ _ _).trans (Access.writes_read m.log _ _ _ _)⟩
        · exact ⟨_, .step (fits rfl) (Narrow.next_setPc _ _ _ _)
            (.single (fits rfl) (Narrow.next_setPc _ _ _ _)), rfl,
            (Access.writes_read _ _ _ _ _).trans (Access.writes_read m.log _ _ _ _)⟩

theorem turns_branchLast (m : Narrow) {taken : Bool}
    (decides : ∀ scratch : MicroExecutor, scratch.op0 = m.op0 →
      ({ m.ctx with pc := m.ctx.pc + 1 } : MicroCtx6502).aluBranch .release scratch = .ok taken) :
    let following := m.ctx.pc + 1
    let target := following + (m.ram m.ctx.pc).signExtend 16
    ∃ e, Exec.Turns v.flavor m.exec [⟨⟨.pc, false, true, true⟩, true, .signedOffset8, .branch⟩]
        ((if taken then Arch.hops following target else 0) + 1) e [] ∧
      e.arch = { m.exec.arch with pc := if taken then target else following } ∧
      Access.writes e.bus.log = Access.writes m.log := by
  intro following target
  have first := m.next_access v.flavor [] (u := ⟨⟨.pc, false, true, true⟩, true, .signedOffset8, .branch⟩)
    rfl rfl rfl rfl rfl
  have decides' : (m.after .pc .signedOffset8 true false true).exec.branches = taken := by
    rw [branches]
    exact congrArg (get · false) (decides _ rfl)
  obtain ⟨e, tail, arch, writes⟩ := turns_branchTail v _ decides'
  exact ⟨e, .step (fits rfl) first tail, arch, writes.trans (Access.writes_read _ _ _ _ _)⟩

theorem turns_branch (branch : (v.decode op).addressMode = .branch .relative) {taken : Bool}
    (decides : ∀ scratch, (s.ctx (v.decode op) op 2).aluBranch .release scratch = .ok taken) :
    let target := s.pc + 2 + s.operand.signExtend 16
    ∃ e, Exec.Turns v.flavor (s.opening (v.decode op) op log).exec (v.emission op)
        ((if taken then Arch.hops (s.pc + 2) target else 0) + 1) e [] ∧
      e.arch = { s with pc := if taken then target else s.pc + 2 } ∧
      Access.writes e.bus.log = Access.writes log := by
  have emission : v.emission op =
      [⟨⟨.pc, false, true, true⟩, true, .signedOffset8, .branch⟩] := by
    rw [Variant.emission, branch]
    cases v <;> rfl
  have following : s.pc + 2 = s.pc + 1 + 1 := by simp [BitVec.add_assoc]
  rw [s.ctx_pc _ _ following] at decides
  rw [emission, following]
  exact turns_branchLast v (s.opening (v.decode op) op log) fun scratch _ => decides scratch

theorem turns_zeroPage (F : Flavor) (m : Narrow) (page : hiByte m.ea = 0) (rest : List MicroOp) :
    ∃ m' : Narrow, Exec.Turns F m.exec
        (.read .pc .eaLo true :: .read .ea .op0 false :: .read .ea .op0 false :: rest) 3 m'.exec rest ∧
      m'.ctx = { m.ctx with pc := m.ctx.pc + 1 } ∧
      m'.op0 = m.ram ((m.ram m.ctx.pc).setWidth 16) ∧
      m'.exec.arch = { m.exec.arch with pc := m.ctx.pc + 1 } ∧
      Access.writes m'.log = Access.writes m.log := by
  refine ⟨_, .step (fits rfl) (Narrow.next_pc_eaLo _ _ _) (.step (fits rfl)
    (Narrow.next_ea_op0 _ _ _) (.single (fits rfl) (Narrow.next_ea_op0 _ _ _))), rfl, ?_, rfl, ?_⟩
  · change m.ram (fromLeBytes (m.ram m.ctx.pc) (hiByte m.ea)) = _
    rw [page]
    exact congrArg m.ram (fromLeBytes_zero _)
  · exact (Access.writes_read _ _ _ _ _).trans ((Access.writes_read _ _ _ _ _).trans
      (Access.writes_read m.log _ _ _ _))

theorem turns_bitBranch (branch : (v.decode op).addressMode = .branch .dpRelative) {taken : Bool}
    (decides : ∀ scratch : MicroExecutor, scratch.op0 = s.ram (s.operand.setWidth 16) →
      (s.ctx (v.decode op) op 3).aluBranch .release scratch = .ok taken) :
    let target := s.pc + 3 + (s.ram (s.pc + 2)).signExtend 16
    ∃ e, Exec.Turns v.flavor (s.opening (v.decode op) op log).exec (v.emission op)
        ((if taken then Arch.hops (s.pc + 3) target else 0) + 1 + 3) e [] ∧
      e.arch = { s with pc := if taken then target else s.pc + 3 } ∧
      Access.writes e.bus.log = Access.writes log := by
  have emission : v.emission op = [.read .pc .eaLo true, .read .ea .op0 false, .read .ea .op0 false,
      ⟨⟨.pc, false, true, true⟩, true, .signedOffset8, .branch⟩] := by
    rw [Variant.emission, branch]
    cases v <;> rfl
  have second : s.pc + 2 = s.pc + 1 + 1 := by simp [BitVec.add_assoc]
  have third : s.pc + 3 = s.pc + 1 + 1 + 1 := by simp [BitVec.add_assoc]
  rw [s.ctx_pc _ _ third] at decides
  rw [emission, second, third]
  generalize v.decode op = i at decides ⊢
  obtain ⟨m, first, ctx, op0, arch, writes⟩ :=
    turns_zeroPage v.flavor (s.opening i op log) (s.hiByte_opening_ea _ _ _)
      [⟨⟨.pc, false, true, true⟩, true, .signedOffset8, .branch⟩]
  have decides' (scratch : MicroExecutor) (same : scratch.op0 = m.op0) :
      ({ m.ctx with pc := m.ctx.pc + 1 } : MicroCtx6502).aluBranch .release scratch = .ok taken := by
    rw [ctx]
    exact decides scratch (same.trans op0)
  obtain ⟨e, last, arch', writes'⟩ := turns_branchLast v m decides'
  rw [arch] at arch'
  have pc : m.ctx.pc = s.pc + 1 + 1 := congrArg MicroCtx6502.pc ctx
  have ram : m.ram = s.ram := congrArg Arch.ram arch
  rw [pc, ram] at arch' last
  exact ⟨e, first.trans last, arch', writes'.trans writes⟩

end

end Exec

end Rs65x
