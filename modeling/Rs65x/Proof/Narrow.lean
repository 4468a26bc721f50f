import Rs65x.Proof.Turns

/-!
# Micro-ops on a simple bus

While EA stays in 16 bits, the state of the executor is that of narrow latches.
-/

namespace Rs65x
open Fallible Words

/-- The executor on a simple bus, with a 16-bit EA. -/
structure Narrow where
  ctx : MicroCtx6502
  dataLatch : U8
  ea : U16
  ptr : U16
  op0 : U8
  signedOffset8 : U8
  action : MemoryAction
  ram : U16 → U8
  log : List Access

def AluOp.delayed : AluOp → Bool
  | .offsetWithExtraCycle _ | .specialAddOffset => false
  | _ => true

namespace Exec

theorem bus_read (bus : Recorder SimpleBus) (addr : U16) (vda vpa : Bool) :
    Bus.read bus (addr.setWidth 32) vda vpa = (bus.bus.ram addr,
      ⟨bus.bus, bus.log ++ [.read (addr.setWidth 32) vda vpa (bus.bus.ram addr)]⟩) := by
  have same : (addr.setWidth 32).setWidth 16 = addr := by simp
  change (bus.bus.ram ((addr.setWidth 32).setWidth 16), Recorder.mk bus.bus (bus.log ++
    [.read _ _ _ (bus.bus.ram ((addr.setWidth 32).setWidth 16))])) = _
  rw [same]

def loading (e : Exec (Recorder SimpleBus)) (u : MicroOp) (addr : U16) : Exec (Recorder SimpleBus) :=
  let data := e.bus.bus.ram addr
  let (scratch, ctx) := { e.scratch with dataLatch := data }.writeLatch e.ctx u.localLatch data
  ⟨scratch, ctx, ⟨e.bus.bus, e.bus.log ++ [.read (addr.setWidth 32) u.bus.vda u.bus.vpa data]⟩⟩

theorem next_reads (F : Flavor) (e : Exec (Recorder SimpleBus)) {u : MicroOp} (rest : List MicroOp)
    (addr : U16) (at_addr : e.scratch.address e.ctx u.bus.addr = addr.setWidth 32)
    (read : u.bus.read = true) (alu : u.alu.delayed = true) : e.next F u rest =
      (if u.incSrc then (e.loading u addr).addTo u.bus.addr 1 else e.loading u addr).turn F u none
        rest := by
  have before : (e.prepareStore u).prepareAlu F u.alu = (e, none) := by
    rw [prepareStore, if_pos read]
    cases h : u.alu <;> first | rfl | simp [h, AluOp.delayed] at alu
  have plain : u.alu ≠ .specialAddOffset := fun h => by simp [h, AluOp.delayed] at alu
  have load : e.access u (addr.setWidth 32) = e.loading u addr := by
    rw [access, if_pos read, bus_read]
    rfl
  simp only [next, body, before, if_neg plain, at_addr, load]

end Exec

namespace MicroExecutor

theorem addLo_eq (w o : U16) : addLo w o = fromLeBytes (loByte w + o.setWidth 8) (hiByte w) :=
  replace_lo w _

theorem addLo32_eq (w o : U16) : (w.setWidth 32 &&& 0xFF0000#32) |||
    (addLo ((w.setWidth 32 : U32).setWidth 16) o).setWidth 32 =
      (fromLeBytes (loByte w + o.setWidth 8) (hiByte w)).setWidth 32 := by
  have bank : w.setWidth 32 &&& 0xFF0000#32 = 0#32 :=
    (fits_setWidth w (Nat.le_refl 16)).and_eq_zero (by decide)
  have same : (w.setWidth 32 : U32).setWidth 16 = w := by simp
  rw [bank, same, addLo_eq, BitVec.zero_or]

end MicroExecutor

namespace Narrow

def exec (m : Narrow) : Exec (Recorder SimpleBus) :=
  ⟨⟨m.dataLatch, m.ea.setWidth 32, m.ptr, m.op0, m.signedOffset8, m.action⟩, m.ctx,
    ⟨⟨m.ram⟩, m.log⟩⟩

def reading (m : Narrow) (addr : U16) (vda vpa : Bool) : Narrow :=
  { m with
    dataLatch := m.ram addr
    log := m.log ++ [.read (addr.setWidth 32) vda vpa (m.ram addr)] }

def fetching (m : Narrow) : Narrow :=
  { m.reading m.ctx.pc false true with ctx := { m.ctx with pc := m.ctx.pc + 1 } }

theorem hiByte_start : hiByte 0x7F#16 = 0#8 := by decide

variable (F : Flavor) (m : Narrow) (rest : List MicroOp)

theorem next_pc_eaLo : m.exec.next F (.read .pc .eaLo true) rest =
    ({ m.fetching with ea := fromLeBytes (m.ram m.ctx.pc) (hiByte m.ea) }.exec, rest) := by
  rw [Exec.next_reads F m.exec rest m.ctx.pc rfl rfl rfl]
  change (Exec.mk ⟨_, (m.ea.setWidth 32 &&& ~~~(0xFF#32)) ||| (m.ram m.ctx.pc).setWidth 32,
    _, _, _, _⟩ _ _, _) = _
  rw [replace_lo32]
  rfl

theorem next_pc_eaHi : m.exec.next F (.read .pc .eaHi true) rest =
    ({ m.fetching with ea := fromLeBytes (loByte m.ea) (m.ram m.ctx.pc) }.exec, rest) := by
  rw [Exec.next_reads F m.exec rest m.ctx.pc rfl rfl rfl]
  change (Exec.mk ⟨_, (m.ea.setWidth 32 &&& ~~~(0xFF00#32)) ||| ((m.ram m.ctx.pc).setWidth 32 <<< 8),
    _, _, _, _⟩ _ _, _) = _
  rw [replace_hi32]
  rfl

theorem next_pc_ptrLo : m.exec.next F (.read .pc .ptrLo true) rest =
    ({ m.fetching with ptr := fromLeBytes (m.ram m.ctx.pc) (hiByte m.ptr) }.exec, rest) := by
  rw [Exec.next_reads F m.exec rest m.ctx.pc rfl rfl rfl]
  change (Exec.mk ⟨_, _, (m.ptr &&& 0xFF00#16) ||| (m.ram m.ctx.pc).setWidth 16, _, _, _⟩ _ _, _) = _
  rw [replace_lo]
  rfl

theorem eaLo_addr : m.exec.scratch.address m.exec.ctx .eaLo =
    ((loByte m.ea).setWidth 16).setWidth 32 := mask_lo32 m.ea

theorem ptrLo_addr : m.exec.scratch.address m.exec.ctx .ptrLo =
    ((loByte m.ptr).setWidth 16).setWidth 32 := by
  change (m.ptr &&& 0xFF#16).setWidth 32 = _
  rw [mask_lo]

theorem next_eaLo_offset (offset : OffsetType) :
    m.exec.next F (.readAndOffset .eaLo offset) rest =
      ({ m.reading ((loByte m.ea).setWidth 16) true false with
        ea := fromLeBytes (loByte m.ea + (m.ctx.offset offset).setWidth 8) (hiByte m.ea) }.exec,
        rest) := by
  rw [Exec.next_reads F m.exec rest _ (eaLo_addr m) rfl rfl]
  change (Exec.mk ⟨_, (m.ea.setWidth 32 &&& 0xFF0000#32) |||
    (MicroExecutor.addLo ((m.ea.setWidth 32 : U32).setWidth 16) _).setWidth 32, _, _, _, _⟩ _ _, _) = _
  rw [MicroExecutor.addLo32_eq]
  rfl

theorem next_ptrLo_offset (offset : OffsetType) :
    m.exec.next F (.readAndOffset .ptrLo offset) rest =
      ({ m.reading ((loByte m.ptr).setWidth 16) true false with
        ptr := fromLeBytes (loByte m.ptr + (m.ctx.offset offset).setWidth 8) (hiByte m.ptr) }.exec,
        rest) := by
  rw [Exec.next_reads F m.exec rest _ (ptrLo_addr m) rfl rfl]
  change (Exec.mk ⟨_, _, MicroExecutor.addLo m.ptr _, _, _, _⟩ _ _, _) = _
  rw [MicroExecutor.addLo_eq]
  rfl

theorem next_ptrLo_eaLo : m.exec.next F (.read .ptrLo .eaLo true) rest =
    ({ m.reading ((loByte m.ptr).setWidth 16) true false with
      ea := fromLeBytes (m.ram ((loByte m.ptr).setWidth 16)) (hiByte m.ea)
      ptr := fromLeBytes (loByte m.ptr + 1) (hiByte m.ptr) }.exec, rest) := by
  rw [Exec.next_reads F m.exec rest _ (ptrLo_addr m) rfl rfl]
  change (Exec.mk ⟨_, (m.ea.setWidth 32 &&& ~~~(0xFF#32)) |||
    (m.ram ((loByte m.ptr).setWidth 16)).setWidth 32, MicroExecutor.addLo m.ptr 1, _, _, _⟩ _ _, _) = _
  rw [replace_lo32, MicroExecutor.addLo_eq]
  rfl

theorem next_ptrLo_eaHi : m.exec.next F (.read .ptrLo .eaHi false) rest =
    ({ m.reading ((loByte m.ptr).setWidth 16) true false with
      ea := fromLeBytes (loByte m.ea) (m.ram ((loByte m.ptr).setWidth 16)) }.exec, rest) := by
  rw [Exec.next_reads F m.exec rest _ (ptrLo_addr m) rfl rfl]
  change (Exec.mk ⟨_, (m.ea.setWidth 32 &&& ~~~(0xFF00#32)) |||
    ((m.ram ((loByte m.ptr).setWidth 16)).setWidth 32 <<< 8), _, _, _, _⟩ _ _, _) = _
  rw [replace_hi32]
  rfl

end Narrow

end Rs65x
