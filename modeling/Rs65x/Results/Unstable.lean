import Rs65x.Proof.Trail

/-!
# Unstable stores
-/

namespace Rs65x
open Fallible Machine Words Worklist

namespace Arch
variable (s : Arch) (i : Instruction)

/-- What SHA, TAS, SHX and SHY combine with the high byte of the base address. -/
def unstableRegister : U8 :=
  match i.mnemonic with
  | .shx => s.x
  | .shy => s.y
  | _ => s.a &&& s.x

def unstableValue : U8 := s.unstableRegister i &&& (hiByte (s.baseAddress i.addressMode) + 1)

def unstableAddress : U16 :=
  if s.crosses i.addressMode then
    fromLeBytes (loByte (s.effectiveAddress i.addressMode)) (s.unstableValue i)
  else s.effectiveAddress i.addressMode

end Arch

set_option maxRecDepth 20000 in
theorem Variant.decode_unstable (v : Variant) (op : U8)
    (unstable : (v.decode op).mnemonic.isUnstable) :
    ((v.decode op).addressMode = .absolute .y ∨ (v.decode op).addressMode = .dpIndirect .y ∨
      (v.decode op).addressMode = .absolute .x) ∧
    (v.decode op).addressMode.wordIndex = if (v.decode op).mnemonic = .shy then .x else .y := by
  refine OpcodeTable.decode_induction (P := fun i _ => i.mnemonic.isUnstable →
    (i.addressMode = .absolute .y ∨ i.addressMode = .dpIndirect .y ∨ i.addressMode = .absolute .x) ∧
    i.addressMode.wordIndex = if i.mnemonic = .shy then .x else .y) _ op
    (fun bad => by cases bad) ?_ unstable
  intro e mem _ unstable
  have all : entries.all fun e => !e.instruction.mnemonic.isUnstable ||
      (e.instruction.addressMode = .absolute .y ∨ e.instruction.addressMode = .dpIndirect .y ∨
        e.instruction.addressMode = .absolute .x) ∧
      e.instruction.addressMode.wordIndex =
        if e.instruction.mnemonic = .shy then .x else .y := by
    decide
  have checked := List.all_eq_true.1 all e mem
  simpa [unstable] using checked

theorem hPlusOneNonsense_eq {ea : U32} {base : U16} {offset : U8}
    (sum : ea.setWidth 16 = base + offset.setWidth 16) (a opReg : U8) :
    hPlusOneNonsense ea a offset opReg =
      (((if 256 ≤ (loByte base).toNat + offset.toNat then
        fromLeBytes (loByte base + offset) (a &&& opReg &&& (hiByte base + 1))
        else base + offset.setWidth 16 : U16)).setWidth 32, a &&& opReg &&& (hiByte base + 1)) := by
  have low : ea.setWidth 8 = loByte (base + offset.setWidth 16) := by
    rw [← sum, loByte, BitVec.setWidth_setWidth_of_le _ (by omega)]
  have high : (ea >>> 8).setWidth 8 = hiByte (base + offset.setWidth 16) := by
    rw [← sum]
    ext j lt
    simp [hiByte, BitVec.getElem_setWidth, BitVec.getLsbD_ushiftRight, show 8 + j < 16 by omega]
  have word (hi : U8) : (hi.setWidth 16 <<< 8) ||| (loByte (base + offset.setWidth 16)).setWidth 16 =
      fromLeBytes (loByte (base + offset.setWidth 16)) hi := rfl
  simp only [hPlusOneNonsense, low, high, word, decide_eq_true_eq, loByte_add_lt, hiByte_add]
  by_cases carry : 256 ≤ (loByte base).toNat + offset.toNat
  · simp [carry, loByte_add]
  · have same := fromLeBytes_halves (base + offset.setWidth 16)
    have high : hiByte base + 0 - 0 = hiByte base + 0 := BitVec.sub_zero _
    rw [hiByte_add, if_neg carry] at same
    simp only [if_neg carry, high, same]
    rw [show hiByte base + 0 = hiByte base from BitVec.add_zero _]

theorem aluPrepareStore_unstable {e : Exec (Recorder SimpleBus)} {s : Arch} {op : U8}
    {log : List Access} {i : Instruction} (ready : e.Ready s i op log)
    (write : i.memoryAction = .write) (unstable : i.mnemonic.isUnstable)
    (index : i.addressMode.wordIndex = if i.mnemonic = .shy then .x else .y) :
    e.ctx.aluPrepareStore e.scratch =
      ({ e.ctx with sp := if i.mnemonic = .tas then s.a &&& s.x else s.s },
        { e.scratch with
          ea := (s.unstableAddress i).setWidth 32
          dataLatch := s.unstableValue i }) := by
  have sum := ready.ea
  rw [s.effectiveAddress_eq] at sum
  have nonsense {a offset opReg : U8} (same : s.index i.addressMode.wordIndex = offset)
      (register : a &&& opReg = s.unstableRegister i) :
      hPlusOneNonsense e.scratch.ea a offset opReg =
        ((s.unstableAddress i).setWidth 32, s.unstableValue i) := by
    rw [same] at sum
    rw [hPlusOneNonsense_eq sum, register, Arch.unstableAddress, Arch.crosses, same,
      s.effectiveAddress_eq, same, loByte_add]
    simp only [decide_eq_true_eq]
    rfl
  have whole (register : U8) : 255#8 &&& register = register := BitVec.allOnes_and
  have action : e.scratch.memoryAction ≠ .readModifyWrite := by simp [ready.action, write]
  rw [MicroCtx6502.aluPrepareStore, if_neg action, ready.ctx]
  cases mnemonic : i.mnemonic with
  | sha | tas =>
      have eq : hPlusOneNonsense e.scratch.ea s.a s.y s.x = _ :=
        nonsense (by rw [index, mnemonic]; rfl) (by rw [Arch.unstableRegister, mnemonic])
      simp [Arch.ctx, mnemonic, eq]
  | shx =>
      have eq : hPlusOneNonsense e.scratch.ea 255#8 s.y s.x = _ :=
        nonsense (by rw [index, mnemonic]; rfl) (by rw [whole, Arch.unstableRegister, mnemonic])
      simp [Arch.ctx, mnemonic, eq]
  | shy =>
      have eq : hPlusOneNonsense e.scratch.ea 255#8 s.x s.y = _ :=
        nonsense (by rw [index, mnemonic]; rfl) (by rw [whole, Arch.unstableRegister, mnemonic])
      simp [Arch.ctx, mnemonic, eq]
  | _ => simp [mnemonic, Mnemonic.isUnstable] at unstable

theorem Exec.turns_unstable (v : Variant) (s : Arch) (op : U8) (log : List Access)
    (unstable : (v.decode op).mnemonic.isUnstable) :
    let i := v.decode op
    (v.decode op).addressMode.isMemory ∧ (v.decode op).memoryAction = .write ∧
    ∃ n e, Exec.Turns v.flavor (s.opening i op log).exec (v.emission op) n e [] ∧
      e.ctx = { s.ctx i op i.addressMode.length with
        sp := if i.mnemonic = .tas then s.a &&& s.x else s.s } ∧
      e.bus.bus = ⟨Function.update s.ram (s.unstableAddress i) (s.unstableValue i)⟩ ∧
      Access.writes e.bus.log =
        Access.writes log ++ [(s.unstableAddress i, s.unstableValue i)] := by
  obtain ⟨modes, index⟩ := v.decode_unstable op unstable
  have memory : (v.decode op).addressMode.isMemory := by
    rcases modes with eq | eq | eq <;> rw [eq] <;> rfl
  have write : (v.decode op).memoryAction = .write := by
    rw [v.decode_action]
    revert unstable
    cases (v.decode op).mnemonic <;> first
      | exact fun _ => rfl
      | exact fun bad => absurd bad (by decide)
  obtain ⟨k, e, dummies, turns, ready, -⟩ := turns_store v s op log memory write
  have last := next_prepared v.flavor (aluPrepareStore_unstable ready write unstable index) []
  have address : ((s.unstableAddress (v.decode op)).setWidth 32 : U32).setWidth 16 =
      s.unstableAddress (v.decode op) := by
    simp
  refine ⟨memory, write, _, _, turns.trans (.single (fits rfl) last), ?_, ?_, ?_⟩
  · rw [← ready.ctx]
    rfl
  · change SimpleBus.mk (Function.update e.bus.bus.ram
      (((s.unstableAddress (v.decode op)).setWidth 32 : U32).setWidth 16) _) = _
    rw [address, ready.bus]
  · rw [← ready.writes]
    refine (Access.writes_write _ _ _ _ _).trans ?_
    rw [address]

namespace Cpu6502

section
variable {v : Variant} {prof : Profile} {cpu : Cpu6502} {ram : U16 → U8} {first : Lines}
  {lines : Nat → Lines}

/-- An unstable store writes once and changes no register but the S of TAS. -/
theorem unstable_stores (drained : cpu.ucycs.Drained)
    (fetch : (cpu.step v.flavor prof first (⟨⟨ram⟩, []⟩ : Recorder SimpleBus)).map (·.1) =
      .ok .opcodeFetch)
    (rdy : ∀ n, (lines n).rdy = true)
    (unstable : (v.decode (ram cpu.pc)).mnemonic.isUnstable) :
    let s := cpu.arch ram
    let i := v.decode (ram cpu.pc)
    ∃ n t, Executes v prof (cpu, ⟨⟨ram⟩, []⟩) first lines n t ∧
      t.1.arch t.2.bus.ram = { s with
        s := if i.mnemonic = .tas then s.a &&& s.x else s.s
        pc := s.pc + i.addressMode.length
        ram := Function.update ram (s.unstableAddress i) (s.unstableValue i) } ∧
      Access.writes t.2.log = [(s.unstableAddress i, s.unstableValue i)] := by
  intro s i
  obtain ⟨memory, write, k, e, turns, ctx, ram', writes⟩ :=
    Exec.turns_unstable v s s.opcode [s.opcodeRead] unstable
  obtain ⟨n, t, c, executes, -, executing, regs, -, bus, writes'⟩ :=
    executes (s := s) drained fetch rfl (v.emission_operand s.opcode (.inl memory))
      turns rdy
  have finished : c.finished v.flavor (v.decode s.opcode) = c :=
    finished_write v.flavor c (by rw [write]; decide) memory
  refine ⟨n, t, executes, ?_, ?_⟩
  · rw [regs, bus, finished, executing.arch, Exec.arch, ctx, ram']
    rfl
  · exact writes'.trans writes

end

def shyRam : U16 → U8 := fun addr =>
  -- SHY $10FF,X at $0200.
  if addr = 0x0200 then 0x9C else if addr = 0x0201 then 0xFF else if addr = 0x0202 then 0x10 else 0

def shyCpu : Cpu6502 := { new with x := 1, y := 0x30, pc := 0x0200 }

set_option maxRecDepth 20000 in
theorem unstable_stores_shy : ∃ n t,
    Executes .nmos6502 .debug (shyCpu, ⟨⟨shyRam⟩, []⟩) Lines.none (fun _ => Lines.none) n t ∧
    Access.writes t.2.log = [(0x1000, 0x10)] := by
  have fetch : (shyCpu.step (Variant.flavor .nmos6502) .debug Lines.none
      (⟨⟨shyRam⟩, []⟩ : Recorder SimpleBus)).map (·.1) = .ok .opcodeFetch :=
    fetches_first ⟨rfl, rfl⟩ rfl rfl _ _
  have decoded : Variant.decode .nmos6502 (shyRam shyCpu.pc) = ⟨.shy, .absolute .x, .write⟩ := by
    decide
  have stores := @unstable_stores .nmos6502 .debug shyCpu shyRam Lines.none (fun _ => Lines.none)
    ⟨rfl, rfl⟩ fetch fun _ => rfl
  rw [decoded] at stores
  obtain ⟨n, t, run, -, writes⟩ := stores rfl
  exact ⟨n, t, run, writes.trans (by decide)⟩

end Cpu6502

end Rs65x
