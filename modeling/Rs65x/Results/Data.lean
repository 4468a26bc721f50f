import Rs65x.Proof.Instruction

/-!
# Operands in memory
-/

namespace Rs65x
open Fallible Machine

def Mnemonic.readsData : Mnemonic → Bool
  | .lda | .ldx | .ldy | .and | .eor | .ora | .adc | .sbc | .cmp | .cpx | .cpy | .bit
  | .lax | .las | .alr | .anc | .ane | .arr | .lxa | .sbx | .usbc => true
  | _ => false

def Mnemonic.storesData : Mnemonic → Bool
  | .sta | .stx | .sty | .stz | .sax => true
  | _ => false

def Instruction.dataModes (i : Instruction) : Bool :=
  (!i.mnemonic.readsData ||
    i.memoryAction = .read && (i.addressMode.isMemory || i.addressMode = .noMemory .immediate)) &&
  (!i.mnemonic.storesData || i.addressMode.isMemory)

set_option maxRecDepth 20000 in
theorem Variant.decode_dataModes (v : Variant) (op : U8) : (v.decode op).dataModes :=
  OpcodeTable.decode_form (fun i _ => i.dataModes) _ op rfl (by decide)

theorem Variant.decode_readsData (v : Variant) (op : U8)
    (reads : (v.decode op).mnemonic.readsData) : (v.decode op).memoryAction = .read ∧
      ((v.decode op).addressMode.isMemory ∨ (v.decode op).addressMode = .noMemory .immediate) := by
  have modes := v.decode_dataModes op
  simp only [Instruction.dataModes, reads, Bool.not_true, Bool.false_or, Bool.and_eq_true,
    Bool.or_eq_true, decide_eq_true_eq] at modes
  exact modes.1

theorem Variant.decode_storesData (v : Variant) (op : U8)
    (stores : (v.decode op).mnemonic.storesData) : (v.decode op).addressMode.isMemory := by
  have modes := v.decode_dataModes op
  simp only [Instruction.dataModes, stores, Bool.not_true, Bool.false_or, Bool.and_eq_true] at modes
  exact modes.2

namespace Cpu6502

section
variable {v : Variant} {prof : Profile} {cpu : Cpu6502} {first : Lines} {s : Arch}
  {lines : Nat → Lines}

theorem reads_operand (drained : cpu.ucycs.Drained)
    (fetch : (cpu.step v.flavor prof first (⟨⟨s.ram⟩, []⟩ : Recorder SimpleBus)).map (·.1) =
      .ok .opcodeFetch)
    (start : cpu.arch s.ram = s) (rdy : ∀ n, (lines n).rdy = true)
    (reads : (v.decode s.opcode).mnemonic.readsData) :
    let i := v.decode s.opcode
    ∃ n t, ∃ c : Cpu6502, Executes v prof (cpu, ⟨⟨s.ram⟩, []⟩) first lines n t ∧
      c.arch s.ram = { s with pc := s.pc + i.addressMode.length } ∧ c.currentInst = some i ∧
      c.scratch.op0 = s.ram (s.effectiveAddress i.addressMode) ∧
      c.finishRead v.flavor prof i.mnemonic = .ok (c.finished v.flavor i) ∧
      t.1.arch = (c.finished v.flavor i).arch ∧ t.2.bus = ⟨s.ram⟩ ∧ Access.writes t.2.log = [] := by
  intro i
  obtain ⟨read, operand⟩ := v.decode_readsData s.opcode reads
  obtain ⟨n, e, turns, loaded, -⟩ := Exec.turns_operand v s s.opcode [s.opcodeRead] read operand
  obtain ⟨m, t, c, run, -, at_end, regs, -, bus, writes⟩ :=
    executes drained fetch start (v.emission_operand s.opcode operand) turns rdy
  have scratch : c.scratch = e.scratch := congrArg Exec.scratch at_end.exec
  refine ⟨m, t, c, run, ?_, at_end.inst, scratch ▸ loaded.op0,
    finished_read _ at_end.inst read operand prof, regs, bus.trans loaded.bus, ?_⟩
  · rw [at_end.arch, Exec.arch, loaded.ctx]
    rfl
  · exact writes.trans (loaded.writes.trans (Access.writes_read [] _ _ _ _))

theorem writes_operand (drained : cpu.ucycs.Drained)
    (fetch : (cpu.step v.flavor prof first (⟨⟨s.ram⟩, []⟩ : Recorder SimpleBus)).map (·.1) =
      .ok .opcodeFetch)
    (start : cpu.arch s.ram = s) (rdy : ∀ n, (lines n).rdy = true)
    (memory : (v.decode s.opcode).addressMode.isMemory) {value : U8}
    (stored : (v.decode s.opcode).mnemonic.stored s.a s.x s.y s.p = some value) :
    let i := v.decode s.opcode
    let addr := s.effectiveAddress i.addressMode
    ∃ n t, Executes v prof (cpu, ⟨⟨s.ram⟩, []⟩) first lines n t ∧
      t.1.arch s.ram = { s with pc := s.pc + i.addressMode.length } ∧
      t.2.bus = ⟨Function.update s.ram addr value⟩ ∧ Access.writes t.2.log = [(addr, value)] := by
  intro i addr
  obtain ⟨n, e, turns, ctx, update, written, -⟩ :=
    Exec.turns_write v s s.opcode [s.opcodeRead] memory stored
  obtain ⟨m, t, c, run, -, at_end, regs, -, bus, writes⟩ :=
    executes drained fetch start (v.emission_operand s.opcode (.inl memory)) turns rdy
  have write : i.memoryAction ≠ .read := by
    rw [v.decode_action, Exec.stored_action stored]
    decide
  refine ⟨m, t, run, ?_, bus.trans update, writes.trans ?_⟩
  · rw [regs, finished_write _ c write memory, at_end.arch, Exec.arch, ctx]
    rfl
  · rw [written, ← List.nil_append [s.opcodeRead]]
    exact congrArg (· ++ [(addr, value)]) (Access.writes_read [] _ _ _ _)

end

/-- A load, ALU operation, comparison or BIT is handed the byte at its effective address, and a
store writes its byte there, once. -/
theorem data_addressing {v : Variant} {prof : Profile} {cpu : Cpu6502} {ram : U16 → U8}
    {first : Lines} {lines : Nat → Lines} (drained : cpu.ucycs.Drained)
    (fetch : (cpu.step v.flavor prof first (⟨⟨ram⟩, []⟩ : Recorder SimpleBus)).map (·.1) =
      .ok .opcodeFetch)
    (rdy : ∀ n, (lines n).rdy = true) :
    let i := v.decode (ram cpu.pc)
    let addr := (cpu.arch ram).effectiveAddress i.addressMode
    (i.mnemonic.readsData → ∃ n t, ∃ c done : Cpu6502,
      Executes v prof (cpu, ⟨⟨ram⟩, []⟩) first lines n t ∧
      c.arch ram = { cpu.arch ram with pc := cpu.pc + i.addressMode.length } ∧
      c.currentInst = some i ∧ c.scratch.op0 = ram addr ∧
      c.finishRead v.flavor prof i.mnemonic = .ok done ∧ t.1.arch = done.arch ∧
      t.2.bus = ⟨ram⟩ ∧ Access.writes t.2.log = []) ∧
    (i.mnemonic.storesData → ∀ value, i.mnemonic.stored cpu.a cpu.x cpu.y cpu.p = some value →
      ∃ n t, Executes v prof (cpu, ⟨⟨ram⟩, []⟩) first lines n t ∧
        t.1.arch ram = { cpu.arch ram with pc := cpu.pc + i.addressMode.length } ∧
        t.2.bus = ⟨Function.update ram addr value⟩ ∧ Access.writes t.2.log = [(addr, value)]) := by
  intro i addr
  constructor
  · intro reads
    obtain ⟨n, t, c, run, rest⟩ := reads_operand (s := cpu.arch ram) drained fetch rfl rdy reads
    exact ⟨n, t, c, _, run, rest⟩
  · intro stores value stored
    exact writes_operand (s := cpu.arch ram) drained fetch rfl rdy
      (v.decode_storesData _ stores) stored

def ldaRam : U16 → U8 := fun addr =>
  -- LDA $10FF,X at $0200.
  if addr = 0x0200 then 0xBD else if addr = 0x0201 then 0xFF else if addr = 0x0202 then 0x10
  else if addr = 0x1100 then 0x42 else 0

def ldaCpu : Cpu6502 := { new with x := 1, pc := 0x0200 }

set_option maxRecDepth 20000 in
theorem data_addressing_lda : ∃ n t, ∃ c done : Cpu6502,
    Executes .rockwell65C02 .debug (ldaCpu, ⟨⟨ldaRam⟩, []⟩) Lines.none (fun _ => Lines.none) n t ∧
    c.scratch.op0 = 0x42 ∧ c.finishRead (Variant.flavor .rockwell65C02) .debug .lda = .ok done ∧
    t.1.arch = done.arch := by
  have fetch : (ldaCpu.step (Variant.flavor .rockwell65C02) .debug Lines.none
      (⟨⟨ldaRam⟩, []⟩ : Recorder SimpleBus)).map (·.1) = .ok .opcodeFetch :=
    fetches_first ⟨rfl, rfl⟩ rfl rfl _ _
  have decoded : Variant.decode .rockwell65C02 (ldaRam ldaCpu.pc) = ⟨.lda, .absolute .x, .read⟩ := by
    decide
  obtain ⟨reads, -⟩ := @data_addressing .rockwell65C02 .debug ldaCpu ldaRam Lines.none
    (fun _ => Lines.none) ⟨rfl, rfl⟩ fetch fun _ => rfl
  rw [decoded] at reads
  obtain ⟨n, t, c, done, run, -, -, op0, finish, regs, -⟩ := reads rfl
  exact ⟨n, t, c, done, run, op0.trans (by decide), finish, regs⟩

/-! ## Read-modify-write -/

section
variable {v : Variant} {prof : Profile} {cpu : Cpu6502} {first : Lines} {s : Arch}
  {lines : Nat → Lines}

theorem modifies_operand (drained : cpu.ucycs.Drained)
    (fetch : (cpu.step v.flavor prof first (⟨⟨s.ram⟩, []⟩ : Recorder SimpleBus)).map (·.1) =
      .ok .opcodeFetch)
    (start : cpu.arch s.ram = s) (rdy : ∀ n, (lines n).rdy = true)
    (memory : (v.decode s.opcode).addressMode.isMemory)
    (modify : (v.decode s.opcode).memoryAction = .readModifyWrite) :
    let i := v.decode s.opcode
    let addr := s.effectiveAddress i.addressMode
    let r := i.mnemonic.modify v.flavor.decimal s.a s.p (s.ram addr)
    ∃ n t, Executes v prof (cpu, ⟨⟨s.ram⟩, []⟩) first lines n t ∧
      t.1.arch s.ram = { s with a := r.a, p := r.p, pc := s.pc + i.addressMode.length } ∧
      t.2.bus = ⟨Function.update s.ram addr r.value⟩ ∧
      Access.writes t.2.log =
        (if v.flavor.rmwDummyWrite then [(addr, s.ram addr)] else []) ++ [(addr, r.value)] := by
  intro i addr r
  obtain ⟨n, e, turns, ctx, update, written, -⟩ :=
    Exec.turns_modify v s s.opcode [s.opcodeRead] memory modify
  obtain ⟨m, t, c, run, -, at_end, regs, -, bus, writes⟩ :=
    executes drained fetch start (v.emission_operand s.opcode (.inl memory)) turns rdy
  have write : i.memoryAction ≠ .read := by
    rw [modify]
    decide
  refine ⟨m, t, run, ?_, bus.trans update, writes.trans ?_⟩
  · rw [regs, finished_write _ c write memory, at_end.arch, Exec.arch, ctx]
    rfl
  · have none : Access.writes [s.opcodeRead] = [] := Access.writes_read [] _ _ _ _
    rw [written, none, List.nil_append]

end

/-- A read-modify-write instruction replaces the byte at its effective address by the result of
one application. The NMOS cores write the old byte back first. -/
theorem read_modify_write {v : Variant} {prof : Profile} {cpu : Cpu6502} {ram : U16 → U8}
    {first : Lines} {lines : Nat → Lines} (drained : cpu.ucycs.Drained)
    (fetch : (cpu.step v.flavor prof first (⟨⟨ram⟩, []⟩ : Recorder SimpleBus)).map (·.1) =
      .ok .opcodeFetch)
    (rdy : ∀ n, (lines n).rdy = true)
    (memory : (v.decode (ram cpu.pc)).addressMode.isMemory)
    (modify : (v.decode (ram cpu.pc)).memoryAction = .readModifyWrite) :
    let i := v.decode (ram cpu.pc)
    let addr := (cpu.arch ram).effectiveAddress i.addressMode
    let r := i.mnemonic.modify v.flavor.decimal cpu.a cpu.p (ram addr)
    ∃ n t, Executes v prof (cpu, ⟨⟨ram⟩, []⟩) first lines n t ∧
      t.1.arch ram =
        { cpu.arch ram with a := r.a, p := r.p, pc := cpu.pc + i.addressMode.length } ∧
      t.2.bus = ⟨Function.update ram addr r.value⟩ ∧
      Access.writes t.2.log =
        (if v = .nmos6502 ∨ v = .nes then [(addr, ram addr)] else []) ++ [(addr, r.value)] := by
  have dummy : (v = .nmos6502 ∨ v = .nes) ↔ v.flavor.rmwDummyWrite = true := by cases v <;> decide
  simp only [dummy]
  exact modifies_operand (s := cpu.arch ram) drained fetch rfl rdy memory modify

def rorRam : U16 → U8 := fun addr =>
  -- ROR $10FF,X at $0200.
  if addr = 0x0200 then 0x7E else if addr = 0x0201 then 0xFF else if addr = 0x0202 then 0x10
  else if addr = 0x1100 then 0x43 else 0

set_option maxRecDepth 20000 in
theorem read_modify_write_ror : ∃ n t,
    Executes .nmos6502 .debug (ldaCpu, ⟨⟨rorRam⟩, []⟩) Lines.none (fun _ => Lines.none) n t ∧
    t.2.bus = ⟨Function.update rorRam 0x1100 0x21⟩ ∧
    Access.writes t.2.log = [(0x1100, 0x43), (0x1100, 0x21)] := by
  have fetch : (ldaCpu.step (Variant.flavor .nmos6502) .debug Lines.none
      (⟨⟨rorRam⟩, []⟩ : Recorder SimpleBus)).map (·.1) = .ok .opcodeFetch :=
    fetches_first ⟨rfl, rfl⟩ rfl rfl _ _
  have decoded : Variant.decode .nmos6502 (rorRam ldaCpu.pc) =
      ⟨.ror, .absolute .x, .readModifyWrite⟩ := by decide
  obtain ⟨n, t, run, -, bus, writes⟩ := @read_modify_write .nmos6502 .debug ldaCpu rorRam Lines.none
    (fun _ => Lines.none) ⟨rfl, rfl⟩ fetch (fun _ => rfl) (by rw [decoded]; rfl) (by rw [decoded])
  rw [decoded] at bus writes
  have addr : (ldaCpu.arch rorRam).effectiveAddress (.absolute .x) = 0x1100 := by decide
  rw [addr] at bus writes
  exact ⟨n, t, run, bus, writes⟩

end Cpu6502

end Rs65x
