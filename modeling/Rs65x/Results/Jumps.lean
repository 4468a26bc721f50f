import Rs65x.Proof.Perform
import Rs65x.Proof.Reach

/-!
# Indirect jumps
-/

namespace Rs65x
open Fallible Machine Words

def Instruction.indirectForm (i : Instruction) (op : U8) : Bool :=
  match i.addressMode with
  | .jump .jmpIndirect => i.mnemonic = .jmp && op ≠ 0x7C
  | .jump .jmpAbsoluteX => i.mnemonic = .jmp
  | _ => true

set_option maxRecDepth 20000 in
theorem Variant.decode_indirect (v : Variant) (op : U8) : (v.decode op).indirectForm op :=
  OpcodeTable.decode_form (fun i op => i.indirectForm op) _ op rfl (by decide)

theorem sameByte_eq (p : U16) : (p &&& 0xFF00) ||| ((p + 1) &&& 0xFF) =
    fromLeBytes (loByte p + 1) (hiByte p) := by
  have low : (p + 1) &&& 0xFF#16 = (loByte (p + 1)).setWidth 16 := mask_lo _
  have carry : loByte (p + 1) = loByte p + 1 := loByte_add p 1
  exact (congrArg _ low).trans ((replace_lo p _).trans (by rw [carry]))

namespace Cpu6502

/-- The jump at PC takes so many steps to `target`, and changes nothing but PC. -/
def JumpsTo (v : Variant) (s : Cpu6502 × Recorder SimpleBus) (first : Lines) (lines : Nat → Lines)
    (steps : Nat) (target : U16) : Prop :=
  ∃ n t, Executes v .release s first lines n t ∧ n + 1 = steps ∧
    t.1.arch t.2.bus.ram = { s.1.arch s.2.bus.ram with pc := target } ∧
    Access.writes t.2.log = Access.writes s.2.log

section
variable {v : Variant} {s : Cpu6502 × Recorder SimpleBus} {first : Lines} {lines : Nat → Lines}
  {a : Arch}

theorem jumpsTo (drained : s.1.ucycs.Drained)
    (fetch : (s.1.step v.flavor .release first s.2).map (·.1) = .ok .opcodeFetch)
    (start : s.1.arch s.2.bus.ram = a) (rdy : ∀ n, (lines n).rdy = true) {type : JumpType}
    (mode : (v.decode a.opcode).addressMode = .jump type)
    (jmp : (v.decode a.opcode).mnemonic = .jmp) {n : Nat} {target : U16}
    {e : Exec (Recorder SimpleBus)}
    (turns : Exec.TurnsIn .release v.flavor (a.opened v s.2.log) (v.emission a.opcode) (n + 1) e [])
    (arch : e.arch = { a with pc := target })
    (writes : Access.writes e.bus.log = Access.writes (s.2.log ++ [a.opcodeRead])) :
    JumpsTo v s first lines (n + 2) target := by
  have isIdle : (v.decode a.opcode).mnemonic.isIdle := by rw [jmp]; rfl
  have completion (c : Cpu6502) : c.finished v.flavor (v.decode a.opcode) = c := by
    rw [c.finished_idle _ (.inl isIdle), completed, mode]
  obtain ⟨t, executes, regs, log⟩ := executes_turns drained fetch start completion
    (never_due _ (Arch.isIdle_not_arith isIdle)) turns rdy
  refine ⟨_, t, executes, rfl, ?_, ?_⟩
  · rw [regs, arch, start]
  · rw [log, writes]
    exact Access.writes_read _ _ _ _ _

/-- The pointer of an indirect jump is a word of memory, which wraps inside its page on the NMOS
cores; the index is added modulo 64K. -/
theorem indirect_jumps (drained : s.1.ucycs.Drained)
    (fetch : (s.1.step v.flavor .release first s.2).map (·.1) = .ok .opcodeFetch)
    (start : s.1.arch s.2.bus.ram = a) (rdy : ∀ n, (lines n).rdy = true) :
    let i := v.decode a.opcode
    let p := Arch.word a.ram (a.pc + 1)
    (i.addressMode = .jump .jmpIndirect →
      if v.isCmos then JumpsTo v s first lines 6 (fromLeBytes (a.ram p) (a.ram (p + 1)))
      else JumpsTo v s first lines 5
        (fromLeBytes (a.ram p) (a.ram ((p &&& 0xFF00) ||| ((p + 1) &&& 0xFF))))) ∧
    (i.addressMode = .jump .jmpAbsoluteX → JumpsTo v s first lines 6
      (fromLeBytes (a.ram (p + a.x.setWidth 16)) (a.ram (p + a.x.setWidth 16 + 1)))) := by
  intro i p
  have form := v.decode_indirect a.opcode
  constructor
  · intro mode
    obtain ⟨jmp, other⟩ : (v.decode a.opcode).mnemonic = .jmp ∧ a.opcode ≠ 0x7C := by
      simpa [Instruction.indirectForm, mode, i] using form
    split
    · next cmos =>
        have valid : v.flavor.invalidAddrRead = false := by cases v <;> first | rfl | cases cmos
        obtain ⟨e, turns, arch, writes⟩ := Exec.turns_jmpIndirect_cmos v a a.opcode
          (s.2.log ++ [a.opcodeRead]) mode rfl valid other
        exact jumpsTo drained fetch start rdy mode jmp (turns .release (.inl rfl)) arch writes
    · next nmos =>
        have invalid : v.flavor.invalidAddrRead = true := by cases v <;> first | rfl | cases nmos rfl
        obtain ⟨e, turns, arch, writes⟩ := Exec.turns_jmpIndirect_nmos v a a.opcode
          (s.2.log ++ [a.opcodeRead]) mode rfl invalid
        rw [sameByte_eq]
        exact jumpsTo drained fetch start rdy mode jmp (turns.anywhere .release) arch writes
  · intro mode
    have jmp : (v.decode a.opcode).mnemonic = .jmp := by
      simpa [Instruction.indirectForm, mode, i] using form
    obtain ⟨e, turns, arch, writes⟩ := Exec.turns_jmpAbsoluteX v a a.opcode
      (s.2.log ++ [a.opcodeRead]) mode rfl
    exact jumpsTo drained fetch start rdy mode jmp (turns.anywhere .release) arch writes

end

def topRam : U16 → U8 := fun addr =>
  -- JMP ($FFFF) at $0200.
  if addr = 0x0200 then 0x6C else if addr = 0x0201 then 0xFF else if addr = 0x0202 then 0xFF
  else if addr = 0xFFFF then 0x34 else if addr = 0 then 0x12 else 0

def topCpu : Cpu6502 := { new with pc := 0x0200 }

set_option maxRecDepth 20000 in
theorem indirect_jumps_top :
    JumpsTo .rockwell65C02 (topCpu, ⟨⟨topRam⟩, []⟩) Lines.none (fun _ => Lines.none) 6 0x1234 := by
  have fetch : (topCpu.step (Variant.flavor .rockwell65C02) .release Lines.none
      (⟨⟨topRam⟩, []⟩ : Recorder SimpleBus)).map (·.1) = .ok .opcodeFetch :=
    fetches_first ⟨rfl, rfl⟩ rfl rfl _ _
  have mode : (Variant.decode .rockwell65C02 (topCpu.arch topRam).opcode).addressMode =
      .jump .jmpIndirect := by
    decide
  have target : fromLeBytes (topRam (Arch.word topRam 0x0201)) (topRam (Arch.word topRam 0x0201 + 1)) =
      0x1234 := by
    decide
  have jumps := (@indirect_jumps .rockwell65C02 (topCpu, ⟨⟨topRam⟩, []⟩) Lines.none
    (fun _ => Lines.none) (topCpu.arch topRam) ⟨rfl, rfl⟩ fetch rfl fun _ => rfl).1 mode
  exact target ▸ jumps

end Cpu6502

end Rs65x
