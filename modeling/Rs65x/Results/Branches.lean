import Rs65x.Proof.Perform
import Rs65x.Proof.Reach

/-!
# Branches
-/

namespace Rs65x
open Fallible Machine Words

def Instruction.branchForm (i : Instruction) (op : U8) : Bool :=
  match i.addressMode with
  | .branch .relative => i.mnemonic.testedBit = none && (i.mnemonic = .bra || i.mnemonic.isBranch)
  | .branch .dpRelative =>
      i.mnemonic.testedBit.any fun (n, value) =>
        n < 8 && MicroCtx6502.branchBitInfo op = some (BitVec.ofNat 8 n, value)
  | .branch _ => false
  | _ => true

set_option maxRecDepth 20000 in
theorem Variant.decode_branch (v : Variant) (op : U8) : (v.decode op).branchForm op :=
  OpcodeTable.decode_form (fun i op => i.branchForm op) _ op rfl (by decide)

theorem flagSet_bit : ∀ n < 8, ∀ byte : U8,
    flagSet byte ((1 : U8) <<< n) = byte.getLsbD n := by
  decide

theorem aluBranch_branches (ctx : MicroCtx6502) (scratch : MicroExecutor) {type : BranchType}
    (mode : ctx.instruction.addressMode = .branch type)
    (form : ctx.instruction.branchForm ctx.opcode) : ctx.aluBranch .release scratch =
      .ok (ctx.instruction.mnemonic.branches ctx.status scratch.op0) := by
  rw [Instruction.branchForm, mode] at form
  cases type with
  | relative =>
      simp only [Bool.and_eq_true, Bool.or_eq_true, decide_eq_true_eq] at form
      obtain ⟨untested, which⟩ := form
      rw [MicroCtx6502.aluBranch, Mnemonic.branches, untested]
      cases mnemonic : ctx.instruction.mnemonic <;> rw [mnemonic] at which <;> first
        | rfl
        | simp [Mnemonic.isBranch] at which
  | dpRelative =>
      simp only [Option.any_eq_true, Bool.and_eq_true, decide_eq_true_eq] at form
      obtain ⟨⟨n, value⟩, tested, small, info⟩ := form
      have other : ctx.aluBranch .release scratch = do
          let mask ← plainShl .release 1 (BitVec.ofNat 8 n).toNat
          return flagSet scratch.op0 mask == value := by
        rw [MicroCtx6502.aluBranch]
        cases mnemonic : ctx.instruction.mnemonic <;> rw [mnemonic] at tested <;>
          cases tested <;> rw [info]
      have same : (BitVec.ofNat 8 n).toNat = n := Nat.mod_eq_of_lt (by omega)
      have bit := flagSet_bit n small scratch.op0
      rw [other, Mnemonic.branches, tested]
      have shift : plainShl .release (1 : U8) n = .ok (1 <<< n) := by
        have lt : n < 8 := small
        simp [plainShl, Nat.mod_eq_of_lt lt]
        rfl
      simp only [same, shift, ok_bind, ← bit]
      rfl
  | _ => cases form

theorem aluBranch_ctx (a : Arch) {i : Instruction} {op : U8} (length : U16) (scratch : MicroExecutor)
    {type : BranchType} (mode : i.addressMode = .branch type) (form : i.branchForm op) :
    (a.ctx i op length).aluBranch .release scratch =
      .ok (i.mnemonic.branches a.p scratch.op0) :=
  aluBranch_branches (a.ctx i op length) scratch mode form

theorem Mnemonic.branches_relative {i : Instruction} {op : U8}
    (mode : i.addressMode = .branch .relative) (form : i.branchForm op) (p byte byte' : U8) :
    i.mnemonic.branches p byte = i.mnemonic.branches p byte' := by
  simp only [Instruction.branchForm, mode, Bool.and_eq_true, decide_eq_true_eq] at form
  rw [Mnemonic.branches, Mnemonic.branches, form.1]

namespace Cpu6502

theorem finished_branch (F : Flavor) (c : Cpu6502) {i : Instruction} {op : U8} {type : BranchType}
    (mode : i.addressMode = .branch type) (form : i.branchForm op) :
    c.finished F i = c ∧ c.extraCycleDue F i = false := by
  have idle : c.finishRead F .release i.mnemonic = .ok c ∧ i.mnemonic ≠ .adc ∧ i.mnemonic ≠ .sbc := by
    rw [Instruction.branchForm, mode] at form
    cases mnemonic : i.mnemonic <;> rw [mnemonic] at form <;> first
      | exact ⟨rfl, by decide, by decide⟩
      | (cases type <;> simp [Mnemonic.testedBit, Mnemonic.isBranch] at form)
  refine ⟨?_, never_due F idle.2 c⟩
  have nothing : completed i c = c := by rw [completed, mode]
  rw [finished, finishInstruction_eq, idle.1, ite_self, ok_bind, get_ok, nothing]

section
variable {v : Variant} {prof : Profile} {s : Cpu6502 × Recorder SimpleBus} {first : Lines}
  {lines : Nat → Lines}

/-- A branch takes its documented number of steps to its target, or to the next instruction, and
changes nothing but PC. -/
theorem branches_documented (drained : s.1.ucycs.Drained)
    (fetch : (s.1.step v.flavor prof first s.2).map (·.1) = .ok .opcodeFetch) {a : Arch}
    (start : s.1.arch s.2.bus.ram = a) (rdy : ∀ n, (lines n).rdy = true) {type : BranchType}
    (mode : (v.decode a.opcode).addressMode = .branch type) :
    let i := v.decode a.opcode
    ∃ n t, Executes v prof s first lines n t ∧ n + 1 = a.branchCycles i ∧
      t.1.arch t.2.bus.ram =
        { a with pc := if a.branchTaken i then a.branchTarget i else a.branchFollowing i } ∧
      Access.writes t.2.log = Access.writes s.2.log := by
  intro i
  have form := v.decode_branch a.opcode
  have opened : Access.writes (s.2.log ++ [a.opcodeRead]) = Access.writes s.2.log :=
    Access.writes_read _ _ _ _ _
  obtain ⟨k, e, turns, count, arch, writes⟩ : ∃ k e,
      Exec.Turns v.flavor (a.opened v s.2.log) (v.emission a.opcode) k e [] ∧
      k + 1 = a.branchCycles i ∧ e.arch =
        { a with pc := if a.branchTaken i then a.branchTarget i else a.branchFollowing i } ∧
      Access.writes e.bus.log = Access.writes (s.2.log ++ [a.opcodeRead]) := by
    rw [Arch.branchCycles, Arch.branchTarget, Arch.branchFollowing]
    cases type with
    | relative =>
        have decides (scratch : MicroExecutor) :
            (a.ctx i a.opcode 2).aluBranch .release scratch = .ok (a.branchTaken i) := by
          rw [aluBranch_ctx a 2 scratch mode form, Arch.branchTaken]
          exact congrArg Except.ok (Mnemonic.branches_relative mode form _ _ _)
        obtain ⟨e, turns, arch, writes⟩ :=
          Exec.turns_branch v a a.opcode (s.2.log ++ [a.opcodeRead]) mode decides
        have short : Arch.branchPrefix i = 1 := if_neg (by rw [mode]; decide)
        rw [short, if_neg (by rw [mode]; decide), show (1 : U16) + 1 = 2 from rfl]
        exact ⟨_, e, turns, Nat.add_comm _ 2, arch, writes⟩
    | dpRelative =>
        have decides (scratch : MicroExecutor) (op0 : scratch.op0 = a.ram (a.operand.setWidth 16)) :
            (a.ctx i a.opcode 3).aluBranch .release scratch = .ok (a.branchTaken i) := by
          rw [aluBranch_ctx a 3 scratch mode form, Arch.branchTaken, op0]
        obtain ⟨e, turns, arch, writes⟩ :=
          Exec.turns_bitBranch v a a.opcode (s.2.log ++ [a.opcodeRead]) mode decides
        have long : Arch.branchPrefix i = 2 := if_pos mode
        rw [long, if_pos mode, show (2 : U16) + 1 = 3 from rfl]
        exact ⟨_, e, turns, Nat.add_comm _ 5, arch, writes⟩
    | _ => simp [Instruction.branchForm, mode] at form
  have idle := fun c => finished_branch v.flavor c mode form
  obtain ⟨t, executes, regs, log⟩ := executes_turns drained fetch start (fun c => (idle c).1)
    (fun c => (idle c).2) (turns.anywhere prof) rdy
  exact ⟨k, t, executes, count, regs.trans arch, by rw [log, writes, opened]⟩

end

def farRam : U16 → U8 :=
  -- BNE at $02FD to $030F.
  fun addr => if addr = 0x02FD then 0xD0 else if addr = 0x02FE then 0x10 else 0

def farCpu : Cpu6502 := { new with p := 0x20, pc := 0x02FD }

set_option maxRecDepth 20000 in
theorem branches_documented_bne : ∃ t,
    Executes .nes .debug (farCpu, ⟨⟨farRam⟩, []⟩) Lines.none (fun _ => Lines.none) 3 t ∧
    t.1.pc = 0x030F ∧ Access.writes t.2.log = [] := by
  have fetch : (farCpu.step (Variant.flavor .nes) .debug Lines.none
      (⟨⟨farRam⟩, []⟩ : Recorder SimpleBus)).map (·.1) = .ok .opcodeFetch :=
    fetches_first ⟨rfl, rfl⟩ rfl rfl _ _
  have decoded : Variant.decode .nes (farCpu.arch farRam).opcode =
      ⟨.bne, .branch .relative, .read⟩ := by
    decide
  obtain ⟨n, t, run, count, arch, writes⟩ :=
    @branches_documented .nes .debug (farCpu, ⟨⟨farRam⟩, []⟩) Lines.none (fun _ => Lines.none)
      ⟨rfl, rfl⟩ fetch (farCpu.arch farRam) rfl (fun _ => rfl) .relative (by rw [decoded])
  rw [decoded] at count arch
  have steps : (farCpu.arch farRam).branchCycles ⟨.bne, .branch .relative, .read⟩ = 3 + 1 := by
    decide
  cases Nat.succ.inj (count.trans steps)
  exact ⟨t, run, (congrArg Arch.pc arch).trans (by decide), writes⟩

end Cpu6502

end Rs65x
