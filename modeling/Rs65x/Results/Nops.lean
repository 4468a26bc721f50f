import Rs65x.Proof.Carries

/-!
# NOPs
-/

namespace Rs65x
open Fallible Machine Worklist

def AddressMode.bytes : AddressMode → U16
  | .cmosNop bytes _ => BitVec.ofNat 16 bytes
  | mode => mode.length

def pcReads (moves : List Bool) : List MicroOp := moves.map (MicroOp.read .pc .none)

def nopMoves (bytes cycles : Nat) : List Bool :=
  if bytes = 3 ∧ cycles = 3 then [true, true]
  else (List.range' 0 (cycles - 1)).map fun i => i = 0 || i = 2

theorem cmosNopReads_eq (i n : Nat) :
    cmosNopReads i n = pcReads ((List.range' i n).map fun i => i = 0 || i = 2) := by
  induction n generalizing i with
  | zero => rfl
  | succ n ih =>
      rw [cmosNopReads, ih, List.range'_succ]
      rfl

def Instruction.nopForm (i : Instruction) : Bool :=
  i.mnemonic ≠ .nop || match i.addressMode with
    | .noMemory _ | .directPage _ | .absolute _ => true
    | .cmosNop bytes cycles =>
        (nopMoves bytes cycles).length + 1 = cycles && (nopMoves bytes cycles).count true + 1 = bytes
    | _ => false

set_option maxRecDepth 20000 in
theorem Variant.decode_nop (v : Variant) (op : U8) : (v.decode op).nopForm :=
  OpcodeTable.decode_form (fun i _ => i.nopForm) _ op rfl (by decide)

theorem Variant.emission_cmosNop (v : Variant) {op : U8} {bytes cycles : Nat}
    (mode : (v.decode op).addressMode = .cmosNop bytes cycles) :
    v.emission op = pcReads (nopMoves bytes cycles) := by
  obtain ⟨-, -, -, emits⟩ := v.emission_spec op
  replace emits := emits .release
  rw [mode] at emits
  rw [nopMoves]
  cases v with
  | nmos6502 | nes => cases emits
  | wdc65C02 | synertek65C02 | rockwell65C02 =>
      have reads : (if bytes = 3 ∧ cycles = 3 then (.ok (pcReads [true, true]) : Emission)
        else .ok (cmosNopReads 0 (cycles - 1))) = _ := emits
      by_cases short : bytes = 3 ∧ cycles = 3
      · rw [if_pos short] at reads ⊢
        exact (Except.ok.inj reads).symm
      · rw [if_neg short] at reads ⊢
        rw [← cmosNopReads_eq]
        exact (Except.ok.inj reads).symm

namespace Exec

def pcRead (e : Exec (Recorder SimpleBus)) (move : Bool) : Exec (Recorder SimpleBus) :=
  let u : MicroOp := .read .pc .none move
  if move then (e.loading u e.ctx.pc).addTo .pc 1 else e.loading u e.ctx.pc

theorem turns_pcReads (F : Flavor) (moves : List Bool) (e : Exec (Recorder SimpleBus)) :
    ∃ e', Exec.Turns F e (pcReads moves) moves.length e' [] ∧
      e'.arch = { e.arch with pc := e.ctx.pc + BitVec.ofNat 16 (moves.count true) } ∧
      Access.writes e'.bus.log = Access.writes e.bus.log := by
  induction moves generalizing e with
  | nil => exact ⟨e, .refl, by simp [arch], rfl⟩
  | cons move moves ih =>
      let u : MicroOp := .read .pc .none move
      have first : e.next F u (pcReads moves) = (e.pcRead move, pcReads moves) := by
        rw [next_reads F e (pcReads moves) e.ctx.pc rfl rfl rfl]
        cases move <;> rfl
      obtain ⟨e', turns, arch', writes⟩ := ih (e.pcRead move)
      refine ⟨e', .step (fits rfl) first turns, ?_, ?_⟩
      · rw [arch']
        cases move with
        | false => rw [List.count_cons_of_ne (by decide)]; rfl
        | true =>
            rw [List.count_cons_self, Nat.add_comm, BitVec.ofNat_add, ← BitVec.add_assoc]
            rfl
      · rw [writes]
        cases move <;> exact Access.writes_read _ _ _ _ _

end Exec

namespace Arch

def skipped (a : Arch) (mode : AddressMode) : Arch := { a with pc := a.pc + mode.bytes }

theorem nop_turns (v : Variant) {a : Arch} (nop : (v.decode a.opcode).mnemonic = .nop)
    (log : List Access) : ∃ n e, Exec.Turns v.flavor (a.opened v log) (v.emission a.opcode) n e [] ∧
      e.arch = a.skipped (v.decode a.opcode).addressMode ∧
      Access.writes e.bus.log = Access.writes log ∧
      ∀ bytes cycles, (v.decode a.opcode).addressMode = .cmosNop bytes cycles → n + 1 = cycles := by
  have opened : Access.writes (log ++ [a.opcodeRead]) = Access.writes log :=
    Access.writes_read _ _ _ _ _
  have form := v.decode_nop a.opcode
  simp only [Instruction.nopForm, nop, ne_eq, not_true_eq_false, decide_false, Bool.false_or] at form
  have read : (v.decode a.opcode).memoryAction = .read := by
    rw [v.decode_action, nop]
    rfl
  have operand (operand : (v.decode a.opcode).addressMode.isMemory ∨
      (v.decode a.opcode).addressMode = .noMemory .immediate) :
      ∃ n e, Exec.Turns v.flavor (a.opened v log) (v.emission a.opcode) n e [] ∧
        e.arch = { a with pc := a.pc + (v.decode a.opcode).addressMode.length } ∧
        Access.writes e.bus.log = Access.writes log := by
    obtain ⟨n, e, turns, loaded, -⟩ :=
      Exec.turns_operand v a a.opcode (log ++ [a.opcodeRead]) read operand
    refine ⟨n, e, turns, ?_, loaded.writes.trans opened⟩
    simp only [Exec.arch, loaded.ctx, loaded.bus, ctx]
  cases mode : (v.decode a.opcode).addressMode with
  | directPage | absolute =>
      rw [mode] at operand
      obtain ⟨n, e, turns, arch, writes⟩ := operand (.inl rfl)
      exact ⟨n, e, turns, arch, writes, fun _ _ other => by cases other⟩
  | noMemory type =>
      cases type with
      | immediate =>
          rw [mode] at operand
          obtain ⟨n, e, turns, arch, writes⟩ := operand (.inr rfl)
          exact ⟨n, e, turns, arch, writes, fun _ _ other => by cases other⟩
      | implied =>
          have emission : v.emission a.opcode = pcReads [false] := by
            rw [Variant.emission, mode]
            cases v <;> rfl
          rw [emission]
          obtain ⟨e, turns, arch, writes⟩ := Exec.turns_pcReads v.flavor [false] (a.opened v log)
          refine ⟨1, e, turns, ?_, writes.trans opened, fun _ _ other => by cases other⟩
          rw [arch]
          exact congrArg (fun pc => ({ a with pc } : Arch)) (BitVec.add_zero _)
  | cmosNop bytes cycles =>
      rw [mode] at form
      simp only [Bool.and_eq_true, decide_eq_true_eq] at form
      obtain ⟨count, moves⟩ := form
      rw [v.emission_cmosNop mode]
      obtain ⟨e, turns, arch, writes⟩ :=
        Exec.turns_pcReads v.flavor (nopMoves bytes cycles) (a.opened v log)
      refine ⟨_, e, turns, ?_, writes.trans opened, ?_⟩
      · have length := calc
          BitVec.ofNat 16 bytes = BitVec.ofNat 16 (1 + (nopMoves bytes cycles).count true) := by
            rw [Nat.add_comm, moves]
          _ = 1 + BitVec.ofNat 16 ((nopMoves bytes cycles).count true) := BitVec.ofNat_add _ _
        rw [arch, skipped, AddressMode.bytes, length, ← BitVec.add_assoc]
        rfl
      · rintro _ _ ⟨⟩
        exact count
  | _ =>
      rw [mode] at form
      cases form

end Arch

namespace Cpu6502
variable {v : Variant} {prof : Profile} {s t : Cpu6502 × Recorder SimpleBus} {a : Arch}

theorem finished_nop (c : Cpu6502) {op : U8} (nop : (v.decode op).mnemonic = .nop) :
    c.finished v.flavor (v.decode op) = c := by
  have form := v.decode_nop op
  simp only [Instruction.nopForm, nop, ne_eq, not_true_eq_false, decide_false, Bool.false_or] at form
  have idle : (v.decode op).mnemonic.isIdle := by
    rw [nop]
    rfl
  rw [c.finished_idle _ (.inl idle), completed, nop]
  split
  · rfl
  · next mode =>
      rw [mode] at form
      cases form
  · rfl

theorem nop_quiet {op : U8} (nop : (v.decode op).mnemonic = .nop) (c : Cpu6502) :
    c.extraCycleDue v.flavor (v.decode op) = false :=
  never_due _ (by rw [nop]; decide) c

theorem AtBoundary.waits {β : Type} [Bus β] {s t : Cpu6502 × β} (boundary : s.1.AtBoundary v)
    {cycles : List Lines} {exits : List StepExit}
    (ran : run (busCycle v prof) s cycles = .ok (exits, t))
    (none : ∀ exit ∈ exits, exit.starts = false) :
    ∃ prev pending, t = (s.1.withNmi prev pending, s.2) := by
  refine (run_keeps (P := fun t : Cpu6502 × β => t.1.AtBoundary v ∧
    ∃ prev pending, t = (s.1.withNmi prev pending, s.2)) ran none ⟨boundary, _, _, rfl⟩ ?_).2
  rintro _ lines exit t ⟨boundary, prev, pending, rfl⟩ step calm
  rcases boundary.step step with ⟨-, rfl⟩ | starts
  · exact ⟨⟨boundary.drained, boundary.ended⟩, _, _, rfl⟩
  · cases starts.symm.trans calm

/-- NOPs move PC behind them and change nothing else, whatever stalls them; those of a CMOS core take
as many steps as the table says. -/
theorem nops_change_only_pc (boundary : s.1.AtBoundary v) (start : s.1.arch s.2.bus.ram = a)
    (nop : (v.decode a.opcode).mnemonic = .nop) :
    (∀ t, Carries v prof .opcodeFetch s t →
      t.1.arch t.2.bus.ram = a.skipped (v.decode a.opcode).addressMode ∧
      Access.writes t.2.log = Access.writes s.2.log) ∧
    ∀ (first : Lines) (lines : Nat → Lines), (∀ n, (lines n).rdy = true) →
      (s.1.step v.flavor prof first s.2).map (·.1) = .ok .opcodeFetch →
      ∃ n t, Executes v prof s first lines n t ∧
        t.1.arch t.2.bus.ram = a.skipped (v.decode a.opcode).addressMode ∧
        ∀ bytes cycles, (v.decode a.opcode).addressMode = .cmosNop bytes cycles → n + 1 = cycles := by
  obtain ⟨n, e, turns, arch, writes, count⟩ := a.nop_turns v nop s.2.log
  have completion := fun c => finished_nop (v := v) c nop
  have quiet := nop_quiet nop
  constructor
  · intro t carries
    by_cases empty : v.emission a.opcode = []
    · rw [empty] at turns
      obtain ⟨rfl, rfl⟩ := turns.cases_nil
      obtain ⟨prev, pending, lines, u, cycles, exits, -, step, ran, none, -⟩ := carries.begins boundary
      obtain ⟨here, shown, log⟩ :=
        fetch_boundary (s := (s.1.withNmi prev pending, s.2)) boundary.drained start step empty quiet
      obtain ⟨_, _, rfl⟩ := here.waits ran none
      refine ⟨shown.trans arch, ?_⟩
      change Access.writes u.2.log = _
      rw [log]
      exact writes
    · obtain ⟨m, rfl⟩ := turns.count_pos empty
      have ended := carries.ended boundary start quiet turns
      obtain ⟨c, executing, shown⟩ := ended.arch
      obtain ⟨c', prev, pending, -, bus⟩ := ended.finished
      rw [completion, executing.arch] at shown
      exact ⟨shown.trans arch, by rw [bus]; exact writes⟩
  · intro first lines rdy fetch
    obtain ⟨t, executes, regs, -⟩ := executes_turns boundary.drained fetch start completion quiet
      (turns.anywhere prof) rdy
    exact ⟨n, t, executes, regs.trans arch, count⟩

def longNop : Cpu6502 × Recorder SimpleBus :=
  -- The eight-cycle NOP at $FFFE.
  ({ new with pc := 0xFFFE }, ⟨⟨fun addr => if addr = 0xFFFE then 0x5C else 0⟩, []⟩)

set_option maxRecDepth 20000 in
theorem nops_change_only_pc_long : ∃ t,
    Executes .wdc65C02 .debug longNop Lines.none (fun _ => Lines.none) 7 t ∧ t.1.pc = 1 := by
  have decoded : Variant.decode .wdc65C02 0x5C = ⟨.nop, .cmosNop 3 8, .read⟩ := by decide
  have boundary : longNop.1.AtBoundary .wdc65C02 :=
    .of_fresh UcycQueue.default_drained rfl
  have nop : (Variant.decode .wdc65C02 (longNop.1.arch longNop.2.bus.ram).opcode).mnemonic = .nop :=
    congrArg Instruction.mnemonic decoded
  have fetch : (longNop.1.step (Variant.flavor .wdc65C02) .debug Lines.none longNop.2).map (·.1) =
      .ok .opcodeFetch :=
    fetches_first ⟨rfl, rfl⟩ rfl rfl _ _
  obtain ⟨-, steps⟩ := @nops_change_only_pc .wdc65C02 .debug longNop _ boundary rfl nop
  obtain ⟨n, t, executes, shown, count⟩ := steps Lines.none (fun _ => Lines.none) (fun _ => rfl) fetch
  have mode : (Variant.decode .wdc65C02 (longNop.1.arch longNop.2.bus.ram).opcode).addressMode =
      .cmosNop 3 8 :=
    congrArg Instruction.addressMode decoded
  cases Nat.succ.inj (count 3 8 mode)
  rw [mode] at shown
  exact ⟨t, executes, (congrArg Arch.pc shown).trans rfl⟩

end Cpu6502

end Rs65x
