import Rs65x.Proof.Programs

/-!
# The VDA and VPA pins
-/

namespace Rs65x
open Fallible Machine

namespace Access

def vda : Access → Bool
  | read _ vda .. => vda
  | write _ _ vda _ => vda

def vpa : Access → Bool
  | read _ _ vpa _ => vpa
  | write _ _ _ vpa => vpa

end Access

def MicroOp.pinned (u : MicroOp) : Bool :=
  (!u.bus.vpa || u.bus.read && u.bus.addr = .pc && !u.bus.vda) &&
    (u.alu ≠ .specialAddOffset || u.bus.vpa)

def Instruction.pinned (v : Variant) (i : Instruction) (op : U8) : Bool :=
  match i.addressMode.emitUcycs .release v.flavor.micro
    (Cpu6502.decodeContext v.flavor i.memoryAction op) with
  | .ok us => us.all (·.pinned)
  | .error _ => false

set_option maxRecDepth 20000 in
theorem entries_pinned (v : Variant) : entries.all fun e =>
    !e.filter.includes v.flavor.opcodeTable || e.instruction.pinned v (BitVec.ofNat 8 e.code) := by
  cases v <;> decide

theorem Variant.emission_pinned (v : Variant) (op : U8) : ∀ u ∈ v.emission op, u.pinned := by
  have checked : (v.decode op).pinned v op :=
    OpcodeTable.decode_checked (fun i op => i.pinned v op) op (by cases v <;> rfl)
      (entries_pinned v)
  have emits := (v.emission_spec op).2.2.2 .release
  simp only [Instruction.pinned, emits, List.all_eq_true] at checked
  exact checked

theorem interruptTail_pinned (addr : U16) : ∀ u ∈ interruptTail addr, u.pinned := by
  intro u mem
  simp only [interruptTail, List.mem_cons, List.not_mem_nil, or_false] at mem
  rcases mem with rfl | rfl | rfl | rfl | rfl <;> rfl

theorem pinned_universal (v : Variant) : Universal v (·.pinned) where
  emitted := v.emission_pinned
  entry := interruptTail_pinned
  pause := rfl
  taken _ := rfl

namespace Exec
variable {β : Type}

theorem accessAddr_pc (F : Flavor) (e : Exec β) {u : MicroOp} (pc : u.bus.addr = .pc) :
    e.accessAddr F u = if u.alu = .specialAddOffset then e.ctx.pc.setWidth 32 - 1
      else e.ctx.pc.setWidth 32 := by
  obtain ⟨scratch, sp, eq⟩ := e.prepared_frame F u
  rw [accessAddr, eq, pc]
  rfl

end Exec

namespace Cpu6502
variable {β : Type} [Bus β] {v : Variant} {prof : Profile} {cpu cpu' : Cpu6502} {lines : Lines}

def Pinned (cpu : Cpu6502) : Prop := ∀ u ∈ cpu.ucycs.live, u.pinned

theorem Reachable.pinned (reach : cpu.Reachable β v prof) : cpu.Pinned := by
  refine reach.invariant (P := Pinned) (fun u mem => by cases mem) ?_ ?_
  · intro cpu cpu' lines exit r r' inv pinned outcome
    exact (pinned_universal v).outcome (inv.sample lines) outcome pinned
  · intro cpu bus _ u mem
    cases mem

/-- The cycle fetches an opcode or executes a micro-op that reads through PC. -/
def streams (v : Variant) (cpu : Cpu6502) : Bool :=
  cpu.currentInst.all fun i =>
    match cpu.ucycs.front with
    | some u => u.bus.addr = .pc
    | none => !cpu.extraCycleDue v.flavor i

/-- The cycle is the inserted one of a decimal ADC or SBC, or the one of JMP (abs,X) before PC. -/
def misplaces (v : Variant) (cpu : Cpu6502) : Bool :=
  cpu.currentInst.any fun i =>
    match cpu.ucycs.front with
    | some u => u.alu = .specialAddOffset
    | none => cpu.extraCycleDue v.flavor i

/-- The pins of an access that starts in `cpu` are those that the bus trait documents. -/
structure Documented (v : Variant) (cpu : Cpu6502) (a : Access) : Prop where
  apart : ¬(a.vda = true ∧ a.vpa = true)
  write : a.isRead = false → a.vpa = false
  fetch : a.vpa = true → a.isRead = true ∧ a.addr = cpu.pc.setWidth 32
  stream : a.vpa = true → cpu.streams v = true

theorem documented_quiet {a : Access} (quiet : a.vpa = false) : cpu.Documented v a where
  apart both := by cases both.2.symm.trans quiet
  write _ := quiet
  fetch vpa := by cases vpa.symm.trans quiet
  stream vpa := by cases vpa.symm.trans quiet

theorem documented_stream (data : U8) (streams : cpu.streams v = true) :
    cpu.Documented v (.read (cpu.pc.setWidth 32) false true data) where
  apart both := by cases both.1
  write reads := by cases reads
  fetch _ := ⟨rfl, rfl⟩
  stream _ := streams

omit [Bus β] in
theorem documented_executes {i : Instruction} {u : MicroOp} {rest : List MicroOp}
    (inst : cpu.currentInst = some i) (live : cpu.ucycs.live = u :: rest) (pinned : u.pinned)
    (bus : β) (data : U8) :
    cpu.Documented v (u.access ((cpu.exec i bus).accessAddr v.flavor u) data) ↔
      cpu.misplaces v = false := by
  have front : cpu.ucycs.front = some u := by rw [UcycQueue.front_eq, live]; rfl
  have misplaced : cpu.misplaces v = (u.alu = .specialAddOffset : Bool) := by
    rw [misplaces, inst, front]
    rfl
  rw [misplaced, decide_eq_false_iff_not]
  simp only [MicroOp.pinned, Bool.and_eq_true, Bool.or_eq_true, Bool.not_eq_true',
    decide_eq_true_eq] at pinned
  obtain ⟨fetches, drives⟩ := pinned
  cases vpa : u.bus.vpa with
  | false =>
      have ordinary : u.alu ≠ .specialAddOffset := drives.resolve_right (by simp [vpa])
      refine iff_of_true (documented_quiet ?_) ordinary
      rw [MicroOp.access]
      split <;> exact vpa
  | true =>
      obtain ⟨⟨read, pc⟩, vda⟩ := fetches.resolve_left (by simp [vpa])
      have access : u.access ((cpu.exec i bus).accessAddr v.flavor u) data =
          .read ((cpu.exec i bus).accessAddr v.flavor u) false true data := by
        rw [MicroOp.access, if_pos read, vda, vpa]
      rw [access, Exec.accessAddr_pc v.flavor _ pc]
      constructor
      · intro documented special
        have here := (documented.fetch rfl).2
        rw [if_pos special] at here
        have before (addr : U32) : addr - 1 ≠ addr := by bv_omega
        exact before _ here
      · intro ordinary
        rw [if_neg ordinary]
        refine documented_stream data ?_
        rw [streams, inst, front]
        exact decide_eq_true pc

theorem Outcome.documented {r r' : Recorder β} {exit : StepExit}
    (outcome : Outcome v cpu lines r exit cpu' r') (pinned : cpu.Pinned)
    (awake : cpu.stalls lines = false) : ∃ a, r'.log = r.log ++ [a] ∧
      (cpu.Documented v a ↔ cpu.misplaces v = false) := by
  have drained (empty : cpu.ucycs.Drained) : cpu.ucycs.front = none := by
    rw [UcycQueue.front_eq, empty.live_eq]
    rfl
  cases outcome with
  | stalled stalls => cases stalls.symm.trans awake
  | @ucyc i u rest e us q _ inst live next | @last i u rest e q _ inst live next =>
      obtain ⟨data, log⟩ := (cpu.exec i r).next_access v.flavor u rest
      rw [next] at log
      exact ⟨_, log, documented_executes inst live (pinned u (live ▸ List.mem_cons_self)) r data⟩
  | @extraCycle i _ inst empty due =>
      refine ⟨_, rfl, iff_of_false (fun documented => ?_) ?_⟩
      · have streaming := documented.stream rfl
        simp [streams, inst, drained empty, due] at streaming
      · simp [misplaces, inst, drained empty, due]
  | @interrupt i type q _ inst empty ended | @fetch i q _ inst empty ended =>
      refine ⟨_, rfl, iff_of_true (documented_stream _ ?_) ?_⟩
      · simp [streams, inst, drained empty, ended]
      · simp [misplaces, inst, drained empty, ended]
  | first _ inst =>
      refine ⟨_, rfl, iff_of_true (documented_stream _ ?_) ?_⟩
      · simp [streams, inst]
      · simp [misplaces, inst]

/-- The pins are as documented in every cycle but the inserted one of a decimal ADC or SBC and the
one of JMP (abs,X) that reads before PC. -/
theorem pins_documented_iff (reach : cpu.Reachable β v prof) {bus : β} {log : List Access}
    (ran : cpu.call v prof (.step lines bus) = .ok (log, cpu')) :
    (∀ a ∈ log, cpu.Documented v a) ↔ cpu.stalls lines = true ∨ cpu.misplaces v = false := by
  obtain ⟨exit, r, stepped, rfl⟩ := call_ok ran
  have outcome := step_outcome reach.inv stepped
  cases stalls : cpu.stalls lines with
  | true =>
      cases stepped.symm.trans (step_stalls stalls _)
      exact iff_of_true (fun a mem => by cases mem) (.inl rfl)
  | false =>
      obtain ⟨a, logged, pins⟩ := outcome.documented reach.pinned stalls
      replace pins : cpu.Documented v a ↔ cpu.misplaces v = false :=
        ⟨fun d => pins.1 ⟨d.apart, d.write, d.fetch, d.stream⟩, fun right =>
          have d := pins.2 right
          ⟨d.apart, d.write, d.fetch, d.stream⟩⟩
      rw [logged]
      simp [pins]

def ldaSta : SimpleBus :=
  -- LDA $10, STA $11.
  ⟨fun addr => if addr = 0 then 0xA5 else if addr = 1 then 0x10
  else if addr = 2 then 0x85 else if addr = 3 then 0x11 else 0x77⟩

def inLdaSta (n : Nat) : Cpu6502 :=
  follow (call .nmos6502 .debug) new (fun _ => .step Lines.none ldaSta) n

set_option maxRecDepth 20000 in
-- the data read of LDA, the fetch of STA and its write
theorem pins_documented_iff_sta : (inLdaSta 2).Documented .nmos6502 (.read 0x10 true false 0x77) ∧
    (inLdaSta 3).Documented .nmos6502 (.read 2 false true 0x85) ∧
    (inLdaSta 5).Documented .nmos6502 (.write 0x11 0x77 true false) := by
  have documented (n : Nat) (access : Access) (placed : (inLdaSta n).misplaces .nmos6502 = false)
      (ran : ∃ cpu', (inLdaSta n).call .nmos6502 .debug (.step Lines.none ldaSta) = .ok ([access], cpu')) :
      (inLdaSta n).Documented .nmos6502 access := by
    obtain ⟨cpu', ran⟩ := ran
    have reach : (inLdaSta n).Reachable SimpleBus .nmos6502 .debug := follow_reaches new _ n
    exact (pins_documented_iff reach ran).2 (.inr placed) access (List.mem_singleton_self _)
  exact ⟨documented 2 _ (by decide) ⟨_, rfl⟩, documented 3 _ (by decide) ⟨_, rfl⟩,
    documented 5 _ (by decide) ⟨_, rfl⟩⟩

def sedAdc : SimpleBus :=
  -- SED, ADC $65.
  ⟨fun addr => if addr = 0 then 0xF8 else 0x65⟩

set_option maxRecDepth 20000 in
/-- The inserted cycle of ADC $65 reads the operand again, with VPA. -/
theorem pins_misplaced : ¬ ∀ v prof (cpu : Cpu6502), cpu.Reachable SimpleBus v prof →
    ∀ lines (bus : SimpleBus) log cpu', cpu.call v prof (.step lines bus) = .ok (log, cpu') →
      ∀ a ∈ log, cpu.Documented v a := by
  intro holds
  have reach : (follow (call .rockwell65C02 .debug) new (fun _ => .step Lines.none sedAdc) 5).Reachable
      SimpleBus .rockwell65C02 .debug := follow_reaches new _ 5
  have ran : ∃ cpu, (follow (call .rockwell65C02 .debug) new
      (fun _ => .step Lines.none sedAdc) 5).call .rockwell65C02 .debug (.step Lines.none sedAdc) =
        .ok ([Access.read 0x65 false true 0x65], cpu) := ⟨_, rfl⟩
  obtain ⟨cpu', ran⟩ := ran
  have documented := holds _ _ _ reach _ _ _ _ ran _ (List.mem_singleton_self _)
  have fetched := (documented.fetch rfl).2
  revert fetched
  decide

end Cpu6502

end Rs65x
