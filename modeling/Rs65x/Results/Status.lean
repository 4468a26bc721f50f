import Rs65x.Proof.Entry
import Rs65x.Proof.Status
import Rs65x.Results.Writes

/-!
# The status register and the bytes pushed of it
-/

namespace Rs65x
open Fallible Machine

theorem entryOps_third {pushed : Latch} {vector : U16} {u : MicroOp} {rest : List MicroOp}
    (suffix : u :: rest <:+ entryOps pushed vector) (writes : u.writes)
    (third : (u :: rest).countP (·.writes) = 1) : u = .push pushed := by
  simp only [entryOps, List.suffix_cons_iff, List.suffix_nil, List.cons.injEq] at suffix
  rcases suffix with ⟨rfl, rfl⟩ | ⟨rfl, rfl⟩ | ⟨rfl, -⟩ | ⟨rfl, -⟩ | ⟨rfl, -⟩ | none
  · cases third
  · cases third
  · rfl
  · cases writes
  · cases writes
  · cases none

def Begun.stores (v : Variant) (begun : Begun) (u : MicroOp) : Bool :=
  match begun with
  | instruction op => (v.decode op).stores u
  | entry _ => u.localLatch ≠ .brkStatus

namespace Exec
variable {β : Type} [Bus β]

def stored (F : Flavor) (e : Exec β) (u : MicroOp) : U8 :=
  if u.localLatch ≠ .none then (e.prepared F u).scratch.readLatch (e.prepared F u).ctx u.localLatch
  else (e.prepared F u).scratch.dataLatch

theorem next_write (F : Flavor) (e : Exec (Recorder β)) {u : MicroOp} (write : u.bus.read = false)
    (rest : List MicroOp) : (e.next F u rest).1.bus.log =
      e.bus.log ++ [.write (e.accessAddr F u) (e.stored F u) u.bus.vda u.bus.vpa] := by
  have bus : (e.prepared F u).bus = e.bus := by
    obtain ⟨_, _, eq⟩ := e.prepared_frame F u
    rw [eq]
  rw [next_bus, access, if_neg (by simp [write]), bus]
  rfl

omit [Bus β] in
theorem stored_status (F : Flavor) (e : Exec β) {u : MicroOp} (source : u.localLatch = .status) :
    e.stored F u = e.ctx.status := by
  obtain ⟨_, _, eq⟩ := e.prepared_frame F u
  rw [stored, source, if_pos (by decide), eq]
  rfl

omit [Bus β] in
theorem stored_brkStatus (F : Flavor) (e : Exec β) {u : MicroOp} (source : u.localLatch = .brkStatus) :
    e.stored F u = e.ctx.status ||| Psr.B6502 ||| Psr.U6502 := by
  obtain ⟨_, _, eq⟩ := e.prepared_frame F u
  rw [stored, source, if_pos (by decide), eq]
  rfl

omit [Bus β] in
theorem stored_php (F : Flavor) (e : Exec β) (php : e.ctx.instruction.mnemonic = .php)
    (action : e.scratch.memoryAction = .write) :
    e.stored F .aluPush = e.ctx.status ||| Psr.B6502 := by
  have store : e.ctx.aluPrepareStore e.scratch =
      (e.ctx, { e.scratch with dataLatch := e.ctx.status ||| Psr.B6502 }) := by
    rw [MicroCtx6502.aluPrepareStore, if_neg (by rw [action]; decide), php]
  have before : e.prepareStore .aluPush =
      { e with scratch := { e.scratch with dataLatch := e.ctx.status ||| Psr.B6502 } } := by
    rw [prepareStore, if_neg (by decide), store]
  change (e.prepareStore .aluPush).scratch.dataLatch = _
  rw [before]

end Exec

namespace Cpu6502
variable {β : Type} [Bus β] {v : Variant} {prof : Profile} {cpu cpu' : Cpu6502} {story : Story}
  {lines : Lines} {r r' : Recorder β} {begun : Begun}

theorem Reachable.phantom (reach : cpu.Reachable β v prof) : Phantom cpu.p := by
  refine reach.invariant (P := fun cpu => Phantom cpu.p) rfl ?_ ?_
  · intro cpu cpu' lines exit r r' _ phantom outcome
    exact outcome.phantom phantom
  · intro cpu bus phantom
    exact phantom.setFlag (show Psr.I &&& 0x30 = 0#8 by decide) true

def PushesStatus (cpu : Cpu6502) : Prop :=
  ∃ i u rest, cpu.currentInst = some i ∧ cpu.ucycs.live = u :: rest ∧ u.writes ∧
    (u.localLatch = .status ∨ u.localLatch = .brkStatus ∨ i.mnemonic = .php)

/-- Instructions push the status with B set, the interrupt sequences as it is. -/
def pushedStatus (p : U8) : Begun → U8
  | .instruction _ => p ||| Psr.B6502
  | .entry _ => p

theorem Runs.stores (runs : cpu.Runs v begun) {u : MicroOp} (mem : u ∈ cpu.ucycs.live)
    (writes : u.writes) : begun.stores v u := by
  refine runs.all (P := fun u => u.writes → begun.stores v u) ?_ ?_ u mem writes
  · intro u mem _
    cases begun with
    | instruction op => exact (v.emission_wellWritten op).2.1 u mem
    | entry type =>
        simp only [Begun.program, interruptTail, List.mem_cons, List.not_mem_nil, or_false] at mem
        rcases mem with rfl | rfl | rfl | rfl | rfl <;> rfl
  · intro u detour writes
    simp only [MicroOp.isDetour, Bool.and_eq_true] at detour
    simp [MicroOp.writes, detour.1.1.1.1] at writes

omit [Bus β] in
theorem Runs.pushed (runs : cpu.Runs v begun) (phantom : Phantom cpu.p) {i : Instruction}
    (inst : cpu.currentInst = some i) {u : MicroOp} (mem : u ∈ cpu.ucycs.live) (writes : u.writes)
    (source : u.localLatch = .status ∨ u.localLatch = .brkStatus ∨ i.mnemonic = .php) :
    (cpu.exec i r).stored v.flavor u = pushedStatus cpu.p begun ∧
      ∀ op, begun = .instruction op → (v.decode op).mnemonic = .php ∨ (v.decode op).mnemonic = .brk := by
  cases runs.inst.symm.trans inst
  have stores := runs.stores mem writes
  cases begun with
  | entry type =>
      refine ⟨?_, fun op eq => by cases eq⟩
      rcases source with status | brkStatus | php
      · exact Exec.stored_status v.flavor _ status
      · simp [Begun.stores, brkStatus] at stores
      · rw [show (Begun.entry type).opcode = 0 from rfl, decode_brk] at php
        cases php
  | instruction op =>
      simp only [Begun.stores, Instruction.stores, writes, Bool.not_true, Bool.false_or,
        Bool.and_eq_true, Bool.or_eq_true, decide_eq_true_eq] at stores
      obtain ⟨⟨⟨⟨-, notStatus⟩, brk⟩, php⟩, -⟩ := stores
      rcases source with status | brkStatus | isPhp
      · exact absurd status notStatus
      · have isBrk := brk.resolve_left (not_not.2 brkStatus)
        refine ⟨?_, fun op' eq => by cases eq; exact .inr isBrk⟩
        exact (Exec.stored_brkStatus v.flavor _ brkStatus).trans phantom.or_break
      · obtain rfl := php.resolve_left (not_not.2 isPhp)
        refine ⟨?_, fun op' eq => by cases eq; exact .inl isPhp⟩
        have isPhp : (v.decode op).mnemonic = .php := isPhp
        refine Exec.stored_php v.flavor _ isPhp (runs.action.trans ?_)
        rw [show (Begun.instruction op).opcode = op from rfl, v.decode_action, isPhp]
        rfl

set_option maxRecDepth 20000 in
theorem decode_php (v : Variant) : (v.decode 0x08).mnemonic = .php := by
  cases v <;> decide

theorem Runs.pushes (runs : cpu.Runs v begun) (balanced : cpu.Balanced v story)
    (same : story.begun = some begun)
    (which : begun.opcode = 0x08 ∨ begun.opcode = 0x00 ∧ story.writes = 2) {u : MicroOp}
    {rest : List MicroOp} (live : cpu.ucycs.live = u :: rest) (writes : u.writes) :
    cpu.PushesStatus := by
  refine ⟨_, u, rest, runs.inst, live, writes, ?_⟩
  rcases which with php | ⟨brk, two⟩
  · rw [php]
    exact .inr (.inr (decode_php v))
  · have count := balanced begun same
    have suffix := runs.live.resolve_right fun detour => by
      simp only [live, List.all_cons, MicroOp.isDetour, Bool.and_eq_true] at detour
      simp [MicroOp.writes, detour.1.1.1.1.1] at writes
    rw [live] at suffix count
    cases begun with
    | entry type =>
        have third : (u :: rest).countP (·.writes) = 1 := by
          have count : story.writes + _ = 3 := count
          omega
        have tail : u :: rest <:+ entryOps .status type.vector := suffix
        exact .inl (congrArg MicroOp.localLatch (entryOps_third tail writes third))
    | instruction op =>
        obtain rfl : op = 0x00 := brk
        have total : (Begun.instruction 0x00).writeCount v = 3 := by
          rw [Begun.writeCount, show v.decode 0x00 = _ from decode_brk v]
          rfl
        have third : (u :: rest).countP (·.writes) = 1 := by omega
        have tail : u :: rest <:+ .read .pc .none true :: entryOps .brkStatus 0xFFFE := by
          rw [← emission_brk v]
          exact suffix
        rcases List.suffix_cons_iff.1 tail with first | tail
        · cases first
          cases writes
        · exact .inr (.inl (congrArg MicroOp.localLatch (entryOps_third tail writes third)))

/-- U is always set and B always clear in P. In a pushed status B tells PHP and BRK from the interrupt
lines. -/
theorem status_bits (told : Told β v prof (cpu, story)) :
    (flagSet cpu.p Psr.U6502 = true ∧ flagSet cpu.p Psr.B6502 = false) ∧
    ∀ lines (bus : β) exit cpu' r, cpu.step v.flavor prof lines (⟨bus, []⟩ : Recorder β) =
        .ok (exit, cpu', r) → (∃ a ∈ r.log, a.isRead = false) →
      (∀ begun, story.begun = some begun →
        begun.opcode = 0x08 ∨ begun.opcode = 0x00 ∧ story.writes = 2 → cpu.PushesStatus) ∧
      (cpu.PushesStatus → ∃ begun addr data vda vpa, story.begun = some begun ∧
        r.log = [.write addr data vda vpa] ∧ flagSet data Psr.U6502 = true ∧
        (flagSet data Psr.B6502 = true ↔ ∃ op, begun = .instruction op ∧
          ((v.decode op).mnemonic = .php ∨ (v.decode op).mnemonic = .brk)) ∧
        ∀ type, begun = .entry type → flagSet data Psr.B6502 = false) := by
  have phantom := told.reachable.phantom
  obtain ⟨inv, tracks⟩ := told.tracks
  refine ⟨phantom.bits, ?_⟩
  intro lines bus exit cpu' r ran ⟨a, mem, write⟩
  have outcome := step_outcome inv ran
  obtain rfl : exit = .ucyc := by
    by_contra other
    cases write.symm.trans (outcome.reads other rfl a mem)
  obtain ⟨i, u, rest, e, us, inst, live, next, -, rfl⟩ := outcome.executes (inv.sample lines)
  replace inst : cpu.currentInst = some i := inst
  replace live : cpu.ucycs.live = u :: rest := live
  have quiet : u.bus.read = false := by
    obtain ⟨a', log, read, -⟩ :=
      ((cpu.sampleNmi lines).exec i (⟨bus, []⟩ : Recorder β)).next_log v.flavor u rest
    rw [next] at log
    replace log : e.bus.log = [a'] := log
    rw [log, List.mem_singleton] at mem
    rw [← read, ← mem, write]
  have writes : u.writes := by rw [MicroOp.writes, quiet]; rfl
  have log := (cpu.exec i (⟨bus, []⟩ : Recorder β)).next_write v.flavor quiet rest
  replace next : (cpu.exec i (⟨bus, []⟩ : Recorder β)).next v.flavor u rest = (e, us) := next
  rw [next] at log
  rcases story with ⟨_ | begun, count⟩
  · cases inst.symm.trans tracks
  have runs : cpu.Runs v begun := tracks
  constructor
  · intro begun' same which
    cases same
    exact runs.pushes told.balanced rfl which live writes
  · rintro ⟨i', u', rest', inst', live', -, source⟩
    cases inst.symm.trans inst'
    cases live.symm.trans live'
    obtain ⟨data, instruction⟩ := runs.pushed phantom inst (live ▸ List.mem_cons_self) writes source
    rw [data] at log
    refine ⟨begun, _, _, _, _, rfl, log, ?_⟩
    cases begun with
    | instruction op =>
        obtain ⟨u, b⟩ := phantom.break_bits
        refine ⟨u, iff_of_true b ⟨op, rfl, instruction op rfl⟩, fun type eq => by cases eq⟩
    | entry type =>
        obtain ⟨u, b⟩ := phantom.bits
        refine ⟨u, iff_of_false (Bool.eq_false_iff.1 b) ?_, fun _ _ => b⟩
        rintro ⟨op, eq, -⟩
        cases eq

def beforePhp : Cpu6502 × Story :=
  -- The core before the push of a PHP, with its story.
  follow (tell .nmos6502 .debug) (new, .start)
    (fun _ => .step Lines.none (⟨fun _ => 0x08⟩ : SimpleBus)) 2

set_option maxRecDepth 20000 in
theorem status_bits_php : ∃ exit cpu' r addr data vda vpa,
    beforePhp.1.step Variant.nmos6502.flavor .debug Lines.none
      (⟨⟨fun _ => 0x08⟩, []⟩ : Recorder SimpleBus) = .ok (exit, cpu', r) ∧
    r.log = [.write addr data vda vpa] ∧ flagSet data Psr.U6502 = true := by
  have reaches : Reaches (tell (β := SimpleBus) .nmos6502 .debug) (fun _ _ => True) (new, Story.start)
      beforePhp := follow_reaches (new, Story.start) _ 2
  have told : Told SimpleBus .nmos6502 .debug (beforePhp.1, beforePhp.2) := reaches
  obtain ⟨exit, cpu', r, ran, wrote⟩ : ∃ exit cpu' r,
      beforePhp.1.step Variant.nmos6502.flavor .debug Lines.none
        (⟨⟨fun _ => 0x08⟩, []⟩ : Recorder SimpleBus) = .ok (exit, cpu', r) ∧
      r.log = [.write 0x1FD 0x34 true false] := ⟨_, _, _, rfl, rfl⟩
  have writes : ∃ a ∈ r.log, a.isRead = false := by
    rw [wrote]
    exact ⟨_, List.mem_singleton_self _, rfl⟩
  obtain ⟨pushes, bits⟩ := (status_bits told).2 _ _ _ _ _ ran writes
  have begun : beforePhp.2.begun = some (.instruction 0x08) := rfl
  obtain ⟨_, addr, data, vda, vpa, -, log, u, -⟩ := bits (pushes _ begun (.inl rfl))
  exact ⟨exit, cpu', r, addr, data, vda, vpa, ran, log, u⟩

end Cpu6502

end Rs65x
