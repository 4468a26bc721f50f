import Rs65x.Proof.Programs

/-!
# How often and where the core writes
-/

namespace Rs65x
open Fallible Machine

namespace Cpu6502
variable {β : Type} [Bus β] {v : Variant} {prof : Profile} {cpu cpu' : Cpu6502} {story : Story}
  {lines : Lines} {r r' : Recorder β} {exit : StepExit}

theorem Outcome.reads (outcome : Outcome v cpu lines r exit cpu' r') (other : exit ≠ .ucyc)
    (empty : r.log = []) : ∀ a ∈ r'.log, a.isRead = true := by
  have read (addr : U32) (vda vpa : Bool) :
      ∀ a ∈ (Bus.read r addr vda vpa).2.log, a.isRead = true := by
    intro a mem
    replace mem : a ∈ r.log ++ [_] := mem
    rw [empty, List.nil_append, List.mem_singleton] at mem
    rw [mem]
    rfl
  cases outcome with
  | stalled => simp [empty]
  | ucyc | last => exact absurd rfl other
  | extraCycle | interrupt | fetch | first => exact read _ _ _

theorem Outcome.writeless (outcome : Outcome v cpu lines r exit cpu' r') (other : exit ≠ .ucyc)
    (empty : r.log = []) : (r'.log.countP fun a => !a.isRead) = 0 := by
  rw [List.countP_eq_zero]
  intro a mem
  simp [outcome.reads other empty a mem]

def Balanced (v : Variant) (cpu : Cpu6502) (story : Story) : Prop :=
  ∀ begun, story.begun = some begun →
    story.writes + cpu.ucycs.live.countP (·.writes) = begun.writeCount v

theorem Outcome.balanced (inv : cpu.Inv v) (outcome : Outcome v cpu lines r exit cpu' r')
    (empty : r.log = []) (tracks : cpu.Tracks v story.begun) (balanced : cpu.Balanced v story) :
    cpu'.Balanced v (story.after exit cpu' r'.log) := by
  cases exit with
  | ucyc =>
      intro begun same
      replace same : story.begun = some begun := same
      rw [same] at tracks
      obtain ⟨i, u, rest, e, us, inst, live, next, live', rfl⟩ := outcome.executes inv
      have worked := Exec.next_writes v.flavor (cpu.exec i r) (tracks.drops_exec live)
      obtain ⟨a, log, read, -⟩ := (cpu.exec i r).next_log v.flavor u rest
      rw [next] at worked log
      have before := balanced begun same
      rw [live, ← worked] at before
      dsimp only at before
      have wrote : (e.bus.log.countP fun a => !a.isRead) = if u.writes then 1 else 0 := by
        have log : e.bus.log = r.log ++ [a] := log
        rw [log, empty, List.nil_append, List.countP_singleton, read]
        rfl
      simp only [Story.after, live', wrote]
      omega
  | stalled | extraCycle =>
      have none := outcome.writeless (by simp) empty
      have same : cpu'.ucycs = cpu.ucycs := by
        cases outcome
        rfl
      intro begun eq
      simp only [Story.after, none, same]
      exact balanced begun eq
  | interrupt type =>
      have none := outcome.writeless (by simp) empty
      intro begun eq
      cases eq
      simp only [Story.after, none]
      cases outcome with
      | interrupt _ _ _ _ _ _ live =>
          rw [Nat.zero_add]
          exact (congrArg _ live).trans ((Begun.entry type).program_writes v)
  | opcodeFetch =>
      have none := outcome.writeless (by simp) empty
      intro begun eq
      cases eq
      simp only [Story.after, none]
      rw [Nat.zero_add, ← Begun.program_writes]
      cases outcome with
      | fetch _ _ _ _ _ _ _ live | first _ _ _ live => exact congrArg _ live

theorem Told.balanced (told : Told β v prof (cpu, story)) : cpu.Balanced v story := by
  refine (told.invariant (P := fun cpu story =>
    cpu.Tracks v story.begun ∧ cpu.Balanced v story) ?_ ?_).2.2
  · intro cpu _ idle
    exact ⟨idle, fun begun none => by cases none⟩
  · rintro cpu cpu' story lines exit r r' inv ⟨tracks, balanced⟩ outcome empty
    replace inv := inv.sample lines
    replace tracks := tracks.sample lines
    exact ⟨outcome.tracks inv tracks, outcome.balanced inv empty tracks balanced⟩

/-! ## Write cycles in a row -/

def ahead (cpu : Cpu6502) : Nat := (cpu.ucycs.live.takeWhile (·.writes)).length

theorem Told.ahead_le (told : Told β v prof (cpu, story)) : cpu.ahead ≤ 3 := by
  obtain ⟨inv, tracks⟩ := told.tracks
  rcases story with ⟨_ | begun, writes⟩
  · have empty : cpu.ucycs.live = [] := (inv.idle tracks).live_eq
    simp [ahead, empty]
  · have good := Runs.orderly tracks
    unfold ahead
    cases live : cpu.ucycs.live with
    | nil => simp
    | cons u rest =>
        simp only [live, orderly, Bool.and_eq_true, decide_eq_true_eq] at good
        exact good.1.2

theorem Outcome.ahead (inv : cpu.Inv v) {begun : Begun} (runs : cpu.Runs v begun)
    (outcome : Outcome v cpu lines r exit cpu' r') (empty : r.log = [])
    (wrote : ∃ a ∈ r'.log, a.isRead = false) : cpu.ahead = cpu'.ahead + 1 := by
  obtain ⟨a, mem, writes⟩ := wrote
  by_cases executes : exit = .ucyc
  · subst executes
    obtain ⟨i, u, rest, e, us, inst, live, next, live', rfl⟩ := outcome.executes inv
    obtain ⟨a', log, read, -⟩ := (cpu.exec i r).next_log v.flavor u rest
    have log' : (cpu.exec i r).bus.log = [] := empty
    rw [next, log', List.nil_append] at log
    rw [log, List.mem_singleton] at mem
    subst mem
    have writing : u.writes := by rw [MicroOp.writes, ← read, writes]; rfl
    have kept := Exec.next_writing v.flavor (cpu.exec i r) (runs.drops_exec live) writing
    rw [next] at kept
    have kept : us = rest := kept
    simp only [Cpu6502.ahead, live, live', kept, List.takeWhile_cons, writing]
    rfl
  · cases writes.symm.trans (outcome.reads executes empty a mem)

theorem call_ahead (reach : cpu.Reachable β v prof) {input : Call β} {log : List Access}
    (ran : cpu.call v prof input = .ok (log, cpu')) (wrote : ∃ a ∈ log, a.isRead = false) :
    cpu.ahead = cpu'.ahead + 1 := by
  obtain ⟨story, told⟩ := reach.told
  obtain ⟨inv, tracks⟩ := told.tracks
  cases input with
  | step lines bus =>
      obtain ⟨exit, r, stepped, rfl⟩ := call_ok ran
      have outcome := step_outcome inv stepped
      have sampled : (cpu.sampleNmi lines).Tracks v story.begun := Tracks.sample tracks lines
      rcases story with ⟨_ | begun, writes⟩
      · obtain ⟨a, mem, writes⟩ := wrote
        have other : exit ≠ .ucyc := by
          rintro rfl
          obtain ⟨i, _, _, _, _, inst, -⟩ := outcome.executes (inv.sample lines)
          cases inst.symm.trans sampled
        cases writes.symm.trans (outcome.reads other rfl a mem)
      · have runs : (cpu.sampleNmi lines).Runs v begun := sampled
        have fewer := outcome.ahead (inv.sample lines) runs rfl wrote
        exact fewer
  | reset bus =>
      cases ran
      obtain ⟨a, mem, writes⟩ := wrote
      replace mem : a ∈ [Access.read _ _ _ _, Access.read _ _ _ _] := mem
      simp only [List.mem_cons, List.not_mem_nil, or_false] at mem
      rcases mem with rfl | rfl <;> cases writes

theorem run_ahead (reach : cpu.Reachable β v prof) {calls : List (Call β)}
    {logs : List (List Access)} (ran : run (call v prof) cpu calls = .ok (logs, cpu'))
    (wrote : ∀ log ∈ logs, ∃ a ∈ log, a.isRead = false) : calls.length ≤ cpu.ahead := by
  induction calls generalizing cpu logs with
  | nil => exact Nat.zero_le _
  | cons input calls ih =>
      simp only [run, bind_eq_ok, Prod.exists] at ran
      obtain ⟨log, next, first, logs', last, ran, eq⟩ := ran
      cases eq
      have here := call_ahead reach first (wrote log List.mem_cons_self)
      have further := ih (reach.tail trivial first) ran
        fun log mem => wrote log (List.mem_cons_of_mem _ mem)
      rw [List.length_cons, here]
      exact Nat.succ_le_succ further

/-! ## RDY -/

theorem stalls_of_ahead (low : lines.rdy = false) (none : cpu.ahead = 0) :
    cpu.stalls lines = true := by
  rw [stalls, nextCycleRead, UcycQueue.front_eq, low]
  unfold ahead at none
  cases live : cpu.ucycs.live with
  | nil => rfl
  | cons u rest =>
      have reads : u.bus.read = true := by
        by_contra writes
        rw [Bool.not_eq_true] at writes
        simp [live, MicroOp.writes, writes] at none
      simp [reads]

theorem call_write (reach : cpu.Reachable β v prof) (some : 0 < cpu.ahead) (lines : Lines) (bus : β) :
    ∃ a cpu', cpu.call v prof (.step lines bus) = .ok ([a], cpu') ∧ a.isRead = false := by
  obtain ⟨story, told⟩ := reach.told
  obtain ⟨inv, tracks⟩ := told.tracks
  obtain ⟨u, rest, live, writes⟩ : ∃ u rest, cpu.ucycs.live = u :: rest ∧ u.writes := by
    unfold ahead at some
    cases live : cpu.ucycs.live with
    | nil => simp [live] at some
    | cons u rest =>
        refine ⟨u, rest, rfl, ?_⟩
        by_contra reads
        simp [live, reads] at some
  rcases story with ⟨_ | begun, _⟩
  · cases live.symm.trans (inv.idle tracks).live_eq
  have tracks : cpu.Runs v begun := tracks
  have small : cpu.ptrOverflows = false := by
    have drops := tracks.drops live
    rw [ptrOverflows, UcycQueue.front_eq, live]
    cases alu : u.alu <;> simp [alu, MicroOp.drops, writes] at drops ⊢
  have fits : prof = .release ∨ cpu.ptrOverflows = false := .inr small
  obtain ⟨exit, cpu', r, ran, outcome⟩ := step_spec inv lines (⟨bus, []⟩ : Recorder β) fits
  have awake : (cpu.sampleNmi lines).stalls lines = false := by
    have read : u.bus.read = false := by simpa [MicroOp.writes] using writes
    have front : (cpu.sampleNmi lines).nextCycleRead = false := by
      rw [sampleNmi_nextCycleRead, nextCycleRead, UcycQueue.front_eq, live]
      simp [read, tracks.inst]
    rw [stalls, front, Bool.and_false]
  have executes : exit = .ucyc := by
    cases outcome with
    | stalled waits => cases waits.symm.trans awake
    | ucyc | last => rfl
    | extraCycle _ _ empty | interrupt _ _ empty | fetch _ _ empty =>
        cases live.symm.trans empty.live_eq
    | first _ idle => cases tracks.inst.symm.trans idle
  subst executes
  obtain ⟨i, u', rest', e, us, inst, live', next, -, rfl⟩ := outcome.executes (inv.sample lines)
  cases live.symm.trans live'
  obtain ⟨a, log, read, -⟩ := ((cpu.sampleNmi lines).exec i ⟨bus, []⟩).next_log v.flavor u rest
  rw [next] at log
  refine ⟨a, cpu', ?_, ?_⟩
  · rw [call, ran]
    exact congrArg (fun l => Except.ok (l, cpu')) log
  · simpa [MicroOp.writes, ← read] using writes

theorem run_low (reach : cpu.Reachable β v prof) {inputs : List (Lines × β)}
    (low : ∀ i ∈ inputs, i.1.rdy = false) : ∃ logs cpu',
    run (call v prof) cpu (inputs.map fun i => .step i.1 i.2) = .ok (logs, cpu') ∧
      (∀ log ∈ logs, ∀ a ∈ log, a.isRead = false) ∧ ∀ log ∈ logs.drop cpu.ahead, log = [] := by
  induction inputs generalizing cpu with
  | nil => exact ⟨[], cpu, rfl, by simp, by simp⟩
  | cons i inputs ih =>
      have low' : ∀ i ∈ inputs, i.1.rdy = false := fun i mem => low i (List.mem_cons_of_mem _ mem)
      rcases Nat.eq_zero_or_pos cpu.ahead with none | some
      · have waits : (cpu.sampleNmi i.1).stalls i.1 := stalls_of_ahead (low i List.mem_cons_self) none
        have stalled : cpu.step v.flavor prof i.1 (⟨i.2, []⟩ : Recorder β) = _ := if_pos waits
        have first : cpu.call v prof (.step i.1 i.2) = .ok ([], cpu.sampleNmi i.1) := by
          rw [call, stalled]
          rfl
        obtain ⟨logs, cpu', ran, writes, idle⟩ := ih (reach.tail trivial first) low'
        refine ⟨[] :: logs, cpu', ?_, ?_, ?_⟩
        · rw [List.map_cons, run_cons _ first, ran]
          rfl
        · simpa using writes
        · replace idle : ∀ log ∈ logs.drop cpu.ahead, log = [] := idle
          rw [none] at idle ⊢
          simpa using idle
      · obtain ⟨a, next, first, write⟩ := call_write reach some i.1 i.2
        have fewer := call_ahead reach first ⟨a, List.mem_singleton_self a, write⟩
        obtain ⟨logs, cpu', ran, writes, idle⟩ := ih (reach.tail trivial first) low'
        refine ⟨[a] :: logs, cpu', ?_, ?_, ?_⟩
        · rw [List.map_cons, run_cons _ first, ran]
          rfl
        · intro log mem
          rcases List.mem_cons.1 mem with rfl | mem
          · simpa using write
          · exact writes log mem
        · rw [fewer]
          exact idle

/-! ## The discipline -/

theorem Runs.stack_write {begun : Begun} (inv : cpu.Inv v) (runs : cpu.Runs v begun)
    (stack : begun.usesStack v) (outcome : Outcome v cpu lines r exit cpu' r') (empty : r.log = []) :
    ∀ a ∈ r'.log, a.isRead = false → 0x100 ≤ a.addr.toNat ∧ a.addr.toNat < 0x200 := by
  intro a mem write
  by_cases executes : exit = .ucyc
  · subst executes
    obtain ⟨i, u, rest, e, us, inst, live, next, live', rfl⟩ := outcome.executes inv
    obtain ⟨a', log, read, addr⟩ := (cpu.exec i r).next_log v.flavor u rest
    have log' : (cpu.exec i r).bus.log = [] := empty
    rw [next, log', List.nil_append] at log
    rw [log, List.mem_singleton] at mem
    subst mem
    have writing : u.writes := by rw [MicroOp.writes, ← read, write]; rfl
    have pushes := runs.all (P := fun u => u.writes → u.bus.addr = .sp ∧ u.alu = .decSp)
      (fun u mem writes => begun.program_pushes v mem writes stack)
      (fun u detour writes => ?_) u (live ▸ List.mem_cons_self)
    · obtain ⟨sp, dec⟩ := pushes writing
      rw [addr, Exec.accessAddr, sp, if_neg (by simp [dec])]
      have small := ((cpu.exec i r).prepared v.flavor u).ctx.sp.isLt
      rw [MicroExecutor.toNat_address_sp]
      omega
    · simp only [MicroOp.isDetour, Bool.and_eq_true] at detour
      simp [MicroOp.writes, detour.1.1.1.1] at writes
  · cases write.symm.trans (outcome.reads executes empty a mem)

/-- How often, where and how long in a row the core writes. -/
theorem write_discipline (told : Told β v prof (cpu, story)) :
    (∀ begun, story.begun = some begun → story.writes ≤ begun.writeCount v ∧
      (cpu.ucycs.Drained → story.writes = begun.writeCount v) ∧
      (begun.usesStack v → ∀ lines bus exit cpu' r,
        cpu.step v.flavor prof lines (⟨bus, []⟩ : Recorder β) = .ok (exit, cpu', r) →
        ∀ a ∈ r.log, a.isRead = false → 0x100 ≤ a.addr.toNat ∧ a.addr.toNat < 0x200)) ∧
    (∀ (calls : List (Call β)) logs cpu', run (call v prof) cpu calls = .ok (logs, cpu') →
      (∀ log ∈ logs, ∃ a ∈ log, a.isRead = false) → calls.length ≤ 3) ∧
    ∀ inputs : List (Lines × β), (∀ i ∈ inputs, i.1.rdy = false) → ∃ logs cpu',
      run (call v prof) cpu (inputs.map fun i => .step i.1 i.2) = .ok (logs, cpu') ∧
      (∀ log ∈ logs, ∀ a ∈ log, a.isRead = false) ∧ ∀ log ∈ logs.drop 3, log = [] := by
  have reach : cpu.Reachable β v prof := told.reachable
  have few := told.ahead_le
  obtain ⟨inv, tracks⟩ := told.tracks
  refine ⟨?_, ?_, ?_⟩
  · intro begun same
    have balanced := told.balanced begun same
    rw [same] at tracks
    refine ⟨by omega, fun drained => ?_, fun stack lines bus exit cpu' r ran => ?_⟩
    · simpa [drained.live_eq] using balanced
    · have sampled : (cpu.sampleNmi lines).Runs v begun := Tracks.sample tracks lines
      exact sampled.stack_write (inv.sample lines) stack (step_outcome inv ran) rfl
  · intro calls logs cpu' ran wrote
    exact Nat.le_trans (run_ahead reach ran wrote) few
  · intro inputs low
    obtain ⟨logs, cpu', ran, writes, idle⟩ := run_low reach low
    refine ⟨logs, cpu', ran, writes, fun log mem => idle log ?_⟩
    rw [← Nat.add_sub_cancel' few, ← List.drop_drop] at mem
    exact List.mem_of_mem_drop mem

def afterJsr : Cpu6502 × Story :=
  -- The core after six cycles on a memory full of JSR, with its story.
  follow (tell .nmos6502 .debug) (new, .start)
    (fun _ => .step Lines.none (⟨fun _ => 0x20⟩ : SimpleBus)) 6

set_option maxRecDepth 20000 in
theorem write_discipline_jsr : afterJsr.2.begun = some (.instruction 0x20) ∧
    afterJsr.1.ucycs.Drained ∧ afterJsr.2.writes = 2 := by
  have reaches : Reaches (tell (β := SimpleBus) .nmos6502 .debug) (fun _ _ => True) (new, Story.start)
      afterJsr := follow_reaches (new, Story.start) _ 6
  have told : Told SimpleBus .nmos6502 .debug (afterJsr.1, afterJsr.2) := reaches
  have begun : afterJsr.2.begun = some (.instruction 0x20) := rfl
  have drained : afterJsr.1.ucycs.Drained := ⟨rfl, rfl⟩
  obtain ⟨-, exact, -⟩ := (write_discipline told).1 _ begun
  exact ⟨begun, drained, exact drained⟩

end Cpu6502

end Rs65x
