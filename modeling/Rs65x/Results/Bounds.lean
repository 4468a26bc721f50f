import Rs65x.Proof.Below
import Rs65x.Proof.Range
import Rs65x.Proof.Reach
import Rs65x.Results.Cycles

/-!
# Address range and panics
-/

namespace Rs65x
open Fallible Machine Words

namespace Cpu6502
variable {β : Type} [Bus β]

/-! ## The 16-bit address bus -/

def InRange (v : Variant) (cpu : Cpu6502) : Prop :=
  ∀ i u, cpu.currentInst = some i → cpu.ucycs.front = some u → (cpu.exec i ()).InRange v.flavor u

def StaysInRange (v : Variant) (cpu : Cpu6502) : Call β → Prop
  | .step lines _ => cpu.stalls lines = true ∨ cpu.InRange v
  | .reset _ => True

theorem fits_extraAddr {cpu : Cpu6502} (v : Variant) (fits : Fits cpu.scratch.ea)
    (i : Instruction) : Fits (cpu.extraAddr v.flavor i) := by
  simp only [extraAddr, extraCycleAddr]
  split
  · split
    · cases v <;> decide
    all_goals exact Nat.zero_lt_succ _
  · exact fits

theorem fits_new : Fits MicroExecutor.new.ea := by decide

theorem Outcome.fits {v : Variant} {cpu cpu' : Cpu6502} (inv : cpu.Inv v) {lines : Lines}
    {r r' : Recorder β} {exit : StepExit} (outcome : Outcome v cpu lines r exit cpu' r')
    (fits : Fits cpu.scratch.ea) (range : cpu.stalls lines = true ∨ cpu.InRange v) :
    Fits cpu'.scratch.ea ∧ ∀ addr, cpu.stalls lines = false → cpu.Addresses v r addr → Fits addr := by
  have next {i : Instruction} {u : MicroOp} {rest : List MicroOp}
      (awake : cpu.stalls lines = false) (inst : cpu.currentInst = some i)
      (live : cpu.ucycs.live = u :: rest) :
      Fits ((cpu.exec i r).accessAddr v.flavor u) ∧
        Fits ((cpu.exec i r).next v.flavor u rest).1.scratch.ea := by
    have laws := (inv.inst inst).2
    simp only [live, lawful, MicroOp.lawful, Bool.and_eq_true] at laws
    have front : cpu.ucycs.front = some u := by rw [UcycQueue.front_eq, live]; rfl
    exact Exec.next_fits rest laws.1.1.2 fits
      (range.resolve_left (by simp [awake]) i u inst front)
  constructor
  · cases outcome with
    | stalled | extraCycle => exact fits
    | @ucyc i u rest e us q awake inst live turned =>
        have := (next awake inst live).2
        rw [turned] at this
        exact this
    | @last i u rest e q awake inst live turned =>
        have := (next awake inst live).2
        rw [turned] at this
        obtain ⟨_, _, _, _, _, eq⟩ := finished_frame inv inst e q
        rw [eq]
        exact this
    | interrupt | fetch | first => exact fits_new
  · rintro addr awake (rfl | ⟨i, -, -, rfl⟩ | ⟨i, u, rest, inst, live, rfl⟩)
    · exact fits_setWidth _ (by omega)
    · exact fits_extraAddr v fits i
    · exact (next awake inst live).1

theorem call_fits {v : Variant} {prof : Profile} {cpu cpu' : Cpu6502} (inv : cpu.Inv v)
    (fits : Fits cpu.scratch.ea) {input : Call β} (range : cpu.StaysInRange v input)
    {log : List Access} (run : cpu.call v prof input = .ok (log, cpu')) :
    Fits cpu'.scratch.ea := by
  cases input with
  | step lines bus =>
      obtain ⟨exit, r, run, -⟩ := call_ok run
      exact ((step_outcome inv run).fits (inv.sample lines) fits range).1
  | reset bus =>
      cases run
      exact fits_new

def stepAccesses (v : Variant) (prof : Profile) (cpu : Cpu6502) (lines : Lines) (bus : β) :
    List Access :=
  (get (cpu.call v prof (.step lines bus)) ([], cpu)).1

/-- In a run whose micro-ops all stay inside 64K, so does every address on the bus. -/
theorem step_addresses_fit {v : Variant} {prof : Profile} {cpu : Cpu6502}
    (reach : Reaches (call (β := β) v prof) (fun cpu input => cpu.StaysInRange v input) new cpu)
    (lines : Lines) (bus : β) (range : cpu.StaysInRange v (.step lines bus)) :
    ∀ a ∈ cpu.stepAccesses v prof lines bus, a.addr.toNat < 0x10000 := by
  obtain ⟨inv, fits⟩ : cpu.Inv v ∧ Fits cpu.scratch.ea :=
    reach.invariant (P := fun cpu => cpu.Inv v ∧ Fits cpu.scratch.ea) ⟨new_inv v, fits_new⟩
      fun ⟨inv, fits⟩ range run => ⟨call_inv inv run, call_fits inv fits range run⟩
  intro a mem
  simp only [stepAccesses, call] at mem
  cases run : cpu.step v.flavor prof lines (⟨bus, []⟩ : Recorder β) with
  | error fault =>
      rw [run, error_bind, get_error] at mem
      cases mem
  | ok result =>
      obtain ⟨exit, cpu', r⟩ := result
      simp only [run, ok_bind, pure_eq, get_ok] at mem
      have outcome := step_outcome inv run
      cases stalls : (cpu.sampleNmi lines).stalls lines with
      | true =>
          cases run.symm.trans (step_stalls stalls _)
          cases mem
      | false =>
          obtain ⟨a', log, -, addr⟩ := outcome.log (inv.sample lines) stalls
          simp only [log, List.nil_append, List.mem_singleton] at mem
          subst mem
          exact (outcome.fits (inv.sample lines) fits range).2 _ stalls addr

def ldaAbsoluteX (addr : U16) : SimpleBus := ⟨fun at' =>
  -- LDX #1, LDA at the given address plus X.
  if at' = 0 then 0xA2 else if at' = 1 then 0x01 else if at' = 2 then 0xBD
  else if at' = 3 then loByte addr else if at' = 4 then hiByte addr else 0x77⟩

instance (v : Variant) (cpu : Cpu6502) : Decidable (cpu.InRange v) :=
  match inst : cpu.currentInst, front : cpu.ucycs.front with
  | some i, some u => decidable_of_iff ((cpu.exec i ()).InRange v.flavor u) ⟨
      fun range i' u' inst' front' => by
        cases inst.symm.trans inst'
        cases front.symm.trans front'
        exact range,
      fun range => range i u inst front⟩
  | none, _ => isTrue fun i u inst' => by cases inst.symm.trans inst'
  | some _, none => isTrue fun i u _ front' => by cases front.symm.trans front'

set_option maxRecDepth 20000 in
theorem step_addresses_fit_top :
    let steps := fun _ : Nat => Call.step Lines.none (ldaAbsoluteX 0xFFFE)
    ∃ a, (follow (call .nmos6502 .debug) new steps 5).stepAccesses .nmos6502 .debug Lines.none
      (ldaAbsoluteX 0xFFFE) = [a] ∧ a.addr = 0xFFFF ∧ a.addr.toNat < 0x10000 := by
  intro steps
  have stays : ∀ k < 6, (follow (call .nmos6502 .debug) new steps k).StaysInRange .nmos6502
      (steps k) := by
    intro k lt
    refine .inr ?_
    interval_cases k <;> decide
  have reach : Reaches (call .nmos6502 .debug) (fun cpu input => cpu.StaysInRange .nmos6502 input) new
      (follow (call .nmos6502 .debug) new steps 5) :=
    follow_allowed fun k lt => stays k (Nat.lt_succ_of_lt lt)
  have read : (follow (call .nmos6502 .debug) new steps 5).stepAccesses .nmos6502 .debug Lines.none
      (ldaAbsoluteX 0xFFFE) = [.read 0xFFFF true false 0x77] := by decide
  exact ⟨_, read, rfl, step_addresses_fit reach _ _ (stays 5 (by decide)) _ (read ▸ List.mem_singleton_self _)⟩

set_option maxRecDepth 20000 in
/-- The indexed read of LDA $FFFF,X goes to $10000. -/
theorem step_addresses_overrun : ¬ ∀ v prof (cpu : Cpu6502), cpu.Reachable SimpleBus v prof →
    ∀ (lines : Lines) (bus : SimpleBus), ∀ a ∈ cpu.stepAccesses v prof lines bus,
      a.addr.toNat < 0x10000 := by
  intro holds
  have read := holds .nmos6502 .debug _
    (follow_reaches new (fun _ => .step Lines.none (ldaAbsoluteX 0xFFFF)) 6) Lines.none (ldaAbsoluteX 0xFFFF)
  revert read
  decide

/-! ## Panics -/

/-- The call returns, and with overflow checks it returns the same: no plain operation in it overflows. -/
def Safe (v : Variant) (prof : Profile) (cpu : Cpu6502) (input : Call β) : Prop :=
  ∃ r, cpu.call v prof input = .ok r ∧ cpu.call v .debug input = .ok r

/-- The call stalls or is not the cycle of JMP (ind) that leaves sixteen bits. -/
def PtrStays (cpu : Cpu6502) : Call β → Prop
  | .step lines _ => cpu.stalls lines = true ∨ cpu.ptrOverflows = false
  | .reset _ => True

theorem call_below (v : Variant) (cpu : Cpu6502) (input : Call β) :
    Below (cpu.call v .debug input) (cpu.call v .release input) := by
  cases input with
  | step lines bus => exact (step_below v cpu _ lines).bind fun _ => .same _
  | reset bus => exact .same _

/-- In either build a call is safe, but for one cycle of a CMOS JMP (ind). -/
theorem call_safe_iff {v : Variant} {prof : Profile} {cpu : Cpu6502}
    (reach : cpu.Reachable β v prof) (input : Call β) : cpu.Safe v prof input ↔ cpu.PtrStays input := by
  cases input with
  | reset bus => exact iff_of_true ⟨_, rfl, rfl⟩ trivial
  | step lines bus =>
      constructor
      · rintro ⟨r, -, checked⟩
        by_contra leaves
        obtain ⟨awake, large⟩ := not_or.1 leaves
        have fault := step_overflows reach.inv (⟨bus, []⟩ : Recorder β)
          (Bool.eq_false_iff.2 awake) (by simpa using large)
        simp [call, fault] at checked
      · intro stays
        obtain ⟨r, checked⟩ : ∃ r, cpu.call v .debug (.step lines bus) = .ok r := by
          rcases step_cases reach.inv .debug lines (⟨bus, []⟩ : Recorder β) with
            ⟨exit, cpu', r, run, -⟩ | ⟨-, awake, large, -⟩
          · exact ⟨_, by rw [call, run]; rfl⟩
          · rcases stays with stalled | small
            · cases awake.symm.trans stalled
            · cases large.symm.trans small
        refine ⟨r, ?_, checked⟩
        cases prof with
        | debug => exact checked
        | release => exact call_below v cpu _ r checked

def jmpIndirect (addr : U16) : SimpleBus := ⟨fun at' =>
  -- JMP through a pointer at the given address, in a memory that is otherwise all ones.
  if at' = 0 then 0x6C else if at' = 1 then loByte addr else if at' = 2 then hiByte addr else 0xFF⟩

set_option maxRecDepth 20000 in
theorem call_safe_iff_jmp :
    (follow (call .rockwell65C02 .release) new (fun _ => .step Lines.none (jmpIndirect 0x02FF)) 4).Safe
      .rockwell65C02 .release (.step Lines.none (jmpIndirect 0x02FF)) ∧
    ¬ (follow (call .rockwell65C02 .release) new (fun _ => .step Lines.none (jmpIndirect 0xFFFF)) 4).Safe
      .rockwell65C02 .release (.step Lines.none (jmpIndirect 0xFFFF)) := by
  constructor
  · exact (call_safe_iff (follow_reaches new _ 4) _).2 (.inr (by decide))
  · intro safe
    rcases (call_safe_iff (follow_reaches new _ 4) _).1 safe with stalls | small
    · cases stalls
    · revert small
      decide

set_option maxRecDepth 20000 in
/-- The fifth cycle of JMP ($FFFF) on a CMOS core adds $100 to a pointer of $FF00: a debug build panics,
and a release build wraps. -/
theorem call_overflows :
    (¬ ∀ v (cpu : Cpu6502), cpu.Reachable SimpleBus v .debug → ∀ input : Call SimpleBus,
      ∃ r, cpu.call v .debug input = .ok r) ∧
    ¬ ∀ v (cpu : Cpu6502), cpu.Reachable SimpleBus v .release → ∀ input : Call SimpleBus,
      cpu.Safe v .release input := by
  have fault (prof : Profile) : (follow (call .rockwell65C02 prof) new
      (fun _ => .step Lines.none (jmpIndirect 0xFFFF)) 4).call .rockwell65C02 .debug
        (.step Lines.none (jmpIndirect 0xFFFF)) = .error .overflow := by
    cases prof <;> decide
  constructor
  · intro returns
    obtain ⟨r, run⟩ := returns .rockwell65C02 _
      (follow_reaches new (fun _ => .step Lines.none (jmpIndirect 0xFFFF)) 4)
      (.step Lines.none (jmpIndirect 0xFFFF))
    cases (fault .debug).symm.trans run
  · intro safe
    obtain ⟨r, -, checked⟩ := safe .rockwell65C02 _
      (follow_reaches new (fun _ => .step Lines.none (jmpIndirect 0xFFFF)) 4)
      (.step Lines.none (jmpIndirect 0xFFFF))
    cases (fault .release).symm.trans checked

end Cpu6502

end Rs65x
