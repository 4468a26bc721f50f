import Mathlib.Data.List.Infix
import Rs65x.Proof.Reach

/-!
# Where the live micro-ops come from

An opcode fetch or a request begins something, whose micro-ops are worked off from the front. Only
a taken branch adds to them.
-/

namespace Rs65x
open Fallible Machine

inductive Begun where
  | instruction (op : U8)
  | entry (type : InterruptType)
  deriving DecidableEq, Repr

namespace Begun

def opcode : Begun → U8
  | instruction op => op
  | entry _ => 0

def program (v : Variant) : Begun → List MicroOp
  | instruction op => v.emission op
  | entry type => interruptTail type.vector

def after (begun : Option Begun) (exit : StepExit) (cpu : Cpu6502) : Option Begun :=
  match exit with
  | .opcodeFetch => some (.instruction cpu.currentOpcode)
  | .interrupt type => some (.entry type)
  | _ => begun

end Begun

structure Story where
  begun : Option Begun
  writes : Nat

namespace Story

def start : Story := ⟨none, 0⟩

def after (story : Story) (exit : StepExit) (cpu : Cpu6502) (log : List Access) : Story where
  begun := Begun.after story.begun exit cpu
  writes := (match exit with
    | .opcodeFetch | .interrupt _ => 0
    | _ => story.writes) + log.countP fun a => !a.isRead

end Story

def MicroOp.isDetour (u : MicroOp) : Bool :=
  u.bus.read && u.bus.addr = .pc && u.localLatch = .none && !u.incSrc && match u.alu with
    | .none | .setPc _ => true
    | _ => false

namespace Exec
variable {β : Type}

theorem branchTail_forall {P : MicroOp → Prop} (pause : P (.read .pc .none false))
    (taken : ∀ pc, P (.readPcSetPc pc)) (e : Exec β) : ∀ u ∈ e.branchTail, P u := by
  simp only [branchTail]
  split
  · exact fun _ mem => absurd mem List.not_mem_nil
  split
  · split
    · exact List.forall_mem_cons.2 ⟨pause, List.forall_mem_singleton.2 (taken _)⟩
    · exact List.forall_mem_cons.2 ⟨taken _, List.forall_mem_singleton.2 (taken _)⟩
  · exact List.forall_mem_singleton.2 (taken _)

theorem branchTail_detour (e : Exec β) : e.branchTail.all (·.isDetour) :=
  List.all_eq_true.2 (branchTail_forall (P := fun u => u.isDetour) rfl (fun _ => rfl) e)

theorem next_live [Bus β] (F : Flavor) (e : Exec β) (u : MicroOp) (rest : List MicroOp) :
    (u.alu = .jam ∧ (e.next F u rest).2 = u :: rest) ∨ (e.next F u rest).2 <:+ rest ∨
      u.alu = .branch ∧ (e.next F u rest).2 = (e.body F u).1.branchTail := by
  simp only [next, turn]
  cases alu : u.alu with
  | branch => exact .inr (.inr ⟨rfl, rfl⟩)
  | jam => exact .inl ⟨rfl, rfl⟩
  | offsetWithExtraCycle =>
      refine .inr (.inl ?_)
      dsimp only
      split
      · exact List.suffix_rfl
      split
      · exact List.nil_suffix
      split
      · exact List.tail_suffix rest
      · exact List.suffix_rfl
  | fixPtr =>
      refine .inr (.inl ?_)
      dsimp only
      split
      · exact List.suffix_rfl
      split
      · exact List.nil_suffix
      · exact List.suffix_rfl
  | _ => exact .inr (.inl List.suffix_rfl)

end Exec

/-- A property of every micro-op that a core of the flavor can execute. -/
structure Universal (v : Variant) (P : MicroOp → Prop) : Prop where
  emitted : ∀ op, ∀ u ∈ v.emission op, P u
  entry : ∀ vector, ∀ u ∈ interruptTail vector, P u
  pause : P (.read .pc .none false)
  taken : ∀ pc, P (.readPcSetPc pc)

namespace Universal
variable {β : Type} [Bus β] {v : Variant} {P : MicroOp → Prop}

theorem next (universal : Universal v P) (e : Exec β) {u : MicroOp} {rest : List MicroOp}
    (all : ∀ u' ∈ u :: rest, P u') : ∀ u' ∈ (e.next v.flavor u rest).2, P u' := by
  rcases e.next_live v.flavor u rest with ⟨-, same⟩ | suffix | ⟨-, tail⟩
  · rw [same]
    exact all
  · exact fun u' mem => all u' (List.mem_cons_of_mem u (suffix.subset mem))
  · rw [tail]
    exact Exec.branchTail_forall universal.pause universal.taken _

open Cpu6502 in
theorem outcome (universal : Universal v P) {cpu cpu' : Cpu6502} (inv : cpu.Inv v) {lines : Lines}
    {bus bus' : β} {exit : StepExit} (outcome : Outcome v cpu lines bus exit cpu' bus')
    (all : ∀ u ∈ cpu.ucycs.live, P u) : ∀ u ∈ cpu'.ucycs.live, P u := by
  cases outcome with
  | stalled | extraCycle => exact all
  | @ucyc i u rest e us q awake inst live next wf live' more =>
      rw [live] at all
      have turned := universal.next (cpu.exec i bus) all
      rw [next] at turned
      exact fun u mem => turned u (live' ▸ mem)
  | @last i u rest e q awake inst live next drained =>
      obtain ⟨_, _, _, _, _, eq⟩ := finished_frame inv inst e q
      rw [eq]
      change ∀ u ∈ q.live, P u
      rw [drained.live_eq]
      exact fun _ mem => absurd mem List.not_mem_nil
  | interrupt awake inst empty ended request wf live' =>
      exact fun u mem => universal.entry _ u (live' ▸ mem)
  | fetch awake inst empty ended quiet masked wf live' | first awake inst wf live' =>
      exact fun u mem => universal.emitted _ u (live' ▸ mem)

end Universal

namespace Cpu6502
variable {β : Type} [Bus β]

structure Runs (v : Variant) (begun : Begun) (cpu : Cpu6502) : Prop where
  opcode : cpu.currentOpcode = begun.opcode
  inst : cpu.currentInst = some (v.decode begun.opcode)
  action : cpu.scratch.memoryAction = (v.decode begun.opcode).memoryAction
  live : cpu.ucycs.live <:+ begun.program v ∨ cpu.ucycs.live.all (·.isDetour)

def Tracks (v : Variant) (begun : Option Begun) (cpu : Cpu6502) : Prop :=
  match begun with
  | none => cpu.currentInst = none
  | some begun => cpu.Runs v begun

theorem Runs.turn {v : Variant} {begun : Begun} {cpu : Cpu6502} (runs : cpu.Runs v begun)
    {u : MicroOp} {rest us : List MicroOp} (live : cpu.ucycs.live = u :: rest) {bus : β}
    {e : Exec β}
    (next : (cpu.exec (v.decode begun.opcode) bus).next v.flavor u rest = (e, us))
    {q : UcycQueue} (live' : q.live = us) : (cpu.restore e q).Runs v begun where
  opcode := runs.opcode
  inst := runs.inst
  action := by
    have kept := Exec.next_action v.flavor (cpu.exec (v.decode begun.opcode) bus) u rest
    rw [next] at kept
    exact kept.trans runs.action
  live := by
    have step := Exec.next_live v.flavor (cpu.exec (v.decode begun.opcode) bus) u rest
    rw [next] at step
    change q.live <:+ _ ∨ q.live.all _
    rw [live']
    have behind : rest <:+ begun.program v ∨ rest.all (·.isDetour) := by
      rcases runs.live with emitted | detour
      · rw [live] at emitted
        exact .inl ((List.suffix_cons u rest).trans emitted)
      · rw [live, List.all_cons, Bool.and_eq_true] at detour
        exact .inr detour.2
    rcases step with ⟨-, same⟩ | suffix | ⟨-, tail⟩
    · replace same : us = u :: rest := same
      rw [same, ← live]
      exact runs.live
    · rcases behind with emitted | detour
      · exact .inl (suffix.trans emitted)
      · rw [List.all_eq_true] at detour ⊢
        exact .inr fun u mem => detour u (suffix.subset mem)
    · replace tail : us = _ := tail
      rw [tail]
      exact .inr (Exec.branchTail_detour _)

theorem Outcome.tracks {v : Variant} {cpu cpu' : Cpu6502} (inv : cpu.Inv v) {lines : Lines}
    {bus bus' : β} {exit : StepExit} (outcome : Outcome v cpu lines bus exit cpu' bus')
    {begun : Option Begun} (tracks : cpu.Tracks v begun) :
    cpu'.Tracks v (Begun.after begun exit cpu') := by
  cases outcome with
  | stalled => exact tracks
  | @ucyc i u rest e us q awake inst live next wf live' more =>
      cases begun with
      | none => cases inst.symm.trans tracks
      | some begun =>
          cases inst.symm.trans tracks.inst
          exact tracks.turn live next live'
  | @last i u rest e q awake inst live next drained =>
      cases begun with
      | none => cases inst.symm.trans tracks
      | some begun =>
          cases inst.symm.trans tracks.inst
          have turned := tracks.turn live next drained.live_eq
          obtain ⟨_, _, _, _, _, eq⟩ := finished_frame inv inst e q
          rw [eq]
          exact ⟨turned.opcode, turned.inst, turned.action, turned.live⟩
  | extraCycle awake inst empty due =>
      cases begun with
      | none => exact tracks
      | some begun => exact ⟨tracks.opcode, tracks.inst, tracks.action, tracks.live⟩
  | interrupt awake inst empty ended request wf live' =>
      refine ⟨rfl, rfl, ?_, .inl (live' ▸ List.suffix_rfl)⟩
      rw [show (Begun.entry _).opcode = 0 from rfl, decode_brk]
      rfl
  | fetch awake inst empty ended quiet masked wf live' =>
      exact ⟨rfl, rfl, rfl, .inl (live' ▸ List.suffix_rfl)⟩
  | first awake inst wf live' => exact ⟨rfl, rfl, rfl, .inl (live' ▸ List.suffix_rfl)⟩

def tell (v : Variant) (prof : Profile) (s : Cpu6502 × Story) :
    Call β → Except Fault (List Access × (Cpu6502 × Story))
  | .step lines bus => do
      let (exit, cpu, r) ← s.1.step v.flavor prof lines (⟨bus, []⟩ : Recorder β)
      return (r.log, (cpu, s.2.after exit cpu r.log))
  | .reset bus =>
      let r := s.1.reset (⟨bus, []⟩ : Recorder β)
      .ok (r.2.log, (r.1, Story.start))

variable (β) in
/-- The core is reachable from `new`, with the story given. -/
def Told (v : Variant) (prof : Profile) (s : Cpu6502 × Story) : Prop :=
  Reaches (tell (β := β) v prof) (fun _ _ => True) (new, .start) s

theorem tell_step {v : Variant} {prof : Profile} {cpu cpu' : Cpu6502} {story : Story}
    {lines : Lines} {bus : β} {exit : StepExit} {r : Recorder β}
    (ran : cpu.step v.flavor prof lines (⟨bus, []⟩ : Recorder β) = .ok (exit, cpu', r)) :
    tell v prof (cpu, story) (.step lines bus) = .ok (r.log, (cpu', story.after exit cpu' r.log)) := by
  simp only [tell, ran, ok_bind]
  rfl

theorem tell_ok {v : Variant} {prof : Profile} {s t : Cpu6502 × Story} {lines : Lines} {bus : β}
    {log : List Access} (ran : tell v prof s (.step lines bus) = .ok (log, t)) :
    ∃ exit r, s.1.step v.flavor prof lines (⟨bus, []⟩ : Recorder β) = .ok (exit, t.1, r) ∧
      r.log = log ∧ s.2.after exit t.1 r.log = t.2 := by
  simp only [tell, bind_eq_ok, Prod.exists] at ran
  obtain ⟨exit, cpu', r, ran, eq⟩ := ran
  cases eq
  exact ⟨exit, r, ran, rfl, rfl⟩

theorem Told.invariant {v : Variant} {prof : Profile} {s : Cpu6502 × Story}
    (told : Told β v prof s) {P : Cpu6502 → Story → Prop}
    (start : ∀ cpu : Cpu6502, cpu.Inv v → cpu.currentInst = none → P cpu .start)
    (step : ∀ {cpu cpu' story lines exit} {r r' : Recorder β}, cpu.Inv v → P cpu story →
      Outcome v (cpu.sampleNmi lines) lines r exit cpu' r' → r.log = [] →
      P cpu' (story.after exit cpu' r'.log)) : s.1.Inv v ∧ P s.1 s.2 := by
  refine Reaches.invariant (P := fun s => s.1.Inv v ∧ P s.1 s.2) told
    ⟨new_inv v, start new (new_inv v) rfl⟩ ?_
  rintro ⟨cpu, story⟩ input log s' ⟨inv, holds⟩ - ran
  cases input with
  | step lines bus =>
      obtain ⟨exit, r, ran, -, told⟩ := tell_ok ran
      have outcome := step_outcome inv ran
      exact ⟨outcome.inv (inv.sample lines), told ▸ step inv holds outcome rfl⟩
  | reset bus =>
      cases ran
      have inv' := reset_inv v cpu (⟨bus, []⟩ : Recorder β)
      exact ⟨inv', start _ inv' rfl⟩

theorem Tracks.sample {v : Variant} {begun : Option Begun} {cpu : Cpu6502}
    (tracks : cpu.Tracks v begun) (lines : Lines) : (cpu.sampleNmi lines).Tracks v begun := by
  cases begun with
  | none => exact tracks
  | some begun => exact ⟨tracks.opcode, tracks.inst, tracks.action, tracks.live⟩

theorem Told.tracks {v : Variant} {prof : Profile} {s : Cpu6502 × Story}
    (told : Told β v prof s) : s.1.Inv v ∧ s.1.Tracks v s.2.begun := by
  refine told.invariant (P := fun cpu story => cpu.Tracks v story.begun) ?_ ?_
  · intro cpu _ idle
    exact idle
  · intro cpu cpu' story lines exit r r' inv tracks outcome _
    exact outcome.tracks (inv.sample lines) (tracks.sample lines)

theorem Told.reachable {v : Variant} {prof : Profile} {s : Cpu6502 × Story}
    (told : Told β v prof s) : s.1.Reachable β v prof := by
  induction told with
  | refl => exact .refl
  | @tail s input log t _ _ ran ih =>
      cases input with
      | step lines bus =>
          obtain ⟨exit, r, stepped, rfl, -⟩ := tell_ok ran
          have called : s.1.call v prof (.step lines bus) = .ok (r.log, t.1) := by
            rw [call, stepped]
            rfl
          exact ih.tail trivial called
      | reset bus =>
          cases ran
          have called : s.1.call v prof (.reset bus) =
              .ok ((s.1.reset (⟨bus, []⟩ : Recorder β)).2.log,
                (s.1.reset (⟨bus, []⟩ : Recorder β)).1) := rfl
          exact ih.tail trivial called

theorem Reachable.told {v : Variant} {prof : Profile} {cpu : Cpu6502}
    (reach : cpu.Reachable β v prof) : ∃ story, Told β v prof (cpu, story) := by
  induction reach with
  | refl => exact ⟨.start, .refl⟩
  | @tail cpu input log cpu' _ _ ran ih =>
      obtain ⟨story, told⟩ := ih
      cases input with
      | step lines bus =>
          obtain ⟨exit, r, stepped, rfl⟩ := call_ok ran
          exact ⟨_, told.tail trivial (tell_step stepped)⟩
      | reset bus =>
          cases ran
          have next : tell v prof (cpu, story) (.reset bus) =
              .ok ((cpu.reset (⟨bus, []⟩ : Recorder β)).2.log,
                ((cpu.reset (⟨bus, []⟩ : Recorder β)).1, .start)) := rfl
          exact ⟨.start, told.tail trivial next⟩

end Cpu6502

end Rs65x
