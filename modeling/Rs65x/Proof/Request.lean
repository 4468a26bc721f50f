import Rs65x.Lib.Machine
import Rs65x.Proof.Trail

/-!
# The core as a bus master

In a cycle the core makes at most one request, out of its own state and the lines. What the bus is
plays no part in it.
-/

namespace Rs65x
open Fallible Machine

/-- At most one call of a bus, and what is made of the answer. -/
inductive Request (A : Type) where
  | idle (result : A)
  | read (addr : U32) (vda vpa : Bool) (answer : U8 → A)
  | write (addr : U32) (data : U8) (vda vpa : Bool) (result : A)

namespace Request
variable {A B β : Type} [Bus β]

def perform : Request A → β → A × β
  | idle result, bus => (result, bus)
  | read addr vda vpa answer, bus =>
      let (data, bus) := Bus.read bus addr vda vpa
      (answer data, bus)
  | write addr data vda vpa result, bus => (result, Bus.write bus addr data vda vpa)

def map (f : A → B) : Request A → Request B
  | idle result => idle (f result)
  | read addr vda vpa answer => read addr vda vpa fun data => f (answer data)
  | write addr data vda vpa result => write addr data vda vpa (f result)

@[simp] theorem perform_map (f : A → B) (q : Request A) (bus : β) :
    (q.map f).perform bus = (f (q.perform bus).1, (q.perform bus).2) := by
  cases q with
  | idle | read | write => rfl

end Request

namespace Exec
variable {β : Type}

def on (e : Exec Unit) (bus : β) : Exec β := ⟨e.scratch, e.ctx, bus⟩

theorem addOffset_on (e : Exec Unit) (bus : β) (latch : Latch) (offset : U16) :
    (e.on bus).addOffset latch offset = (e.addOffset latch offset).map (·.on bus) := by
  simp only [addOffset, on]
  cases e.scratch.addOffset e.ctx latch offset with
  | error | ok => rfl

theorem prepareStore_on (e : Exec Unit) (bus : β) (u : MicroOp) :
    (e.on bus).prepareStore u = (e.prepareStore u).on bus := by
  unfold prepareStore
  cases u.bus.read with
  | true | false => rfl

theorem prepareAlu_on (F : Flavor) (e : Exec Unit) (bus : β) (alu : AluOp) :
    (e.on bus).prepareAlu F alu = ((e.prepareAlu F alu).1.on bus, (e.prepareAlu F alu).2) := by
  cases alu with
  | _ => rfl

theorem map_on (x : Except Fault UcycQueue) (e : Exec Unit) (bus : β) :
    (do return (e.on bus, ← x)) = (do return (e, ← x) : Except Fault (Exec Unit × UcycQueue)).map
      fun r => (r.1.on bus, r.2) := by
  cases x with
  | error | ok => rfl

theorem bind_on (x : Except Fault UcycQueue) (f : UcycQueue → Except Fault UcycQueue) (e : Exec Unit)
    (bus : β) : (do let queue ← x; return (e.on bus, ← f queue)) =
      (do let queue ← x; return (e, ← f queue) : Except Fault (Exec Unit × UcycQueue)).map
        fun r => (r.1.on bus, r.2) := by
  cases x with
  | error => rfl
  | ok queue => exact map_on (f queue) e bus

theorem finishAlu_on (F : Flavor) (prof : Profile) (e : Exec Unit) (bus : β) (alu : AluOp)
    (fixedAddr : Option U32) (queue : UcycQueue) :
    (e.on bus).finishAlu F prof alu fixedAddr queue =
      (e.finishAlu F prof alu fixedAddr queue).map fun r => (r.1.on bus, r.2) := by
  have add (latch : Latch) (offset : U16) :
      (do return (← (e.on bus).addOffset latch offset, queue)) =
        (do return (← e.addOffset latch offset, queue) : Except Fault (Exec Unit × UcycQueue)).map
          fun r => (r.1.on bus, r.2) := by
    rw [addOffset_on]
    cases e.addOffset latch offset with
    | error | ok => rfl
  cases alu with
  | none | decSp | swapEaPc | setPc => rfl
  | addOffset latch offset => exact add latch _
  | specialAddOffset => exact add .ea _
  | incLatch latch => exact add latch 1
  | jam => exact map_on (queue.decHead prof) e bus
  | modify =>
      simp only [finishAlu, on]
      cases e.ctx.aluModify F prof e.scratch with
      | error | ok => rfl
  | offsetWithExtraCycle offsetType =>
      cases fixedAddr with
      | some addr => rfl
      | none =>
          simp only [finishAlu, on, apply_ite (Except.map _)]
          rfl
  | branch =>
      simp only [finishAlu, on]
      cases e.ctx.aluBranch prof e.scratch with
      | error => rfl
      | ok taken =>
          cases taken with
          | false => rfl
          | true =>
              simp only [ok_bind, if_true, apply_ite (Except.map _)]
              refine ite_congr rfl (fun _ => ?_) fun _ => map_on _ e bus
              exact ite_congr rfl (fun _ => bind_on _ _ e bus) fun _ => bind_on _ _ e bus
  | fixPtr =>
      simp only [finishAlu, on, apply_ite (Except.map _)]
      cases plainAdd prof e.scratch.ptr 0x100 with
      | error | ok => rfl

def settle (F : Flavor) (prof : Profile) (u : MicroOp) (fixedAddr : Option U32) (queue : UcycQueue)
    (e : Exec β) : Except Fault (Exec β × UcycQueue) := do
  let e ← if u.incSrc then e.addOffset u.bus.addr 1 else pure e
  e.finishAlu F prof u.alu fixedAddr queue

theorem settle_on (F : Flavor) (prof : Profile) (u : MicroOp) (fixedAddr : Option U32)
    (queue : UcycQueue) (e : Exec Unit) (bus : β) : (e.on bus).settle F prof u fixedAddr queue =
      (e.settle F prof u fixedAddr queue).map fun r => (r.1.on bus, r.2) := by
  unfold settle
  cases u.incSrc with
  | false => exact finishAlu_on F prof e bus u.alu fixedAddr queue
  | true =>
      simp only [if_true, addOffset_on]
      cases e.addOffset u.bus.addr 1 with
      | error => rfl
      | ok e => exact finishAlu_on F prof e bus u.alu fixedAddr queue

def requestAt (F : Flavor) (prof : Profile) (e : Exec Unit) (u : MicroOp) (fixedAddr : Option U32)
    (queue : UcycQueue) (addr : U32) : Request (Except Fault (Exec Unit × UcycQueue)) :=
  if u.bus.read then
    .read addr u.bus.vda u.bus.vpa fun data =>
      let (scratch, ctx) := { e.scratch with dataLatch := data }.writeLatch e.ctx u.localLatch data
      settle F prof u fixedAddr queue ⟨scratch, ctx, ()⟩
  else
    let dataLatch := if u.localLatch ≠ .none then e.scratch.readLatch e.ctx u.localLatch
      else e.scratch.dataLatch
    .write addr dataLatch u.bus.vda u.bus.vpa
      (settle F prof u fixedAddr queue { e with scratch := { e.scratch with dataLatch } })

def request (F : Flavor) (prof : Profile) (e : Exec Unit) (u : MicroOp) (queue : UcycQueue) :
    Request (Except Fault (Exec Unit × UcycQueue)) :=
  let (e, fixedAddr) := (e.prepareStore u).prepareAlu F u.alu
  match e.scratch.addressOf prof u.bus.addr e.ctx with
  | .error fault => .idle (.error fault)
  | .ok addr =>
      e.requestAt F prof u fixedAddr queue (if u.alu = .specialAddOffset then addr - 1 else addr)

variable [Bus β] (F : Flavor) (prof : Profile) (u : MicroOp) (queue : UcycQueue)

theorem access_on (e : Exec Unit) (fixedAddr : Option U32) (addr : U32) (bus : β) :
    ((e.on bus).access u addr).settle F prof u fixedAddr queue =
      ((e.requestAt F prof u fixedAddr queue addr).perform bus).1.map fun r =>
        (r.1.on ((e.requestAt F prof u fixedAddr queue addr).perform bus).2, r.2) := by
  unfold access requestAt
  cases u.bus.read with
  | true =>
      let data := (Bus.read bus addr u.bus.vda u.bus.vpa).1
      let written := { e.scratch with dataLatch := data }.writeLatch e.ctx u.localLatch data
      exact settle_on F prof u fixedAddr queue ⟨written.1, written.2, ()⟩ _
  | false =>
      let dataLatch := if u.localLatch ≠ .none then e.scratch.readLatch e.ctx u.localLatch
        else e.scratch.dataLatch
      exact settle_on F prof u fixedAddr queue { e with scratch := { e.scratch with dataLatch } }
        (Bus.write bus addr dataLatch u.bus.vda u.bus.vpa)

theorem execUcyc_on (e : Exec Unit) (bus : β) : (e.on bus).execUcyc F prof u queue =
    ((e.request F prof u queue).perform bus).1.map fun r =>
      (r.1.on ((e.request F prof u queue).perform bus).2, r.2) := by
  unfold execUcyc request
  rw [prepareStore_on, prepareAlu_on]
  rcases (e.prepareStore u).prepareAlu F u.alu with ⟨e, fixedAddr⟩
  have scratch : (e.on bus).scratch = e.scratch := rfl
  have ctx : (e.on bus).ctx = e.ctx := rfl
  simp only [scratch, ctx]
  cases e.scratch.addressOf prof u.bus.addr e.ctx with
  | error => rfl
  | ok addr => exact access_on F prof u queue e fixedAddr _ bus

end Exec

namespace Cpu6502
variable (F : Flavor) (prof : Profile)

/-- Whatever the bus, the computation puts one and the same request to it. -/
def Requests {A : Type} (f : ∀ (β : Type) [Bus β], β → Except Fault (A × β)) : Prop :=
  ∃ q : Request (Except Fault A), ∀ (β : Type) [Bus β] (bus : β),
    f β bus = (q.perform bus).1.map fun a => (a, (q.perform bus).2)

variable {A B : Type} {f : ∀ (β : Type) [Bus β], β → Except Fault (A × β)}

theorem Requests.idle (x : Except Fault A) : Requests fun _ _ bus => x.map fun a => (a, bus) :=
  ⟨.idle x, fun _ _ _ => rfl⟩

theorem Requests.read (addr : U32) (vda vpa : Bool) (answer : U8 → Except Fault A) :
    Requests fun _ _ bus =>
      (answer (Bus.read bus addr vda vpa).1).map fun a => (a, (Bus.read bus addr vda vpa).2) :=
  ⟨.read addr vda vpa answer, fun _ _ _ => rfl⟩

theorem Requests.bind (requests : Requests f) (g : A → Except Fault B) :
    Requests fun β _ bus => f β bus >>= fun r => (g r.1).map fun b => (b, r.2) := by
  obtain ⟨q, eq⟩ := requests
  refine ⟨q.map (· >>= g), fun β _ bus => ?_⟩
  simp only [eq, Request.perform_map]
  cases (q.perform bus).1 with
  | error | ok => rfl

theorem Requests.congr {f' : ∀ (β : Type) [Bus β], β → Except Fault (A × β)} (requests : Requests f)
    (same : ∀ (β : Type) [Bus β] (bus : β), f' β bus = f β bus) : Requests f' := by
  obtain ⟨q, eq⟩ := requests
  exact ⟨q, fun β _ bus => (same β bus).trans (eq β bus)⟩

variable (cpu : Cpu6502)

theorem fetch_requests : Requests fun _ _ bus => cpu.fetchInstruction F prof bus := by
  refine (Requests.read (cpu.pc.setWidth 32) false true fun opcode =>
    { cpu with pc := cpu.pc + 1 }.prepareInstruction F prof opcode).congr fun β _ bus => ?_
  simp only [fetchInstruction, fetchOpcode]
  cases { cpu with pc := cpu.pc + 1 }.prepareInstruction F prof
    (Bus.read bus (cpu.pc.setWidth 32) false true).1 with
  | error | ok => rfl

theorem execute_requests (i : Instruction) (queue : UcycQueue) :
    Requests fun _ _ bus =>
      (Exec.executeNext F prof ⟨cpu.scratch, cpu.toCtx i, bus⟩ queue).map fun r =>
        ((r.1, cpu.restore r.2.1 r.2.2), r.2.1.bus) := by
  rcases popped : queue.pop with ⟨front, queue'⟩
  cases front with
  | none =>
      refine (Requests.idle (.ok (.doOpcodeFetch, cpu.restore (cpu.exec i ()) queue'))).congr
        fun β _ bus => ?_
      simp only [Exec.executeNext, popped]
      rfl
  | some u =>
      refine ⟨((cpu.exec i ()).request F prof u queue').map fun x =>
        x.map fun r => (.pending, cpu.restore r.1 r.2), fun β _ bus => ?_⟩
      have here := Exec.execUcyc_on F prof u queue' (cpu.exec i ()) bus
      simp only [Exec.executeNext, popped, Request.perform_map]
      change ((((cpu.exec i ()).on bus).execUcyc F prof u queue' >>= _) : Except _ _).map _ = _
      rw [here]
      cases (((cpu.exec i ()).request F prof u queue').perform bus).1 with
      | error | ok => rfl

theorem Requests.map (requests : Requests f) (g : A → B) :
    Requests fun β _ bus => (f β bus).map fun r => (g r.1, r.2) := by
  refine (requests.bind fun a => .ok (g a)).congr fun β _ bus => ?_
  cases f β bus with
  | error | ok => rfl

theorem Requests.error (fault : Fault) : Requests (A := A) fun _ _ _ => .error fault :=
  Requests.idle (.error fault)

theorem Requests.after {C : Type} (x : Except Fault C)
    {f : C → ∀ (β : Type) [Bus β], β → Except Fault (A × β)} (requests : ∀ c, Requests (f c)) :
    Requests fun β _ bus => x >>= fun c => f c β bus := by
  cases x with
  | error fault => exact Requests.error fault
  | ok c => exact requests c

theorem interrupt_requests (type : InterruptType) :
    Requests fun _ _ bus => cpu.startInterrupt F prof bus type := by
  let i := Instruction.fromByte 0 F.opcodeTable
  let opened := { cpu with
    currentOpcode := 0
    currentInst := some i
    scratch := { MicroExecutor.new with memoryAction := i.memoryAction } }
  refine Requests.after _ fun us => Requests.after (opened.ucycs.pushAll us) fun queue => ?_
  refine ((opened.execute_requests F prof i queue).map (·.2)).congr fun β _ bus => ?_
  change (Exec.executeNext F prof ⟨opened.scratch, opened.toCtx i, bus⟩ queue >>= _) = _
  cases Exec.executeNext F prof ⟨opened.scratch, opened.toCtx i, bus⟩ queue with
  | error | ok => rfl

theorem Requests.ite {g : ∀ (β : Type) [Bus β], β → Except Fault (A × β)} (c : Bool)
    (yes : Requests f) (no : Requests g) :
    Requests fun β _ bus => if c then f β bus else g β bus := by
  cases c with
  | true => exact yes
  | false => exact no

theorem labelled {β : Type} (exit : StepExit) (x : Except Fault (Cpu6502 × β)) :
    (x >>= fun r => .ok (exit, r.1, r.2)).map (fun r => ((r.1, r.2.1), r.2.2)) =
      x.map fun r => ((exit, r.1), r.2) := by
  cases x with
  | error | ok => rfl

theorem boundary_requests (i : Instruction) (lines : Lines) :
    Requests fun _ _ bus => (cpu.boundary F prof i lines bus).map fun r => ((r.1, r.2.1), r.2.2) := by
  let opened := { cpu with extraAdcSbcCycle := false, oldI := none }
  have fetches := (opened.fetch_requests F prof).map fun cpu => (StepExit.opcodeFetch, cpu)
  have starts (cpu : Cpu6502) (type : InterruptType) :=
    (cpu.interrupt_requests F prof type).map fun cpu => (StepExit.interrupt type, cpu)
  have inserts := Requests.after (cpu.extraCycleAddr F i) fun addr => Requests.read addr false true
    fun _ => .ok (StepExit.extraCycle, { cpu with extraAdcSbcCycle := true })
  refine (Requests.ite (i.memoryAction = .read && cpu.adcSbcExtraCycle F i) inserts
    (Requests.ite opened.pendingNmi (starts { opened with pendingNmi := false } .nmi)
      (Requests.ite (lines.irq && !cpu.oldI.getD (flagSet cpu.p Psr.I)) (starts opened .irq)
        fetches))).congr fun β _ bus => ?_
  simp only [boundary]
  cases i.memoryAction = .read && cpu.adcSbcExtraCycle F i with
  | true =>
      cases cpu.extraCycleAddr F i with
      | error | ok => rfl
  | false =>
      simp only [Bool.false_eq_true, if_false, pure_eq, apply_ite (Except.map _)]
      refine ite_congr rfl (fun _ => labelled _ _) fun _ => ?_
      exact ite_congr rfl (fun _ => labelled _ _) fun _ => labelled _ _

/-- In a cycle the core puts at most one request to the bus, whichever the bus is. -/
theorem step_requests (lines : Lines) :
    Requests fun _ _ bus => (cpu.step F prof lines bus).map fun r => ((r.1, r.2.1), r.2.2) := by
  let sampled := cpu.sampleNmi lines
  cases inst : sampled.currentInst with
  | none =>
      have fetches := (sampled.fetch_requests F prof).map fun cpu => (StepExit.opcodeFetch, cpu)
      refine (Requests.ite (!lines.rdy && sampled.nextCycleRead)
        (Requests.idle (.ok (StepExit.stalled, sampled))) fetches).congr fun β _ bus => ?_
      simp only [step, sampled, inst, apply_ite (Except.map _)]
      exact ite_congr rfl (fun _ => rfl) fun _ => labelled _ _
  | some i =>
      rcases popped : sampled.ucycs.pop with ⟨front, queue⟩
      cases front with
      | none =>
          refine (Requests.ite (!lines.rdy && sampled.nextCycleRead)
            (Requests.idle (.ok (StepExit.stalled, sampled)))
            ((sampled.restore (sampled.exec i ()) queue).boundary_requests F prof i lines)).congr
              fun β _ bus => ?_
          simp only [step, sampled, inst, apply_ite (Except.map _), Exec.executeNext, popped]
          rfl
      | some u =>
          let conclude (cpu : Cpu6502) : Except Fault (StepExit × Cpu6502) :=
            if cpu.ucycs.isEmpty then (cpu.finishInstruction F prof i).map (StepExit.ucyc, ·)
            else .ok (.ucyc, cpu)
          have turn := (sampled.execute_requests F prof i sampled.ucycs).bind fun r => conclude r.2
          refine (Requests.ite (!lines.rdy && sampled.nextCycleRead)
            (Requests.idle (.ok (StepExit.stalled, sampled))) turn).congr fun β _ bus => ?_
          simp only [step, sampled, inst, apply_ite (Except.map _), Exec.executeNext, popped]
          refine ite_congr rfl (fun _ => rfl) fun _ => ?_
          change (((sampled.exec i bus).execUcyc F prof u queue >>= _) >>= _).map _ =
            (((sampled.exec i bus).execUcyc F prof u queue >>= _).map _ >>= _)
          cases (sampled.exec i bus).execUcyc F prof u queue with
          | error => rfl
          | ok r =>
              simp only [ok_bind, pure_eq, conclude, Except.map]
              cases (sampled.restore r.1 r.2).ucycs.isEmpty with
              | false => rfl
              | true =>
                  cases (sampled.restore r.1 r.2).finishInstruction F prof i with
                  | error | ok => rfl

theorem step_request (lines : Lines) : ∃ q : Request (Except Fault (StepExit × Cpu6502)),
    ∀ (β : Type) [Bus β] (bus : β) (exit : StepExit) (cpu' : Cpu6502) (bus' : β),
      cpu.step F prof lines bus = .ok (exit, cpu', bus') ↔
        q.perform bus = (.ok (exit, cpu'), bus') := by
  obtain ⟨q, requests⟩ := cpu.step_requests F prof lines
  refine ⟨q, fun β _ bus exit cpu' bus' => ?_⟩
  have here : (cpu.step F prof lines bus).map (fun r => ((r.1, r.2.1), r.2.2)) = _ := requests β bus
  rcases performed : q.perform bus with ⟨answer, last⟩
  rw [performed] at here
  cases run : cpu.step F prof lines bus with
  | error fault =>
      rw [run] at here
      cases answer with
      | error fault' => simp
      | ok a => cases here
  | ok r =>
      rw [run] at here
      cases answer with
      | error fault => cases here
      | ok a =>
          obtain ⟨rfl, rfl⟩ := Prod.mk.inj (Except.ok.inj here)
          simp [Prod.ext_iff, and_assoc]

end Cpu6502

end Rs65x
