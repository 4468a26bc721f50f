import Rs65x.Lib.Words
import Rs65x.Proof.Course
import Rs65x.Proof.Frame

/-!
# Interrupt sequences on any bus
-/

namespace Rs65x
open Fallible Machine Worklist Words

def entryOps (pushed : Latch) (vector : U16) : List MicroOp :=
  [.push .pcHi, .push .pcLo, .push pushed, .read (.constant vector) .pcLo false,
    .read (.constant (vector + 1)) .pcHi false]

def entryLog (pc : U16) (sp status : U8) (vector : U16) (lo hi : U8) : List Access :=
  let stack (sp : U8) : U32 := 0x0100 + sp.setWidth 32
  [.write (stack sp) (hiByte pc) true false, .write (stack (sp - 1)) (loByte pc) true false,
    .write (stack (sp - 1 - 1)) status true false, .read (vector.setWidth 32) true false lo,
    .read ((vector + 1).setWidth 32) true false hi]

namespace Exec
variable {β : Type} [Bus β]

theorem turns_log {F : Flavor} {e e' : Exec (Recorder β)} {us left : List MicroOp} {n : Nat}
    (turns : Exec.Turns F e us n e' left) :
    ∃ l, e'.bus.log = e.bus.log ++ l ∧ l.length = n := by
  induction turns with
  | refl => exact ⟨[], (List.append_nil _).symm, rfl⟩
  | @turn e e' u rest left n _ _ ih =>
      obtain ⟨l, log, length⟩ := ih
      obtain ⟨a, first, -⟩ := e.next_log F u rest
      refine ⟨a :: l, ?_, congrArg (· + 1) length⟩
      rw [log, first, List.append_assoc, List.singleton_append]

theorem next_constant (F : Flavor) (e : Exec (Recorder β)) (c : U16) (dest : Latch)
    (rest : List MicroOp) : ∃ data e', e.next F (.read (.constant c) dest false) rest = (e', rest) ∧
      e'.bus.log = e.bus.log ++ [.read (c.setWidth 32) true false data] :=
  ⟨(Bus.read e.bus.bus (c.setWidth 32) true false).1, _, rfl, rfl⟩

theorem turns_entry (F : Flavor) {e : Exec (Recorder β)} (storeless : e.Storeless) {pushed : Latch}
    (kind : pushed = .status ∨ pushed = .brkStatus) (vector : U16) :
    ∃ lo hi e', Exec.Turns F e (entryOps pushed vector) 5 e' [] ∧ e'.bus.log = e.bus.log ++
      entryLog e.ctx.pc e.ctx.sp (e.scratch.readLatch e.ctx pushed) vector lo hi := by
  have some : pushed ≠ .none := by
    rcases kind with rfl | rfl
    · decide
    · decide
  have quiet {value : U8} {e : Exec (Recorder β)} (storeless : e.Storeless) :
      (e.pushing value).Storeless := ⟨storeless.action, storeless.mnemonic⟩
  let e₁ := e.pushing (hiByte e.ctx.pc)
  let e₂ := e₁.pushing (loByte e.ctx.pc)
  let e₃ := e₂.pushing (e.scratch.readLatch e.ctx pushed)
  have third (rest : List MicroOp) : e₂.next F (.push pushed) rest = (e₃, rest) := by
    rw [next_push (quiet (quiet storeless)) F some rest]
    rcases kind with rfl | rfl
    · rfl
    · rfl
  obtain ⟨lo, e₄, fourth, log⟩ :=
    next_constant F e₃ vector .pcLo [.read (.constant (vector + 1)) .pcHi false]
  obtain ⟨hi, e₅, fifth, log'⟩ := next_constant F e₄ (vector + 1) .pcHi []
  refine ⟨lo, hi, e₅, .step (fits rfl) (next_push storeless F (by decide) _)
    (.step (fits rfl) (next_push (quiet storeless) F (by decide) _) (.step (fits rfl) (third _)
    (.step (fits rfl) fourth (.single (fits rfl) fifth)))), ?_⟩
  have pushes : e₃.bus.log = ((e.bus.log ++ [_]) ++ [_]) ++ [_] := rfl
  rw [log', log, pushes]
  simp only [List.append_assoc, List.cons_append, List.nil_append]
  rfl

end Exec

namespace Cpu6502
variable {β : Type} [Bus β] {v : Variant} {cpu cpu' : Cpu6502} {lines : Lines}
  {r r' : Recorder β}

theorem Outcome.entry {type : InterruptType} (inv : cpu.Inv v)
    (outcome : Outcome v cpu lines r (.interrupt type) cpu' r') :
    ∃ lo hi e, OnCourse v (v.decode 0) e 5 (cpu', r') ∧
      e.bus.log = r'.log ++ entryLog cpu'.pc cpu'.s cpu'.p type.vector lo hi := by
  have inv' := outcome.inv inv
  cases outcome with
  | @interrupt i type q awake inst empty ended request wf live =>
      let data := (Bus.read r (cpu.pc.setWidth 32) false true).1
      let r₁ := (Bus.read r (cpu.pc.setWidth 32) false true).2
      let e := (cpu.settled.interrupted v data q).exec (v.decode 0) r₁
      have storeless : e.Storeless := ⟨rfl, congrArg (·.mnemonic.action) (decode_brk v)⟩
      obtain ⟨lo, hi, e', turns, log⟩ :=
        Exec.turns_entry v.flavor storeless (.inl rfl) type.vector
      have more : q.live ≠ [] := by
        rw [live]
        exact List.cons_ne_nil _ _
      refine ⟨lo, hi, e', ⟨inv', more, e, ⟨rfl, rfl⟩, rfl, ?_⟩, log⟩
      change Exec.Turns v.flavor e q.live 5 e' []
      rw [live]
      exact turns

theorem emission_brk (v : Variant) :
    v.emission 0 = .read .pc .none true :: entryOps .brkStatus 0xFFFE := by
  have emits : v.emission 0 = Fallible.get ((v.decode 0).addressMode.emitUcycs .release v.flavor.micro
    (decodeContext v.flavor (v.decode 0).memoryAction 0)) [] := rfl
  rw [emits, decode_brk]
  cases v <;> rfl

theorem Outcome.brk (inv : cpu.Inv v) (outcome : Outcome v cpu lines r .opcodeFetch cpu' r')
    (brk : cpu'.currentOpcode = 0) :
    ∃ data lo hi e, OnCourse v (v.decode 0) e 6 (cpu', r') ∧
      e.bus.log = r'.log ++ .read (cpu'.pc.setWidth 32) false true data ::
        entryLog (cpu'.pc + 1) cpu'.s (cpu'.p ||| Psr.B6502 ||| Psr.U6502) 0xFFFE lo hi := by
  have inv' := outcome.inv inv
  obtain ⟨inst, scratch, live⟩ : cpu'.currentInst = some (v.decode 0) ∧
      cpu'.scratch.memoryAction = (v.decode 0).memoryAction ∧ cpu'.ucycs.live = v.emission 0 := by
    cases outcome with
    | fetch _ _ _ _ _ _ _ live | first _ _ _ live =>
        exact ⟨congrArg (some <| v.decode ·) brk, congrArg (fun op => (v.decode op).memoryAction) brk,
          live.trans (congrArg v.emission brk)⟩
  let e := cpu'.exec (v.decode 0) r'
  let data := (Bus.read r'.bus (cpu'.pc.setWidth 32) false true).1
  have storeless : (e.next v.flavor (.read .pc .none true) (entryOps .brkStatus 0xFFFE)).1.Storeless :=
    ⟨scratch.trans (congrArg (·.memoryAction) (decode_brk v)), congrArg (·.mnemonic.action) (decode_brk v)⟩
  obtain ⟨lo, hi, e', turns, log⟩ := Exec.turns_entry v.flavor storeless (.inr rfl) 0xFFFE
  have more : cpu'.ucycs.live ≠ [] := by
    rw [live, emission_brk]
    exact List.cons_ne_nil _ _
  refine ⟨data, lo, hi, e', ⟨inv', more, e, ⟨inst, rfl⟩, rfl, ?_⟩, ?_⟩
  · change Exec.Turns v.flavor e cpu'.ucycs.live 6 e' []
    rw [live, emission_brk]
    exact .step (Exec.fits rfl) rfl turns
  · rw [log]
    exact List.append_assoc _ _ _

theorem OnCourse.accesses {prof : Profile} {e : Exec (Recorder β)} {accesses : List Access}
    (course : OnCourse v (v.decode 0) e accesses.length (cpu, r))
    (log : e.bus.log = r.log ++ accesses) {cycles : List Lines}
    (flight : InFlight v prof (cpu, r) cycles) : ∃ exits t,
      run (busCycle v prof) (cpu, r) cycles = .ok (exits, t) ∧
      t.2.log = r.log ++ accesses.take (exits.count .ucyc) ∧
      (t.1.AtBoundary v ↔ exits.count .ucyc = accesses.length) := by
  obtain ⟨exits, t, ran, -, there⟩ := course.flight (never_due_brk v) flight
  refine ⟨exits, t, ran, ?_⟩
  rcases there with ⟨m, count, further⟩ | ⟨count, ended⟩
  · obtain ⟨e₀, -, bus, turns⟩ := further.turns
    obtain ⟨l, rest, length⟩ := Exec.turns_log turns
    rw [log, ← bus] at rest
    constructor
    · have before := congrArg (List.take (r.log.length + exits.count .ucyc)) rest
      have here : t.2.log.length = r.log.length + exits.count .ucyc := by
        have lengths := congrArg List.length rest
        simp only [List.length_append] at lengths
        omega
      rw [List.take_length_add_append, ← here, List.take_left] at before
      exact before.symm
    · refine iff_of_false (fun boundary => further.live boundary.drained.live_eq) ?_
      obtain ⟨k, rfl⟩ := turns.count_pos further.live
      omega
  · obtain ⟨c, prev, pending, -, rfl⟩ := ended.finished
    refine ⟨?_, iff_of_true (ended.boundary (never_due_brk v)) count.symm⟩
    rw [← count, List.take_length]
    exact log

end Cpu6502

end Rs65x
