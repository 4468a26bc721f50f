import Rs65x.Proof.Opcodes

/-!
# The data on the bus
-/

namespace Rs65x
open Fallible Traces Words Worklist

def Access.seen : Access → Traces.Event U16 U8
  | .read addr _ _ data => (true, addr.setWidth 16, data)
  | .write addr data _ _ => (false, addr.setWidth 16, data)

@[simp] theorem Access.seen_access (a : Access) : Traces.Event.access a.seen = a.brief := by
  cases a <;> rfl

theorem Access.seen_accesses (log : List Access) :
    (log.map Access.seen).map Traces.Event.access = log.map Access.brief := by
  rw [List.map_map]
  exact List.map_congr_left fun a _ => a.seen_access

theorem Access.stored_seen (log : List Access) : stored (log.map Access.seen) = Access.writes log := by
  induction log with
  | nil => rfl
  | cons a log ih =>
      cases a with
      | read => exact ih
      | write addr data vda vpa => exact congrArg ((addr.setWidth 16, data) :: ·) ih

def outs (accesses : List (Bool × U16)) : List U16 := (accesses.filter (!·.1)).map (·.2)

theorem stored_outs (es : List (Traces.Event U16 U8)) :
    (stored es).map (·.1) = outs (es.map Traces.Event.access) := by
  induction es with
  | nil => rfl
  | cons e es ih =>
      obtain ⟨read, addr, data⟩ := e
      cases read with
      | true => exact ih
      | false => exact congrArg (addr :: ·) ih

@[simp] theorem outs_append (front back : List (Bool × U16)) :
    outs (front ++ back) = outs front ++ outs back := by
  simp [outs]

@[simp] theorem outs_reads (addrs : List U16) : outs (addrs.map (true, ·)) = [] := by
  simp [outs]

@[simp] theorem outs_nil : outs [] = [] := rfl

@[simp] theorem outs_read (addr : U16) (rest : List (Bool × U16)) :
    outs ((true, addr) :: rest) = outs rest := rfl

@[simp] theorem outs_write (addr : U16) (rest : List (Bool × U16)) :
    outs ((false, addr) :: rest) = addr :: outs rest := rfl

namespace Exec

def Answered (e e' : Exec (Recorder SimpleBus)) (tail : List Access) : Prop :=
  e'.bus.log = e.bus.log ++ tail ∧ Coherent e.bus.bus.ram (tail.map Access.seen) e'.bus.bus.ram

theorem next_answered (F : Flavor) (e : Exec (Recorder SimpleBus)) (u : MicroOp)
    (rest : List MicroOp) : ∃ a, e.Answered (e.next F u rest).1 [a] := by
  have bus : (e.prepared F u).bus = e.bus := by
    obtain ⟨_, _, eq⟩ := e.prepared_frame F u
    rw [eq]
  unfold Answered
  rw [next_bus]
  simp only [access]
  cases u.bus.read with
  | true =>
      refine ⟨.read (e.accessAddr F u) u.bus.vda u.bus.vpa
        (e.bus.bus.ram ((e.accessAddr F u).setWidth 16)), ?_⟩
      simp only [if_true, bus]
      exact ⟨rfl, fun _ => rfl, rfl⟩
  | false =>
      refine ⟨.write (e.accessAddr F u) (if u.localLatch ≠ .none then
        (e.prepared F u).scratch.readLatch (e.prepared F u).ctx u.localLatch
        else (e.prepared F u).scratch.dataLatch) u.bus.vda u.bus.vpa, ?_⟩
      simp only [Bool.false_eq_true, if_false, bus]
      exact ⟨rfl, fun read => Bool.noConfusion read, rfl⟩

theorem turns_answered {prof : Profile} {F : Flavor} {e e' : Exec (Recorder SimpleBus)}
    {us left : List MicroOp} {n : Nat} (turns : Exec.TurnsIn prof F e us n e' left) :
    ∃ tail, e.Answered e' tail := by
  induction turns with
  | refl => exact ⟨[], (List.append_nil _).symm, rfl⟩
  | @turn e e' u rest left n _ _ ih =>
      obtain ⟨a, first, here⟩ := e.next_answered F u rest
      obtain ⟨tail, log, further⟩ := ih
      refine ⟨[a] ++ tail, ?_, ?_⟩
      · rw [log, first, List.append_assoc]
      · rw [List.map_append]
        exact here.append further

end Exec

namespace Arch
variable (s : Arch) (v : Variant)

theorem outs_trail (i : Instruction) : outs (s.trail v.flavor i) =
    if s.servedByDummy v.flavor i then [] else outs (s.operandAccesses v.flavor i) := by
  have dummies : outs (s.dummyAccesses v.flavor i) = [] := by
    unfold dummyAccesses
    split_ifs <;> rfl
  rw [trail, accesses, outs_append, outs_append, outs_reads, dummies]
  split_ifs <;> rfl

theorem stackAddr_ne (sp : U8) : stackAddr sp ≠ stackAddr (sp - 1) ∧
    stackAddr sp ≠ stackAddr (sp - 1 - 1) ∧ stackAddr (sp - 1) ≠ stackAddr (sp - 1 - 1) := by
  revert sp
  decide

theorem outs_entry (vector : U16) : (outs (s.entryAccesses vector)).Nodup := by
  obtain ⟨first, second, third⟩ := stackAddr_ne s.s
  simp only [entryAccesses, outs_write, outs_read, outs_nil, List.nodup_cons, List.mem_cons,
    List.not_mem_nil, or_false, not_or, not_false_eq_true, List.nodup_nil, and_true]
  exact ⟨⟨first, second⟩, third⟩

theorem outs_unstable (unstable : (v.decode s.opcode).mnemonic.isUnstable) :
    outs (s.trail v.flavor (v.decode s.opcode)).dropLast = [] := by
  obtain ⟨-, write, -⟩ := Exec.turns_unstable v s s.opcode [] unstable
  have unserved : s.servedByDummy v.flavor (v.decode s.opcode) = false := by
    simp [servedByDummy, write]
  have all := s.outs_trail v (v.decode s.opcode)
  rw [unserved, if_neg Bool.false_ne_true, operandAccesses, write] at all
  rw [trail, accesses, unserved, if_neg Bool.false_ne_true, operandAccesses, write] at all ⊢
  rw [← List.append_assoc, outs_append] at all
  rw [← List.append_assoc, List.dropLast_concat]
  exact List.append_cancel_right all

theorem outs_traffic (once : (v.decode s.opcode).addressMode.isMemory →
      (v.decode s.opcode).memoryAction ≠ .readModifyWrite) : (outs (s.traffic v)).Nodup := by
  have operand (once : (v.decode s.opcode).memoryAction ≠ .readModifyWrite) :
      (outs (if (v.decode s.opcode).mnemonic.isUnstable then (s.trail v.flavor (v.decode s.opcode)).dropLast ++
        [(false, s.unstableAddress (v.decode s.opcode))] else s.trail v.flavor (v.decode s.opcode))).Nodup := by
    split
    · next unstable =>
        rw [outs_append, outs_unstable s v unstable]
        exact List.nodup_singleton _
    · rw [outs_trail, operandAccesses]
      split
      · exact List.nodup_nil
      · split
        · exact List.nodup_nil
        · exact List.nodup_singleton _
        · next modify => exact absurd modify once
  cases mode : (v.decode s.opcode).addressMode with
  | directPage | absolute | dpIndirect =>
      rw [traffic, mode]
      exact operand (once (by rw [mode]; rfl))
  | noMemory type =>
      rw [traffic, mode]
      cases type with
      | immediate =>
          refine operand ?_
          rw [v.decode_immediate s.opcode mode]
          decide
      | implied => exact List.nodup_nil
  | stack =>
      rw [traffic, mode]
      dsimp only
      split
      · exact List.nodup_singleton _
      · exact List.nodup_nil
  | branch type =>
      rw [traffic, mode]
      exact (outs_reads _).symm ▸ List.nodup_nil
  | jump type =>
      rw [traffic, mode]
      cases type with
      | toSubroutine => simpa using (stackAddr_ne s.s).1
      | jmpIndirect | jmpAbsoluteX | fromSubroutine | fromInterrupt =>
          exact (outs_reads _).symm ▸ List.nodup_nil
      | _ => exact List.nodup_nil
  | interrupt =>
      rw [traffic, mode]
      exact s.outs_entry 0xFFFE
  | cmosNop =>
      rw [traffic, mode]
      exact (outs_reads _).symm ▸ List.nodup_nil
  | _ =>
      rw [traffic, mode]
      exact List.nodup_nil

variable {s v} {log : List Access} {n : Nat} {e : Exec (Recorder SimpleBus)}

theorem ExecutedIn.rewrites (executed : ExecutedIn v s log n e) {tail : List Access}
    (logged : e.bus.log = log ++ [s.opcodeRead] ++ tail) (briefs : tail.map Access.brief = s.traffic v) :
    Rewrites s.ram (tail.map Access.seen) := by
  by_cases once : (v.decode s.opcode).addressMode.isMemory →
      (v.decode s.opcode).memoryAction ≠ .readModifyWrite
  · apply rewrites_of_nodup
    rw [stored_outs, Access.seen_accesses, briefs]
    exact s.outs_traffic v once
  · obtain ⟨memory, modify⟩ := Classical.not_imp.1 once
    obtain ⟨_, e', turns, -, -, writes, -⟩ :=
      Exec.turns_modify v s s.opcode (log ++ [s.opcodeRead]) memory (not_not.1 modify)
    obtain ⟨-, rfl⟩ := executed.turns.unique (turns.anywhere _)
    rw [logged, Access.writes_append, List.append_assoc] at writes
    replace writes := List.append_cancel_left writes
    rw [← Access.stored_seen] at writes
    cases dummy : v.flavor.rmwDummyWrite with
    | true =>
        rw [dummy, if_pos rfl] at writes
        exact rewrites_of_twice writes
    | false =>
        rw [dummy, if_neg Bool.false_ne_true] at writes
        apply rewrites_of_nodup
        rw [writes]
        exact List.nodup_singleton _

theorem opcodeRead_seen : s.opcodeRead.seen = (true, s.pc, s.ram s.pc) := by
  simp [opcodeRead, Access.seen, opcode]

theorem ExecutedIn.events (executed : ExecutedIn v s log n e) :
    let events := spell s.ram e.bus.bus.ram ((true, s.pc) :: s.traffic v)
    e.bus.log.map Access.seen = log.map Access.seen ++ events ∧ Coherent s.ram events e.bus.bus.ram := by
  intro events
  obtain ⟨tail, logged, briefs⟩ := executed.logged
  obtain ⟨tail', logged', coherent⟩ := Exec.turns_answered executed.turns
  replace logged' : e.bus.log = log ++ [s.opcodeRead] ++ tail' := logged'
  obtain rfl := List.append_cancel_left (logged.symm.trans logged')
  have whole : Coherent s.ram (s.opcodeRead.seen :: tail.map Access.seen) e.bus.bus.ram := by
    rw [opcodeRead_seen]
    exact ⟨fun _ => rfl, coherent⟩
  have back : Rewrites s.ram (s.opcodeRead.seen :: tail.map Access.seen) := by
    rw [opcodeRead_seen]
    exact ⟨fun write => Bool.noConfusion write, executed.rewrites logged briefs⟩
  have spelled : s.opcodeRead.seen :: tail.map Access.seen = events := by
    rw [spell_of_coherent whole back, List.map_cons, Access.seen_accesses, briefs, opcodeRead_seen]
    rfl
  rw [← spelled]
  refine ⟨?_, whole⟩
  rw [logged, List.append_assoc, List.map_append]
  rfl

theorem entry_events {F : Flavor} {m : Narrow} {e : Exec (Recorder SimpleBus)} {us : List MicroOp}
    (turns : Exec.Turns F m.exec us n e []) {vector : U16}
    (at_ : m.log = log ++ [.read (s.pc.setWidth 32) false true (s.ram s.pc)])
    (ram : m.ram = s.ram) (logged : e.Logged m.log (s.entryAccesses vector)) :
    e.bus.log.map Access.seen = log.map Access.seen ++
      spell s.ram e.bus.bus.ram ((true, s.pc) :: s.entryAccesses vector) := by
  obtain ⟨tail, logged, briefs⟩ := logged
  obtain ⟨tail', logged', coherent⟩ := Exec.turns_answered (turns.anywhere .release)
  obtain rfl := List.append_cancel_left (logged.symm.trans logged')
  have first : Access.seen (.read (s.pc.setWidth 32) false true (s.ram s.pc)) =
      (true, s.pc, s.ram s.pc) := by
    simp [Access.seen]
  have whole : Coherent s.ram ((true, s.pc, s.ram s.pc) :: tail.map Access.seen) e.bus.bus.ram :=
    ⟨fun _ => rfl, ram ▸ coherent⟩
  have back : Rewrites s.ram ((true, s.pc, s.ram s.pc) :: tail.map Access.seen) := by
    refine ⟨fun write => Bool.noConfusion write, rewrites_of_nodup ?_⟩
    rw [stored_outs, Access.seen_accesses, briefs]
    exact s.outs_entry vector
  have spelled := spell_of_coherent whole back
  rw [List.map_cons, Access.seen_accesses, briefs] at spelled
  rw [logged, at_, List.append_assoc, List.map_append]
  refine congrArg (log.map Access.seen ++ ·) (Eq.trans ?_ spelled)
  rw [← first]
  rfl

end Arch

end Rs65x
