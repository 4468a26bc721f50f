import Rs65x.Lib.Tape
import Rs65x.Proof.Queue

/-!
# The queue is a FIFO

The micro-ops that have been taken from the queue are those that it can go back to. The storage is
recycled when the queue becomes empty, and what was in it is lost.
-/

namespace Rs65x.UcycQueue
open Fallible Machine Tape

def call (prof : Profile) (q : UcycQueue) :
    Call MicroOp → Except Fault (Reply MicroOp × UcycQueue)
  | .push u => do return (.none, ← q.push u)
  | .pop => .ok (.entry q.pop.1, q.pop.2)
  | .front => .ok (.entry q.front, q)
  | .clear => .ok (.none, q.clear)
  | .insert u => do return (.none, ← q.insert prof u)
  | .rewind => do return (.none, ← q.decHead prof)
  | .length => do return (.length (← q.length prof), q)
  | .isEmpty => .ok (.isEmpty q.isEmpty, q)

def counted (prof : Profile) (s : UcycQueue × Nat) (c : Call MicroOp) :
    Except Fault (Reply MicroOp × (UcycQueue × Nat)) := do
  let (reply, q) ← s.1.call prof c
  let pushes := match c with
    | .push _ => s.2 + 1
    | _ => s.2
  return (reply, q, if q.isEmpty then 0 else pushes)

/-- At most as many pushes as there are places, and nothing moves the head below zero. -/
def Allowed (s : UcycQueue × Nat) : Call MicroOp → Prop
  | .push _ => s.2 < maxUcyc
  | .insert _ | .rewind => 0 < s.1.head
  | _ => True

instance (s : UcycQueue × Nat) : (c : Call MicroOp) → Decidable (Allowed s c)
  | .push _ => inferInstanceAs (Decidable (s.2 < maxUcyc))
  | .insert _ | .rewind => inferInstanceAs (Decidable (0 < s.1.head))
  | .pop | .front | .clear | .length | .isEmpty => isTrue trivial

/-- The buffer holds what has been taken and what is live, one after the other. -/
structure Holds (q : UcycQueue) (t : Tape MicroOp) : Prop where
  head : q.head = t.past.length
  len : q.len = t.past.length + t.live.length
  room : q.len ≤ maxUcyc
  buf : q.buf.toList.take q.len = t.past.reverse ++ t.live
  recycled : t.live = [] → t.past = []

variable {q : UcycQueue} {t : Tape MicroOp}

theorem Holds.live (holds : q.Holds t) : q.live = t.live := by
  rw [UcycQueue.live, holds.buf, holds.head, ← List.length_reverse, List.drop_left]

theorem Holds.empty (q : UcycQueue) : q.clear.Holds Tape.empty where
  head := rfl
  len := rfl
  room := Nat.zero_le _
  buf := rfl
  recycled _ := rfl

theorem Holds.wf (holds : q.Holds t) : q.Wf := by
  refine ⟨holds.room, ?_⟩
  rw [holds.head, holds.len]
  cases live : t.live with
  | nil => simp [holds.recycled live]
  | cons u rest => simp

theorem Holds.drained_iff (holds : q.Holds t) : q.Drained ↔ t.live = [] := by
  rw [← holds.live, holds.wf.live_eq_nil]

theorem Holds.length_eq (holds : q.Holds t) (prof : Profile) :
    q.length prof = .ok t.live.length := by
  have ordered : ¬ q.len < q.head := by
    rw [holds.len, holds.head]
    exact Nat.not_lt.2 (Nat.le_add_right _ _)
  rw [length.eq_def, if_neg ordered, holds.len, holds.head, Nat.add_sub_cancel_left]

theorem Holds.push (holds : q.Holds t) (room : q.len < maxUcyc) (u : MicroOp) :
    ∃ q', q.push u = .ok q' ∧ q'.Holds ⟨t.past, t.live ++ [u]⟩ := by
  refine ⟨_, if_pos room, holds.head, ?_, room, ?_, fun none => ?_⟩
  · rw [List.length_append, ← Nat.add_assoc, ← holds.len]
    rfl
  · rw [take_push room, holds.buf, List.append_assoc]
  · simp at none

theorem Holds.pop (holds : q.Holds t) {u : MicroOp} {rest : List MicroOp} (live : t.live = u :: rest) :
    q.pop.1 = some u ∧ q.pop.2.Holds (⟨u :: t.past, rest⟩ : Tape MicroOp).recycle := by
  have front : q.front = some u := by rw [front_eq, holds.live, live, List.head?_cons]
  have lens := holds.len
  rw [live, List.length_cons] at lens
  cases rest with
  | nil =>
      have last : q.head + 1 ≥ q.len := by
        rw [holds.head, lens]
        exact Nat.le_refl _
      simp only [UcycQueue.pop, front, if_pos last]
      exact ⟨trivial, .empty _⟩
  | cons u' rest =>
      have more : ¬ q.head + 1 ≥ q.len := by
        rw [holds.head, lens, List.length_cons]
        omega
      simp only [UcycQueue.pop, front, if_neg more, recycle_cons]
      refine ⟨trivial, congrArg Nat.succ holds.head, ?_, holds.room, ?_, fun none => ?_⟩
      · simp only [lens, List.length_cons]
        omega
      · rw [holds.buf, live, List.reverse_cons, List.append_assoc]
        rfl
      · cases none

theorem Holds.retreat (holds : q.Holds t) (prof : Profile) {u : MicroOp} {past : List MicroOp}
    (taken : t.past = u :: past) : q.decHead prof = .ok { q with head := past.length } ∧
      { q with head := past.length }.Holds ⟨past, u :: t.live⟩ := by
  have head := holds.head
  have len := holds.len
  have buf := holds.buf
  rw [taken, List.length_cons] at head len
  rw [taken, List.reverse_cons, List.append_assoc] at buf
  refine ⟨?_, rfl, ?_, holds.room, buf, fun none => ?_⟩
  · have positive : q.head ≠ 0 := by
      rw [head]
      exact Nat.succ_ne_zero _
    rw [decHead, UcycQueue.retreat.eq_def, if_neg positive, head]
    rfl
  · simp only [len, List.length_cons]
    omega
  · cases none

theorem Holds.insert (holds : q.Holds t) (prof : Profile) {old : MicroOp} {past : List MicroOp}
    (taken : t.past = old :: past) (u : MicroOp) :
    ∃ q', q.insert prof u = .ok q' ∧ q'.Holds ⟨past, u :: t.live⟩ := by
  obtain ⟨back, rewound⟩ := holds.retreat prof taken
  have lens := rewound.len
  have room := rewound.room
  have below : past.length < maxUcyc := by
    simp only [List.length_cons] at lens room
    omega
  refine ⟨{ q with buf := q.buf.setIfInBounds past.length u, head := past.length }, ?_, rfl, lens, room,
    ?_, fun none => ?_⟩
  · have positive : q.head ≠ 0 := by
      rw [holds.head, taken]
      exact Nat.succ_ne_zero _
    have asserted : ¬ (prof = .debug ∧ q.head = 0) := fun none => positive none.2
    rw [UcycQueue.insert, if_neg asserted, ← decHead, back]
    exact if_pos below
  · have kept : q.buf.toList.take q.len = past.reverse ++ old :: t.live := rewound.buf
    rw [Vector.toList_setIfInBounds, List.take_set, kept, ← List.length_reverse,
      List.set_append_right _ _ (Nat.le_refl _), Nat.sub_self]
    rfl
  · cases none

def Related (s : UcycQueue × Nat) (t : Tape MicroOp) : Prop := s.1.Holds t ∧ s.2 = s.1.len

theorem Related.of_holds {q' : UcycQueue} {t' : Tape MicroOp} (holds : q'.Holds t') {pushes : Nat}
    (same : t'.live ≠ [] → pushes = q'.len) : Related (q', if q'.isEmpty then 0 else pushes) t' := by
  refine ⟨holds, ?_⟩
  have empty := holds.wf.isEmpty_iff
  rw [holds.live] at empty
  by_cases live : t'.live = []
  · rw [if_pos (empty.2 live)]
    exact (holds.drained_iff.2 live).2.symm
  · rw [if_neg (mt empty.1 live)]
    exact same live

theorem counted_agrees (prof : Profile) {s : UcycQueue × Nat} {t : Tape MicroOp}
    (related : Related s t) {c : Call MicroOp} (allowed : Allowed s c) :
    Agree Related (counted prof s c) (.ok (t.call c)) := by
  obtain ⟨q, pushes⟩ := s
  obtain ⟨holds, same⟩ := related
  replace holds : q.Holds t := holds
  replace same : pushes = q.len := same
  subst same
  have lens := holds.len
  have taken (positive : 0 < q.head) : ∃ u past, t.past = u :: past := by
    refine List.exists_cons_of_ne_nil fun none => ?_
    rw [holds.head, none] at positive
    exact Nat.lt_irrefl 0 positive
  cases c with
  | push u =>
      obtain ⟨q', run, holds'⟩ := holds.push allowed u
      simp only [counted, call, run, ok_bind]
      exact ⟨rfl, .of_holds holds' fun _ => by rw [holds'.len, lens, List.length_append]; rfl⟩
  | pop =>
      cases live : t.live with
      | nil =>
          have drained := holds.live.trans live
          simp only [counted, call, pop_nil drained, ok_bind, Tape.call, live]
          exact ⟨rfl, .of_holds holds fun _ => rfl⟩
      | cons u rest =>
          obtain ⟨front, holds'⟩ := holds.pop live
          simp only [counted, call, front, ok_bind, Tape.call, live]
          refine ⟨rfl, .of_holds holds' fun more => ?_⟩
          cases rest with
          | nil => exact absurd rfl more
          | cons u' rest =>
              rw [holds'.len, lens, live, recycle_cons]
              simp only [List.length_cons]
              omega
  | front =>
      simp only [counted, call, front_eq, holds.live, ok_bind]
      exact ⟨rfl, .of_holds holds fun _ => rfl⟩
  | clear =>
      simp only [counted, call, ok_bind]
      exact ⟨rfl, .of_holds (.empty q) fun more => absurd rfl more⟩
  | insert u =>
      obtain ⟨old, past, taken⟩ := taken allowed
      obtain ⟨q', run, holds'⟩ := holds.insert prof taken u
      simp only [counted, call, run, ok_bind, Tape.call, taken, List.tail_cons]
      refine ⟨rfl, .of_holds holds' fun _ => ?_⟩
      rw [holds'.len, lens, taken]
      simp only [List.length_cons]
      omega
  | rewind =>
      obtain ⟨old, past, taken⟩ := taken allowed
      obtain ⟨run, holds'⟩ := holds.retreat prof taken
      simp only [counted, call, run, ok_bind, Tape.call, taken]
      exact ⟨rfl, .of_holds holds' fun _ => rfl⟩
  | length =>
      simp only [counted, call, holds.length_eq prof, ok_bind]
      exact ⟨rfl, .of_holds holds fun _ => rfl⟩
  | isEmpty =>
      have flag : q.isEmpty = t.live.isEmpty := by
        rw [Bool.eq_iff_iff, holds.wf.isEmpty_iff, holds.live, List.isEmpty_iff]
      exact ⟨congrArg Reply.isEmpty flag, .of_holds holds fun _ => rfl⟩

/-- Whatever the calls, the queue replies as the tape does. -/
theorem queue_refines_fifo (prof : Profile) (calls : List (Call MicroOp))
    (permitted : Permitted (counted prof) Allowed (default, 0) calls) :
    ∃ replies q pushes t, run (counted prof) (default, 0) calls = .ok (replies, q, pushes) ∧
      run (total (E := Fault) Tape.call) Tape.empty calls = .ok (replies, t) ∧
      q.live = t.live ∧ (q.isEmpty ↔ q.length prof = .ok 0) ∧ (q.isEmpty ↔ q.front = none) ∧
      (q.Drained ↔ t.live = []) := by
  have start : Related (default, 0) Tape.empty := ⟨.empty default, rfl⟩
  have steps : ∀ s t c, Related s t → Allowed s c →
      Agree Related (counted prof s c) (.ok (t.call c)) :=
    fun _ _ _ related allowed => counted_agrees prof related allowed
  have agree := run_refines steps start permitted
  obtain ⟨replies, t, tape⟩ := run_total (E := Fault) Tape.call calls Tape.empty
  rw [tape] at agree
  obtain ⟨⟨q, pushes⟩, queue, holds, -⟩ := agree.of_ok
  replace holds : q.Holds t := holds
  have empty := holds.wf.isEmpty_iff
  refine ⟨replies, q, pushes, t, queue, tape, holds.live, ?_, ?_, holds.drained_iff⟩
  · rw [empty, holds.live, holds.length_eq, Except.ok.injEq, List.length_eq_zero_iff]
  · rw [empty, front_eq, List.head?_eq_none_iff]

def rewound : List (Call MicroOp) :=
  -- A micro-op is taken, replaced, taken again, put back, and the queue is drained.
  [.push .aluWrite, .push .aluPush, .pop, .insert (.push .pcHi), .length, .pop, .rewind, .front, .pop,
    .pop, .isEmpty]

theorem queue_refines_fifo_rewound :
    ∃ replies q pushes t, run (counted .debug) (default, 0) rewound = .ok (replies, q, pushes) ∧
      run (total (E := Fault) Tape.call) Tape.empty rewound = .ok (replies, t) ∧
      q.live = t.live ∧ (q.isEmpty ↔ q.length .debug = .ok 0) ∧ (q.isEmpty ↔ q.front = none) ∧
      (q.Drained ↔ t.live = []) := by
  apply queue_refines_fifo
  repeat' first | exact trivial | refine .cons (by decide) rfl ?_

end Rs65x.UcycQueue
