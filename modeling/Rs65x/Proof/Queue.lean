import Rs65x.Isa.Microop
import Rs65x.Lib.Machine

/-!
# The micro-op queue as a list

`live` is the list of the entries still to execute. A well-formed queue is either drained, with both
indices zero, or has its head before its end.
-/

namespace Rs65x.UcycQueue
open Fallible

def live (q : UcycQueue) : List MicroOp := (q.buf.toList.take q.len).drop q.head

structure Wf (q : UcycQueue) : Prop where
  len_le : q.len ≤ maxUcyc
  drained_or : q.head < q.len ∨ q.head = 0 ∧ q.len = 0

def Drained (q : UcycQueue) : Prop := q.head = 0 ∧ q.len = 0

variable {q : UcycQueue}

theorem length_take (h : q.len ≤ maxUcyc) : (q.buf.toList.take q.len).length = q.len := by
  simp [h]

theorem Wf.length_live (wf : q.Wf) : q.live.length = q.len - q.head := by
  rw [live, List.length_drop, length_take wf.len_le]

theorem Wf.live_eq_nil (wf : q.Wf) : q.live = [] ↔ q.Drained := by
  rw [← List.length_eq_zero_iff, wf.length_live]
  obtain ⟨_, h | h⟩ := wf
  · simp only [Drained]
    omega
  · simp [Drained, h]

theorem Drained.wf (h : q.Drained) : q.Wf := ⟨by simp [h.2], .inr h⟩

theorem Drained.live_eq (h : q.Drained) : q.live = [] := h.wf.live_eq_nil.2 h

theorem default_drained : default.Drained := ⟨rfl, rfl⟩

theorem clear_drained (q : UcycQueue) : q.clear.Drained := ⟨rfl, rfl⟩

theorem Drained.clear_eq (h : q.Drained) : q.clear = q := by
  obtain ⟨buf, head, len⟩ := q
  obtain ⟨rfl, rfl⟩ : head = 0 ∧ len = 0 := h
  rfl

@[simp] theorem live_clear (q : UcycQueue) : q.clear.live = [] := q.clear_drained.live_eq

theorem Wf.isEmpty_iff (wf : q.Wf) : q.isEmpty = true ↔ q.live = [] := by
  rw [wf.live_eq_nil]
  obtain ⟨_, h | h⟩ := wf
  · simp only [isEmpty, Drained, decide_eq_true_eq]
    omega
  · simp [isEmpty, Drained, h]

theorem front_eq (q : UcycQueue) : q.front = q.live.head? := by
  rw [live, List.head?_drop, List.getElem?_take, front]
  by_cases h : q.head < q.len
  · rw [if_neg (by omega), if_pos h, Vector.getElem?_toList]
  · rw [if_pos (by omega), if_neg h]

/-! ## Removing -/

theorem pop_nil (h : q.live = []) : q.pop = (none, q) := by
  simp [pop, front_eq, h]

theorem Wf.pop_cons (wf : q.Wf) {u : MicroOp} {rest : List MicroOp} (h : q.live = u :: rest) :
    ∃ q', q.pop = (some u, q') ∧ q'.Wf ∧ q'.live = rest ∧
      (rest ≠ [] → ∀ prof, q'.decHead prof = .ok q) := by
  have front : q.front = some u := by simp [front_eq, h]
  have lengths : (u :: rest).length = q.len - q.head := h ▸ wf.length_live
  have tail : (q.buf.toList.take q.len).drop (q.head + 1) = rest := by
    rw [← List.tail_drop]
    exact congrArg List.tail h
  rw [List.length_cons] at lengths
  by_cases last : q.len ≤ q.head + 1
  · have nil : rest = [] := List.length_eq_zero_iff.1 (by omega)
    refine ⟨q.clear, ?_, q.clear_drained.wf, ?_, fun h => absurd nil h⟩
    · simp only [pop, front, ge_iff_le, if_pos last]
      rfl
    · rw [live_clear, nil]
  · refine ⟨{ q with head := q.head + 1 }, ?_, ⟨wf.len_le, .inl (by simp; omega)⟩, tail, ?_⟩
    · simp only [pop, front, ge_iff_le, if_neg last]
    · intro _ prof
      simp [decHead, retreat]

theorem Wf.pop_tail (wf : q.Wf) : q.pop.2.Wf ∧ q.pop.2.live = q.live.tail := by
  cases live : q.live with
  | nil =>
      rw [pop_nil live]
      exact ⟨wf, live⟩
  | cons u rest =>
      obtain ⟨q', pop, wf', live', -⟩ := wf.pop_cons live
      rw [pop]
      exact ⟨wf', live'⟩

/-! ## Adding -/

theorem take_push (room : q.len < maxUcyc) (u : MicroOp) :
    (q.buf.setIfInBounds q.len u).toList.take (q.len + 1) = q.buf.toList.take q.len ++ [u] := by
  have inside : q.len < q.buf.toList.length := by simp; omega
  rw [Vector.toList_setIfInBounds, List.take_add_one, List.getElem?_set_self inside,
    List.take_set_of_le (Nat.le_refl _)]
  rfl

theorem pushAll_append (us : List MicroOp) (q : UcycQueue) (room : q.len + us.length ≤ maxUcyc) :
    ∃ q', q.pushAll us = .ok q' ∧ q'.head = q.head ∧ q'.len = q.len + us.length ∧
      q'.buf.toList.take q'.len = q.buf.toList.take q.len ++ us := by
  induction us generalizing q with
  | nil => exact ⟨q, rfl, rfl, by simp⟩
  | cons u us ih =>
      rw [List.length_cons] at room
      let pushed : UcycQueue :=
        { q with buf := q.buf.setIfInBounds q.len u, len := q.len + 1 }
      have push_eq : q.push u = .ok pushed := if_pos (by omega)
      obtain ⟨q', run, head, len, buf⟩ := ih pushed (by simp only [pushed]; omega)
      refine ⟨q', ?_, head, ?_, ?_⟩
      · rw [pushAll, List.foldlM_cons, push_eq]
        exact run
      · rw [len, List.length_cons]
        simp only [pushed]
        omega
      · have grown : pushed.buf.toList.take pushed.len = q.buf.toList.take q.len ++ [u] := by
          simp only [pushed]
          exact take_push (by omega) u
        rw [buf, grown, List.append_assoc, List.singleton_append]

theorem Drained.pushAll (h : q.Drained) {us : List MicroOp} (room : us.length ≤ maxUcyc) :
    ∃ q', q.pushAll us = .ok q' ∧ q'.Wf ∧ q'.live = us := by
  obtain ⟨q', run, head, len, buf⟩ := pushAll_append us q (by simpa [h.2] using room)
  refine ⟨q', run, ⟨?_, ?_⟩, ?_⟩
  · simpa [len, h.2] using room
  · rw [head, len, h.1, h.2]
    omega
  · rw [live, buf, head, h.1, h.2]
    simp

end Rs65x.UcycQueue
