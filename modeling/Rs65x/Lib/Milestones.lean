import Mathlib.Logic.Function.Iterate
import Rs65x.Lib.Machine

/-!
# Machines that pass milestones

Between two milestones a machine takes as many steps as it likes. At each of them it shows the state
of an abstract machine, which has taken one step.
-/

namespace Machine
variable {S I L E A : Type} {step : S → I → Except E (L × S)}

/-- The states that are at, or on the way from, an abstract state, with a bound on the way left.
Steps with a calm label keep to the way, which a good state leads to the next one. -/
structure Route (step : S → I → Except E (L × S)) (milestone : L → Option A) (calm : L → Prop)
    (next : A → A) (good : A → Prop) where
  At : A → S → Prop
  From : A → Nat → S → Prop
  depart : ∀ {a s i l t}, At a s → step s i = .ok (l, t) → calm l →
    milestone l = none ∧ At a t ∨ milestone l = some a ∧ (good a → ∃ n, From a n t)
  travel : ∀ {a n s i l t}, From a n s → step s i = .ok (l, t) → calm l →
    milestone l = none ∧ ((∃ m, From a m t) ∨ At (next a) t)

/-- What is passed are the states that `next` leads to, as long as the ones before are good. -/
def Follows (next : A → A) (good : A → Prop) (a : A) (passed : List A) : Prop :=
  ∀ k b, (∀ j < k, good (next^[j] a)) → passed[k]? = some b → b = next^[k] a

theorem Follows.cons {next : A → A} {good : A → Prop} {a : A} {passed : List A}
    (rest : good a → Follows next good (next a) passed) : Follows next good a (a :: passed) := by
  intro k b goods mem
  cases k with
  | zero => simpa using mem.symm
  | succ k =>
      refine rest (goods 0 (Nat.succ_pos k)) k b (fun j lt => ?_) (by simpa using mem)
      exact goods (j + 1) (Nat.succ_lt_succ lt)

/-- If every state passed is good, the list is an initial part of the one that `next` makes. -/
theorem Follows.eq_iterate {next : A → A} {good : A → Prop} {a : A} {passed : List A}
    (follows : Follows next good a passed) (goods : ∀ b ∈ passed, good b) {k : Nat} {b : A}
    (mem : passed[k]? = some b) : b = next^[k] a ∧ ∀ j ≤ k, good (next^[j] a) := by
  induction k using Nat.strongRecOn generalizing b with
  | ind k ih =>
      have before : ∀ j < k, good (next^[j] a) := by
        intro j lt
        have length : k < passed.length := (List.getElem?_eq_some_iff.1 mem).1
        exact (ih j lt (List.getElem?_eq_getElem (Nat.lt_trans lt length))).2 j j.le_refl
      have here := follows k b before mem
      refine ⟨here, fun j le => ?_⟩
      obtain lt | rfl := Nat.lt_or_eq_of_le le
      · exact before j lt
      · exact here ▸ goods b (List.mem_of_getElem? mem)

theorem Follows.eq_map {next : A → A} {good : A → Prop} {a : A} {passed : List A}
    (follows : Follows next good a passed) (goods : ∀ b ∈ passed, good b) :
    passed = (List.range passed.length).map (next^[·] a) ∧ ∀ j < passed.length, good (next^[j] a) := by
  have each (k : Nat) (lt : k < passed.length) :=
    follows.eq_iterate goods (List.getElem?_eq_getElem lt)
  refine ⟨List.ext_getElem (by simp) fun k lt _ => ?_, fun j lt => (each j lt).2 j j.le_refl⟩
  rw [(each k lt).1, List.getElem_map, List.getElem_range]

namespace Route
variable {milestone : L → Option A} {calm : L → Prop} {next : A → A} {good : A → Prop}

theorem follows (r : Route step milestone calm next good) {is : List I} {s t : S} {ls : List L}
    (run : Machine.run step s is = .ok (ls, t)) (quiet : ∀ l ∈ ls, calm l) (a : A) :
    (r.At a s → Follows next good a (ls.filterMap milestone)) ∧
    ∀ n, r.From a n s → Follows next good (next a) (ls.filterMap milestone) := by
  induction is generalizing s ls a with
  | nil =>
      cases run
      exact ⟨fun _ => nofun, fun _ _ => nofun⟩
  | cons i is ih =>
      obtain ⟨l, u, rest, first, tail, rfl⟩ := run_cons_ok run
      rw [List.forall_mem_cons] at quiet
      obtain ⟨calm, quiet⟩ := quiet
      constructor
      · intro at_a
        obtain ⟨none, at_a⟩ | ⟨some, leaves⟩ := r.depart at_a first calm
        · rw [List.filterMap_cons_none none]
          exact (ih tail quiet a).1 at_a
        · rw [List.filterMap_cons_some some]
          refine Follows.cons fun good => ?_
          obtain ⟨n, leaves⟩ := leaves good
          exact (ih tail quiet a).2 n leaves
      · intro n leaves
        obtain ⟨none, ⟨m, leaves⟩ | at_next⟩ := r.travel leaves first calm
        · rw [List.filterMap_cons_none none]
          exact (ih tail quiet a).2 m leaves
        · rw [List.filterMap_cons_none none]
          exact (ih tail quiet (next a)).1 at_next

/-! ## Progress -/

/-- Under the input `i` the machine keeps going. -/
structure Drives (r : Route step milestone calm next good) (i : I) (Ready : S → Prop) : Prop where
  depart : ∀ {a s}, r.At a s → Ready s →
    ∃ l t, step s i = .ok (l, t) ∧ calm l ∧ milestone l = some a ∧ Ready t
  travel : ∀ {a n s}, r.From a n s → Ready s →
    ∃ l t, step s i = .ok (l, t) ∧ calm l ∧ Ready t ∧ (r.At (next a) t ∨ ∃ m < n, r.From a m t)

variable {r : Route step milestone calm next good} {i : I} {Ready : S → Prop}

theorem arrives (drives : r.Drives i Ready) {a : A} {n : Nat} {s : S} (leaves : r.From a n s)
    (ready : Ready s) : ∃ m ls t, Machine.run step s (List.replicate m i) = .ok (ls, t) ∧
      (∀ l ∈ ls, calm l) ∧ ls.filterMap milestone = [] ∧ r.At (next a) t ∧ Ready t := by
  induction n using Nat.strongRecOn generalizing s with
  | ind n ih =>
      obtain ⟨l, u, first, quiet, ready', there⟩ := drives.travel leaves ready
      have none : milestone l = none := (r.travel leaves first quiet).1
      obtain at_next | ⟨m, lt, leaves'⟩ := there
      · exact ⟨1, [l], u, run_cons [] first, by simpa using quiet, by simp [none], at_next, ready'⟩
      · obtain ⟨k, ls, t, run, quiets, nothing, at_next, ready'⟩ := ih m lt leaves' ready'
        refine ⟨k + 1, l :: ls, t, ?_, ?_, ?_, at_next, ready'⟩
        · rw [List.replicate_succ, run_cons _ first, run]
          rfl
        · exact List.forall_mem_cons.2 ⟨quiet, quiets⟩
        · rw [List.filterMap_cons_none none, nothing]

theorem passes (drives : r.Drives i Ready) {a : A} {s : S} (at_a : r.At a s) (ready : Ready s)
    (k : Nat) (goods : ∀ j < k, good (next^[j] a)) :
    ∃ m ls t, Machine.run step s (List.replicate m i) = .ok (ls, t) ∧ (∀ l ∈ ls, calm l) ∧
      ls.filterMap milestone = (List.range k).map (next^[·] a) ∧ r.At (next^[k] a) t ∧ Ready t := by
  induction k with
  | zero => exact ⟨0, [], s, rfl, nofun, rfl, at_a, ready⟩
  | succ k ih =>
      obtain ⟨m, ls, t, run, quiets, passed, at_k, ready⟩ :=
        ih fun j lt => goods j (Nat.lt_succ_of_lt lt)
      obtain ⟨l, u, first, quiet, some, ready'⟩ := drives.depart at_k ready
      obtain ⟨none, -⟩ | ⟨-, leaves⟩ := r.depart at_k first quiet
      · cases none.symm.trans some
      · obtain ⟨n, leaves⟩ := leaves (goods k (Nat.lt_succ_self k))
        obtain ⟨m', ls', t', rest, quiets', nothing, at_next, ready'⟩ := arrives drives leaves ready'
        refine ⟨m + (m' + 1), ls ++ (l :: ls'), t', ?_, ?_, ?_, ?_, ready'⟩
        · rw [← List.replicate_append_replicate, run_append _ run, List.replicate_succ, run_cons _ first, rest]
          rfl
        · intro l' mem
          obtain mem | mem := List.mem_append.1 mem
          · exact quiets l' mem
          · exact List.forall_mem_cons.2 ⟨quiet, quiets'⟩ l' mem
        · rw [List.filterMap_append, passed, List.filterMap_cons_some some, nothing,
            List.range_succ, List.map_append]
          rfl
        · rw [Function.iterate_succ_apply']
          exact at_next

end Route

end Machine
