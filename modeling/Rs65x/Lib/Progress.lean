import Rs65x.Lib.Machine

/-!
# Machines that get somewhere in time

A rank that falls in every step without a wanted label bounds the steps up to one.
-/

namespace Machine
open Fallible
variable {E S I L : Type} {step : S → I → Except E (L × S)}

variable (step)

/-- A label of the wanted kind comes within so many steps. -/
def MeetsWithin (wanted : L → Bool) (input : Nat → I) (s : S) (steps : Nat) : Prop :=
  ∃ n < steps, ∃ ls l t, run step s ((List.range (n + 1)).map input) = .ok (ls ++ [l], t) ∧ wanted l

/-- As long as no such label has come, the states are safe. -/
def SafeUntil (wanted : L → Bool) (safe : S → I → Prop) (input : Nat → I) (s : S) : Prop :=
  ∀ n ls t, run step s ((List.range n).map input) = .ok (ls, t) → (∀ l ∈ ls, wanted l = false) →
    safe t (input n)

variable {step}

theorem range_succ_map (n : Nat) (input : Nat → I) : (List.range (n + 1)).map input =
    input 0 :: (List.range n).map fun k => input (k + 1) := by
  rw [List.range_succ_eq_map, List.map_cons, List.map_map]
  rfl

theorem SafeUntil.next {wanted : L → Bool} {safe : S → I → Prop} {input : Nat → I} {s t : S} {l : L}
    (until_ : SafeUntil step wanted safe input s) (next : step s (input 0) = .ok (l, t))
    (other : wanted l = false) : SafeUntil step wanted safe (fun k => input (k + 1)) t := by
  intro n ls u ran none
  refine until_ (n + 1) (l :: ls) u ?_ ?_
  · rw [range_succ_map, run_cons _ next, ran]
    rfl
  · intro l' mem
    rcases List.mem_cons.1 mem with rfl | mem
    · exact other
    · exact none l' mem

/-- Safe steps that lower the rank come to a wanted label. -/
theorem meets_of_rank (P : S → Prop) (rank : S → Nat) (allowed : I → Prop) {wanted : L → Bool}
    {safe : S → I → Prop}
    (advance : ∀ {s i}, P s → allowed i → safe s i → ∃ l t, step s i = .ok (l, t) ∧
      (wanted l = false → P t ∧ rank t < rank s))
    {s : S} (start : P s) {input : Nat → I} (inputs : ∀ n, allowed (input n))
    (until_ : SafeUntil step wanted safe input s) :
    MeetsWithin step wanted input s (rank s + 1) := by
  induction bound : rank s using Nat.strongRecOn generalizing s input with
  | _ r ih =>
      obtain ⟨l, t, next, falls⟩ := advance start (inputs 0) (until_ 0 [] s rfl (by simp))
      cases found : wanted l with
      | true =>
          refine ⟨0, by omega, [], l, t, ?_, found⟩
          exact (run_cons [] next).trans rfl
      | false =>
          obtain ⟨holds, less⟩ := falls found
          obtain ⟨n, lt, ls, l', u, ran, found'⟩ := ih (rank t) (bound ▸ less) holds
            (fun n => inputs (n + 1)) (until_.next next found) rfl
          refine ⟨n + 1, by omega, l :: ls, l', u, ?_, found'⟩
          rw [range_succ_map, run_cons _ next, ran]
          rfl

theorem MeetsWithin.safe {wanted : L → Bool} {safe : S → I → Prop} {input : Nat → I} {s : S}
    {steps : Nat} (meets : MeetsWithin step wanted input s steps) {P : S → Prop}
    (allowed : I → Prop) (start : P s) (inputs : ∀ n, allowed (input n))
    (keeps : ∀ {s i l t}, P s → step s i = .ok (l, t) → P t)
    (returns : ∀ {s i l t}, P s → allowed i → step s i = .ok (l, t) → safe s i) :
    SafeUntil step wanted safe input s := by
  obtain ⟨m, -, front, last, u, ran, found⟩ := meets
  intro n ls t reached none
  induction n generalizing s input m front ls with
  | zero =>
      cases reached
      rw [range_succ_map] at ran
      obtain ⟨l, t, tail, next, -, -⟩ := run_cons_ok ran
      exact returns start (inputs 0) next
  | succ n ih =>
      rw [range_succ_map] at reached ran
      obtain ⟨l, s₁, tail, next, behind, rfl⟩ := run_cons_ok reached
      obtain ⟨l', s₁', tail', next', behind', eq⟩ := run_cons_ok ran
      cases next.symm.trans next'
      rw [List.forall_mem_cons] at none
      cases front with
      | nil =>
          cases eq
          cases none.1.symm.trans found
      | cons l' front =>
          cases eq
          cases m with
          | zero =>
              obtain ⟨empty, -⟩ := Prod.mk.inj (Except.ok.inj behind')
              simp at empty
          | succ m => exact ih (keeps start next) (fun n => inputs (n + 1)) m front behind' tail behind none.2

/-! ## Inputs that let the machine go on keep coming back -/

def Recurs (go : I → Prop) (input : Nat → I) : Prop := ∀ n, ∃ m, go (input (n + m))

theorem Recurs.shift {go : I → Prop} {input : Nat → I} (recurs : Recurs go input) (k : Nat) :
    Recurs go fun n => input (k + n) := by
  intro n
  obtain ⟨m, here⟩ := recurs (k + n)
  rw [Nat.add_assoc] at here
  exact ⟨m, here⟩

theorem Recurs.tail {go : I → Prop} {input : Nat → I} (recurs : Recurs go input) :
    Recurs go fun n => input (n + 1) := by
  simp only [Nat.add_comm _ 1]
  exact recurs.shift 1

variable (step) in
/-- So many steps with calm labels lead to a state with `Q`. -/
def LeadsTo (calm : L → Prop) (Q : S → Prop) (input : Nat → I) (s : S) : Prop :=
  ∃ n ls t, run step s ((List.range n).map input) = .ok (ls, t) ∧ (∀ l ∈ ls, calm l) ∧ Q t

variable {calm : L → Prop} {Q : S → Prop} {input : Nat → I} {s t : S}

theorem LeadsTo.here (holds : Q s) : LeadsTo step calm Q input s :=
  ⟨0, [], s, rfl, fun _ mem => absurd mem List.not_mem_nil, holds⟩

theorem LeadsTo.cons {l : L} (next : step s (input 0) = .ok (l, t)) (quiet : calm l)
    (leads : LeadsTo step calm Q (fun n => input (n + 1)) t) : LeadsTo step calm Q input s := by
  obtain ⟨n, ls, u, ran, all, holds⟩ := leads
  refine ⟨n + 1, l :: ls, u, ?_, List.forall_mem_cons.2 ⟨quiet, all⟩, holds⟩
  rw [range_succ_map, run_cons _ next, ran]
  rfl

/-- A machine that waits in `P` until it is let go. -/
theorem LeadsTo.of_recurs {P : S → Prop} {go : I → Prop}
    (waits : ∀ s (input : Nat → I), P s → Recurs go input → LeadsTo step calm Q input s ∨
      ¬ go (input 0) ∧ ∃ l t, step s (input 0) = .ok (l, t) ∧ calm l ∧ P t)
    (start : P s) (recurs : Recurs go input) : LeadsTo step calm Q input s := by
  obtain ⟨m, lets⟩ := recurs 0
  rw [Nat.zero_add] at lets
  induction m generalizing s input with
  | zero =>
      rcases waits s input start recurs with leads | ⟨stays, -⟩
      · exact leads
      · exact absurd lets stays
  | succ m ih =>
      rcases waits s input start recurs with leads | ⟨-, l, t, next, quiet, start'⟩
      · exact leads
      · exact .cons next quiet (ih start' recurs.tail lets)

end Machine
