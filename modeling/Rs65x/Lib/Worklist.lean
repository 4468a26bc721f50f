import Mathlib.Logic.Basic

/-!
# Machines that work off a list

A turn takes the first item of a list of work and returns a state and the list that is left, which
need not be the tail.
-/

namespace Worklist
variable {S O : Type} (next : S → O → List O → S × List O) (allowed : S → O → Prop)

/-- So many allowed turns lead from one state and list to another. -/
inductive Works : S → List O → Nat → S → List O → Prop
  | refl {s : S} {work : List O} : Works s work 0 s work
  | turn {s t : S} {o : O} {rest left : List O} {n : Nat} :
      allowed s o → Works (next s o rest).1 (next s o rest).2 n t left →
      Works s (o :: rest) (n + 1) t left

variable {next allowed}

theorem Works.trans {s t u : S} {work left left' : List O} {m n : Nat}
    (first : Works next allowed s work m t left) (second : Works next allowed t left n u left') :
    Works next allowed s work (n + m) u left' := by
  induction first with
  | refl => exact second
  | turn ok _ ih => exact .turn ok (ih second)

theorem Works.mono {s t : S} {work left : List O} {n : Nat} {allowed' : S → O → Prop}
    (works : Works next allowed s work n t left) (weaker : ∀ s o, allowed s o → allowed' s o) :
    Works next allowed' s work n t left := by
  induction works with
  | refl => exact .refl
  | turn ok _ ih => exact .turn (weaker _ _ ok) ih

theorem Works.single {s t : S} {o : O} {rest left : List O} (ok : allowed s o)
    (eq : next s o rest = (t, left)) : Works next allowed s (o :: rest) 1 t left := by
  refine .turn ok ?_
  rw [eq]
  exact .refl

theorem Works.step {s t u : S} {o : O} {rest work left : List O} {n : Nat} (ok : allowed s o)
    (eq : next s o rest = (t, work)) (works : Works next allowed t work n u left) :
    Works next allowed s (o :: rest) (n + 1) u left := by
  refine .turn ok ?_
  rw [eq]
  exact works

theorem Works.cases_cons {s t : S} {o : O} {rest : List O} {n : Nat}
    (works : Works next allowed s (o :: rest) n t []) :
    allowed s o ∧ ∃ m, n = m + 1 ∧ Works next allowed (next s o rest).1 (next s o rest).2 m t [] := by
  cases works with
  | turn ok works => exact ⟨ok, _, rfl, works⟩

theorem Works.count_pos {s t : S} {work : List O} {n : Nat} (works : Works next allowed s work n t [])
    (more : work ≠ []) : ∃ m, n = m + 1 := by
  obtain ⟨o, rest, rfl⟩ := List.exists_cons_of_ne_nil more
  exact ⟨_, works.cases_cons.2.choose_spec.1⟩

theorem Works.cases_nil {s t : S} {n : Nat} (works : Works next allowed s [] n t []) :
    n = 0 ∧ t = s := by
  cases works
  exact ⟨rfl, rfl⟩

theorem Works.unique {s t u : S} {work : List O} {m n : Nat}
    (first : Works next allowed s work m t []) (second : Works next allowed s work n u []) :
    m = n ∧ t = u := by
  induction m generalizing s work n with
  | zero =>
      cases first
      obtain ⟨rfl, rfl⟩ := second.cases_nil
      exact ⟨rfl, rfl⟩
  | succ m ih =>
      cases first with
      | turn _ first =>
          cases second with
          | turn _ second =>
              obtain ⟨rfl, rfl⟩ := ih first second
              exact ⟨rfl, rfl⟩

end Worklist
