import Mathlib.Data.List.Forall2

/-!
# Deterministic machines with inputs, labels and faults

A machine is a function `step : S → I → Except E (L × S)`: a state and an input give a label and the
next state, or a fault.
-/

namespace Fallible
universe u
variable {E : Type*} {A B : Type u}

@[simp] theorem ok_bind (a : A) (f : A → Except E B) : (Except.ok a >>= f) = f a := rfl

@[simp] theorem error_bind (e : E) (f : A → Except E B) : (Except.error e >>= f) = .error e := rfl

@[simp] theorem pure_eq (a : A) : (pure a : Except E A) = .ok a := rfl

@[simp] theorem throw_eq (e : E) : (throw e : Except E A) = .error e := rfl

theorem bind_eq_ok {x : Except E A} {f : A → Except E B} {b : B} :
    (x >>= f) = .ok b ↔ ∃ a, x = .ok a ∧ f a = .ok b := by
  cases x <;> simp

/-- Whatever the parameter, the computation returns one and the same value, and `P` holds of it. -/
def Always {K : Type} (f : K → Except E A) (P : A → Prop) : Prop := ∃ a, P a ∧ ∀ k, f k = .ok a

namespace Always
variable {K : Type} {f : K → Except E A} {P Q : A → Prop}

theorem ok {a : A} (h : P a) : Always (fun _ : K => (.ok a : Except E A)) P := ⟨a, h, fun _ => rfl⟩

theorem mono (h : Always f P) (le : ∀ a, P a → Q a) : Always f Q :=
  let ⟨a, holds, eq⟩ := h
  ⟨a, le a holds, eq⟩

theorem bind {g : K → A → Except E B} {R : B → Prop} (h : Always f P)
    (next : ∀ a, P a → Always (fun k => g k a) R) : Always (fun k => f k >>= g k) R := by
  obtain ⟨a, holds, eq⟩ := h
  obtain ⟨b, holds', eq'⟩ := next a holds
  exact ⟨b, holds', fun k => by simp only [eq, eq', ok_bind]⟩

theorem ite {c : Prop} [Decidable c] {g : K → Except E A} (yes : c → Always f P)
    (no : ¬ c → Always g P) : Always (fun k => if c then f k else g k) P := by
  by_cases h : c
  · simpa only [if_pos h] using yes h
  · simpa only [if_neg h] using no h

theorem foldlM {g : K → A → B → Except E A} {l : List B} {a : A} (initial : P a)
    (turn : ∀ a b, b ∈ l → P a → Always (fun k => g k a b) P) :
    Always (fun k => l.foldlM (g k) a) P := by
  induction l generalizing a with
  | nil => exact ok initial
  | cons b l ih =>
      simp only [List.foldlM_cons]
      exact (turn a b List.mem_cons_self initial).bind fun a holds =>
        ih holds fun a b mem => turn a b (List.mem_cons_of_mem _ mem)

theorem foldlM_range {g : K → A → Nat → Except E A} {P : Nat → A → Prop} {n : Nat} {a : A}
    (initial : P 0 a) (turn : ∀ k < n, ∀ a, P k a → Always (fun x => g x a k) (P (k + 1))) :
    Always (fun x => (List.range n).foldlM (g x) a) (P n) := by
  induction n with
  | zero => exact ok initial
  | succ n ih =>
      simp only [List.range_succ, List.foldlM_append, List.foldlM_cons, List.foldlM_nil]
      refine (ih fun k lt => turn k (Nat.lt_succ_of_lt lt)).bind fun a holds => ?_
      exact (turn n (Nat.lt_succ_self n) a holds).bind fun _ holds => ok holds

end Always

/-- What the first returns, the second returns. -/
def Below (x y : Except E A) : Prop := ∀ a, x = .ok a → y = .ok a

namespace Below
variable {x y : Except E A}

theorem same (x : Except E A) : Below x x := fun _ returns => returns

theorem error (e : E) : Below (.error e) y := fun _ returns => by cases returns

theorem bind {f g : A → Except E B} (below : Below x y) (next : ∀ a, Below (f a) (g a)) :
    Below (x >>= f) (y >>= g) := by
  intro b returns
  obtain ⟨a, first, rest⟩ := bind_eq_ok.1 returns
  rw [below a first]
  exact next a b rest

theorem ite {c : Prop} [Decidable c] {x' y' : Except E A} (yes : Below x y) (no : Below x' y') :
    Below (if c then x else x') (if c then y else y') := by
  by_cases h : c
  · simpa only [if_pos h] using yes
  · simpa only [if_neg h] using no

end Below

theorem Always.below {K : Type} {f : K → Except E A} {P : A → Prop} (always : Always f P) (k k' : K) :
    Below (f k) (f k') := by
  obtain ⟨a, -, eq⟩ := always
  rw [eq, eq]
  exact .same _

def get (x : Except E A) (default : A) : A :=
  match x with
  | .ok a => a
  | .error _ => default

@[simp] theorem get_ok (a default : A) : get (.ok a : Except E A) default = a := rfl

@[simp] theorem get_error (e : E) (default : A) : get (.error e) default = default := rfl

theorem Always.eq_get {K : Type} {f : K → Except E A} {P : A → Prop} (h : Always f P) (k k' : K)
    (default : A) : f k = .ok (get (f k') default) ∧ P (get (f k') default) := by
  obtain ⟨a, holds, eq⟩ := h
  simp only [eq, get]
  exact ⟨trivial, holds⟩

end Fallible

namespace Machine
variable {S I L E : Type} (step : S → I → Except E (L × S))

/-- The states reached from `start` by steps that all meet `allowed`. -/
inductive Reaches (allowed : S → I → Prop) (start : S) : S → Prop
  | refl : Reaches allowed start start
  | tail {s : S} {i : I} {l : L} {t : S} :
      Reaches allowed start s → allowed s i → step s i = .ok (l, t) → Reaches allowed start t

variable {step}

theorem Reaches.invariant {allowed : S → I → Prop} {start s : S} {P : S → Prop}
    (reach : Reaches step allowed start s) (initial : P start)
    (preserves : ∀ {s i l t}, P s → allowed s i → step s i = .ok (l, t) → P t) : P s := by
  induction reach with
  | refl => exact initial
  | tail _ ok next ih => exact preserves ih ok next

theorem Reaches.mono {allowed allowed' : S → I → Prop} {start s : S}
    (reach : Reaches step allowed start s) (le : ∀ s i, allowed s i → allowed' s i) :
    Reaches step allowed' start s := by
  induction reach with
  | refl => exact .refl
  | tail _ ok next ih => exact ih.tail (le _ _ ok) next

variable (step) in
/-- The labels and the last state of the run over the given inputs. -/
def run : S → List I → Except E (List L × S)
  | s, [] => .ok ([], s)
  | s, i :: is => do
      let (l, s) ← step s i
      let (ls, s) ← run s is
      return (l :: ls, s)

@[simp] theorem run_nil (s : S) : run step s [] = .ok ([], s) := rfl

theorem run_cons {s t : S} {i : I} {l : L} (is : List I) (h : step s i = .ok (l, t)) :
    run step s (i :: is) = (run step t is >>= fun r => .ok (l :: r.1, r.2)) := by
  simp only [run, h, Fallible.ok_bind]
  rfl

theorem run_cons_ok {s t : S} {i : I} {is : List I} {ls : List L}
    (h : run step s (i :: is) = .ok (ls, t)) :
    ∃ l u rest, step s i = .ok (l, u) ∧ run step u is = .ok (rest, t) ∧ ls = l :: rest := by
  simp only [run, Fallible.bind_eq_ok, Prod.exists] at h
  obtain ⟨l, u, first, rest, v, tail, eq⟩ := h
  cases eq
  exact ⟨l, u, rest, first, tail, rfl⟩

theorem run_append {s t : S} {is : List I} {ls : List L} (js : List I)
    (h : run step s is = .ok (ls, t)) :
    run step s (is ++ js) = (run step t js >>= fun r => .ok (ls ++ r.1, r.2)) := by
  induction is generalizing s ls with
  | nil =>
      cases h
      rw [List.nil_append]
      cases run step t js <;> simp
  | cons i is ih =>
      simp only [run, Fallible.bind_eq_ok, Prod.exists] at h
      obtain ⟨l, u, first, ls', v, rest, last⟩ := h
      cases last
      rw [List.cons_append, run_cons _ first, ih rest]
      cases run step t js <;> rfl

theorem run_length {s t : S} {is : List I} {ls : List L} (ran : run step s is = .ok (ls, t)) :
    ls.length = is.length := by
  induction is generalizing s ls with
  | nil =>
      cases ran
      rfl
  | cons i is ih =>
      obtain ⟨l, u, rest, -, tail, rfl⟩ := run_cons_ok ran
      rw [List.length_cons, ih tail, List.length_cons]

/-- What the steps of a run keep, each with a calm label, holds at its end. -/
theorem run_keeps {P : S → Prop} {calm : L → Prop} {is : List I} {ls : List L} {s t : S}
    (ran : run step s is = .ok (ls, t)) (all : ∀ l ∈ ls, calm l) (start : P s)
    (keeps : ∀ {s i l t}, P s → step s i = .ok (l, t) → calm l → P t) : P t := by
  induction is generalizing s ls with
  | nil =>
      cases ran
      exact start
  | cons i is ih =>
      obtain ⟨l, u, rest, first, tail, rfl⟩ := run_cons_ok ran
      rw [List.forall_mem_cons] at all
      exact ih tail all.2 (keeps start first all.1)

/-! ## Two machines in step -/

/-- Both fault in the same way, or both return the same labels and related states. -/
def Agree {A S T : Type} (R : S → T → Prop) : Except E (A × S) → Except E (A × T) → Prop
  | .error e, .error e' => e = e'
  | .ok (a, s), .ok (b, t) => a = b ∧ R s t
  | _, _ => False

namespace Agree
variable {A T : Type} {R : S → T → Prop} {x : Except E (A × S)} {y : Except E (A × T)}

theorem labels (h : Agree R x y) : x.map (·.1) = y.map (·.1) := by
  rcases x with e | ⟨a, s⟩ <;> rcases y with e' | ⟨b, t⟩
  · exact congrArg Except.error h
  · exact h.elim
  · exact h.elim
  · exact congrArg Except.ok h.1

theorem of_ok {a : A} {t : T} (h : Agree R x (.ok (a, t))) : ∃ s, x = .ok (a, s) ∧ R s t := by
  rcases x with e | ⟨b, s⟩
  · exact h.elim
  · obtain ⟨rfl, related⟩ := h
    exact ⟨s, rfl, related⟩

theorem to_ok {a : A} {s : S} (h : Agree R (.ok (a, s)) y) : ∃ t, y = .ok (a, t) ∧ R s t := by
  rcases y with e | ⟨b, t⟩
  · exact h.elim
  · obtain ⟨rfl, related⟩ := h
    exact ⟨t, rfl, related⟩

theorem mono {R' : S → T → Prop} (h : Agree R x y)
    (le : ∀ a s t, x = .ok (a, s) → R s t → R' s t) : Agree R' x y := by
  rcases x with e | ⟨a, s⟩ <;> rcases y with e' | ⟨b, t⟩
  · exact h
  · exact h.elim
  · exact h.elim
  · exact ⟨h.1, le a s t rfl h.2⟩

theorem bind {B : Type} (f : A → B) (h : Agree R x y) :
    Agree R (x >>= fun r => .ok (f r.1, r.2)) (y >>= fun r => .ok (f r.1, r.2)) := by
  rcases x with e | ⟨a, s⟩ <;> rcases y with e' | ⟨b, t⟩
  · exact h
  · exact h.elim
  · exact h.elim
  · exact ⟨congrArg f h.1, h.2⟩

theorem relabel {B : Type} {f : S → B} {g : T → B} (same : ∀ s t, R s t → f s = g t)
    (h : Agree R x y) :
    Agree R (x >>= fun r => .ok (f r.2, r.2)) (y >>= fun r => .ok (g r.2, r.2)) := by
  rcases x with e | ⟨a, s⟩ <;> rcases y with e' | ⟨b, t⟩
  · exact h
  · exact h.elim
  · exact h.elim
  · exact ⟨same s t h.2, h.2⟩

end Agree

variable (step) in
/-- Every step of the run is taken from a state with `P`. -/
def Throughout (P : S → Prop) : S → List I → Prop
  | _, [] => True
  | s, i :: is => P s ∧ ∀ l t, step s i = .ok (l, t) → Throughout P t is

/-- Machines whose steps agree from related states, on related inputs, have agreeing runs. -/
theorem run_agree_throughout {T J : Type} {step' : T → J → Except E (L × T)} {R : S → T → Prop}
    {P : S → Prop} {Q : I → J → Prop}
    (steps : ∀ s t i j, R s t → P s → Q i j → Agree R (step s i) (step' t j)) {is : List I}
    {js : List J} (inputs : List.Forall₂ Q is js) {s : S} {t : T} (start : R s t)
    (within : Throughout step P s is) : Agree R (run step s is) (run step' t js) := by
  induction inputs generalizing s t with
  | nil => exact ⟨rfl, start⟩
  | @cons i j is js related _ ih =>
      obtain ⟨here, within⟩ := within
      have first := steps s t i j start here related
      rcases h : step s i with e | ⟨l, s'⟩ <;> rcases h' : step' t j with e' | ⟨l', t'⟩ <;>
        simp only [h, h', Agree] at first
      · simp only [run, h, h', Fallible.error_bind, Agree, first]
      · obtain ⟨rfl, related⟩ := first
        rw [run_cons _ h, run_cons _ h']
        exact (ih related (within l s' h)).bind (l :: ·)

theorem run_agree {T : Type} {step' : T → I → Except E (L × T)} {R : S → T → Prop}
    (steps : ∀ s t i, R s t → Agree R (step s i) (step' t i)) {s : S} {t : T} (start : R s t)
    (is : List I) : Agree R (run step s is) (run step' t is) := by
  have within : ∀ (is : List I) (s : S), Throughout step (fun _ => True) s is := by
    intro is
    induction is with
    | nil => exact fun _ => trivial
    | cons i is ih => exact fun _ => ⟨trivial, fun _ t _ => ih t⟩
  refine run_agree_throughout (Q := Eq) ?_ (List.forall₂_same.2 fun _ _ => rfl) start (within is s)
  rintro s t i _ related - rfl
  exact steps s t i related

variable (step) in
def Permitted (allowed : S → I → Prop) : S → List I → Prop
  | _, [] => True
  | s, i :: is => allowed s i ∧ ∀ l t, step s i = .ok (l, t) → Permitted allowed t is

theorem Permitted.cons {allowed : S → I → Prop} {s t : S} {i : I} {is : List I} {l : L}
    (here : allowed s i) (h : step s i = .ok (l, t)) (rest : Permitted step allowed t is) :
    Permitted step allowed s (i :: is) := by
  refine ⟨here, fun l' t' h' => ?_⟩
  cases h.symm.trans h'
  exact rest

def total {T : Type} (step' : T → I → L × T) (t : T) (i : I) : Except E (L × T) := .ok (step' t i)

theorem run_total {T : Type} (step' : T → I → L × T) (is : List I) (t : T) :
    ∃ ls t', run (total (E := E) step') t is = .ok (ls, t') := by
  induction is generalizing t with
  | nil => exact ⟨[], t, rfl⟩
  | cons i is ih =>
      obtain ⟨ls, t', rest⟩ := ih (step' t i).2
      have here : (total step' t i : Except E (L × T)) = .ok (step' t i) := rfl
      refine ⟨(step' t i).1 :: ls, t', ?_⟩
      rw [run_cons _ here, rest, Fallible.ok_bind]

/-- A machine that is the other one, but for a fault where the guard fails. -/
theorem run_guarded {step step' : S → I → Except E (L × S)} {P : S → Prop} {guard : S → I → Prop}
    {e : E} (total : ∀ {s} i, P s → ∃ l t, step' s i = .ok (l, t) ∧ P t)
    (inside : ∀ {s i}, P s → guard s i → step s i = step' s i)
    (outside : ∀ {s i}, P s → ¬ guard s i → step s i = .error e) (is : List I) {s : S}
    (start : P s) : ∃ r, run step' s is = .ok r ∧
      (Permitted step' guard s is ∧ run step s is = .ok r ∨
        ¬ Permitted step' guard s is ∧ run step s is = .error e) := by
  induction is generalizing s with
  | nil => exact ⟨([], s), rfl, .inl ⟨trivial, rfl⟩⟩
  | cons i is ih =>
      obtain ⟨l, t, here, next⟩ := total i start
      obtain ⟨r, ran, rest⟩ := ih next
      refine ⟨(l :: r.1, r.2), by rw [run_cons _ here, ran, Fallible.ok_bind], ?_⟩
      by_cases guarded : guard s i
      · have same := (inside start guarded).trans here
        rw [run_cons _ same]
        rcases rest with ⟨permitted, ran'⟩ | ⟨refused, ran'⟩
        · exact .inl ⟨.cons guarded here permitted, by rw [ran', Fallible.ok_bind]⟩
        · refine .inr ⟨fun permitted => refused (permitted.2 l t here), ?_⟩
          rw [ran', Fallible.error_bind]
      · refine .inr ⟨fun permitted => guarded permitted.1, ?_⟩
        rw [run, outside start guarded, Fallible.error_bind]

/-- A machine that does what the other one does, as long as its inputs are allowed. -/
theorem run_refines {T : Type} {step' : T → I → L × T} {R : S → T → Prop} {allowed : S → I → Prop}
    (steps : ∀ s t i, R s t → allowed s i → Agree R (step s i) (.ok (step' t i))) {is : List I}
    {s : S} {t : T} (start : R s t) (permitted : Permitted step allowed s is) :
    Agree R (run step s is) (run (total (E := E) step') t is) := by
  induction is generalizing s t with
  | nil => exact ⟨rfl, start⟩
  | cons i is ih =>
      obtain ⟨allowed, permitted⟩ := permitted
      obtain ⟨s', first, related⟩ := (steps s t i start allowed).of_ok
      have here : (total step' t i : Except E (L × T)) = .ok (step' t i) := rfl
      rw [run_cons _ first, run_cons _ here]
      exact (ih related (permitted _ _ first)).bind ((step' t i).1 :: ·)

/-- Machines that stay together for as long as a budget of some labels lasts. -/
theorem run_together {T : Type} {step' : T → I → Except E (L × T)} {R : Nat → S → T → Prop}
    {spends : L → Bool}
    (steps : ∀ n s t i l s', R n s t → step s i = .ok (l, s') → (spends l → 0 < n) →
      ∃ t', step' t i = .ok (l, t') ∧ R (if spends l then n - 1 else n) s' t')
    {is : List I} {n : Nat} {s s' : S} {t : T} {ls : List L} (start : R n s t)
    (ran : run step s is = .ok (ls, s')) (budget : ls.countP spends ≤ n) :
    ∃ m t', run step' t is = .ok (ls, t') ∧ R m s' t' := by
  induction is generalizing n s t ls with
  | nil =>
      cases ran
      exact ⟨n, t, rfl, start⟩
  | cons i is ih =>
      obtain ⟨l, u, rest, first, tail, rfl⟩ := run_cons_ok ran
      rw [List.countP_cons] at budget
      have affords : spends l → 0 < n := by
        intro spent
        rw [if_pos spent] at budget
        omega
      obtain ⟨t₁, first', together⟩ := steps n s t i l u start first affords
      have left : rest.countP spends ≤ if spends l then n - 1 else n := by
        split at budget
        · next spent =>
            rw [if_pos spent]
            omega
        · next free =>
            rw [if_neg free]
            omega
      obtain ⟨m, t', ran', together'⟩ := ih together tail left
      refine ⟨m, t', ?_, together'⟩
      rw [run_cons _ first', ran', Fallible.ok_bind]

variable (step) in
/-- The second list is the first with inputs inserted on which the machine idles. -/
inductive Stretched (idle : S → I → Prop) : S → List I → List I → Prop
  | nil {s : S} : Stretched idle s [] []
  | insert {s : S} {i : I} {is js : List I} :
      idle s i → Stretched idle s is js → Stretched idle s is (i :: js)
  | keep {s : S} {i : I} {is js : List I} :
      (∀ l t, step s i = .ok (l, t) → Stretched idle t is js) →
      Stretched idle s (i :: is) (i :: js)

/-- Inputs on which the machine idles do not change where a run ends. -/
theorem Stretched.run_eq {idle : S → I → Prop} (loops : ∀ s i, idle s i → ∃ l, step s i = .ok (l, s))
    {s : S} {is js : List I} (h : Stretched step idle s is js) :
    (run step s js).map (·.2) = (run step s is).map (·.2) := by
  have skip (l : L) (x : Except E (List L × S)) :
      (x >>= fun r => .ok (l :: r.1, r.2)).map (·.2) = x.map (·.2) := by
    cases x <;> rfl
  induction h with
  | nil => rfl
  | insert idles _ ih =>
      obtain ⟨l, loop⟩ := loops _ _ idles
      rw [run_cons _ loop, skip, ih]
  | @keep s i is js _ ih =>
      cases h : step s i with
      | error e => simp only [run, h, Fallible.error_bind]
      | ok r => rw [run_cons _ h, run_cons _ h, skip, skip, ih _ _ h]

/-- A run of at least `length` steps, with the state before and the label of each. -/
structure Trace (step : S → I → Except E (L × S)) (start : S) (length : Nat) where
  state : Nat → S
  input : Nat → I
  label : Nat → L
  state_zero : state 0 = start
  next : ∀ n < length, step (state n) (input n) = .ok (label n, state (n + 1))

def follow (step : S → I → Except E (L × S)) (start : S) (input : Nat → I) : Nat → S
  | 0 => start
  | n + 1 =>
      match step (follow step start input n) (input n) with
      | .ok (_, s) => s
      | .error _ => follow step start input n

theorem follow_allowed {allowed : S → I → Prop} {start : S} {input : Nat → I} {n : Nat}
    (each : ∀ k < n, allowed (follow step start input k) (input k)) :
    Reaches step allowed start (follow step start input n) := by
  induction n with
  | zero => exact .refl
  | succ n ih =>
      have reach := ih fun k lt => each k (Nat.lt_succ_of_lt lt)
      simp only [follow]
      split
      · next run => exact reach.tail (each n (Nat.lt_succ_self n)) run
      · exact reach

theorem follow_reaches (start : S) (input : Nat → I) (n : Nat) :
    Reaches step (fun _ _ => True) start (follow step start input n) :=
  follow_allowed fun _ _ => trivial

/-- The trace over inputs under which every step returns. -/
def Trace.ofInputs (start : S) (length : Nat) (input : Nat → I) (fallback : L)
    (returns : ∀ n < length, ∃ l s, step (follow step start input n) (input n) = .ok (l, s)) :
    Trace step start length where
  state := follow step start input
  input := input
  label n := (Fallible.get (step (follow step start input n) (input n)) (fallback, start)).1
  state_zero := rfl
  next n lt := by
    obtain ⟨l, s, eq⟩ := returns n lt
    simp only [follow, eq, Fallible.get_ok]

theorem Trace.invariant {start : S} {length : Nat} (t : Trace step start length) {P : S → Prop}
    (initial : P start) (preserves : ∀ {s i l s'}, P s → step s i = .ok (l, s') → P s')
    {n : Nat} (le : n ≤ length) : P (t.state n) := by
  induction n with
  | zero => simpa only [t.state_zero] using initial
  | succ n ih => exact preserves (ih (by omega)) (t.next n (by omega))

end Machine
