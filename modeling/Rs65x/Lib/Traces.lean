import Mathlib.Data.List.Nodup
import Mathlib.Logic.Function.Basic

/-!
# Traces of a memory

An access is a direction, true for a read, and an address; an event has the data as well. A memory
and the one that it becomes determine the events of a list of accesses, if a write that is followed
by another one to its address writes back what it found.
-/

namespace Traces
variable {A D : Type}

abbrev Event (A D : Type) := Bool × A × D

namespace Event

def access (e : Event A D) : Bool × A := (e.1, e.2.1)

variable [DecidableEq A]

def put (m : A → D) (e : Event A D) : A → D := if e.1 then m else Function.update m e.2.1 e.2.2

theorem put_of_ne {m : A → D} {e : Event A D} {addr : A} (other : e.access ≠ (false, addr)) :
    put m e addr = m addr := by
  rw [put]
  split
  · rfl
  · next write =>
      refine Function.update_of_ne (fun same => other ?_) _ _
      simp [access, same, write]

end Event

def stored (es : List (Event A D)) : List (A × D) := (es.filter (!·.1)).map (·.2)

theorem mem_stored {addr : A} {es : List (Event A D)} :
    addr ∈ (stored es).map (·.1) ↔ (false, addr) ∈ es.map Event.access := by
  simp [stored, Event.access]

variable [DecidableEq A]

/-- The reads return what is there, and the writes lead from one memory to the other. -/
def Coherent : (A → D) → List (Event A D) → (A → D) → Prop
  | m, [], m' => m = m'
  | m, e :: es, m' => (e.1 = true → e.2.2 = m e.2.1) ∧ Coherent (e.put m) es m'

/-- What is written again is written back first. -/
def Rewrites : (A → D) → List (Event A D) → Prop
  | _, [] => True
  | m, e :: es => (e.1 = false → e.2.1 ∈ (stored es).map (·.1) → e.2.2 = m e.2.1) ∧
      Rewrites (e.put m) es

/-- The events of the accesses that lead from one memory to the other. -/
def spell (m m' : A → D) : List (Bool × A) → List (Event A D)
  | [] => []
  | (read, addr) :: rest =>
      let e := (read, addr, if read ∨ (false, addr) ∈ rest then m addr else m' addr)
      e :: spell (Event.put m e) m' rest

theorem spell_access (m m' : A → D) (accesses : List (Bool × A)) :
    (spell m m' accesses).map Event.access = accesses := by
  induction accesses generalizing m with
  | nil => rfl
  | cons access rest ih => exact congrArg (access :: ·) (ih _)

theorem Coherent.append {m m' m'' : A → D} {es es' : List (Event A D)} (first : Coherent m es m')
    (second : Coherent m' es' m'') : Coherent m (es ++ es') m'' := by
  induction es generalizing m with
  | nil =>
      cases first
      exact second
  | cons e es ih => exact ⟨first.1, ih first.2⟩

theorem Coherent.unwritten {m m' : A → D} {es : List (Event A D)} {addr : A}
    (coherent : Coherent m es m') (un : (false, addr) ∉ es.map Event.access) : m' addr = m addr := by
  induction es generalizing m with
  | nil => rw [show m = m' from coherent]
  | cons e es ih =>
      obtain ⟨other, un⟩ := List.ne_and_not_mem_of_not_mem_cons un
      rw [ih coherent.2 un, Event.put_of_ne (Ne.symm other)]

theorem spell_of_coherent {m m' : A → D} {es : List (Event A D)} (coherent : Coherent m es m')
    (rewrites : Rewrites m es) : es = spell m m' (es.map Event.access) := by
  induction es generalizing m with
  | nil => rfl
  | cons e es ih =>
      obtain ⟨read, addr, data⟩ := e
      have same : data = if read ∨ (false, addr) ∈ es.map Event.access then m addr else m' addr := by
        cases read with
        | true => exact coherent.1 rfl
        | false =>
            by_cases again : (false, addr) ∈ es.map Event.access
            · rw [if_pos (.inr again)]
              exact rewrites.1 rfl (mem_stored.2 again)
            · rw [if_neg (by simpa using again), coherent.2.unwritten again]
              exact (Function.update_self addr data m).symm
      simp only [List.map_cons, Event.access, spell] at same ⊢
      rw [← same, ← ih coherent.2 rewrites.2]

/-- The memory does not change any more after the front. -/
theorem spell_append {m m' : A → D} {front back : List (Bool × A)}
    (coherent : Coherent m (spell m m' front) m') (reads : ∀ access ∈ back, access.1 = true) :
    spell m m' (front ++ back) = spell m m' front ++ spell m' m' back := by
  induction front generalizing m with
  | nil => rw [show m = m' from coherent]; rfl
  | cons access front ih =>
      obtain ⟨read, addr⟩ := access
      have same : (false, addr) ∈ front ++ back ↔ (false, addr) ∈ front := by
        rw [List.mem_append, or_iff_left]
        exact fun mem => Bool.noConfusion (reads _ mem)
      simp only [List.cons_append, spell, same]
      exact congrArg (_ :: ·) (ih coherent.2)

theorem rewrites_of_nodup {m : A → D} {es : List (Event A D)}
    (once : ((stored es).map (·.1)).Nodup) : Rewrites m es := by
  induction es generalizing m with
  | nil => trivial
  | cons e es ih =>
      obtain ⟨read, addr, data⟩ := e
      cases read with
      | true => exact ⟨fun write => Bool.noConfusion write, ih once⟩
      | false =>
          obtain ⟨new, once⟩ := List.nodup_cons.1 once
          exact ⟨fun _ again => absurd again new, ih once⟩

/-- A read-modify-write with a dummy write. -/
theorem rewrites_of_twice {m : A → D} {es : List (Event A D)} {addr : A} {data : D}
    (twice : stored es = [(addr, m addr), (addr, data)]) : Rewrites m es := by
  induction es generalizing m with
  | nil => trivial
  | cons e es ih =>
      obtain ⟨read, at_, new⟩ := e
      cases read with
      | true => exact ⟨fun write => Bool.noConfusion write, ih twice⟩
      | false =>
          obtain ⟨first, rest⟩ := List.cons.inj (twice : (at_, new) :: stored es = _)
          replace rest : stored es = [(addr, data)] := rest
          cases first
          refine ⟨fun _ _ => rfl, rewrites_of_nodup ?_⟩
          rw [rest]
          exact List.nodup_singleton addr

end Traces
