import Mathlib.Data.List.Basic

/-!
# A queue that can be rewound

What has been taken from the front can be put back, one entry at a time, until the queue is empty.
-/

/-- The entries taken from the front, the last one first, and the entries still in the queue. -/
structure Tape (A : Type*) where
  past : List A
  live : List A

namespace Tape

inductive Call (A : Type*) where
  | push (entry : A)
  | pop | front | clear
  /-- In the place of the last entry taken. -/
  | insert (entry : A)
  | rewind
  | length | isEmpty

inductive Reply (A : Type*) where
  | none
  | entry (entry : Option A)
  | length (n : Nat)
  | isEmpty (b : Bool)

variable {A : Type*}

def empty : Tape A := ⟨[], []⟩

/-- An empty queue forgets what has been taken from it. -/
def recycle (t : Tape A) : Tape A := if t.live = [] then empty else t

@[simp] theorem recycle_nil (past : List A) : (⟨past, []⟩ : Tape A).recycle = empty := rfl

@[simp] theorem recycle_cons (past rest : List A) (entry : A) :
    (⟨past, entry :: rest⟩ : Tape A).recycle = ⟨past, entry :: rest⟩ := rfl

def call (t : Tape A) : Call A → Reply A × Tape A
  | .push entry => (.none, ⟨t.past, t.live ++ [entry]⟩)
  | .pop =>
      match t.live with
      | [] => (.entry none, t)
      | entry :: rest => (.entry (some entry), (⟨entry :: t.past, rest⟩ : Tape A).recycle)
  | .front => (.entry t.live.head?, t)
  | .clear => (.none, empty)
  | .insert entry => (.none, ⟨t.past.tail, entry :: t.live⟩)
  | .rewind =>
      match t.past with
      | [] => (.none, t)
      | entry :: past => (.none, ⟨past, entry :: t.live⟩)
  | .length => (.length t.live.length, t)
  | .isEmpty => (.isEmpty t.live.isEmpty, t)

end Tape
