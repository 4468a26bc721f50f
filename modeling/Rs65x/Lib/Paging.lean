import Mathlib.Logic.Function.Basic

/-!
# Paged memory

A page shows cells of a store through a window. Two pages may show the same cells, and a page
without a window reads as the value that was driven last.
-/

namespace Paging

structure Window (O C : Type*) where
  cell : O → C
  writable : Bool

inductive Op (I O C V : Type*) where
  | map (page : I) (window : Option (Window O C))
  | read (page : I) (offset : O)
  | write (page : I) (offset : O) (value : V)
  | drive (value : V)

structure Memory (I O C V : Type*) where
  table : I → Option (Window O C)
  cells : C → V
  last : V

variable {I O C V : Type*} [DecidableEq I]

/-! ## Histories, the newest operation first -/

/-- The window of a page is the one mapped last. -/
def windowAt : List (Op I O C V × Option V) → I → Option (Window O C)
  | [], _ => none
  | (.map page window, _) :: earlier, i => if i = page then window else windowAt earlier i
  | _ :: earlier, i => windowAt earlier i

/-- Writes and reads of a mapped page drive the bus, as does the host. -/
def lastDriven (initial : V) : List (Op I O C V × Option V) → V
  | [] => initial
  | (.drive value, _) :: _ => value
  | (.write _ _ value, _) :: _ => value
  | (.read page _, some value) :: earlier =>
      if (windowAt earlier page).isSome then value else lastDriven initial earlier
  | _ :: earlier => lastDriven initial earlier

/-- What an operation answers after a history, and what it makes of the cells. -/
def Answers [DecidableEq C] (initial : V) (earlier : List (Op I O C V × Option V)) (cells : C → V)
    (op : Op I O C V) (out : Option V) (cells' : C → V) : Prop :=
  match op with
  | .read page offset => cells' = cells ∧ out = some (
      match windowAt earlier page with
      | some window => cells (window.cell offset)
      | none => lastDriven initial earlier)
  | .write page offset value => out = none ∧ cells' =
      match windowAt earlier page with
      | some ⟨cell, true⟩ => Function.update cells (cell offset) value
      | _ => cells
  | .map .. | .drive _ => out = none ∧ cells' = cells

namespace Memory
variable [DecidableEq C] {m m' start : Memory I O C V} {op : Op I O C V} {out : Option V}

def step (m : Memory I O C V) : Op I O C V → Option V × Memory I O C V
  | .map page window => (none, { m with table := Function.update m.table page window })
  | .read page offset =>
      match m.table page with
      | some window =>
          let value := m.cells (window.cell offset)
          (some value, { m with last := value })
      | none => (some m.last, m)
  | .write page offset value =>
      match m.table page with
      | some ⟨cell, true⟩ =>
          (none, { m with cells := Function.update m.cells (cell offset) value, last := value })
      | _ => (none, { m with last := value })
  | .drive value => (none, { m with last := value })

/-- The memory comes from `start` by this history. -/
inductive Comes (start : Memory I O C V) : List (Op I O C V × Option V) → Memory I O C V → Prop
  | nil : Comes start [] start
  | cons {history : List (Op I O C V × Option V)} {m m' : Memory I O C V} {op : Op I O C V}
      {out : Option V} (earlier : Comes start history m) (next : m.step op = (out, m')) :
      Comes start ((op, out) :: history) m'

theorem step_table (m : Memory I O C V) (op : Op I O C V) (out : Option V)
    (history : List (Op I O C V × Option V)) (table : m.table = windowAt history) :
    (m.step op).2.table = windowAt ((op, out) :: history) := by
  cases op with
  | map page window =>
      funext i
      simp only [step, windowAt, table, Function.update_apply]
  | read page offset =>
      simp only [step]
      split <;> exact table
  | write page offset value =>
      simp only [step]
      split <;> exact table
  | drive value => exact table

theorem step_last {initial : V} (m : Memory I O C V) (op : Op I O C V)
    (history : List (Op I O C V × Option V)) (table : m.table = windowAt history)
    (last : m.last = lastDriven initial history) :
    (m.step op).2.last = lastDriven initial ((op, (m.step op).1) :: history) := by
  cases op with
  | map page window => exact last
  | read page offset =>
      cases window : m.table page with
      | none => simp [step, lastDriven, ← table, window, last]
      | some window' => simp [step, lastDriven, ← table, window]
  | write page offset value =>
      simp only [step]
      split <;> rfl
  | drive value => rfl

/-- The table and the last value are those of the history. -/
theorem Comes.state {history : List (Op I O C V × Option V)} (comes : Comes start history m)
    (unmapped : start.table = fun _ => none) :
    m.table = windowAt history ∧ m.last = lastDriven start.last history := by
  induction comes with
  | nil => exact ⟨unmapped, rfl⟩
  | @cons history m m' op out earlier next ih =>
      obtain ⟨table, last⟩ := ih
      have table' := m.step_table op out history table
      have last' := m.step_last op history table last
      rw [next] at table' last'
      exact ⟨table', last'⟩

theorem Comes.answers {history : List (Op I O C V × Option V)} (comes : Comes start history m)
    (unmapped : start.table = fun _ => none) (next : m.step op = (out, m')) :
    Answers start.last history m.cells op out m'.cells := by
  obtain ⟨table, last⟩ := comes.state unmapped
  cases op with
  | read page offset =>
      simp only [Answers, ← table, ← last]
      simp only [step] at next
      split at next <;> cases next <;> exact ⟨rfl, rfl⟩
  | write page offset value =>
      simp only [Answers, ← table]
      simp only [step] at next
      split at next <;> cases next <;> exact ⟨rfl, rfl⟩
  | map page window | drive value =>
      cases next
      exact ⟨rfl, rfl⟩

/-! ## Flat memory -/

variable {X : Type*}

/-- Each address has a writable cell of its own. -/
structure Flat (m : Memory I O C V) (split : X → I × O) (place : X → C) : Prop where
  window : ∀ x, ∃ cell, m.table (split x).1 = some ⟨cell, true⟩ ∧ cell (split x).2 = place x
  apart : Function.Injective place

variable {split : X → I × O} {place : X → C}

theorem Flat.read (flat : m.Flat split place) (x : X) :
    m.step (.read (split x).1 (split x).2) =
      (some (m.cells (place x)), { m with last := m.cells (place x) }) := by
  obtain ⟨cell, mapped, here⟩ := flat.window x
  simp only [step, mapped, here]

theorem Flat.write (flat : m.Flat split place) (x : X) (value : V) :
    m.step (.write (split x).1 (split x).2 value) =
      (none, { m with cells := Function.update m.cells (place x) value, last := value }) := by
  obtain ⟨cell, mapped, here⟩ := flat.window x
  simp only [step, mapped, here]

omit [DecidableEq I] in
theorem Flat.update [DecidableEq X] (flat : m.Flat split place) (x : X) (value : V) :
    (fun y => Function.update m.cells (place x) value (place y)) =
      Function.update (fun y => m.cells (place y)) x value := by
  funext y
  by_cases same : y = x
  · rw [same, Function.update_self, Function.update_self]
  · rw [Function.update_of_ne same, Function.update_of_ne fun eq => same (flat.apart eq)]

end Memory

end Paging
