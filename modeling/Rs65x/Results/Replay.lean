import Rs65x.Results.Buses

/-!
# A log of the bus is a complete record
-/

namespace Rs65x
open Fallible Machine

/-- A bus that plays a script. A call that is not the next one of the script makes it stray. -/
structure Player where
  script : List Access
  strayed : Bool

instance : Bus Player where
  read player addr vda vpa :=
    match player.script with
    | .read addr' vda' vpa' data :: rest =>
        if addr' = addr ∧ vda' = vda ∧ vpa' = vpa then (data, { player with script := rest })
        else (0, { player with strayed := true })
    | _ => (0, { player with strayed := true })
  write player addr data vda vpa :=
    match player.script with
    | access :: rest =>
        if access = .write addr data vda vpa then { player with script := rest }
        else { player with strayed := true }
    | [] => { player with strayed := true }

/-- The bus answers these accesses with the data they have, and is then another. -/
def Answered {β : Type} [Bus β] (b : β) : List Access → β → Prop
  | [], last => b = last
  | .read addr vda vpa data :: rest, last =>
      (Bus.read b addr vda vpa).1 = data ∧ Answered (Bus.read b addr vda vpa).2 rest last
  | .write addr data vda vpa :: rest, last => Answered (Bus.write b addr data vda vpa) rest last

section
variable {β : Type} [Bus β] {v : Variant} {prof : Profile} {whole : List Access}

def Plays (whole : List Access) (r : Recorder β) (player : Player) : Prop :=
  r.log ++ player.script = whole ∧ player.strayed = false

def Scripted (whole log : List Access) (access : Access) : Prop := ∃ rest, log ++ access :: rest = whole

theorem heeds_scripted {log accesses : List Access} (all : log ++ accesses = whole) :
    Heeds (Scripted whole) log accesses := by
  induction accesses generalizing log with
  | nil => trivial
  | cons access rest ih =>
      refine ⟨⟨rest, all⟩, ih ?_⟩
      rw [List.append_assoc]
      exact all

theorem plays_stands_in (whole : List Access) : StandsIn (@Plays β whole) (Scripted whole) where
  read := by
    rintro r ⟨script, strayed⟩ addr vda vpa ⟨all, rfl⟩ ⟨rest, next⟩
    obtain rfl := List.append_cancel_left (all.trans next.symm)
    have played : Bus.read (⟨.read addr vda vpa (Bus.read r.bus addr vda vpa).1 :: rest, false⟩ : Player)
        addr vda vpa = ((Bus.read r.bus addr vda vpa).1, ⟨rest, false⟩) := if_pos ⟨rfl, rfl, rfl⟩
    rw [played]
    exact ⟨rfl, (List.append_assoc _ _ _).trans next, rfl⟩
  write := by
    rintro r ⟨script, strayed⟩ addr data vda vpa ⟨all, rfl⟩ ⟨rest, next⟩
    obtain rfl := List.append_cancel_left (all.trans next.symm)
    have played : Bus.write (⟨.write addr data vda vpa :: rest, false⟩ : Player) addr data vda vpa =
        ⟨rest, false⟩ := if_pos rfl
    rw [played]
    exact ⟨(List.append_assoc _ _ _).trans next, rfl⟩

theorem Answered.append {b b' last : β} {front back : List Access} (first : Answered b front b')
    (second : Answered b' back last) : Answered b (front ++ back) last := by
  induction front generalizing b with
  | nil =>
      cases first
      exact second
  | cons access front ih =>
      cases access with
      | read => exact ⟨first.1, ih first.2⟩
      | write => exact ih first

theorem recorded_read (b : β) (log : List Access) (addr : U32) (vda vpa : Bool) :
    Bus.read (⟨b, log⟩ : Recorder β) addr vda vpa = ((Bus.read b addr vda vpa).1,
      ⟨(Bus.read b addr vda vpa).2, log ++ [.read addr vda vpa (Bus.read b addr vda vpa).1]⟩) := rfl

theorem recorded_write (b : β) (log : List Access) (addr : U32) (data : U8) (vda vpa : Bool) :
    Bus.write (⟨b, log⟩ : Recorder β) addr data vda vpa =
      ⟨Bus.write b addr data vda vpa, log ++ [.write addr data vda vpa]⟩ := rfl

def Answers (whole : List Access) (last : β) (r : Recorder Player) (b : β) : Prop :=
  r.log ++ r.bus.script = whole ∧ Answered b r.bus.script last

theorem answers_stands_in (whole : List Access) (last : β) :
    StandsIn (Answers whole last) (Scripted whole) where
  read := by
    rintro ⟨⟨script, strayed⟩, log⟩ b addr vda vpa ⟨all, answered⟩ ⟨rest, next⟩
    obtain ⟨data, answer⟩ : ∃ data, (Bus.read (⟨script, strayed⟩ : Player) addr vda vpa).1 = data := ⟨_, rfl⟩
    replace next : log ++ .read addr vda vpa data :: rest = whole := answer ▸ next
    obtain rfl : script = .read addr vda vpa data :: rest := List.append_cancel_left (all.trans next.symm)
    have played : Bus.read (⟨.read addr vda vpa data :: rest, strayed⟩ : Player) addr vda vpa =
        (data, ⟨rest, strayed⟩) := if_pos ⟨rfl, rfl, rfl⟩
    rw [recorded_read, played]
    exact ⟨answered.1, (List.append_assoc _ _ _).trans next, answered.2⟩
  write := by
    rintro ⟨⟨script, strayed⟩, log⟩ b addr data vda vpa ⟨all, answered⟩ ⟨rest, next⟩
    obtain rfl : script = .write addr data vda vpa :: rest := List.append_cancel_left (all.trans next.symm)
    have played : Bus.write (⟨.write addr data vda vpa :: rest, strayed⟩ : Player) addr data vda vpa =
        ⟨rest, strayed⟩ := if_pos rfl
    rw [recorded_write, played]
    exact ⟨(List.append_assoc _ _ _).trans next, answered⟩

namespace Cpu6502

theorem run_plays {s t : Cpu6502 × Recorder β} {cycles : List Lines} {exits : List StepExit}
    (ran : run (busCycle v prof) s cycles = .ok (exits, t)) {accesses : List Access}
    (log : t.2.log = s.2.log ++ accesses) :
    run (busCycle v prof) (s.1, (⟨⟨accesses, false⟩, []⟩ : Recorder Player)) cycles =
      .ok (exits, (t.1, ⟨⟨[], false⟩, accesses⟩)) := by
  obtain ⟨⟨script, strayed⟩, played, all, rfl⟩ := run_stands_in (plays_stands_in t.2.log)
    (c := ⟨accesses, false⟩) ⟨log.symm, rfl⟩ ran log (heeds_scripted log.symm) []
  obtain rfl : script = [] := List.append_cancel_left (all.trans (List.append_nil _).symm)
  exact played

theorem run_answered {s t : Cpu6502 × Recorder β} {cycles : List Lines} {exits : List StepExit} {c : β}
    (ran : run (busCycle v prof) s cycles = .ok (exits, t)) (start : Answered c s.2.log s.2.bus) :
    Answered c t.2.log t.2.bus := by
  induction cycles generalizing s exits with
  | nil =>
      cases ran
      exact start
  | cons line cycles ih =>
      obtain ⟨exit, u, rest, step, tail, rfl⟩ := run_cons_ok ran
      apply ih tail
      apply step_keeps (I := fun r : Recorder β => Answered c r.log r.bus) _ _ start step
      · intro r addr vda vpa answered
        exact answered.append ⟨rfl, rfl⟩
      · intro r addr data vda vpa answered
        exact answered.append rfl

/-- The runs of a core on a bus are what the two have in common: the logs that the core follows as a
script, and that the bus answers so. -/
theorem runs_factor {cpu cpu' : Cpu6502} {c : β} {log : List Access} {cycles : List Lines}
    {exits : List StepExit} :
    (∃ c', run (busCycle v prof) (cpu, (⟨c, []⟩ : Recorder β)) cycles =
        .ok (exits, (cpu', ⟨c', log⟩))) ↔
      run (busCycle v prof) (cpu, (⟨⟨log, false⟩, []⟩ : Recorder Player)) cycles =
        .ok (exits, (cpu', ⟨⟨[], false⟩, log⟩)) ∧ ∃ c', Answered c log c' := by
  constructor
  · rintro ⟨c', ran⟩
    exact ⟨run_plays ran (List.nil_append _).symm, c', run_answered ran rfl⟩
  · rintro ⟨played, last, answered⟩
    obtain ⟨c', ran, -⟩ := run_stands_in (answers_stands_in log last) ⟨rfl, answered⟩ played
      (List.nil_append _).symm (heeds_scripted rfl) []
    exact ⟨c', ran⟩

end Cpu6502
end

end Rs65x
