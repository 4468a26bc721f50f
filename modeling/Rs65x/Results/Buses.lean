import Rs65x.Proof.Request
import Rs65x.Proof.Reach

/-!
# One bus in the place of another
-/

namespace Rs65x
open Fallible Machine

section
variable {β γ : Type} [Bus β] [Bus γ] {A : Type}

/-- Related buses stay so and answer alike, in accesses that a history allows. -/
structure StandsIn (R : Recorder β → γ → Prop) (allows : List Access → Access → Prop) : Prop where
  read : ∀ {r c} addr vda vpa, R r c →
    allows r.log (.read addr vda vpa (Bus.read r.bus addr vda vpa).1) →
    (Bus.read c addr vda vpa).1 = (Bus.read r.bus addr vda vpa).1 ∧
      R (Bus.read r addr vda vpa).2 (Bus.read c addr vda vpa).2
  write : ∀ {r c} addr data vda vpa, R r c → allows r.log (.write addr data vda vpa) →
    R (Bus.write r addr data vda vpa) (Bus.write c addr data vda vpa)

def Heeds (allows : List Access → Access → Prop) (log : List Access) : List Access → Prop
  | [] => True
  | a :: rest => allows log a ∧ Heeds allows (log ++ [a]) rest

theorem heeds_append {allows : List Access → Access → Prop} {log front back : List Access} :
    Heeds allows log (front ++ back) ↔ Heeds allows log front ∧ Heeds allows (log ++ front) back := by
  induction front generalizing log with
  | nil => simp [Heeds]
  | cons a front ih => simp [Heeds, ih, and_assoc]

theorem heeds_of_all {P : Access → Prop} {log accesses : List Access} (all : ∀ a ∈ accesses, P a) :
    Heeds (fun _ a => P a) log accesses := by
  induction accesses generalizing log with
  | nil => trivial
  | cons a rest ih =>
      rw [List.forall_mem_cons] at all
      exact ⟨all.1, ih all.2⟩

variable {R : Recorder β → γ → Prop} {allows : List Access → Access → Prop}

theorem Request.logged (q : Request A) (r : Recorder β) :
    ∃ accesses, (q.perform r).2.log = r.log ++ accesses := by
  cases q with
  | idle => exact ⟨[], (List.append_nil _).symm⟩
  | read | write => exact ⟨_, rfl⟩

theorem StandsIn.perform (stands : StandsIn R allows) {r : Recorder β} {c : γ} (related : R r c)
    (q : Request A) {accesses : List Access} (log : (q.perform r).2.log = r.log ++ accesses)
    (heeds : Heeds allows r.log accesses) (log' : List Access) :
    ∃ c', q.perform (⟨c, log'⟩ : Recorder γ) = ((q.perform r).1, ⟨c', log' ++ accesses⟩) ∧
      R (q.perform r).2 c' := by
  cases q with
  | idle result =>
      obtain rfl := List.append_cancel_left (log.symm.trans (List.append_nil _).symm)
      exact ⟨c, by rw [List.append_nil]; rfl, related⟩
  | read addr vda vpa answer =>
      obtain rfl := (List.append_cancel_left log).symm
      obtain ⟨data, related⟩ := stands.read addr vda vpa related heeds.1
      refine ⟨(Bus.read c addr vda vpa).2, ?_, related⟩
      change (answer (Bus.read c addr vda vpa).1,
        (⟨_, log' ++ [.read addr vda vpa (Bus.read c addr vda vpa).1]⟩ : Recorder γ)) = _
      rw [data]
      rfl
  | write addr data vda vpa result =>
      obtain rfl := (List.append_cancel_left log).symm
      exact ⟨_, rfl, stands.write addr data vda vpa related heeds.1⟩

theorem StandsIn.performs (stands : StandsIn R allows) (anything : ∀ log a, allows log a)
    {r : Recorder β} {c : γ} (related : R r c) (q : Request A) :
    (q.perform c).1 = (q.perform r).1 ∧ R (q.perform r).2 (q.perform c).2 := by
  cases q with
  | idle => exact ⟨rfl, related⟩
  | read addr vda vpa answer =>
      obtain ⟨data, related'⟩ := stands.read addr vda vpa related (anything _ _)
      exact ⟨congrArg answer data, related'⟩
  | write addr data vda vpa => exact ⟨rfl, stands.write addr data vda vpa related (anything _ _)⟩

end

namespace Cpu6502
variable {β γ : Type} [Bus β] [Bus γ] {R : Recorder β → γ → Prop}
  {allows : List Access → Access → Prop} {v : Variant} {prof : Profile}

theorem step_logged {cpu cpu' : Cpu6502} {r r' : Recorder β} {lines : Lines} {exit : StepExit}
    (step : cpu.step v.flavor prof lines r = .ok (exit, cpu', r')) :
    ∃ accesses, r'.log = r.log ++ accesses := by
  obtain ⟨q, requests⟩ := cpu.step_request v.flavor prof lines
  have answer := (requests (Recorder β) r exit cpu' r').1 step
  obtain ⟨accesses, log⟩ := q.logged r
  rw [answer] at log
  exact ⟨accesses, log⟩

theorem run_logged {s t : Cpu6502 × Recorder β} {cycles : List Lines} {exits : List StepExit}
    (ran : run (busCycle v prof) s cycles = .ok (exits, t)) :
    ∃ accesses, t.2.log = s.2.log ++ accesses := by
  induction cycles generalizing s exits with
  | nil =>
      cases ran
      exact ⟨[], (List.append_nil _).symm⟩
  | cons lines cycles ih =>
      obtain ⟨exit, u, rest, step, tail, rfl⟩ := run_cons_ok ran
      obtain ⟨first, log⟩ := step_logged step
      obtain ⟨more, log'⟩ := ih tail
      exact ⟨first ++ more, by rw [log', log, List.append_assoc]⟩

theorem step_stands_in (stands : StandsIn R allows) {cpu cpu' : Cpu6502} {r r' : Recorder β} {c : γ}
    (related : R r c) {lines : Lines} {exit : StepExit}
    (step : cpu.step v.flavor prof lines r = .ok (exit, cpu', r')) {accesses : List Access}
    (log : r'.log = r.log ++ accesses) (heeds : Heeds allows r.log accesses) (log' : List Access) :
    ∃ c', cpu.step v.flavor prof lines (⟨c, log'⟩ : Recorder γ) =
      .ok (exit, cpu', ⟨c', log' ++ accesses⟩) ∧ R r' c' := by
  obtain ⟨q, requests⟩ := cpu.step_request v.flavor prof lines
  have answer := (requests (Recorder β) r exit cpu' r').1 step
  have log : (q.perform r).2.log = r.log ++ accesses := by rw [answer, log]
  obtain ⟨c', performs, related⟩ := stands.perform related q log heeds log'
  rw [answer] at performs related
  exact ⟨c', (requests (Recorder γ) ⟨c, log'⟩ exit cpu' _).2 performs, related⟩

theorem step_follows (stands : StandsIn R allows) (anything : ∀ log a, allows log a)
    {cpu cpu' : Cpu6502} {r r' : Recorder β} {c : γ} (related : R r c) {lines : Lines} {exit : StepExit}
    (step : cpu.step v.flavor prof lines r = .ok (exit, cpu', r')) :
    ∃ c', cpu.step v.flavor prof lines c = .ok (exit, cpu', c') ∧ R r' c' := by
  obtain ⟨q, requests⟩ := cpu.step_request v.flavor prof lines
  have answer := (requests (Recorder β) r exit cpu' r').1 step
  obtain ⟨same, related'⟩ := stands.performs anything related q
  rw [answer] at same related'
  exact ⟨_, (requests γ c exit cpu' _).2 (Prod.ext same rfl), related'⟩

theorem step_follows_back (stands : StandsIn R allows) (anything : ∀ log a, allows log a)
    {cpu cpu' : Cpu6502} {r : Recorder β} {c c' : γ} (related : R r c) {lines : Lines} {exit : StepExit}
    (step : cpu.step v.flavor prof lines c = .ok (exit, cpu', c')) :
    ∃ r', cpu.step v.flavor prof lines r = .ok (exit, cpu', r') ∧ R r' c' := by
  obtain ⟨q, requests⟩ := cpu.step_request v.flavor prof lines
  have answer := (requests γ c exit cpu' c').1 step
  obtain ⟨same, related'⟩ := stands.performs anything related q
  rw [answer] at same related'
  exact ⟨_, (requests (Recorder β) r exit cpu' _).2 (Prod.ext same.symm rfl), related'⟩

theorem reset_follows (stands : StandsIn R allows)
    (vector : ∀ log addr data, addr = 0xFFFC ∨ addr = 0xFFFD → allows log (.read addr true false data))
    {r : Recorder β} {c : γ} (related : R r c) (cpu : Cpu6502) :
    (cpu.reset c).1 = (cpu.reset r).1 ∧ R (cpu.reset r).2 (cpu.reset c).2 := by
  obtain ⟨low, related'⟩ := stands.read 0xFFFC true false related (vector _ _ _ (.inl rfl))
  obtain ⟨high, related''⟩ := stands.read 0xFFFD true false related' (vector _ _ _ (.inr rfl))
  refine ⟨?_, related''⟩
  have pc : (read16 c 0xFFFC).1 = (read16 r 0xFFFC).1 := congr (congrArg Words.fromLeBytes low) high
  simp only [reset, pc]

theorem unrecorded : StandsIn (fun (r : Recorder β) bus => r.bus = bus) fun _ _ => True where
  read := by
    rintro r bus addr vda vpa rfl -
    exact ⟨rfl, rfl⟩
  write := by
    rintro r bus addr data vda vpa rfl -
    rfl

theorem step_heeds (stands : StandsIn R allows) {cpu cpu' : Cpu6502} {r r' : Recorder β} {c : γ}
    (related : R r c) {lines : Lines} {exit : StepExit}
    (step : cpu.step v.flavor prof lines r = .ok (exit, cpu', r')) {accesses : List Access}
    (log : r'.log = r.log ++ accesses) (heeds : Heeds allows r.log accesses) :
    ∃ c', cpu.step v.flavor prof lines c = .ok (exit, cpu', c') ∧ R r' c' := by
  obtain ⟨c', ran, related'⟩ := step_stands_in stands related step log heeds []
  obtain ⟨-, ran', rfl⟩ := step_follows unrecorded (fun _ _ => trivial) rfl ran
  exact ⟨c', ran', related'⟩

theorem step_keeps {I : β → Prop} (read : ∀ b addr vda vpa, I b → I (Bus.read b addr vda vpa).2)
    (write : ∀ b addr data vda vpa, I b → I (Bus.write b addr data vda vpa)) {cpu cpu' : Cpu6502}
    {b b' : β} {lines : Lines} {exit : StepExit} (kept : I b)
    (step : cpu.step v.flavor prof lines b = .ok (exit, cpu', b')) : I b' := by
  obtain ⟨q, requests⟩ := cpu.step_request v.flavor prof lines
  have answer := (requests β b exit cpu' b').1 step
  cases q with
  | idle result =>
      cases answer
      exact kept
  | read addr vda vpa result =>
      obtain ⟨-, rfl⟩ := Prod.mk.inj answer
      exact read b addr vda vpa kept
  | write addr data vda vpa result =>
      obtain ⟨-, rfl⟩ := Prod.mk.inj answer
      exact write b addr data vda vpa kept

/-- Where `γ` stands in for `β` in the accesses of a run, the core does the same on it. -/
theorem run_stands_in (stands : StandsIn R allows) {s t : Cpu6502 × Recorder β} {c : γ}
    (related : R s.2 c) {cycles : List Lines} {exits : List StepExit}
    (ran : run (busCycle v prof) s cycles = .ok (exits, t)) {accesses : List Access}
    (log : t.2.log = s.2.log ++ accesses) (heeds : Heeds allows s.2.log accesses)
    (log' : List Access) : ∃ c', run (busCycle v prof) (s.1, (⟨c, log'⟩ : Recorder γ)) cycles =
      .ok (exits, (t.1, ⟨c', log' ++ accesses⟩)) ∧ R t.2 c' := by
  induction cycles generalizing s c exits accesses log' with
  | nil =>
      cases ran
      obtain rfl := List.append_cancel_left (log.symm.trans (List.append_nil _).symm)
      exact ⟨c, by rw [List.append_nil]; rfl, related⟩
  | cons lines cycles ih =>
      obtain ⟨exit, u, rest, step, tail, rfl⟩ := run_cons_ok ran
      obtain ⟨first, here⟩ := step_logged step
      obtain ⟨more, there⟩ := run_logged tail
      obtain rfl : accesses = first ++ more := by
        rw [there, here, List.append_assoc] at log
        exact (List.append_cancel_left log).symm
      rw [heeds_append, ← here] at heeds
      obtain ⟨c₁, first', related⟩ := step_stands_in stands related step here heeds.1 log'
      obtain ⟨c₂, rest', related⟩ := ih related tail there heeds.2 (log' ++ first)
      refine ⟨c₂, ?_, related⟩
      have first' : busCycle v prof (s.1, (⟨c, log'⟩ : Recorder γ)) lines = _ := first'
      rw [run_cons _ first', rest', ← List.append_assoc]
      rfl

end Cpu6502

/-! ## Memory that a run does not read -/

/-- The memory after the writes of a log. -/
def replay (ram : U16 → U8) : List Access → U16 → U8
  | [] => ram
  | .read .. :: rest => replay ram rest
  | .write addr data .. :: rest => replay (Function.update ram (addr.setWidth 16) data) rest

/-- The addresses that a log reads before it writes them. -/
def demanded : List Access → List U16
  | [] => []
  | .read addr .. :: rest => addr.setWidth 16 :: demanded rest
  | .write addr .. :: rest => (demanded rest).filter (· ≠ addr.setWidth 16)

def written (accesses : List Access) : List U16 :=
  (accesses.filter (!·.isRead)).map (·.addr.setWidth 16)

theorem replay_append (ram : U16 → U8) (front back : List Access) :
    replay ram (front ++ back) = replay (replay ram front) back := by
  induction front generalizing ram with
  | nil => rfl
  | cons a front ih =>
      cases a with
      | read => exact ih ram
      | write => exact ih _

theorem written_append (front back : List Access) :
    written (front ++ back) = written front ++ written back := by
  simp [written]

theorem replay_agree {ram ram' : U16 → U8} {accesses : List Access} {addr : U16}
    (agree : ram' addr = ram addr ∨ addr ∈ written accesses) :
    replay ram' accesses addr = replay ram accesses addr := by
  induction accesses generalizing ram ram' with
  | nil =>
      rcases agree with same | mem
      · exact same
      · cases mem
  | cons a rest ih =>
      cases a with
      | read => exact ih agree
      | write at_ data =>
          refine ih ?_
          by_cases here : addr = at_.setWidth 16
          · rw [here]
            simp
          · rcases agree with same | mem
            · exact .inl (by simp [here, same])
            · exact .inr ((List.mem_cons.1 mem).resolve_left here)

def Covered (ram ram' : U16 → U8) (start : List Access) (log : List Access) : Access → Prop
  | .read addr .. => ∀ so_far, log = start ++ so_far →
      ram' (addr.setWidth 16) = ram (addr.setWidth 16) ∨ addr.setWidth 16 ∈ written so_far
  | .write .. => True

theorem heeds_covered {ram ram' : U16 → U8} {start so_far accesses : List Access}
    (agree : ∀ addr ∈ demanded accesses, ram' addr = ram addr ∨ addr ∈ written so_far) :
    Heeds (Covered ram ram' start) (start ++ so_far) accesses := by
  induction accesses generalizing so_far with
  | nil => trivial
  | cons a rest ih =>
      have next (agree : ∀ addr ∈ demanded rest, ram' addr = ram addr ∨ addr ∈ written (so_far ++ [a])) :=
        ih agree
      rw [← List.append_assoc] at next
      cases a with
      | read addr vda vpa data =>
          simp only [demanded, List.forall_mem_cons] at agree
          refine ⟨fun here same => ?_, next fun addr mem => ?_⟩
          · rw [← List.append_cancel_left same]
            exact agree.1
          · rw [written_append]
            exact (agree.2 addr mem).imp_right (List.mem_append_left _)
      | write addr data vda vpa =>
          refine ⟨trivial, next fun addr' mem => ?_⟩
          rw [written_append]
          by_cases here : addr' = addr.setWidth 16
          · exact .inr (List.mem_append_right _ (by simp [written, Access.isRead, Access.addr, here]))
          · refine (agree addr' ?_).imp_right (List.mem_append_left _)
            simp [demanded, mem, here]

def Replays (ram ram' : U16 → U8) (start : List Access) (r : Recorder SimpleBus) (c : SimpleBus) :
    Prop :=
  ∃ so_far, r.log = start ++ so_far ∧ r.bus.ram = replay ram so_far ∧ c.ram = replay ram' so_far

theorem replays_stands_in (ram ram' : U16 → U8) (start : List Access) :
    StandsIn (Replays ram ram' start) (Covered ram ram' start) where
  read := by
    rintro ⟨⟨_⟩, _⟩ ⟨_⟩ addr vda vpa ⟨so_far, rfl, rfl, rfl⟩ covered
    refine ⟨replay_agree (covered so_far rfl), so_far ++ [_], List.append_assoc _ _ _, ?_, ?_⟩
    · rw [replay_append]
      rfl
    · rw [replay_append]
      rfl
  write := by
    rintro ⟨⟨_⟩, _⟩ ⟨_⟩ addr data vda vpa ⟨so_far, rfl, rfl, rfl⟩ -
    refine ⟨so_far ++ [_], List.append_assoc _ _ _, ?_, ?_⟩
    · rw [replay_append]
      rfl
    · rw [replay_append]
      rfl

namespace Cpu6502
variable {v : Variant} {prof : Profile}

/-- A run is settled by the cells that it reads before it writes them. The others could hold
anything: it leaves them alone but for its writes. -/
theorem runs_local {s t : Cpu6502 × Recorder SimpleBus} {cycles : List Lines} {exits : List StepExit}
    (ran : run (busCycle v prof) s cycles = .ok (exits, t)) :
    ∃ accesses, t.2 = ⟨⟨replay s.2.bus.ram accesses⟩, s.2.log ++ accesses⟩ ∧
      ∀ ram' : U16 → U8, (∀ addr ∈ demanded accesses, ram' addr = s.2.bus.ram addr) → ∀ log',
        run (busCycle v prof) (s.1, (⟨⟨ram'⟩, log'⟩ : Recorder SimpleBus)) cycles =
          .ok (exits, (t.1, ⟨⟨replay ram' accesses⟩, log' ++ accesses⟩)) := by
  obtain ⟨accesses, log⟩ := run_logged ran
  have stands (ram' : U16 → U8) (agree : ∀ addr ∈ demanded accesses, ram' addr = s.2.bus.ram addr)
      (log' : List Access) :
      ∃ c', run (busCycle v prof) (s.1, (⟨⟨ram'⟩, log'⟩ : Recorder SimpleBus)) cycles =
        .ok (exits, (t.1, ⟨c', log' ++ accesses⟩)) ∧
        Replays s.2.bus.ram ram' s.2.log t.2 c' := by
    refine run_stands_in (replays_stands_in s.2.bus.ram ram' s.2.log)
      ⟨[], (List.append_nil _).symm, rfl, rfl⟩ ran log ?_ log'
    have heeds := @heeds_covered s.2.bus.ram ram' s.2.log [] accesses fun addr mem =>
      .inl (agree addr mem)
    rwa [List.append_nil] at heeds
  have same (so_far : List Access) (eq : t.2.log = s.2.log ++ so_far) : so_far = accesses :=
    List.append_cancel_left (eq.symm.trans log)
  refine ⟨accesses, ?_, fun ram' agree log' => ?_⟩
  · obtain ⟨_, -, so_far, eq, ram, -⟩ := stands s.2.bus.ram (fun _ _ => rfl) []
    obtain rfl := same so_far eq
    rw [← ram, ← log]
  · obtain ⟨⟨last⟩, ran', so_far, eq, -, ram⟩ := stands ram' agree log'
    obtain rfl := same so_far eq
    rw [ran', ← ram]

def pushRam (rest : U8) : U16 → U8 :=
  -- PHA in memories that differ behind its two cells.
  fun addr => if addr = 0 then 0x48 else if addr = 1 then 0xEA else rest

set_option maxRecDepth 20000 in
theorem runs_local_push : ∃ exits t u,
    run (busCycle .nes .debug) (new, (⟨⟨pushRam 1⟩, []⟩ : Recorder SimpleBus))
      (List.replicate 3 Lines.none) = .ok (exits, t) ∧
    run (busCycle .nes .debug) (new, (⟨⟨pushRam 2⟩, []⟩ : Recorder SimpleBus))
      (List.replicate 3 Lines.none) = .ok (exits, (t.1, u)) ∧
    u.bus.ram 0x01FD = 0 ∧ u.bus.ram 0x01FC = 2 := by
  obtain ⟨exits, t, ran, log⟩ : ∃ exits t,
      run (busCycle .nes .debug) (new, (⟨⟨pushRam 1⟩, []⟩ : Recorder SimpleBus))
        (List.replicate 3 Lines.none) = .ok (exits, t) ∧ t.2.log = [.read 0 false true 0x48,
          .read 1 false true 0xEA, .write 0x01FD 0 true false] :=
    ⟨_, _, rfl, rfl⟩
  obtain ⟨accesses, last, alike⟩ := runs_local ran
  rw [last] at log
  replace log : accesses = [.read 0 false true 0x48, .read 1 false true 0xEA,
    .write 0x01FD 0 true false] := log
  have demands : demanded accesses = [0, 1] := by rw [log]; rfl
  have agree : ∀ addr ∈ demanded accesses, pushRam 2 addr = pushRam 1 addr := by
    rw [demands]
    simp [pushRam]
  refine ⟨exits, t, _, ran, alike (pushRam 2) agree [], ?_, ?_⟩
  · rw [log]
    rfl
  · rw [log]
    rfl

end Cpu6502

end Rs65x
