import Rs65x.Results.Board
import Rs65x.Results.Builds
import Rs65x.Results.Emulation
import Rs65x.Tests.Func

/-!
# When the functional tests end
-/

namespace Rs65x.Tests
open Fallible Machine Cpu6502 FastMapBus

theorem mapChunks_buffer (prof : Profile) :
    (FastMapBus.new prof 16 12 >>= fun bus => mapChunks prof bus 0 (chunks 65536)) = .ok buffer := by
  cases prof <;> rfl

def loaded (file : List U8) : Recorder SimpleBus := ⟨⟨fun addr => file.getD addr.toNat 0⟩, []⟩

def started (file : List U8) : Cpu6502 × Recorder SimpleBus :=
  let (cpu, r) := Cpu6502.new.reset (loaded file)
  ({ cpu with pc := programStart }, r)

section
variable {v : Variant} {prof : Profile} {success : U16} {s s' : Cpu6502 × Recorder SimpleBus}
  {exit : StepExit}

/-- So many cycles on a `SimpleBus` lead to the address of success. -/
def Ends (v : Variant) (success : U16) (s : Cpu6502 × Recorder SimpleBus) (n : Nat) : Prop :=
  ∃ exits t, run (busCycle v .release) s (List.replicate n Lines.none) = .ok (exits, t) ∧ t.1.pc = success

def EndsFirst (v : Variant) (success : U16) (s : Cpu6502 × Recorder SimpleBus) (n : Nat) : Prop :=
  Ends v success s n ∧ ∀ j < n, ¬ Ends v success s j

theorem ends_zero : Ends v success s 0 ↔ s.1.pc = success := by
  constructor
  · rintro ⟨exits, t, ran, there⟩
    cases ran
    exact there
  · exact fun there => ⟨[], s, rfl, there⟩

theorem ends_succ (step : busCycle v .release s Lines.none = .ok (exit, s')) (n : Nat) :
    Ends v success s (n + 1) ↔ Ends v success s' n := by
  constructor
  · rintro ⟨exits, t, ran, there⟩
    obtain ⟨exit', u, rest, first, tail, rfl⟩ := run_cons_ok ran
    cases step.symm.trans first
    exact ⟨rest, t, tail, there⟩
  · rintro ⟨exits, t, ran, there⟩
    refine ⟨exit :: exits, t, ?_, there⟩
    rw [List.replicate_succ, run_cons _ step, ran, ok_bind]

theorem endsFirst_zero : EndsFirst v success s 0 ↔ s.1.pc = success := by
  rw [EndsFirst, ends_zero]
  exact and_iff_left fun j lt => absurd lt (Nat.not_lt_zero j)

theorem endsFirst_succ (step : busCycle v .release s Lines.none = .ok (exit, s'))
    (on : s.1.pc ≠ success) (n : Nat) : EndsFirst v success s (n + 1) ↔ EndsFirst v success s' n := by
  rw [EndsFirst, EndsFirst, ends_succ step]
  refine and_congr_right fun _ => ⟨fun none j lt => ?_, fun none j lt => ?_⟩
  · exact mt (ends_succ step j).2 (none (j + 1) (Nat.succ_lt_succ lt))
  · cases j with
    | zero => exact mt ends_zero.1 on
    | succ j => exact mt (ends_succ step j).1 (none j (Nat.lt_of_succ_lt_succ lt))

def Stays (v : Variant) (prof : Profile) (s : Cpu6502 × Recorder SimpleBus) (n : Nat) : Prop :=
  prof = .debug → ∃ exits t, run (busCycle v .debug) s (List.replicate n Lines.none) = .ok (exits, t) ∧
    ∀ a ∈ t.2.log, a.addr.toNat < 2 ^ 16

theorem Stays.step {n : Nat} (stays : Stays v prof s (n + 1)) (inv : s.1.Inv v) :
    ∃ exit t accesses, busCycle v prof s Lines.none = .ok (exit, t) ∧
      busCycle v .release s Lines.none = .ok (exit, t) ∧ t.1.Inv v ∧ Stays v prof t n ∧
      t.2.log = s.2.log ++ accesses ∧ Heeds (Decodes prof 16) s.2.log accesses := by
  cases prof with
  | release =>
      obtain ⟨exit, cpu, r, step, outcome⟩ := step_spec inv Lines.none s.2 (.inl (rfl : Profile.release = _))
      obtain ⟨accesses, log⟩ := step_logged step
      exact ⟨exit, (cpu, r), accesses, step, step, outcome.inv (inv.sample _),
        fun debug => Profile.noConfusion debug, log, heeds_of_all fun _ _ debug => Profile.noConfusion debug⟩
  | debug =>
      obtain ⟨exits, t, ran, inside⟩ := stays rfl
      obtain ⟨exit, u, rest, step, tail, rfl⟩ := run_cons_ok ran
      obtain ⟨accesses, log⟩ := step_logged step
      obtain ⟨more, log'⟩ := run_logged tail
      refine ⟨exit, u, accesses, step, step_below v s.1 s.2 Lines.none _ step,
        (step_outcome inv step).inv (inv.sample _), fun _ => ⟨rest, t, tail, inside⟩, log,
        heeds_of_all fun a mem _ => inside a ?_⟩
      rw [log', log]
      exact List.mem_append_left _ (List.mem_append_right _ mem)

theorem countCycle_counts {w : Nat} {most : BitVec w} {counted : Nat}
    (room : prof = .debug → counted < most.toNat) :
    countCycle prof most (BitVec.ofNat w counted) = .ok (BitVec.ofNat w (counted + 1)) := by
  rw [BitVec.ofNat_add]
  refine if_neg ?_
  rintro ⟨debug, rfl⟩
  have less := room debug
  rw [BitVec.toNat_ofNat] at less
  exact absurd less (Nat.not_lt.2 (Nat.mod_le _ _))

theorem untilSuccess_ends {w : Nat} {most : BitVec w} {base : Nat → Nat} {m : Mapped prof 16 12}
    {bound counted : Nat} (inv : s.1.Inv v) (stays : Stays v prof s bound)
    (room : prof = .debug → counted + bound ≤ most.toNat) (spreads : Spreads base s.2 m) : ∃ o,
      untilSuccess v.flavor prof success most bound (BitVec.ofNat w counted) (s.1, m) = .ok o ∧
      ∀ c, o = some c ↔ ∃ k ≤ bound, c = BitVec.ofNat w (counted + k) ∧ EndsFirst v success s k := by
  induction bound generalizing s m counted with
  | zero =>
      refine ⟨_, rfl, fun c => ?_⟩
      by_cases there : s.1.pc = success
      · rw [if_pos there, Option.some_inj]
        constructor
        · rintro rfl
          exact ⟨0, le_rfl, rfl, endsFirst_zero.2 there⟩
        · rintro ⟨k, le, rfl, -⟩
          rw [Nat.le_zero.1 le]
          rfl
      · rw [if_neg there]
        refine iff_of_false (fun none => by cases none) ?_
        rintro ⟨k, le, -, first⟩
        rw [Nat.le_zero.1 le] at first
        exact there (endsFirst_zero.1 first)
  | succ bound ih =>
      by_cases there : s.1.pc = success
      · refine ⟨some _, if_pos there, fun c => ?_⟩
        rw [Option.some_inj]
        constructor
        · rintro rfl
          exact ⟨0, Nat.zero_le _, rfl, endsFirst_zero.2 there⟩
        · rintro ⟨k, -, rfl, first⟩
          cases k with
          | zero => rfl
          | succ k => exact absurd (ends_zero.2 there) (first.2 0 (Nat.succ_pos k))
      · obtain ⟨exit, t, accesses, step, release, inv', stays', log, heeds⟩ := stays.step inv
        obtain ⟨m', step', spreads'⟩ :=
          step_heeds (spreads_stands_in (by decide : 12 < 16)) spreads step log heeds
        have clean := spreads'.clean
        have room' : prof = .debug → counted + 1 + bound ≤ most.toNat := fun debug => by
          have := room debug
          omega
        have count : countCycle prof most (BitVec.ofNat w counted) = .ok (BitVec.ofNat w (counted + 1)) := by
          refine countCycle_counts fun debug => ?_
          have := room debug
          omega
        obtain ⟨o, ran, counts⟩ := @ih t m' (counted + 1) inv' stays' room' spreads'
        refine ⟨o, ?_, fun c => (counts c).trans ?_⟩
        · rw [untilSuccess, if_neg there, step']
          simp only [clean, count, ok_bind]
          exact ran
        · constructor
          · rintro ⟨k, le, rfl, first⟩
            refine ⟨k + 1, Nat.succ_le_succ le, ?_, (endsFirst_succ release there k).2 first⟩
            rw [Nat.add_right_comm, Nat.add_assoc]
          · rintro ⟨k, le, rfl, first⟩
            cases k with
            | zero => exact absurd (endsFirst_zero.1 first) there
            | succ k =>
                refine ⟨k, Nat.le_of_succ_le_succ le, ?_, (endsFirst_succ release there k).1 first⟩
                rw [Nat.add_right_comm, Nat.add_assoc]

end

section
variable {v : Variant} {prof : Profile} {success : U16} {file : List U8}

theorem setup_started (prof : Profile) (length : file.length / 0x1000 = 16) : ∃ m : Mapped prof 16 12,
    setupFunc prof file = .ok ((started file).1, m) ∧
      Spreads (fun page => page * 4096) (started file).2 m := by
  let m : Mapped prof 16 12 := ⟨buffer, (file.getD · 0), none⟩
  have placed : (fun addr : U16 => file.getD (place 12 (fun page => page * 4096) addr) 0) =
      fun addr => file.getD addr.toNat 0 := by
    funext addr
    exact congrArg (file.getD · 0) (Nat.div_add_mod' addr.toNat 4096)
  have related : Spreads (fun page => page * 4096) (loaded file) m := by
    have spreads := @spreads_mapped prof 12 (fun page => page * 4096) (by decide) buffer buffer_pages
      buffer_apart (file.getD · 0) []
    rw [placed] at spreads
    exact spreads
  have vector : ∀ log addr data, addr = 0xFFFC ∨ addr = 0xFFFD →
      Decodes prof 16 log (.read addr true false data) := by
    rintro log addr data (rfl | rfl) -
    · exact (by decide : (0xFFFC : U32).toNat < 2 ^ 16)
    · exact (by decide : (0xFFFD : U32).toNat < 2 ^ 16)
  obtain ⟨same, related'⟩ := reset_follows (spreads_stands_in (by decide : 12 < 16)) vector related Cpu6502.new
  have clean := related'.clean
  refine ⟨(Cpu6502.new.reset m).2, ?_, related'⟩
  have pages : chunks file.length = chunks 65536 := by rw [chunks, length]; rfl
  rw [setupFunc, pages, mapChunks_buffer]
  simp only [m] at clean same
  simp only [clean, same]
  rfl

theorem started_drained (file : List U8) : (started file).1.ucycs.Drained := UcycQueue.clear_drained _

theorem started_inv (v : Variant) (file : List U8) : (started file).1.Inv v :=
  .of_fresh (started_drained file) rfl

def image (file : List U8) : Arch := (started file).1.arch (started file).2.bus.ram

theorem reaches_ends {k : Nat}
    (jamless : ∀ j < k, (v.decode ((Arch.execute v)^[j] (image file)).opcode).addressMode ≠ .jam)
    (there : ((Arch.execute v)^[k] (image file)).pc = success) :
    Ends v success (started file) (cyclesOfAll v (image file) k) := by
  have boundary : (started file).1.AtBoundary v := .of_fresh (started_drained file) rfl
  obtain ⟨exits, t, ran, -, arch, -⟩ := @run_instructions v (started file) (image file)
    (fun _ => Lines.none) (started_inv v file) boundary (fun marked => Bool.noConfusion marked.2) rfl (fun _ => ⟨rfl, rfl, rfl⟩) rfl
    k jamless
  rw [List.map_const', List.length_range] at ran
  exact ⟨exits, t, ran, (congrArg Arch.pc arch).trans there⟩

/-- A functional test counts the cycles until the core, on a `SimpleBus` with the file, is first at the
address of success. It ends if the programmer's model gets there. -/
theorem functional_tests_end {w : Nat} {most : BitVec w} (length : file.length / 0x1000 = 16) {bound : Nat}
    (stays : Stays v prof (started file) bound) (room : prof = .debug → bound ≤ most.toNat) : ∃ o,
    funcTest v.flavor prof success most file bound = .ok o ∧
      (∀ c, o = some c ↔ ∃ n ≤ bound, c = BitVec.ofNat w n ∧ EndsFirst v success (started file) n) ∧
      ∀ k, (∀ j < k, (v.decode ((Arch.execute v)^[j] (image file)).opcode).addressMode ≠ .jam) →
        ((Arch.execute v)^[k] (image file)).pc = success → cyclesOfAll v (image file) k ≤ bound →
        ∃ n ≤ cyclesOfAll v (image file) k, o = some (BitVec.ofNat w n) := by
  obtain ⟨m, setup, spreads⟩ := setup_started prof length
  have room' : prof = .debug → 0 + bound ≤ most.toNat := by rwa [Nat.zero_add]
  obtain ⟨o, ran, counts⟩ := @untilSuccess_ends v prof success (started file) w most _ m bound 0
    (started_inv v file) stays room' spreads
  simp only [Nat.zero_add] at counts
  refine ⟨o, ?_, counts, fun k jamless there le => ?_⟩
  · rw [funcTest, setup, ok_bind]
    exact ran
  · classical
    have ends := reaches_ends jamless there
    have least := Nat.find_min' ⟨_, ends⟩ ends
    exact ⟨_, least, (counts _).2 ⟨_, least.trans le, rfl, Nat.find_spec ⟨_, ends⟩, fun _ => Nat.find_min _⟩⟩

end

def jumpFile (addr : U16) : List U8 :=
  -- JMP to an address where the program starts.
  List.replicate 0x400 0xEA ++
    ([0x4C, Words.loByte addr, Words.hiByte addr] ++ List.replicate 0xFBFD 0xEA)

theorem jumpFile_length (addr : U16) : (jumpFile addr).length = 65536 := by
  simp only [jumpFile, List.length_append, List.length_replicate, List.length_cons, List.length_nil]

set_option maxRecDepth 20000 in
theorem functional_tests_end_jump :
    (∃ n ≤ 3, functionalTests .debug (jumpFile 0x336D) 3 = .ok (some (BitVec.ofNat 32 n))) ∧
    ∃ n ≤ 3, extendedOpcodeTests .release (jumpFile 0x24F1) 3 = .ok (some (BitVec.ofNat 64 n)) := by
  have length (addr : U16) : (jumpFile addr).length / 0x1000 = 16 := by rw [jumpFile_length]
  have stays : Stays .nmos6502 .debug (started (jumpFile 0x336D)) 3 := by
    intro _
    obtain ⟨exits, t, ran, log⟩ : ∃ exits t, run (busCycle .nmos6502 .debug) (started (jumpFile 0x336D))
        (List.replicate 3 Lines.none) = .ok (exits, t) ∧
        t.2.log.map (·.addr) = [0xFFFC, 0xFFFD, 0x400, 0x401, 0x402] := ⟨_, _, rfl, rfl⟩
    refine ⟨exits, t, ran, fun a mem => ?_⟩
    have there := List.mem_map_of_mem (f := (·.addr)) mem
    rw [log] at there
    simp only [List.mem_cons, List.not_mem_nil, or_false] at there
    rcases there with addr | addr | addr | addr | addr
    all_goals
      rw [addr]
      decide
  have jumps : ∀ test ∈ [(Variant.nmos6502, (0x336D : U16)), (.wdc65C02, 0x24F1)],
      (∀ j < 1, (test.1.decode ((Arch.execute test.1)^[j] (image (jumpFile test.2))).opcode).addressMode ≠
        .jam) ∧
      ((Arch.execute test.1)^[1] (image (jumpFile test.2))).pc = test.2 ∧
      cyclesOfAll test.1 (image (jumpFile test.2)) 1 = 3 := by
    decide
  constructor
  · obtain ⟨jamless, there, cycles⟩ := jumps (.nmos6502, 0x336D) (.head _)
    obtain ⟨o, ran, -, reaches⟩ := @functional_tests_end .nmos6502 .debug 0x336D _ 32 (BitVec.intMax 32)
      (length 0x336D) 3 stays fun _ => by decide
    obtain ⟨n, le, rfl⟩ := reaches 1 jamless there cycles.le
    exact ⟨n, cycles ▸ le, ran⟩
  · obtain ⟨jamless, there, cycles⟩ := jumps (.wdc65C02, 0x24F1) (.tail _ (.head _))
    obtain ⟨o, ran, -, reaches⟩ := @functional_tests_end .wdc65C02 .release 0x24F1 _ 64 (BitVec.allOnes 64)
      (length 0x24F1) 3 (fun debug => Profile.noConfusion debug) fun debug => Profile.noConfusion debug
    obtain ⟨n, le, rfl⟩ := reaches 1 jamless there cycles.le
    exact ⟨n, cycles ▸ le, ran⟩

end Rs65x.Tests
