import Rs65x.Bus.Simple
import Rs65x.Lib.Ring
import Rs65x.Results.Builds
import Rs65x.Results.Emulation

/-!
# From the image of a program to its run
-/

namespace Rs65x
open Fallible Machine Words

namespace SimpleBus

theorem load_ram (bus : SimpleBus) (origin : U16) (bytes : List U8) :
    (bus.load origin bytes).ram = Ring.fill bus.ram origin bytes := by
  rw [load, Ring.fill]
  induction bytes.zipIdx generalizing bus with
  | nil => rfl
  | cons byte rest ih => exact ih _

theorem setResetVector_ram (bus : SimpleBus) (vector addr : U16) :
    (bus.setResetVector vector).ram addr = if addr = 0xFFFD then hiByte vector
      else if addr = 0xFFFC then loByte vector else bus.ram addr := by
  rw [setResetVector, writeVector]
  change Function.update (Function.update bus.ram 0xFFFC (loByte vector)) 0xFFFD (hiByte vector) addr = _
  rw [Function.update_apply, Function.update_apply]

end SimpleBus

namespace Cpu6502

/-- The registers that a reset leaves, and a memory with nothing but the image and the vector. -/
def booted (cpu : Cpu6502) (origin : U16) (bytes : List U8) (vector : U16) : Arch where
  a := cpu.a
  x := cpu.x
  y := cpu.y
  s := cpu.s
  p := cpu.p ||| Psr.I
  pc := vector
  ram addr := if addr = 0xFFFD then hiByte vector else if addr = 0xFFFC then loByte vector
    else (Ring.lastAt 65536 (addr - origin).toNat bytes).getD 0

theorem run_anywhere {v : Variant} {prof : Profile} {β : Type} [Bus β] {s : Cpu6502 × β}
    {lines : List Lines} {r : List StepExit × (Cpu6502 × β)} (inv : s.1.Inv v) (straight : s.1.Straight)
    (build : prof = .release ∨ v = .nmos6502 ∨ v = .nes)
    (ran : run (busCycle v .release) s lines = .ok r) : run (busCycle v prof) s lines = .ok r := by
  cases prof with
  | release => exact ran
  | debug =>
      have nmos : v = .nmos6502 ∨ v = .nes := build.resolve_left Profile.noConfusion
      obtain ⟨r', ran', ⟨-, same⟩ | ⟨refused, -⟩⟩ := run_builds inv lines
      · cases ran.symm.trans ran'
        exact same
      · exact absurd (permitted_nmos nmos lines inv straight) refused

theorem reset_vector (cpu : Cpu6502) (r : Recorder SimpleBus) :
    (cpu.reset r).1.pc = fromLeBytes (r.bus.ram 0xFFFC) (r.bus.ram 0xFFFD) ∧
    (cpu.reset r).2.bus = r.bus ∧ (cpu.reset r).2.log.map Access.seen =
      r.log.map Access.seen ++ [(true, 0xFFFC, r.bus.ram 0xFFFC), (true, 0xFFFD, r.bus.ram 0xFFFD)] := by
  refine ⟨rfl, rfl, ?_⟩
  change ((r.log ++ [_]) ++ [_]).map Access.seen = _
  rw [List.append_assoc, List.map_append]
  rfl

section
variable {v : Variant} {prof : Profile} {cpu : Cpu6502} {origin vector : U16} {bytes : List U8}
  {lines : Nat → Lines}

def bootBus (origin : U16) (bytes : List U8) (vector : U16) : Recorder SimpleBus :=
  ⟨(SimpleBus.withProgram origin bytes).setResetVector vector, []⟩

theorem bootBus_ram (cpu : Cpu6502) (origin : U16) (bytes : List U8) (vector : U16) :
    (bootBus origin bytes vector).bus.ram = (cpu.booted origin bytes vector).ram := by
  funext addr
  rw [bootBus, SimpleBus.setResetVector_ram, SimpleBus.withProgram, SimpleBus.load_ram, Ring.fill_apply]
  rfl

theorem reset_booted (cpu : Cpu6502) (origin : U16) (bytes : List U8) (vector : U16) :
    (cpu.reset (bootBus origin bytes vector)).1.arch (cpu.reset (bootBus origin bytes vector)).2.bus.ram =
      cpu.booted origin bytes vector ∧
    (cpu.reset (bootBus origin bytes vector)).2.log.map Access.seen =
      [(true, 0xFFFC, loByte vector), (true, 0xFFFD, hiByte vector)] := by
  obtain ⟨pc, bus, log⟩ := reset_vector cpu (bootBus origin bytes vector)
  have low : (cpu.booted origin bytes vector).ram 0xFFFC = loByte vector := rfl
  have high : (cpu.booted origin bytes vector).ram 0xFFFD = hiByte vector := rfl
  rw [bootBus_ram cpu, low, high] at pc log
  rw [fromLeBytes_halves] at pc
  refine ⟨?_, log⟩
  rw [arch, bus, bootBus_ram cpu, pc]
  rfl

theorem boot_steady (pending : cpu.pendingNmi = false) (settled : cpu.extraAdcSbcCycle = false)
    (calm : ∀ n, cpu.Uninterrupted (lines n)) (build : prof = .release ∨ v = .nmos6502 ∨ v = .nes)
    {k : Nat} (jamless : ∀ j < k, (v.decode
      ((Arch.execute v)^[j] (cpu.booted origin bytes vector)).opcode).addressMode ≠ .jam) :
    ∃ exits t, run (busCycle v prof) (cpu.reset (bootBus origin bytes vector))
        ((List.range (cyclesOfAll v (cpu.booted origin bytes vector) k)).map lines) = .ok (exits, t) ∧
      t.1.arch t.2.bus.ram = (Arch.execute v)^[k] (cpu.booted origin bytes vector) ∧
      t.2.log.map Access.seen = [(true, 0xFFFC, loByte vector), (true, 0xFFFD, hiByte vector)] ++
        (cpu.booted origin bytes vector).eventsOfAll v (List.replicate k .opcodeFetch) := by
  obtain ⟨effect, log⟩ := reset_booted cpu origin bytes vector
  have inv := reset_inv v cpu (bootBus origin bytes vector)
  have drained : (cpu.reset (bootBus origin bytes vector)).1.ucycs.Drained := cpu.ucycs.clear_drained
  have straight : (cpu.reset (bootBus origin bytes vector)).1.Straight := by
    intro u mem
    rw [drained.live_eq] at mem
    cases mem
  have boundary : (cpu.reset (bootBus origin bytes vector)).1.AtBoundary v :=
    .of_fresh drained rfl
  have clean : ¬ (cpu.reset (bootBus origin bytes vector)).1.MarkedByReset :=
    fun marked => Bool.noConfusion (settled.symm.trans marked.2)
  obtain ⟨exits, t, ran, -, arch, -, events⟩ :=
    run_instructions inv boundary clean pending calm effect jamless
  rw [log] at events
  exact ⟨exits, t, run_anywhere inv straight build ran, arch, events⟩

theorem busCycle_level {line : Lines} (r : Recorder SimpleBus)
    (falls : line.nmi = true → cpu.prevNmi = true) :
    busCycle v prof ({ cpu with prevNmi := line.nmi }, r) line = busCycle v prof (cpu, r) line := by
  have sampled : ({ cpu with prevNmi := line.nmi } : Cpu6502).sampleNmi line = cpu.sampleNmi line := by
    cases level : line.nmi with
    | false => simp [sampleNmi, level]
    | true => simp [sampleNmi, level, falls level]
  simp only [busCycle, step, sampled]

/-- An image of any length, loaded and started through the reset vector, runs as in the programmer's
model, whatever the core did before. -/
theorem boot_computes (pending : cpu.pendingNmi = false) (settled : cpu.extraAdcSbcCycle = false)
    {level : Bool} (falls : level = true → cpu.prevNmi = true)
    (calm : ∀ n, (lines n).rdy = true ∧ (lines n).irq = false ∧ (lines n).nmi = level)
    (build : prof = .release ∨ v = .nmos6502 ∨ v = .nes)
    {k : Nat} (jamless : ∀ j < k, (v.decode
      ((Arch.execute v)^[j] (cpu.booted origin bytes vector)).opcode).addressMode ≠ .jam) :
    ∃ exits t, run (busCycle v prof) (cpu.reset (bootBus origin bytes vector))
        ((List.range (cyclesOfAll v (cpu.booted origin bytes vector) k)).map lines) = .ok (exits, t) ∧
      t.1.arch t.2.bus.ram = (Arch.execute v)^[k] (cpu.booted origin bytes vector) ∧
      t.2.log.map Access.seen = [(true, 0xFFFC, loByte vector), (true, 0xFFFD, hiByte vector)] ++
        (cpu.booted origin bytes vector).eventsOfAll v (List.replicate k .opcodeFetch) := by
  -- the first cycle samples the level, whatever the last sample was
  let steady : Cpu6502 := { cpu with prevNmi := level }
  obtain ⟨exits, t, ran, arch, log⟩ : ∃ exits t,
      run (busCycle v prof) (steady.reset (bootBus origin bytes vector))
        ((List.range (cyclesOfAll v (cpu.booted origin bytes vector) k)).map lines) = .ok (exits, t) ∧ _ ∧ _ :=
    @boot_steady v prof steady origin vector bytes lines pending settled calm build k jamless
  cases cycles : cyclesOfAll v (cpu.booted origin bytes vector) k with
  | zero =>
      rw [cycles] at ran
      cases ran
      exact ⟨[], _, rfl, arch, log⟩
  | succ n =>
      rw [cycles, List.range_succ_eq_map, List.map_cons] at ran
      have first := @busCycle_level v prof (cpu.reset (bootBus origin bytes vector)).1 (lines 0)
        (cpu.reset (bootBus origin bytes vector)).2 fun high => falls ((calm 0).2.2.symm.trans high)
      rw [(calm 0).2.2] at first
      refine ⟨exits, t, ?_, arch, log⟩
      rw [List.range_succ_eq_map, List.map_cons, ← ran]
      simp only [run]
      exact congrArg (· >>= _) first.symm

set_option maxRecDepth 20000 in
theorem boot_computes_wrap : ∃ exits t, run (busCycle .nmos6502 .debug)
      (({ new with prevNmi := true } : Cpu6502).reset (bootBus 0xFFFE [0xA9, 0x40, 0x0A, 0xEA] 0xFFFE))
        ((List.range 6).map fun _ => Lines.none) = .ok (exits, t) ∧
    t.1.arch t.2.bus.ram =
      (Arch.execute .nmos6502)^[3] (new.booted 0xFFFE [0xA9, 0x40, 0x0A, 0xEA] 0xFFFE) ∧
    t.1.a = 0x80 := by
  have jamless : ∀ j < 3, (Variant.decode .nmos6502 ((Arch.execute .nmos6502)^[j]
      (new.booted 0xFFFE [0xA9, 0x40, 0x0A, 0xEA] 0xFFFE)).opcode).addressMode ≠ .jam := by
    intro j lt
    interval_cases j
    all_goals decide
  obtain ⟨exits, t, ran, arch, -⟩ := @boot_computes .nmos6502 .debug { new with prevNmi := true } 0xFFFE
    0xFFFE [0xA9, 0x40, 0x0A, 0xEA] (fun _ => Lines.none) rfl rfl false (fun _ => rfl)
    (fun _ => ⟨rfl, rfl, rfl⟩) (.inr (.inl rfl)) 3 jamless
  have cycles : cyclesOfAll .nmos6502 (new.booted 0xFFFE [0xA9, 0x40, 0x0A, 0xEA] 0xFFFE) 3 = 6 := by decide
  exact ⟨exits, t, cycles ▸ ran, arch, (congrArg Arch.a arch).trans (by decide)⟩

end

end Cpu6502
end Rs65x
