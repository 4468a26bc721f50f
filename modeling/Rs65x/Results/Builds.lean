import Rs65x.Results.Bounds
import Rs65x.Results.Nes

/-!
# Debug and release builds

The plain `+`, `-` and `<<` of the source panic in a debug build and wrap in a release build.
-/

namespace Rs65x
open Fallible Machine

namespace Cpu6502
variable {β : Type} [Bus β]

def PtrFits (s : Cpu6502 × β) (lines : Lines) : Prop :=
  s.1.stalls lines = true ∨ s.1.ptrOverflows = false

theorem run_builds {v : Variant} {s : Cpu6502 × β} (inv : s.1.Inv v) (lines : List Lines) :
    ∃ r, run (busCycle v .release) s lines = .ok r ∧
      (Permitted (busCycle v .release) PtrFits s lines ∧ run (busCycle v .debug) s lines = .ok r ∨
        ¬ Permitted (busCycle v .release) PtrFits s lines ∧
          run (busCycle v .debug) s lines = .error .overflow) := by
  refine run_guarded (P := fun s => s.1.Inv v) ?_ ?_ ?_ lines inv
  · intro s line inv
    obtain ⟨exit, cpu', bus', step, outcome⟩ := step_spec inv line s.2 (.inl (rfl : Profile.release = _))
    exact ⟨exit, (cpu', bus'), step, outcome.inv (inv.sample line)⟩
  · intro s line inv fits
    rcases step_cases inv .debug line s.2 with ⟨exit, cpu', bus', step, -⟩ | ⟨-, awake, large, -⟩
    · exact step.trans (step_below v s.1 s.2 line _ step).symm
    · rcases fits with stalls | small
      · cases awake.symm.trans stalls
      · cases large.symm.trans small
  · intro s line inv leaves
    obtain ⟨awake, large⟩ := not_or.1 leaves
    exact step_overflows inv s.2 (Bool.eq_false_iff.2 awake) (by simpa using large)

theorem straight_nmos {v : Variant} (nmos : v = .nmos6502 ∨ v = .nes) :
    Universal v (·.alu ≠ .fixPtr) := by
  rcases nmos with rfl | rfl
  · exact { straight_universal with emitted := straight_universal.emitted }
  · exact straight_universal

theorem Reachable.straight {v : Variant} {prof : Profile} {cpu : Cpu6502}
    (nmos : v = .nmos6502 ∨ v = .nes) (reach : cpu.Reachable β v prof) : cpu.Straight := by
  refine reach.invariant ?_ ?_ ?_
  · intro u mem
    replace mem : u ∈ UcycQueue.default.live := mem
    rw [UcycQueue.default_drained.live_eq] at mem
    cases mem
  · intro cpu cpu' lines exit r r' inv straight outcome
    exact (straight_nmos nmos).outcome (inv.sample lines) outcome straight
  · intro cpu bus straight u mem
    replace mem : u ∈ cpu.ucycs.clear.live := mem
    rw [cpu.ucycs.clear_drained.live_eq] at mem
    cases mem

theorem permitted_nmos {v : Variant} (nmos : v = .nmos6502 ∨ v = .nes) (lines : List Lines)
    {s : Cpu6502 × β} (inv : s.1.Inv v) (straight : s.1.Straight) :
    Permitted (busCycle v .release) PtrFits s lines := by
  induction lines generalizing s with
  | nil => trivial
  | cons line lines ih =>
      refine ⟨.inr straight.fits, fun exit t step => ?_⟩
      have outcome := step_outcome inv step
      exact ih (outcome.inv (inv.sample line))
        ((straight_nmos nmos).outcome (inv.sample line) outcome straight)

/-- A debug build does what a release build does, or panics: in a run in which a CMOS JMP (ind)
corrects a pointer of $FFFF, and in no other. -/
theorem builds_agree {v : Variant} {s : Cpu6502 × β} (reach : s.1.Reachable β v .release)
    (lines : List Lines) : ∃ r, run (busCycle v .release) s lines = .ok r ∧
      (Permitted (busCycle v .release) PtrFits s lines ∧ run (busCycle v .debug) s lines = .ok r ∨
        ¬ Permitted (busCycle v .release) PtrFits s lines ∧
          run (busCycle v .debug) s lines = .error .overflow) ∧
      (v = .nmos6502 ∨ v = .nes → run (busCycle v .debug) s lines = .ok r) := by
  obtain ⟨r, ran, builds⟩ := run_builds reach.inv lines
  refine ⟨r, ran, builds, fun nmos => ?_⟩
  rcases builds with ⟨-, same⟩ | ⟨refused, -⟩
  · exact same
  · exact absurd (permitted_nmos nmos lines reach.inv (reach.straight nmos)) refused

set_option maxRecDepth 20000 in
theorem builds_agree_top : ∃ r, run (busCycle .rockwell65C02 .release) (new, (jmpIndirect 0xFFFF))
      (List.replicate 5 Lines.none) = .ok r ∧
    run (busCycle .rockwell65C02 .debug) (new, (jmpIndirect 0xFFFF)) (List.replicate 5 Lines.none) =
      .error .overflow := by
  obtain ⟨r, ran, builds, -⟩ := builds_agree (s := (new, (jmpIndirect 0xFFFF)))
    (.refl : new.Reachable SimpleBus .rockwell65C02 .release) (List.replicate 5 Lines.none)
  refine ⟨r, ran, ?_⟩
  rcases builds with ⟨-, fine⟩ | ⟨-, fault⟩
  · have fault : run (busCycle .rockwell65C02 .debug) (new, (jmpIndirect 0xFFFF))
        (List.replicate 5 Lines.none) = .error .overflow := rfl
    cases fault.symm.trans fine
  · exact fault

end Cpu6502
end Rs65x
