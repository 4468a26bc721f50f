import Rs65x.Bus.Board

/-!
# The functional tests

`tests/tests/func.rs`. The file is given, nothing is timed or printed, and the `while` loop ends after
a bound.
-/

namespace Rs65x.Tests

inductive FuncFailure where
  | core (fault : Fault)
  | bus (fault : PageFault)
  /-- `cycles += 1` overflows. -/
  | overflow
  deriving DecidableEq, Repr

/-- `as_chunks_mut::<0x1000>` of a buffer at the bottom of the memory. What is left over is dropped. -/
def chunks (len : Nat) : List Slice := (List.range (len / 0x1000)).map fun i => ⟨i * 0x1000, 0x1000⟩

def programStart : U16 := 0x400

section
variable (F : Flavor) (prof : Profile) (success : U16)

def mapChunks (bus : FastMapBus 16 12) (page : Nat) : List Slice → Except PageFault (FastMapBus 16 12)
  | [] => .ok bus
  | pageData :: rest => do
      let bus ← bus.mapRamPageIdx prof page pageData
      mapChunks bus (page + 1) rest

def setupFunc (buf : List U8) : Except FuncFailure (Cpu6502 × Mapped prof 16 12) :=
  match FastMapBus.new prof 16 12 >>= fun bus => mapChunks prof bus 0 (chunks buf.length) with
  | .error fault => .error (.bus fault)
  | .ok bus =>
      let (cpu, bus) := Cpu6502.new.reset (⟨bus, (buf.getD · 0), none⟩ : Mapped prof 16 12)
      match bus.fault with
      | some fault => .error (.bus fault)
      | none => .ok ({ cpu with pc := programStart }, bus)

/-- `cycles += 1` on a counter whose largest value is `most`. -/
def countCycle {w : Nat} (most cycles : BitVec w) : Except FuncFailure (BitVec w) :=
  if prof = .debug ∧ cycles = most then .error .overflow else .ok (cycles + 1)

/-- `while cpu.pc != SUCCESS_ADDR`, for `bound` cycles at the most. -/
def untilSuccess {w : Nat} (most : BitVec w) :
    Nat → BitVec w → Cpu6502 × Mapped prof 16 12 → Except FuncFailure (Option (BitVec w))
  | 0, cycles, (cpu, _) => .ok (if cpu.pc = success then some cycles else none)
  | bound + 1, cycles, (cpu, bus) =>
      if cpu.pc = success then .ok (some cycles)
      else match cpu.step F prof Lines.none bus with
      | .error fault => .error (.core fault)
      | .ok (_, cpu, bus) => match bus.fault with
        | some fault => .error (.bus fault)
        | none => do untilSuccess most bound (← countCycle prof most cycles) (cpu, bus)

/-- What the loop has counted, if it ends. -/
def funcTest {w : Nat} (most : BitVec w) (buf : List U8) (bound : Nat) :
    Except FuncFailure (Option (BitVec w)) := do
  let s ← setupFunc prof buf
  untilSuccess F prof success most bound 0 s

end

/-- `cycles` is an `i32`. -/
def functionalTests (prof : Profile) :=
  funcTest (Variant.flavor .nmos6502) prof 0x336D (BitVec.intMax 32)

/-- `cycles` is a `usize`, which has 64 bits. -/
def extendedOpcodeTests (prof : Profile) :=
  funcTest (Variant.flavor .wdc65C02) prof 0x24F1 (BitVec.allOnes 64)

end Rs65x.Tests
