import Rs65x.Cpu6502.Core

/-!
# The single-step tests

`tests/common/setup.rs` and `tests/common/single_step.rs`. The cases of an opcode are given, and
nothing is printed.
-/

namespace Rs65x.Tests

inductive AccessType where
  | read | write
  deriving DecidableEq, Repr

structure Access where
  addr : U16
  data : U8
  accessType : AccessType
  deriving DecidableEq, Repr

def Access.basicRead (addr : U16) (data : U8) : Access := ⟨addr, data, .read⟩

structure Harness where
  mem : U16 → U8
  last : Access
  lines : Lines
  cycle : Nat

def Harness.default : Harness where
  mem := fun _ => 0
  last := .basicRead 0 0
  lines := { irq := false, nmi := false, rdy := true }
  cycle := 0

instance : Bus Harness where
  read bus addr _ _ :=
    let addr16 : U16 := addr.setWidth 16
    let data := bus.mem addr16
    (data, { bus with last := ⟨addr16, data, .read⟩, cycle := bus.cycle + 1 })
  write bus addr data _ _ :=
    let addr16 : U16 := addr.setWidth 16
    { bus with
      mem := Function.update bus.mem addr16 data
      last := ⟨addr16, data, .write⟩
      cycle := bus.cycle + 1 }

structure State where
  pc : U16
  s : U8
  a : U8
  x : U8
  y : U8
  p : U8
  ram : List (U16 × U8)

structure SingleStepCase where
  initial : State
  final : State
  cycles : List Access

/-- A failed assertion, with what was expected and what was found, or a panic of the core. -/
inductive Failure where
  | panic (fault : Fault)
  | accessType (expected actual : AccessType)
  | addr (expected actual : U16)
  | data (expected actual : U8)
  | pc (expected actual : U16)
  | a (expected actual : U8)
  | s (expected actual : U8)
  | x (expected actual : U8)
  | y (expected actual : U8)
  | p (expected actual : U8)
  | mem (addr : U16) (expected actual : U8)
  deriving DecidableEq, Repr

def assert (cond : Prop) [Decidable cond] (failure : Failure) : Except Failure Unit :=
  if cond then .ok () else .error failure

def setupInitial (initial : State) : Cpu6502 × Harness :=
  let cpu := { Cpu6502.new with
    pc := initial.pc, a := initial.a, s := initial.s, x := initial.x, y := initial.y, p := initial.p }
  let bus := Harness.default
  (cpu, { bus with mem := initial.ram.foldl (fun mem byte => Function.update mem byte.1 byte.2) bus.mem })

def assertCycle (expected actual : Access) : Except Failure Unit :=
  if expected = actual then .ok ()
  else do
    assert (expected.accessType = actual.accessType) (.accessType expected.accessType actual.accessType)
    assert (expected.addr = actual.addr) (.addr expected.addr actual.addr)
    assert (expected.data = actual.data) (.data expected.data actual.data)

def assertFinal (cpu : Cpu6502) (bus : Harness) (fin : State) : Except Failure Unit := do
  assert (cpu.pc = fin.pc) (.pc fin.pc cpu.pc)
  assert (cpu.a = fin.a) (.a fin.a cpu.a)
  assert (cpu.s = fin.s) (.s fin.s cpu.s)
  assert (cpu.x = fin.x) (.x fin.x cpu.x)
  assert (cpu.y = fin.y) (.y fin.y cpu.y)
  assert (cpu.p = fin.p) (.p fin.p cpu.p)
  fin.ram.forM fun byte => assert (bus.mem byte.1 = byte.2) (.mem byte.1 byte.2 (bus.mem byte.1))

section
variable (F : Flavor) (prof : Profile)

/-- The loop of `run_opcode` over the cycles of a case. -/
def runCycles : Cpu6502 × Harness → List Access → Except Failure (Cpu6502 × Harness)
  | s, [] => .ok s
  | (cpu, bus), cycle :: cycles =>
      match cpu.step F prof bus.lines bus with
      | .error fault => .error (.panic fault)
      | .ok (_, cpu, bus) => do
          assertCycle cycle bus.last
          runCycles (cpu, bus) cycles

def runCase (test : SingleStepCase) : Except Failure Unit := do
  let (cpu, bus) ← runCycles F prof (setupInitial test.initial) test.cycles
  assertFinal cpu bus test.final

/-- `run_opcode`, with the cases that it loads. -/
def runOpcode (tests : List SingleStepCase) : Except Failure Unit := tests.forM (runCase F prof)

end

end Rs65x.Tests
