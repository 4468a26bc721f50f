import Rs65x.Lib.Traces
import Rs65x.Proof.Returns
import Rs65x.Results.Nops
import Rs65x.Results.Unstable
import Rs65x.Spec.Combined
import Rs65x.Spec.Timing

/-!
# The programmer's model: every opcode

The registers and the memory after any instruction of any core, the illegal ones and decimal mode
included, and after the entry of an interrupt. No core gets past a JAM.
-/

namespace Rs65x
open Words Alu

namespace Arch
variable (v : Variant) (s : Arch) (decimal : DecimalSemantics) (i : Instruction)

def rotateMasked (value : U8) : Arch :=
  let masked := s.a &&& value
  let rored := masked >>> 1 ||| (if flagSet s.p Psr.C then 0x80 else 0)
  let p := signZero s.p rored
  if flagSet s.p Psr.D && decimal = .nmos6502 then
    let carries (digit : U8) : Bool := digit + (digit &&& 1) > 5
    let low := if carries (masked &&& 0x0F) then (rored &&& 0xF0) ||| ((rored + 6) &&& 0x0F) else rored
    let out := carries (masked >>> 4)
    { s with
      a := if out then low + 0x60 else low
      p := setFlag (setFlag p Psr.C out) Psr.V (masked.getLsbD 6 != rored.getLsbD 6) }
  else
    { s with
      a := rored
      p := setFlag (setFlag p Psr.C (rored.getLsbD 6)) Psr.V (rored.getLsbD 6 != rored.getLsbD 5) }

/-- What an instruction does with the byte that it has read. -/
def digest (value : U8) : Arch :=
  match i.mnemonic with
  | .plx => s.loadX value
  | .ply => s.loadY value
  | .usbc => s.consume decimal .sbc value
  | .bit =>
      if i.addressMode = .noMemory .immediate then
        { s with p := setFlag s.p Psr.Z (s.a &&& value == 0) }
      else s.consume decimal .bit value
  | .anc =>
      let masked := s.a &&& value
      { s with a := masked, p := shifted s.p masked masked.msb }
  | .arr => s.rotateMasked decimal value
  | .ane => s.loadA ((s.a ||| 0xEE) &&& s.x &&& value)
  | .lxa =>
      let loaded := (s.a ||| 0xEE) &&& value
      { s.loadA loaded with x := loaded }
  | .las =>
      let loaded := value &&& s.s
      { s.loadA loaded with x := loaded, s := loaded }
  | .sbx =>
      let masked := s.a &&& s.x
      { s with x := masked - value, p := compared s.p masked value }
  | op => s.consume decimal op value

def store : Arch :=
  if i.mnemonic.isUnstable then
    { s with
      s := if i.mnemonic = .tas then s.a &&& s.x else s.s
      ram := Function.update s.ram (s.unstableAddress i) (s.unstableValue i) }
  else
    { s with
      ram := Function.update s.ram (s.effectiveAddress i.addressMode)
        ((i.mnemonic.stored s.a s.x s.y s.p).getD 0) }

def modify : Arch :=
  let addr := s.effectiveAddress i.addressMode
  let r := i.mnemonic.modify decimal s.a s.p (s.ram addr)
  { s with a := r.a, p := r.p, ram := Function.update s.ram addr r.value }

def onOperand : Arch :=
  match i.memoryAction with
  | .read => s.digest decimal i (s.ram (s.effectiveAddress i.addressMode))
  | .write => s.store i
  | .readModifyWrite => s.modify decimal i

def onRegisters : Arch :=
  match i.mnemonic with
  | .inc => s.loadA (s.a + 1)
  | .dec => s.loadA (s.a - 1)
  | op => s.implied op

def onStack : Arch :=
  match i.mnemonic.stored s.a s.x s.y s.p with
  | some value => s.push value
  | none => s.drop.digest decimal i s.top

/-- The address behind `pointer`; the NMOS cores do not carry into its high byte. -/
def pointerSuccessor (pointer : U16) : U16 :=
  if v.isCmos then pointer + 1 else fromLeBytes (loByte pointer + 1) (hiByte pointer)

/-- The registers and the memory after the entry of an interrupt that returns to `q`. -/
def interrupted (q : U16) (status : U8) (vector : U16) : Arch :=
  { s.entered q status vector with p := Cpu6502.handlerStatus v.flavor s.p }

/-- The effect of the instruction at PC. -/
def execute : Arch :=
  let i := v.decode s.opcode
  let pointer := word s.ram (s.pc + 1)
  let following := s.pc + i.addressMode.bytes
  match i.addressMode with
  | .noMemory .implied => { s.onRegisters i with pc := following }
  | .noMemory .immediate | .directPage _ | .absolute _ | .dpIndirect _ =>
      { s.onOperand v.flavor.decimal i with pc := following }
  | .stack => { s.onStack v.flavor.decimal i with pc := following }
  | .branch _ => { s with pc := if s.branchTaken i then s.branchTarget i else s.branchFollowing i }
  | .jump .jmpIndirect =>
      { s with pc := fromLeBytes (s.ram pointer) (s.ram (pointerSuccessor v pointer)) }
  | .jump .jmpAbsoluteX => { s with pc := word s.ram (pointer + s.x.setWidth 16) }
  | .jump _ => s.perform i
  | .interrupt _ => s.interrupted v (s.pc + 2) (s.p ||| Psr.B6502 ||| Psr.U6502) 0xFFFE
  | .cmosNop _ _ => { s with pc := following }
  | _ => s

/-- The effect of what begins in a cycle with the given exit. -/
def after (start : StepExit) : Arch :=
  match start with
  | .opcodeFetch => s.execute v
  | .interrupt type => s.interrupted v s.pc s.p type.vector
  | _ => s

/-! ## Accesses

A direction, true for a read, and an address for each cycle.
-/

/-- The reads of a NOP of a CMOS core, with the cycles in which PC moves. -/
def walk (pc : U16) : List Bool → List U16
  | [] => []
  | move :: moves => pc :: walk (if move then pc + 1 else pc) moves

/-- The reads behind the offset of a branch. Past the page the NMOS cores, and BBR and BBS not, read
at the uncarried target. -/
def hopReads (op : U8) (taken : Bool) (following target : U16) : List U16 :=
  if !taken then []
  else if hiByte target = hiByte following then [following]
  else if op &&& 0x0F = 0x0F then [following, following]
  else [following, fromLeBytes (loByte target) (hiByte following)]

def entryAccesses (s : Arch) (vector : U16) : List (Bool × U16) :=
  [(false, stackAddr s.s), (false, stackAddr (s.s - 1)), (false, stackAddr (s.s - 1 - 1)),
    (true, vector), (true, vector + 1)]

/-- The accesses of the instruction at PC after its opcode fetch. -/
def traffic : List (Bool × U16) :=
  let i := v.decode s.opcode
  let pointer := word s.ram (s.pc + 1)
  match i.addressMode with
  | .noMemory .implied => [(true, s.pc + 1)]
  | .noMemory .immediate | .directPage _ | .absolute _ | .dpIndirect _ =>
      if i.mnemonic.isUnstable then
        (s.trail v.flavor i).dropLast ++ [(false, s.unstableAddress i)]
      else s.trail v.flavor i
  | .stack =>
      (true, s.pc + 1) :: if i.memoryAction = .write then [(false, stackAddr s.s)]
        else [(true, stackAddr s.s), (true, stackAddr (s.s + 1))]
  | .branch type =>
      ((s.pc + 1) :: (if type = .dpRelative then
        [s.operand.setWidth 16, s.operand.setWidth 16, s.pc + 2] else []) ++
        hopReads s.opcode (s.branchTaken i) (s.branchFollowing i) (s.branchTarget i)).map (true, ·)
  | .jump .jmpAbsolute => [(true, s.pc + 1), (true, s.pc + 2)]
  | .jump .jmpIndirect =>
      ([s.pc + 1, s.pc + 2, pointer] ++ (if v.isCmos then
        [fromLeBytes (loByte pointer + 1) (hiByte pointer)] else []) ++
        [pointerSuccessor v pointer]).map (true, ·)
  | .jump .jmpAbsoluteX =>
      let indexed := pointer + s.x.setWidth 16
      [s.pc + 1, s.pc + 2, s.pc + 1, indexed, indexed + 1].map (true, ·)
  | .jump .toSubroutine =>
      [(true, s.pc + 1), (true, stackAddr s.s), (false, stackAddr s.s), (false, stackAddr (s.s - 1)),
        (true, s.pc + 2)]
  | .jump .fromSubroutine =>
      [s.pc + 1, stackAddr s.s, stackAddr (s.s + 1), stackAddr (s.s + 1 + 1),
        fromLeBytes s.top s.drop.top].map (true, ·)
  | .jump .fromInterrupt =>
      [s.pc + 1, stackAddr s.s, stackAddr (s.s + 1), stackAddr (s.s + 1 + 1),
        stackAddr (s.s + 1 + 1 + 1)].map (true, ·)
  | .interrupt _ => (true, s.pc + 1) :: s.entryAccesses 0xFFFE
  | .cmosNop bytes cycles => (walk (s.pc + 1) (nopMoves bytes cycles)).map (true, ·)
  | _ => []

/-- The read of the cycle that a CMOS core inserts after a decimal ADC or SBC. -/
def inserted : List (Bool × U16) :=
  let i := v.decode s.opcode
  if s.addsDecimalCycle v i then
    [(true, if i.addressMode = .noMemory .immediate then
      if i.mnemonic = .adc then v.flavor.decimalAdcImmediateRead.setWidth 16 else 0
      else s.effectiveAddress i.addressMode)]
  else []

/-- The accesses of what begins in a cycle with the given exit, one for each cycle. -/
def accessesOf (start : StepExit) : List (Bool × U16) :=
  match start with
  | .opcodeFetch => (true, s.pc) :: s.traffic v ++ s.inserted v
  | .interrupt type => (true, s.pc) :: s.entryAccesses type.vector
  | _ => []

/-- The same with the data. A read finds what is there, and a write leaves what will be there, but for
a dummy write. -/
def eventsOf (start : StepExit) : List (Traces.Event U16 U8) :=
  Traces.spell s.ram (s.after v start).ram (s.accessesOf v start)

/-- The effects of a sequence of beginnings. -/
def afterAll (starts : List StepExit) : Arch := starts.foldl (after v) s

/-- Their accesses. -/
def accessesOfAll (s : Arch) : List StepExit → List (Bool × U16)
  | [] => []
  | start :: starts => s.accessesOf v start ++ (s.after v start).accessesOfAll starts

/-- Their events. -/
def eventsOfAll (s : Arch) : List StepExit → List (Traces.Event U16 U8)
  | [] => []
  | start :: starts => s.eventsOf v start ++ (s.after v start).eventsOfAll starts

theorem eventsOfAll_access (starts : List StepExit) :
    (s.eventsOfAll v starts).map Traces.Event.access = s.accessesOfAll v starts := by
  induction starts generalizing s with
  | nil => rfl
  | cons start starts ih =>
      rw [eventsOfAll, List.map_append, ih, eventsOf, Traces.spell_access]
      rfl

end Arch

end Rs65x
