import Rs65x.Proof.Origin

/-!
# What the micro-ops of an instruction write

The programs of a table are checked entry by entry. What is live of a program inherits its order.
-/

namespace Rs65x
open Fallible

namespace MicroOp

def writes (u : MicroOp) : Bool := !u.bus.read

def pushes (u : MicroOp) : Bool := u.writes && u.bus.addr = .sp

def drops (action : MemoryAction) (u : MicroOp) (rest : List MicroOp) : Bool :=
  match u.alu with
  | .offsetWithExtraCycle _ =>
      !u.writes && (action ≠ .read || !rest.any (·.writes)) &&
        (action ≠ .readModifyWrite || rest.head? = some (.read .ea .op0 false))
  | .fixPtr | .branch => !u.writes && !rest.any (·.writes)
  | .jam => !u.writes
  | _ => true

end MicroOp

namespace Instruction

def usesStack (i : Instruction) : Bool :=
  i.mnemonic = .pha || i.mnemonic = .php || i.mnemonic = .phx || i.mnemonic = .phy ||
    i.mnemonic = .jsr || i.mnemonic = .brk

def writeCount (F : Flavor) (i : Instruction) : Nat :=
  match i.mnemonic with
  | .jsr => 2
  | .brk => 3
  | _ =>
      match i.memoryAction with
      | .read => 0
      | .write => 1
      | .readModifyWrite =>
          if i.addressMode = .noMemory .implied then 0 else if F.rmwDummyWrite then 2 else 1

def stores (i : Instruction) (u : MicroOp) : Bool :=
  !u.writes || u.pushes = i.usesStack && u.localLatch ≠ .status &&
    (u.localLatch ≠ .brkStatus || i.mnemonic = .brk) &&
    (i.mnemonic ≠ .php || u = .aluPush) && (!u.pushes || u.alu = .decSp)

end Instruction

/-- The writes of a program come in groups of at most three and are never dropped. -/
def orderly (action : MemoryAction) : List MicroOp → Bool
  | [] => true
  | u :: rest => u.drops action rest && ((u :: rest).takeWhile (·.writes)).length ≤ 3 &&
      orderly action rest

theorem orderly_suffix {action : MemoryAction} {us program : List MicroOp}
    (suffix : us <:+ program) (good : orderly action program) : orderly action us := by
  obtain ⟨front, rfl⟩ := suffix
  induction front with
  | nil => exact good
  | cons u front ih =>
      simp only [List.cons_append, orderly, Bool.and_eq_true] at good
      exact ih good.2

theorem orderly_detour {action : MemoryAction} {us : List MicroOp} (detour : us.all (·.isDetour)) :
    orderly action us := by
  induction us with
  | nil => rfl
  | cons u us ih =>
      rw [List.all_cons, Bool.and_eq_true] at detour
      obtain ⟨first, rest⟩ := detour
      simp only [MicroOp.isDetour, Bool.and_eq_true, decide_eq_true_eq, Bool.not_eq_true'] at first
      obtain ⟨⟨⟨⟨read, -⟩, -⟩, -⟩, alu⟩ := first
      have quiet : u.writes = false := by simp [MicroOp.writes, read]
      have drops : u.drops action us := by
        unfold MicroOp.drops
        cases h : u.alu <;> simp [h] at alu ⊢
      simp only [orderly, List.takeWhile_cons, quiet, drops, ih rest]
      rfl

/-- The program of an instruction is orderly, stores what it should, and that often. -/
def Instruction.wellWritten (v : Variant) (i : Instruction) (op : U8) : Bool :=
  match i.addressMode.emitUcycs .release v.flavor.micro
    (Cpu6502.decodeContext v.flavor i.memoryAction op) with
  | .ok us => orderly i.memoryAction us && us.all i.stores &&
      us.countP (·.writes) = i.writeCount v.flavor
  | .error _ => false

set_option maxRecDepth 20000 in
theorem entries_wellWritten (v : Variant) : entries.all fun e =>
    !e.filter.includes v.flavor.opcodeTable ||
      e.instruction.wellWritten v (BitVec.ofNat 8 e.code) := by
  cases v <;> decide

theorem Variant.emission_wellWritten (v : Variant) (op : U8) :
    orderly (v.decode op).memoryAction (v.emission op) ∧
      (∀ u ∈ v.emission op, (v.decode op).stores u) ∧
      (v.emission op).countP (·.writes) = (v.decode op).writeCount v.flavor := by
  have checked : (v.decode op).wellWritten v op :=
    OpcodeTable.decode_checked (fun i op => i.wellWritten v op) op (by cases v <;> rfl)
      (entries_wellWritten v)
  have emits := (v.emission_spec op).2.2.2 .release
  simp only [Instruction.wellWritten, emits, Bool.and_eq_true, decide_eq_true_eq,
    List.all_eq_true] at checked
  exact ⟨checked.1.1, checked.1.2, checked.2⟩

namespace Begun

def action (v : Variant) (begun : Begun) : MemoryAction := (v.decode begun.opcode).memoryAction

def writeCount (v : Variant) : Begun → Nat
  | instruction op => (v.decode op).writeCount v.flavor
  | entry _ => 3

theorem program_orderly (v : Variant) (begun : Begun) :
    orderly (begun.action v) (begun.program v) := by
  cases begun with
  | instruction op => exact (v.emission_wellWritten op).1
  | entry type =>
      rw [action, show (entry type).opcode = 0 from rfl, Cpu6502.decode_brk]
      rfl

theorem program_writes (v : Variant) (begun : Begun) :
    (begun.program v).countP (·.writes) = begun.writeCount v := by
  cases begun with
  | instruction op => exact (v.emission_wellWritten op).2.2
  | entry type => rfl

end Begun

namespace Exec
variable {β : Type} [Bus β]

theorem next_writes (F : Flavor) (e : Exec β) {u : MicroOp} {rest : List MicroOp}
    (drops : u.drops e.scratch.memoryAction rest) :
    (e.next F u rest).2.countP (·.writes) + (if u.writes then 1 else 0) =
      (u :: rest).countP (·.writes) := by
  rw [List.countP_cons]
  have cleared (none : (!rest.any (·.writes)) = true) : rest.countP (·.writes) = 0 := by
    rw [List.countP_eq_zero]
    simpa using none
  simp only [next, turn]
  cases alu : u.alu with
  | jam =>
      simp only [MicroOp.drops, alu, Bool.not_eq_true'] at drops
      simp [drops]
  | branch =>
      simp only [MicroOp.drops, alu, Bool.and_eq_true] at drops
      have reads : (e.body F u).1.branchTail.countP (·.writes) = 0 := by
        rw [List.countP_eq_zero]
        intro u' mem
        have detour := List.all_eq_true.1 (branchTail_detour (e.body F u).1) u' mem
        simp only [MicroOp.isDetour, Bool.and_eq_true] at detour
        simp [MicroOp.writes, detour.1.1.1.1]
      rw [cleared drops.2, reads]
  | offsetWithExtraCycle offset =>
      rw [← body_action F e u] at drops
      simp only [MicroOp.drops, alu, Bool.and_eq_true, Bool.or_eq_true, decide_eq_true_eq] at drops
      dsimp only
      split
      · rfl
      split
      · next read => rw [cleared (drops.1.2.resolve_left (not_not.2 read)), List.countP_nil]
      split
      · next modify =>
          simp only [Bool.and_eq_true, decide_eq_true_eq] at modify
          have head := drops.2.resolve_left (not_not.2 modify.1.1)
          obtain ⟨tail, rfl⟩ := List.head?_eq_some_iff.1 head
          rw [List.tail_cons, List.countP_cons]
          rfl
      · rfl
  | fixPtr =>
      simp only [MicroOp.drops, alu, Bool.and_eq_true] at drops
      dsimp only
      split
      · rfl
      split
      · rw [cleared drops.2, List.countP_nil]
      · rfl
  | _ => rfl

theorem next_writing (F : Flavor) (e : Exec β) {u : MicroOp} {rest : List MicroOp}
    (drops : u.drops e.scratch.memoryAction rest) (writes : u.writes) :
    (e.next F u rest).2 = rest := by
  simp only [next, turn]
  cases alu : u.alu with
  | jam | branch | offsetWithExtraCycle | fixPtr => simp [MicroOp.drops, alu, writes] at drops
  | _ => rfl

end Exec

namespace Begun

def usesStack (v : Variant) : Begun → Bool
  | instruction op => (v.decode op).usesStack
  | entry _ => true

theorem program_pushes (v : Variant) (begun : Begun) {u : MicroOp} (mem : u ∈ begun.program v)
    (writes : u.writes) (stack : begun.usesStack v) : u.bus.addr = .sp ∧ u.alu = .decSp := by
  cases begun with
  | instruction op =>
      have stores := (v.emission_wellWritten op).2.1 u mem
      have stack : (v.decode op).usesStack = true := stack
      simp only [Instruction.stores, writes, stack, MicroOp.pushes, Bool.not_true, Bool.false_or,
        Bool.true_and, Bool.and_eq_true, decide_eq_true_eq] at stores
      obtain ⟨⟨⟨⟨sp, -⟩, -⟩, -⟩, dec⟩ := stores
      exact ⟨sp, by simpa [sp] using dec⟩
  | entry type =>
      simp only [program, interruptTail, List.mem_cons, List.not_mem_nil, or_false] at mem
      rcases mem with rfl | rfl | rfl | rfl | rfl
      · exact ⟨rfl, rfl⟩
      · exact ⟨rfl, rfl⟩
      · exact ⟨rfl, rfl⟩
      · cases writes
      · cases writes

end Begun

namespace Cpu6502

theorem Runs.all {v : Variant} {begun : Begun} {cpu : Cpu6502} (runs : cpu.Runs v begun)
    {P : MicroOp → Prop} (program : ∀ u ∈ begun.program v, P u)
    (detour : ∀ u : MicroOp, u.isDetour → P u) : ∀ u ∈ cpu.ucycs.live, P u := by
  rcases runs.live with suffix | reads
  · exact fun u mem => program u (suffix.subset mem)
  · exact fun u mem => detour u (List.all_eq_true.1 reads u mem)

theorem Runs.orderly {v : Variant} {begun : Begun} {cpu : Cpu6502} (runs : cpu.Runs v begun) :
    orderly (begun.action v) cpu.ucycs.live := by
  rcases runs.live with suffix | detour
  · exact orderly_suffix suffix (begun.program_orderly v)
  · exact orderly_detour detour

theorem Runs.drops {v : Variant} {begun : Begun} {cpu : Cpu6502} (runs : cpu.Runs v begun)
    {u : MicroOp} {rest : List MicroOp} (live : cpu.ucycs.live = u :: rest) :
    u.drops (begun.action v) rest := by
  have good := runs.orderly
  simp only [live, Rs65x.orderly, Bool.and_eq_true] at good
  exact good.1.1

theorem Runs.drops_exec {v : Variant} {begun : Begun} {cpu : Cpu6502} (runs : cpu.Runs v begun)
    {u : MicroOp} {rest : List MicroOp} (live : cpu.ucycs.live = u :: rest) :
    u.drops cpu.scratch.memoryAction rest := by
  rw [runs.action]
  exact runs.drops live

end Cpu6502

end Rs65x
