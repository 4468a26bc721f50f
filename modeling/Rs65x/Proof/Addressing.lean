import Rs65x.Proof.Narrow
import Rs65x.Spec.Arch

/-!
# From the opcode fetch to the operand

The micro-ops of the modes with an operand in memory put its address into EA, but for an index that
is added to a whole word.
-/

namespace Rs65x
open Fallible Words

/-- An access without its data and its pins, at an address modulo 64K. -/
def Access.brief (access : Access) : Bool × U16 := (access.isRead, access.addr.setWidth 16)

def AddressMode.addressing : AddressMode → List MicroOp
  | .directPage offset =>
      .read .pc .eaLo true :: (if offset = .none then [] else [.readAndOffset .eaLo offset])
  | .absolute _ => [.read .pc .eaLo true, .read .pc .eaHi true]
  | .dpIndirect offset =>
      .read .pc .ptrLo true :: (if offset = .x then [.readAndOffset .ptrLo offset] else []) ++
        [.read .ptrLo .eaLo true, .read .ptrLo .eaHi false]
  | _ => []

def AddressMode.fixing (mode : AddressMode) : List MicroOp :=
  if mode.wordIndex = .none then [] else [.offsetOptFix mode.wordIndex]

theorem Variant.emission_memory (v : Variant) (op : U8) (memory : (v.decode op).addressMode.isMemory) :
    v.emission op = (v.decode op).addressMode.addressing ++ ((v.decode op).addressMode.fixing ++
      MicroOp.finishAction ⟨(v.decode op).memoryAction, !v.flavor.rmwDummyWrite, op⟩) := by
  rw [Variant.emission]
  generalize v.decode op = i at *
  obtain ⟨mnemonic, mode, action⟩ := i
  rcases mode with _ | _ | (_ | _ | _) | (_ | _ | _) | (_ | _ | _) | _ <;> cases v <;> first
    | rfl
    | cases memory

namespace Arch

def ctx (s : Arch) (i : Instruction) (op : U8) (length : U16) : MicroCtx6502 :=
  ⟨s.pc + length, s.s, s.p, s.a, s.x, s.y, i, op⟩

def opening (s : Arch) (i : Instruction) (op : U8) (log : List Access) : Narrow where
  ctx := s.ctx i op 1
  dataLatch := 0
  ea := 0x7F
  ptr := 0
  op0 := 0
  signedOffset8 := 0
  action := i.memoryAction
  ram := s.ram
  log := log

theorem hiByte_opening_ea (s : Arch) (i : Instruction) (op : U8) (log : List Access) :
    hiByte (s.opening i op log).ea = 0#8 := Narrow.hiByte_start

end Arch

structure Narrow.Addressed (m : Narrow) (s : Arch) (i : Instruction) (op : U8)
    (log : List Access) : Prop where
  ctx : m.ctx = s.ctx i op i.addressMode.length
  ea : m.ea = s.baseAddress i.addressMode
  action : m.action = i.memoryAction
  ram : m.ram = s.ram
  log : ∃ reads, m.log = log ++ reads ∧
    reads.map Access.brief = (s.pointerReads i.addressMode).map (true, ·)

namespace Exec
open Worklist Narrow

theorem offset_low (s : Arch) {ctx : MicroCtx6502} (x : ctx.x = s.x) (y : ctx.y = s.y)
    (offset : OffsetType) : (ctx.offset offset).setWidth 8 = s.index offset := by
  cases offset <;> simp [MicroCtx6502.offset, MicroCtx6502.regX, MicroCtx6502.regY, Arch.index, x, y]

section
variable (F : Flavor) (s : Arch) (mnemonic : Mnemonic) (action : MemoryAction) (op : U8)
  (log : List Access) (rest : List MicroOp)

theorem turns_directPage (offset : OffsetType) : ∃ m : Narrow,
    Exec.Turns F (s.opening ⟨mnemonic, .directPage offset, action⟩ op log).exec
      ((AddressMode.directPage offset).addressing ++ rest)
      (s.pointerReads (.directPage offset)).length m.exec rest ∧
    m.Addressed s ⟨mnemonic, .directPage offset, action⟩ op log := by
  by_cases plain : offset = .none
  · subst plain
    refine ⟨_, .single (fits rfl) (next_pc_eaLo F _ _), ?_, ?_, rfl, rfl, ?_⟩
    · simp [Arch.opening, fetching, Arch.ctx, AddressMode.length, BitVec.add_assoc]
    · simp [Arch.opening, Arch.ctx, Arch.baseAddress, Arch.index, Arch.operand, hiByte_start,
        fromLeBytes_zero]
    · exact ⟨_, rfl, by simp [Arch.opening, Arch.ctx, Access.brief, Access.isRead, Access.addr,
        Arch.pointerReads]⟩
  · have work : (AddressMode.directPage offset).addressing ++ rest =
        .read .pc .eaLo true :: .readAndOffset .eaLo offset :: rest := by
      simp [AddressMode.addressing, plain]
    have length : (s.pointerReads (.directPage offset)).length = 1 + 1 := by
      simp [Arch.pointerReads, plain]
    rw [work, length]
    refine ⟨_, (Works.single (fits rfl) (next_pc_eaLo F _ _)).trans
      (.single (fits rfl) (next_eaLo_offset F _ _ _)), ?_, ?_, rfl, rfl, ?_⟩
    · simp [Arch.opening, fetching, reading, Arch.ctx, AddressMode.length, BitVec.add_assoc]
    · simp only [loByte_fromLeBytes, hiByte_fromLeBytes]
      rw [offset_low s rfl rfl, Arch.hiByte_opening_ea, fromLeBytes_zero]
      rfl
    · refine ⟨_, List.append_assoc _ _ _, ?_⟩
      simp [Arch.opening, fetching, reading, Arch.ctx, Access.brief, Access.isRead, Access.addr,
        Arch.pointerReads, plain, Arch.operand]

theorem turns_absolute (offset : OffsetType) : ∃ m : Narrow,
    Exec.Turns F (s.opening ⟨mnemonic, .absolute offset, action⟩ op log).exec
      ((AddressMode.absolute offset).addressing ++ rest)
      (s.pointerReads (.absolute offset)).length m.exec rest ∧
    m.Addressed s ⟨mnemonic, .absolute offset, action⟩ op log := by
  refine ⟨_, (Works.single (fits rfl) (next_pc_eaLo F _ _)).trans
    (.single (fits rfl) (next_pc_eaHi F _ _)), ?_, ?_, rfl, rfl, ?_⟩
  · simp [Arch.opening, fetching, reading, Arch.ctx, AddressMode.length, BitVec.add_assoc]
  · simp [Arch.opening, fetching, reading, Arch.ctx, Arch.baseAddress, Arch.word]
  · refine ⟨_, List.append_assoc _ _ _, ?_⟩
    simp [Arch.opening, fetching, reading, Arch.ctx, Access.brief, Access.isRead, Access.addr,
      Arch.pointerReads, BitVec.add_assoc]

theorem turns_pointer (m : Narrow) : ∃ m' : Narrow,
    Exec.Turns F m.exec (.read .ptrLo .eaLo true :: .read .ptrLo .eaHi false :: rest) (1 + 1)
      m'.exec rest ∧
    m'.ctx = m.ctx ∧ m'.ea = Arch.zeroPageWord m.ram (loByte m.ptr) ∧ m'.action = m.action ∧
    m'.ram = m.ram ∧ ∃ reads, m'.log = m.log ++ reads ∧ reads.map Access.brief =
      [(true, (loByte m.ptr).setWidth 16), (true, (loByte m.ptr + 1).setWidth 16)] := by
  refine ⟨_, (Works.single (fits rfl) (next_ptrLo_eaLo F _ _)).trans
    (.single (fits rfl) (next_ptrLo_eaHi F _ _)), rfl, ?_, rfl, rfl, ?_⟩
  · simp [reading, Arch.zeroPageWord]
  · refine ⟨_, List.append_assoc _ _ _, ?_⟩
    simp [reading, Access.brief, Access.isRead, Access.addr]

theorem turns_dpIndirect (offset : OffsetType) : ∃ m : Narrow,
    Exec.Turns F (s.opening ⟨mnemonic, .dpIndirect offset, action⟩ op log).exec
      ((AddressMode.dpIndirect offset).addressing ++ rest)
      (s.pointerReads (.dpIndirect offset)).length m.exec rest ∧
    m.Addressed s ⟨mnemonic, .dpIndirect offset, action⟩ op log := by
  have fetched := next_pc_ptrLo F (s.opening ⟨mnemonic, .dpIndirect offset, action⟩ op log)
  by_cases indexed : offset = .x
  · subst indexed
    obtain ⟨m, turns, ctx, ea, act, ram, reads, log', logged⟩ := turns_pointer F rest _
    refine ⟨m, (Works.single (fits rfl) (fetched _)).trans
      ((Works.single (fits rfl) (next_ptrLo_offset F _ _ _)).trans turns), ?_, ?_, act, ram, ?_⟩
    · rw [ctx]
      simp [Arch.opening, fetching, reading, Arch.ctx, AddressMode.length, BitVec.add_assoc]
    · rw [ea]
      simp only [loByte_fromLeBytes]
      rw [offset_low s rfl rfl]
      rfl
    · refine ⟨_, log'.trans ((List.append_assoc (log ++ [_]) [_] reads).trans
        (List.append_assoc log [_] _)), ?_⟩
      · rw [List.map_append, List.map_append, logged]
        simp only [loByte_fromLeBytes]
        rw [offset_low s rfl rfl]
        simp [Arch.opening, fetching, reading, Arch.ctx, Access.brief, Access.isRead, Access.addr,
          Arch.pointerReads, Arch.index, Arch.operand]
  · have work : (AddressMode.dpIndirect offset).addressing ++ rest =
        .read .pc .ptrLo true :: .read .ptrLo .eaLo true :: .read .ptrLo .eaHi false :: rest := by
      simp [AddressMode.addressing, indexed]
    have length : (s.pointerReads (.dpIndirect offset)).length = 1 + (1 + 1) := by
      simp [Arch.pointerReads, indexed]
    obtain ⟨m, turns, ctx, ea, act, ram, reads, log', logged⟩ := turns_pointer F rest _
    rw [work, length]
    refine ⟨m, (Works.single (fits rfl) (fetched _)).trans turns, ?_, ?_, act, ram, ?_⟩
    · rw [ctx]
      simp [Arch.opening, fetching, reading, Arch.ctx, AddressMode.length, BitVec.add_assoc]
    · rw [ea]
      simp only [loByte_fromLeBytes]
      cases offset <;> first | rfl | exact absurd rfl indexed
    · refine ⟨_, log'.trans (List.append_assoc log [_] reads), ?_⟩
      · rw [List.map_append, logged]
        simp [Arch.opening, Arch.ctx, Access.brief, Access.isRead, Access.addr,
          Arch.pointerReads, Arch.operand, indexed]

end

theorem turns_addressing (F : Flavor) (s : Arch) (i : Instruction) (op : U8) (log : List Access)
    (memory : i.addressMode.isMemory) (rest : List MicroOp) :
    ∃ m : Narrow, Exec.Turns F (s.opening i op log).exec (i.addressMode.addressing ++ rest)
      (s.pointerReads i.addressMode).length m.exec rest ∧ m.Addressed s i op log := by
  obtain ⟨mnemonic, mode, action⟩ := i
  cases mode with
  | directPage offset => exact turns_directPage F s mnemonic action op log rest offset
  | absolute offset => exact turns_absolute F s mnemonic action op log rest offset
  | dpIndirect offset => exact turns_dpIndirect F s mnemonic action op log rest offset
  | _ => cases memory

end Exec

end Rs65x
