import Rs65x.Proof.Execute

/-!
# What the decoder emits

Facts about every instruction of a table are checked entry by entry. The emitted micro-ops are
lawful: each of them fits the ones behind it, up to the micro-op that makes JAM loop.
-/

namespace Rs65x
open Fallible

theorem OpcodeTable.decode_induction {P : Instruction → U8 → Prop} (table : OpcodeTable) (op : U8)
    (undefined : P .undefined op)
    (entry : ∀ e ∈ entries, e.filter.includes table → P e.instruction (BitVec.ofNat 8 e.code)) :
    P (table.decode op) op := by
  have all : ∀ es ⊆ entries, ∀ slot, P slot op → P (es.foldl (fun slot e =>
      if e.code == op.toNat && e.filter.includes table then e.instruction else slot) slot) op := by
    intro es
    induction es with
    | nil => exact fun _ _ start => start
    | cons e es ih =>
        intro sub slot start
        rw [List.cons_subset] at sub
        refine ih sub.2 _ ?_
        dsimp only
        split
        · next hit =>
            simp only [Bool.and_eq_true, beq_iff_eq] at hit
            simpa [hit.1] using entry e sub.1 hit.2
        · exact start
  exact all entries (fun _ mem => mem) _ undefined

theorem OpcodeTable.decode_filled {P : Instruction → Prop} {table : OpcodeTable} {op : U8}
    (filled : ∃ e ∈ entries, e.code = op.toNat ∧ e.filter.includes table)
    (entry : ∀ e ∈ entries, e.code = op.toNat → P e.instruction) : P (table.decode op) := by
  have all : ∀ es ⊆ entries, ∀ slot,
      P slot ∨ (∃ e ∈ es, e.code = op.toNat ∧ e.filter.includes table) →
      P (es.foldl (fun slot e =>
        if e.code == op.toNat && e.filter.includes table then e.instruction else slot) slot) := by
    intro es
    induction es with
    | nil =>
        rintro _ _ (start | ⟨_, mem, _⟩)
        · exact start
        · cases mem
    | cons e es ih =>
        intro sub slot found
        rw [List.cons_subset] at sub
        apply ih sub.2
        dsimp only
        split
        · next hit =>
            simp only [Bool.and_eq_true, beq_iff_eq] at hit
            exact .inl (entry e sub.1 hit.1)
        · next miss =>
            simp only [Bool.and_eq_true, beq_iff_eq] at miss
            rcases found with start | ⟨e', mem, hit⟩
            · exact .inl start
            · rcases List.mem_cons.1 mem with rfl | mem
              · exact absurd hit miss
              · exact .inr ⟨e', mem, hit⟩
  exact all entries (fun _ mem => mem) _ (.inr filled)

theorem OpcodeTable.decode_checked (check : Instruction → U8 → Bool) {table : OpcodeTable} (op : U8)
    (undefined : check .undefined op) (all : entries.all fun e =>
      !e.filter.includes table || check e.instruction (BitVec.ofNat 8 e.code)) :
    check (table.decode op) op := by
  refine table.decode_induction (P := fun i op => check i op) op undefined ?_
  intro e mem included
  simp only [List.all_eq_true, Bool.or_eq_true, Bool.not_eq_true'] at all
  exact (all e mem).resolve_left (by simp [included])

theorem OpcodeTable.decode_form (check : Instruction → U8 → Bool) (table : OpcodeTable) (op : U8)
    (undefined : check .undefined op)
    (all : entries.all fun e => check e.instruction (BitVec.ofNat 8 e.code)) :
    check (table.decode op) op := by
  refine table.decode_induction (P := fun i op => check i op) op undefined ?_
  intro e mem _
  exact List.all_eq_true.1 all e mem

/-! ## Lawful micro-ops -/

def MicroOp.keepsStatus (u : MicroOp) : Bool :=
  u.alu ≠ .modify && (!u.bus.read || u.localLatch ≠ .status && u.localLatch ≠ .brkStatus)

/-- The instructions whose old I decides on an IRQ at the next boundary. -/
def Instruction.delaysIrq (i : Instruction) : Bool :=
  i.mnemonic = .cli || i.mnemonic = .sei || i.mnemonic = .plp

def Instruction.quiet (i : Instruction) : Bool :=
  i.delaysIrq || i.mnemonic = .adc || i.mnemonic = .sbc

def MicroOp.addsToEa (u : MicroOp) : Bool :=
  match u.alu with
  | .offsetWithExtraCycle _ => u.bus.read && u.bus.addr = .ea && !u.incSrc && u.localLatch = .op0
  | .specialAddOffset => u.bus.read && u.bus.addr = .pc && !u.incSrc && u.localLatch = .none
  | .addOffset latch _ | .incLatch latch => latch ≠ .ea && !(u.incSrc && u.bus.addr = .ea)
  | _ => !(u.incSrc && u.bus.addr = .ea) || u.bus.read && u.localLatch = .pcLo && u.alu = .none

def MicroOp.lawful (i : Instruction) (u : MicroOp) (rest : List MicroOp) : Bool :=
  u.fits rest && (!i.quiet || u.keepsStatus) && u.addsToEa && match u.alu with
    -- the read that this micro-op may drop is not the one that loops
    | .offsetWithExtraCycle _ => rest.head?.all (·.alu ≠ .jam)
    | _ => true

/-- Every micro-op that will be executed is lawful; nothing behind a looping one ever is. -/
def lawful (i : Instruction) : List MicroOp → Bool
  | [] => true
  | u :: rest => u.lawful i rest && (u.alu = .jam || lawful i rest)

namespace Exec
variable {β : Type}

theorem branchTail_lawful (i : Instruction) (e : Exec β) : lawful i e.branchTail := by
  have last (pc : U16) : lawful i [.readPcSetPc pc] := by
    cases h : i.quiet <;> simp only [lawful, MicroOp.lawful, h] <;> rfl
  simp only [branchTail]
  split
  · rfl
  split
  · simp only [lawful, Bool.and_eq_true, Bool.or_eq_true]
    refine ⟨?_, .inr (by simpa only [lawful, Bool.and_eq_true, Bool.or_eq_true] using last _)⟩
    split <;> cases h : i.quiet <;> simp only [MicroOp.lawful, h] <;> rfl
  · exact last _

theorem next_lawful [Bus β] {i : Instruction} {F : Flavor} {e : Exec β} {u : MicroOp}
    {rest : List MicroOp} (h : lawful i (u :: rest)) : lawful i (e.next F u rest).2 := by
  simp only [lawful, Bool.and_eq_true, Bool.or_eq_true, decide_eq_true_eq] at h
  obtain ⟨first, jam | behind⟩ := h
  · simp only [next, turn, jam, lawful, first]
    rfl
  · have tail (offset : OffsetType) (alu : u.alu = .offsetWithExtraCycle offset) :
        lawful i rest.tail := by
      cases rest with
      | nil => rfl
      | cons r rest =>
          simp only [MicroOp.lawful, alu, List.head?_cons, Option.all_some, Bool.and_eq_true,
            decide_eq_true_eq] at first
          simp only [lawful, Bool.and_eq_true, Bool.or_eq_true, decide_eq_true_eq] at behind
          exact behind.2.resolve_left first.2
    simp only [next, turn]
    cases alu : u.alu with
    | branch => exact branchTail_lawful i _
    | jam => simp [lawful, first, alu]
    | offsetWithExtraCycle offset =>
        simp only
        split
        · exact behind
        · split
          · rfl
          · split
            · exact tail offset alu
            · exact behind
    | fixPtr =>
        simp only
        split
        · exact behind
        · split
          · rfl
          · exact behind
    | _ => exact behind

end Exec

/-! ## What each table emits -/

def Instruction.sound (v : Variant) (i : Instruction) (op : U8) : Bool :=
  let emit (prof : Profile) :=
    i.addressMode.emitUcycs prof v.flavor.micro (Cpu6502.decodeContext v.flavor i.memoryAction op)
  i.memoryAction = i.mnemonic.action &&
    (!(i.mnemonic = .cli || i.mnemonic = .sei) || i.addressMode = .noMemory .implied) &&
    match emit .debug, emit .release with
    | .ok us, .ok us' =>
        us = us' && us.length ≤ maxUcyc && lawful i us && (!i.delaysIrq || !us.isEmpty)
    | _, _ => false

set_option maxRecDepth 20000 in
theorem entries_sound (v : Variant) : entries.all fun e =>
    !e.filter.includes v.flavor.opcodeTable || e.instruction.sound v (BitVec.ofNat 8 e.code) := by
  cases v <;> decide

namespace Variant
variable (v : Variant) (op : U8)

def decode : Instruction := Instruction.fromByte op v.flavor.opcodeTable

theorem decode_sound : (v.decode op).sound v op :=
  OpcodeTable.decode_checked (fun i op => i.sound v op) op (by cases v <;> rfl) (entries_sound v)

theorem decode_action : (v.decode op).memoryAction = (v.decode op).mnemonic.action := by
  have sound := v.decode_sound op
  simp only [Instruction.sound, Bool.and_eq_true, decide_eq_true_eq] at sound
  exact sound.1.1

theorem decode_implied (h : (v.decode op).mnemonic = .cli ∨ (v.decode op).mnemonic = .sei) :
    (v.decode op).addressMode = .noMemory .implied := by
  have sound := v.decode_sound op
  simp only [Instruction.sound, Bool.and_eq_true, Bool.or_eq_true, Bool.not_eq_true',
    decide_eq_true_eq, Bool.or_eq_false_iff, decide_eq_false_iff_not] at sound
  exact sound.1.2.resolve_left fun none => h.elim none.1 none.2

def emission : List MicroOp :=
  get ((v.decode op).addressMode.emitUcycs .release v.flavor.micro
    (Cpu6502.decodeContext v.flavor (v.decode op).memoryAction op)) []

theorem emission_spec : (v.emission op).length ≤ maxUcyc ∧ lawful (v.decode op) (v.emission op) ∧
    (v.emission op = [] → (v.decode op).delaysIrq = false) ∧
    ∀ prof, (v.decode op).addressMode.emitUcycs prof v.flavor.micro
      (Cpu6502.decodeContext v.flavor (v.decode op).memoryAction op) = .ok (v.emission op) := by
  have sound := v.decode_sound op
  simp only [Instruction.sound, Bool.and_eq_true] at sound
  obtain ⟨-, sound⟩ := sound
  split at sound
  · next us us' debug release =>
      simp only [Bool.and_eq_true, decide_eq_true_eq, Bool.or_eq_true, Bool.not_eq_true',
        List.isEmpty_eq_false_iff] at sound
      obtain ⟨⟨⟨rfl, few⟩, lawful⟩, delays⟩ := sound
      have eq : v.emission op = us := by simp only [emission, release, get_ok]
      rw [eq]
      exact ⟨few, lawful, fun none => delays.resolve_right (absurd none), fun prof => by cases prof <;> assumption⟩
  · simp at sound

end Variant

end Rs65x
