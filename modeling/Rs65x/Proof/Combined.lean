import Rs65x.Proof.Carries
import Rs65x.Spec.Combined

/-!
# Combined instructions and their pairs

On the programmer's model a combined instruction is the composition of its pair. The NMOS cores
carry both out as the programmer's model says, in decimal mode as well.
-/

namespace Rs65x
open Words Alu Fallible

theorem signZero_signZero (p first value : U8) : signZero (signZero p first) value = signZero p value := by
  have flags : ∀ n z n' z', ∀ p : U8,
      setFlag (setFlag (setFlag (setFlag p Psr.N n) Psr.Z z) Psr.N n') Psr.Z z' =
        setFlag (setFlag p Psr.N n') Psr.Z z' := by
    decide
  exact flags _ _ _ _ p

theorem signZero_and (p value : U8) {mask : U8} (apart : (Psr.N ||| Psr.Z) &&& mask = 0#8) :
    signZero p value &&& mask = p &&& mask := by
  rw [BitVec.and_or_distrib_right] at apart
  obtain ⟨sign, zero⟩ := BitVec.or_eq_zero_iff.1 apart
  rw [signZero, setFlag_and _ zero, setFlag_and _ sign]

namespace Alu

theorem apply_signZero (r : AluResult U8) (arith : r.flagMask = arithMask) (p value : U8) :
    (r.apply (signZero p value)).2 = (r.apply p).2 := by
  have rest : signZero p value &&& ~~~arithMask = p &&& ~~~arithMask :=
    signZero_and p value (by decide)
  simp only [AluResult.apply, arith, rest]

theorem sbc_signZero (prof : Profile) (a value p first : U8) (decimal : DecimalSemantics) :
    sbc prof a value (signZero p first) decimal = sbc prof a value p decimal := by
  have carry : flagSet (signZero p first) Psr.C = flagSet p Psr.C := by
    rw [flagSet, flagSet, signZero_and p first (by decide)]
  have digits : flagSet (signZero p first) Psr.D = flagSet p Psr.D := by
    rw [flagSet, flagSet, signZero_and p first (by decide)]
  simp only [sbc, carry, digits]

end Alu

theorem AddressMode.isDirect_memory {mode : AddressMode} (direct : mode.isDirect) : mode.isMemory := by
  cases mode <;> first | rfl | cases direct

theorem AddressMode.ne_implied {mode : AddressMode}
    (operand : mode.isMemory ∨ mode = .noMemory .immediate) : mode ≠ .noMemory .implied := by
  rintro rfl
  simp [AddressMode.isMemory] at operand

namespace Arch
variable (s : Arch) (decimal : DecimalSemantics)

theorem consume_rest (op : Mnemonic) (value : U8) (pc : U16) (ram : U16 → U8) :
    ({ s with pc, ram } : Arch).consume decimal op value =
      { s.consume decimal op value with pc, ram } := by
  cases op <;> rfl

theorem consume_modified {op first second : Mnemonic} (pair : op.pair = some (first, second))
    (old : U8) :
    let r := op.modify decimal s.a s.p old
    let begun := first.modify decimal s.a s.p old
    begun.value = r.value ∧ begun.a = s.a ∧
      ({ s with p := begun.p } : Arch).consume decimal second r.value = { s with a := r.a, p := r.p } := by
  cases op <;> cases pair
  case slo | rla | sre =>
    refine ⟨rfl, rfl, ?_⟩
    simp only [consume, read, loadA, Mnemonic.modify, signZero_shifted]
  case rra => exact ⟨rfl, rfl, rfl⟩
  case dcp =>
    refine ⟨rfl, rfl, ?_⟩
    simp only [consume, read, Mnemonic.modify, compared, signZero_signZero]
    rfl
  case isc =>
    refine ⟨rfl, rfl, ?_⟩
    obtain ⟨r, mask, eq⟩ := sbc_always s.a (old + 1) s.p decimal
    have difference : sbc .release s.a (old + 1) s.p decimal = .ok r := eq .release
    simp only [consume, Arch.arith, Mnemonic.modify, sbc_signZero, difference, get_ok,
      apply_signZero r mask]

theorem effect_modify (op : Mnemonic) {mode : AddressMode} (memory : mode.isMemory) :
    let addr := s.effectiveAddress mode
    let r := op.modify decimal s.a s.p (s.ram addr)
    s.effect decimal ⟨op, mode, .readModifyWrite⟩ =
      { s with a := r.a, p := r.p, pc := s.pc + mode.length, ram := Function.update s.ram addr r.value } := by
  simp only [effect, if_neg (AddressMode.ne_implied (.inl memory)), if_true]

theorem effect_consume (op : Mnemonic) {mode : AddressMode} (other : mode ≠ .noMemory .implied) :
    s.effect decimal ⟨op, mode, .read⟩ =
      { s.consume decimal op (s.ram (s.effectiveAddress mode)) with
        pc := s.pc + mode.length, ram := s.ram } := by
  rw [effect, if_neg other, if_neg (by simp)]
  exact s.consume_rest decimal op _ _ s.ram

theorem effectiveAddress_update {mode : AddressMode} (direct : mode.isDirect) {addr : U16}
    (apart : ∀ n < mode.length, s.pc + n ≠ addr) (a p value : U8) :
    ({ s with a, p, ram := Function.update s.ram addr value } : Arch).effectiveAddress mode =
      s.effectiveAddress mode := by
  have byte (n : U16) (inside : n < mode.length) :
      Function.update s.ram addr value (s.pc + n) = s.ram (s.pc + n) :=
    Function.update_of_ne (apart n inside) _ _
  cases mode with
  | directPage offset =>
      have operand := byte 1 (show (1 : U16) < 2 by decide)
      cases offset <;> simp only [effectiveAddress, Arch.operand, index, operand]
  | absolute offset =>
      have low := byte 1 (show (1 : U16) < 3 by decide)
      have high := byte 2 (show (2 : U16) < 3 by decide)
      have following : s.pc + 1 + 1 = s.pc + 2 := by rw [BitVec.add_assoc]; rfl
      cases offset <;> simp only [effectiveAddress, word, index, following, low, high]
  | _ => cases direct

end Arch

structure Pairs (i j k : Instruction) (s s' : Arch) : Prop where
  combines : i.Combines j k
  registers : s' = { s with pc := s'.pc, ram := s'.ram }
  operand : s'.ram (s'.effectiveAddress i.addressMode) = s.ram (s.effectiveAddress i.addressMode)
  address : k.addressMode.isMemory →
    s'.effectiveAddress j.addressMode = s.effectiveAddress i.addressMode ∧
    (s'.skip j).effectiveAddress k.addressMode = s.effectiveAddress i.addressMode
  apart : k.addressMode.isMemory → ∀ n < j.addressMode.length + k.addressMode.length,
    s'.pc + n ≠ s.effectiveAddress i.addressMode

/-- From `s` to `t` and from `s'` to `t'` the registers and the memory change alike, the memory at
`addr` only. -/
structure Alike (addr : U16) (s t s' t' : Arch) : Prop where
  registers : t' = { t with pc := t'.pc, ram := t'.ram }
  kept : ∀ other, other ≠ addr → t.ram other = s.ram other ∧ t'.ram other = s'.ram other
  same : ∀ other, s'.ram other = s.ram other → t'.ram other = t.ram other

theorem Alike.of_update {addr : U16} {s t s' t' : Arch} {value : U8}
    (registers : t' = { t with pc := t'.pc, ram := t'.ram })
    (ram : t.ram = Function.update s.ram addr value)
    (ram' : t'.ram = Function.update s'.ram addr value) : Alike addr s t s' t' := by
  refine ⟨registers, ?_, ?_⟩
  · intro other apart
    rw [ram, ram']
    exact ⟨Function.update_of_ne apart _ _, Function.update_of_ne apart _ _⟩
  · intro other same
    rw [ram, ram', Function.update_apply, Function.update_apply, same]

theorem Alike.of_kept {addr : U16} {s t s' t' : Arch}
    (registers : t' = { t with pc := t'.pc, ram := t'.ram }) (ram : t.ram = s.ram)
    (ram' : t'.ram = s'.ram) : Alike addr s t s' t' := by
  refine ⟨registers, ?_, ?_⟩
  · intro other apart
    rw [ram, ram']
    exact ⟨rfl, rfl⟩
  · intro other same
    rw [ram, ram', same]

namespace Pairs
variable {i j k : Instruction} {s s' : Arch}

theorem moved (pairs : Pairs i j k s s') : ∃ pc ram, s' = { s with pc, ram } :=
  ⟨s'.pc, s'.ram, pairs.registers⟩

theorem begun {op first second : Mnemonic} {mode : AddressMode}
    (pairs : Pairs ⟨op, mode, .readModifyWrite⟩ ⟨first, mode, .readModifyWrite⟩ ⟨second, mode, .read⟩ s s')
    (pair : op.pair = some (first, second)) (direct : mode.isDirect) (decimal : DecimalSemantics) :
    let addr := s.effectiveAddress mode
    let r := op.modify decimal s.a s.p (s.ram addr)
    let begun : Arch := { s with
      p := (first.modify decimal s.a s.p (s.ram addr)).p
      pc := s'.pc + mode.length
      ram := Function.update s'.ram addr r.value }
    s'.effect decimal ⟨first, mode, .readModifyWrite⟩ = begun ∧ begun.effectiveAddress mode = addr ∧
      begun.ram begun.pc = s'.ram begun.pc := by
  obtain ⟨pc, ram, rfl⟩ := pairs.moved
  intro addr r begun
  have memory := AddressMode.isDirect_memory direct
  have apart : ∀ n < mode.length + mode.length, pc + n ≠ addr := pairs.apart memory
  obtain ⟨here, inside⟩ : mode.length < mode.length + mode.length ∧
      ∀ n < mode.length, mode.length + n < mode.length + mode.length := by
    cases mode with
    | directPage | absolute =>
        simp only [AddressMode.length]
        exact ⟨by decide, fun n small => by bv_omega⟩
    | _ => cases direct
  refine ⟨?_, ?_, Function.update_of_ne (apart _ here) _ _⟩
  · obtain ⟨value, a, -⟩ := s.consume_modified decimal pair (s.ram (s.effectiveAddress mode))
    rw [Arch.effect_modify _ _ _ memory, pairs.operand, (pairs.address memory).1]
    simp only [begun, r, addr, value, a]
  · let skipped : Arch := { s with pc := pc + mode.length, ram }
    have again : skipped.effectiveAddress mode = addr := (pairs.address memory).2
    have beyond : ∀ n < mode.length, skipped.pc + n ≠ addr := by
      intro n small
      have there : skipped.pc + n = pc + (mode.length + n) := BitVec.add_assoc _ _ _
      rw [there]
      exact apart _ (inside n small)
    exact (skipped.effectiveAddress_update direct beyond s.a begun.p r.value).trans again

theorem second (pairs : Pairs i j k s s') (decimal : DecimalSemantics) :
    (s'.effect decimal j).ram (s'.effect decimal j).pc = s'.ram (s'.skip j).pc := by
  cases pairs.combines with
  | modify pair direct =>
      obtain ⟨effect, -, opcode⟩ := pairs.begun pair direct decimal
      rw [effect]
      exact opcode
  | alr => rfl
  | lax memory =>
      rw [Arch.effect_consume _ _ _ (AddressMode.ne_implied (.inl memory))]
      rfl

theorem alike (pairs : Pairs i j k s s') (decimal : DecimalSemantics) :
    Alike (s.effectiveAddress i.addressMode) s (s.effect decimal i) s'
      ((s'.effect decimal j).effect decimal k) := by
  have operand := pairs.operand
  cases pairs.combines with
  | @modify op first second mode pair direct =>
      obtain ⟨effect, address, -⟩ := pairs.begun pair direct decimal
      have memory := AddressMode.isDirect_memory direct
      have other := AddressMode.ne_implied (.inl memory)
      obtain ⟨-, -, result⟩ := s.consume_modified decimal pair (s.ram (s.effectiveAddress mode))
      rw [effect, Arch.effect_consume _ _ _ other, address, Arch.effect_modify _ _ _ memory]
      refine .of_update ?_ rfl rfl
      simp only [Function.update_self]
      rw [Arch.consume_rest { s with p := (first.modify decimal s.a s.p (s.ram (s.effectiveAddress mode))).p }, result]
  | alr =>
      obtain ⟨pc, ram, rfl⟩ := pairs.moved
      replace operand : ram (pc + 1#16) = s.ram (s.pc + 1#16) := operand
      refine .of_kept ?_ rfl rfl
      simp [Arch.effect, Arch.consume, Arch.implied, Arch.read, Arch.loadA, Mnemonic.modify,
        Arch.effectiveAddress, operand, shifted, signZero_signZero]
  | @lax mode memory =>
      obtain ⟨pc, ram, rfl⟩ := pairs.moved
      have other := AddressMode.ne_implied (.inl memory)
      rw [Arch.effect_consume _ _ _ other, Arch.effect_consume _ _ _ other]
      refine .of_kept ?_ rfl rfl
      replace operand : ram (({ s with pc, ram } : Arch).effectiveAddress mode) =
        s.ram (s.effectiveAddress mode) := operand
      simp [Arch.effect, Arch.consume, Arch.implied, Arch.read, Arch.loadA, Arch.loadX, operand,
        signZero_signZero]

end Pairs

/-! ## The cores -/

def Mnemonic.consumes : Mnemonic → Bool
  | .lda | .and | .ora | .eor | .adc | .sbc | .cmp | .alr | .lax => true
  | _ => false

def Instruction.hasEffect (i : Instruction) : Prop :=
  i.addressMode = .noMemory .implied ∧ i.mnemonic.isImplied ∨
  i.memoryAction = .readModifyWrite ∧ i.addressMode.isMemory ∨
  i.memoryAction = .read ∧ i.mnemonic.consumes ∧
    (i.addressMode.isMemory ∨ i.addressMode = .noMemory .immediate)

theorem Instruction.Combines.hasEffect {i j k : Instruction} (combines : i.Combines j k) :
    i.hasEffect ∧ j.hasEffect ∧ k.hasEffect := by
  cases combines with
  | @modify op first second mode pair direct =>
      have memory := AddressMode.isDirect_memory direct
      have consumes : second.consumes := by cases op <;> cases pair <;> rfl
      exact ⟨.inr (.inl ⟨rfl, memory⟩), .inr (.inl ⟨rfl, memory⟩), .inr (.inr ⟨rfl, consumes, .inl memory⟩)⟩
  | alr => exact ⟨.inr (.inr ⟨rfl, rfl, .inr rfl⟩), .inr (.inr ⟨rfl, rfl, .inr rfl⟩), .inl ⟨rfl, rfl⟩⟩
  | lax memory =>
      exact ⟨.inr (.inr ⟨rfl, rfl, .inl memory⟩), .inr (.inr ⟨rfl, rfl, .inl memory⟩), .inl ⟨rfl, rfl⟩⟩

namespace Cpu6502

theorem finishRead_consumes (F : Flavor) (prof : Profile) (cpu : Cpu6502) {op : Mnemonic}
    (consumes : op.consumes) : ∃ done, cpu.finishRead F prof op = .ok done ∧
      ∀ ram, done.arch ram = (cpu.arch ram).consume F.decimal op cpu.scratch.op0 := by
  cases op
  case lda | and | ora | eor | cmp =>
    exact finishRead_documented F prof cpu rfl (by simp) (by simp)
  case adc =>
    obtain ⟨r, -, eq⟩ := adc_always cpu.a cpu.scratch.op0 cpu.p F.decimal
    refine ⟨cpu.loadA r, congrArg (· >>= fun r => pure (cpu.loadA r)) (eq prof), fun ram => ?_⟩
    have sum : adc .release cpu.a cpu.scratch.op0 cpu.p F.decimal = .ok r := eq .release
    simp only [Arch.consume, Arch.arith, arch, sum, get_ok]
    rfl
  case sbc =>
    obtain ⟨r, -, eq⟩ := sbc_always cpu.a cpu.scratch.op0 cpu.p F.decimal
    refine ⟨cpu.loadA r, congrArg (· >>= fun r => pure (cpu.loadA r)) (eq prof), fun ram => ?_⟩
    have difference : sbc .release cpu.a cpu.scratch.op0 cpu.p F.decimal = .ok r := eq .release
    simp only [Arch.consume, Arch.arith, arch, difference, get_ok]
    rfl
  case alr =>
    refine ⟨_, rfl, fun ram => ?_⟩
    simp only [loadA_zn, lsr_eq, loadA_shift, shifted, signZero_signZero]
    rfl
  case lax =>
    refine ⟨_, rfl, fun ram => ?_⟩
    rw [loadA_zn]
    rfl
  all_goals cases consumes

end Cpu6502

namespace Arch

theorem effect_turns (v : Variant) {s : Arch} (form : (v.decode s.opcode).hasEffect)
    (log : List Access) : ∃ n e,
      Exec.Turns v.flavor (s.opened v log) (v.emission s.opcode) (n + 1) e [] ∧
      ∀ c : Cpu6502, c.Executing (v.decode s.opcode) e →
        (c.finished v.flavor (v.decode s.opcode)).arch e.bus.bus.ram =
          s.effect v.flavor.decimal (v.decode s.opcode) := by
  rcases form with ⟨mode, implied⟩ | ⟨modify, memory⟩ | ⟨read, consumes, operand⟩
  · obtain ⟨e, turns, arch⟩ := Exec.turns_implied v s s.opcode (log ++ [s.opcodeRead]) mode
    refine ⟨0, e, turns, fun c executing => ?_⟩
    have performs := ((completes_implied mode implied arch) c executing).1
    rw [performs, perform, effect, if_pos mode, mode]
    exact (s.implied_pc _ _).symm
  · obtain ⟨n, e, turns, ctx, bus, -⟩ :=
      Exec.turns_modify v s s.opcode (log ++ [s.opcodeRead]) memory modify
    obtain ⟨m, rfl⟩ := turns.count_pos (v.emission_operand s.opcode (.inl memory))
    have write : (v.decode s.opcode).memoryAction ≠ .read := by
      rw [modify]
      decide
    refine ⟨m, e, turns, fun c executing => ?_⟩
    have other := AddressMode.ne_implied (.inl memory)
    rw [Cpu6502.finished_write _ c write memory, executing.arch, Exec.arch, ctx, bus, effect,
      if_neg other, if_pos modify]
    rfl
  · obtain ⟨n, e, turns, loaded, -⟩ :=
      Exec.turns_operand v s s.opcode (log ++ [s.opcodeRead]) read operand
    obtain ⟨m, rfl⟩ := turns.count_pos (v.emission_operand s.opcode operand)
    refine ⟨m, e, turns, fun c executing => ?_⟩
    obtain ⟨done, finish, effect⟩ := c.finishRead_consumes v.flavor .release consumes
    have finished := Cpu6502.finished_read v.flavor executing.inst read operand .release
    cases finish.symm.trans finished
    have other := AddressMode.ne_implied operand
    have op0 : c.scratch.op0 = _ := (congrArg (·.scratch.op0) executing.exec).trans loaded.op0
    rw [effect, op0, executing.arch, Exec.arch, loaded.ctx, loaded.bus, Arch.effect, if_neg other,
      if_neg (by simp [read])]
    rfl

end Arch

end Rs65x
