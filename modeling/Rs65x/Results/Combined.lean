import Rs65x.Proof.Combined

/-!
# Combined illegal opcodes
-/

namespace Rs65x
open Fallible Machine

def combinedRows : List U8 := [0x00, 0x20, 0x40, 0x60, 0xC0, 0xE0]

def combinedColumns : List (U8 × AddressMode) :=
  [(0x00, .directPage .none), (0x08, .absolute .none), (0x10, .directPage .x), (0x18, .absolute .x)]

def laxCodes : List (U8 × U8) := [(0xA7, 0xA5), (0xAF, 0xAD), (0xBF, 0xB9), (0xA3, 0xA1), (0xB3, 0xB1)]

def combinedCodes : List (U8 × U8 × U8) :=
  (combinedRows.flatMap fun row => combinedColumns.map fun column =>
    (row + column.1 + 7, row + column.1 + 6, row + column.1 + 5)) ++
  laxCodes.map (fun codes => (codes.1, codes.2, 0xAA)) ++ [(0x4B, 0x29, 0x4A)]

theorem combined_table : (combinedRows.all fun row => combinedColumns.all fun column =>
    let combined := Instruction.fromByte (row + column.1 + 7) .nmos
    let first := Instruction.fromByte (row + column.1 + 6) .nmos
    let second := Instruction.fromByte (row + column.1 + 5) .nmos
    combined = ⟨combined.mnemonic, column.2, .readModifyWrite⟩ &&
      first = ⟨first.mnemonic, column.2, .readModifyWrite⟩ &&
      second = ⟨second.mnemonic, column.2, .read⟩ &&
      combined.mnemonic.pair = some (first.mnemonic, second.mnemonic)) ∧
    (laxCodes.all fun codes =>
      let lax := Instruction.fromByte codes.1 .nmos
      lax = ⟨.lax, lax.addressMode, .read⟩ && lax.addressMode.isMemory &&
        Instruction.fromByte codes.2 .nmos = ⟨.lda, lax.addressMode, .read⟩) ∧
    Instruction.fromByte 0xAA .nmos = ⟨.tax, .noMemory .implied, .read⟩ ∧
    Instruction.fromByte 0x4B .nmos = ⟨.alr, .noMemory .immediate, .read⟩ ∧
    Instruction.fromByte 0x29 .nmos = ⟨.and, .noMemory .immediate, .read⟩ ∧
    Instruction.fromByte 0x4A .nmos = ⟨.lsr, .noMemory .implied, .readModifyWrite⟩ := by
  decide +kernel

namespace Cpu6502

/-- The documented pair of the instruction at PC of `s` stands at PC of `s'`. -/
def PairAt (v : Variant) (s s' : Arch) : Prop :=
  Pairs (v.decode s.opcode) (v.decode s'.opcode) (v.decode (s'.skip (v.decode s'.opcode)).opcode) s s'

section
variable {v : Variant} {prof : Profile} {s t u s' t' : Cpu6502 × Recorder SimpleBus}

theorem nmos_never_due (nmos : v = .nmos6502 ∨ v = .nes) (i : Instruction) (c : Cpu6502) :
    c.extraCycleDue v.flavor i = false := by
  rcases nmos with rfl | rfl <;> simp [extraCycleDue, adcSbcExtraCycle, Variant.flavor]

theorem nmos_decode (nmos : v = .nmos6502 ∨ v = .nes) (op : U8) :
    v.decode op = Instruction.fromByte op .nmos := by
  rcases nmos with rfl | rfl <;> rfl

theorem combined_modify (nmos : v = .nmos6502 ∨ v = .nes) {row column : U8} {mode : AddressMode}
    (inRows : row ∈ combinedRows) (inColumns : (column, mode) ∈ combinedColumns) :
    (v.decode (row + column + 7)).Combines (v.decode (row + column + 6)) (v.decode (row + column + 5)) := by
  have table (op : U8) := nmos_decode nmos op
  have entry := List.all_eq_true.1 (List.all_eq_true.1 combined_table.1 row inRows) (column, mode) inColumns
  simp only [Bool.and_eq_true, decide_eq_true_eq] at entry
  obtain ⟨⟨⟨combined, first⟩, second⟩, pair⟩ := entry
  have direct : mode.isDirect := by
    simp only [combinedColumns, List.mem_cons, Prod.mk.injEq, List.not_mem_nil, or_false] at inColumns
    rcases inColumns with ⟨-, rfl⟩ | ⟨-, rfl⟩ | ⟨-, rfl⟩ | ⟨-, rfl⟩ <;> rfl
  rw [table, table, table, combined, first, second]
  exact .modify pair direct

theorem combined_lax (nmos : v = .nmos6502 ∨ v = .nes) {lax lda : U8} (mem : (lax, lda) ∈ laxCodes) :
    (v.decode lax).Combines (v.decode lda) (v.decode 0xAA) := by
  obtain ⟨-, laxes, second, -⟩ := combined_table
  have entry := List.all_eq_true.1 laxes (lax, lda) mem
  simp only [Bool.and_eq_true, decide_eq_true_eq] at entry
  obtain ⟨⟨combined, memory⟩, first⟩ := entry
  rw [nmos_decode nmos, nmos_decode nmos, nmos_decode nmos, combined, first, second]
  exact .lax memory

theorem combined_alr (nmos : v = .nmos6502 ∨ v = .nes) :
    (v.decode 0x4B).Combines (v.decode 0x29) (v.decode 0x4A) := by
  obtain ⟨-, -, -, combined, first, second⟩ := combined_table
  rw [nmos_decode nmos, nmos_decode nmos, nmos_decode nmos, combined, first, second]
  exact .alr

theorem combined_codes (nmos : v = .nmos6502 ∨ v = .nes) {codes : U8 × U8 × U8}
    (mem : codes ∈ combinedCodes) :
    (v.decode codes.1).Combines (v.decode codes.2.1) (v.decode codes.2.2) := by
  simp only [combinedCodes, List.mem_append, List.mem_flatMap, List.mem_map, List.mem_singleton] at mem
  rcases mem with (⟨row, inRows, column, inColumns, rfl⟩ | ⟨codes, mem, rfl⟩) | rfl
  · exact combined_modify nmos inRows inColumns
  · exact combined_lax nmos mem
  · exact combined_alr nmos

theorem effect_carried (nmos : v = .nmos6502 ∨ v = .nes) (boundary : s.1.AtBoundary v)
    (form : (v.decode (code s)).hasEffect) (carries : Carries v prof .opcodeFetch s t) :
    t.1.arch t.2.bus.ram = (s.1.arch s.2.bus.ram).effect v.flavor.decimal (v.decode (code s)) := by
  obtain ⟨n, e, turns, completes⟩ := Arch.effect_turns v (s := s.1.arch s.2.bus.ram) form s.2.log
  obtain ⟨c, executing, arch⟩ := (carries.ended boundary rfl (nmos_never_due nmos _) turns).arch
  rw [arch]
  exact completes c executing

theorem effect_arrives (nmos : v = .nmos6502 ∨ v = .nes) (boundary : s.1.AtBoundary v)
    (form : (v.decode (code s)).hasEffect) (calm : s.1.pendingNmi = false) (prof : Profile) :
    ∃ t, Carries v prof .opcodeFetch s t ∧ t.1.pendingNmi = false := by
  obtain ⟨u, step, calm'⟩ := boundary.fetches calm prof s.2
  obtain ⟨n, e, turns, -⟩ := Arch.effect_turns v (s := s.1.arch s.2.bus.ram) form s.2.log
  have course := fetch_course boundary.drained rfl step turns
  obtain ⟨t, carries, pending⟩ := course.carries step rfl (nmos_never_due nmos _)
  exact ⟨t, carries, pending.trans calm'⟩

/-- A combined illegal instruction does what its documented pair does. -/
theorem combined_pairs (nmos : v = .nmos6502 ∨ v = .nes) (boundary : s.1.AtBoundary v)
    (boundary' : s'.1.AtBoundary v)
    (pairAt : PairAt v (s.1.arch s.2.bus.ram) (s'.1.arch s'.2.bus.ram)) :
    (∀ t u t', Carries v prof .opcodeFetch s t →
      Carries v prof .opcodeFetch s' u → Carries v prof .opcodeFetch u t' →
      Alike ((s.1.arch s.2.bus.ram).effectiveAddress (v.decode (code s)).addressMode)
        (s.1.arch s.2.bus.ram) (t.1.arch t.2.bus.ram)
        (s'.1.arch s'.2.bus.ram) (t'.1.arch t'.2.bus.ram)) ∧
    -- without a request both programs are carried out
    (s.1.pendingNmi = false → ∃ t, Carries v prof .opcodeFetch s t) ∧
    (s'.1.pendingNmi = false →
      ∃ u t', Carries v prof .opcodeFetch s' u ∧ Carries v prof .opcodeFetch u t') := by
  obtain ⟨form, first, second⟩ := pairAt.combines.hasEffect
  have opcode {u : Cpu6502 × Recorder SimpleBus} (carries : Carries v prof .opcodeFetch s' u) :
      code u = ((s'.1.arch s'.2.bus.ram).skip (v.decode (code s'))).opcode := by
    have begun : _ = (s'.1.arch s'.2.bus.ram).effect _ (v.decode (s'.1.arch s'.2.bus.ram).opcode) :=
      effect_carried nmos boundary' first carries
    have kept := pairAt.second v.flavor.decimal
    rw [← begun] at kept
    exact kept
  refine ⟨?_, ?_, ?_⟩
  · intro t u t' carries begins ends
    have combined := effect_carried nmos boundary form carries
    have begun := effect_carried nmos boundary' first begins
    have ended := effect_carried nmos begins.boundary (opcode begins ▸ second) ends
    rw [combined, ended, begun, opcode begins]
    exact pairAt.alike v.flavor.decimal
  · intro calm
    obtain ⟨t, carries, -⟩ := effect_arrives nmos boundary form calm prof
    exact ⟨t, carries⟩
  · intro calm
    obtain ⟨u, begins, calm'⟩ := effect_arrives nmos boundary' first calm prof
    obtain ⟨t', ends, -⟩ := effect_arrives nmos begins.boundary (opcode begins ▸ second) calm' prof
    exact ⟨u, t', begins, ends⟩

end

def rraRam : U16 → U8 := fun addr =>
  -- RRA $10 at $0200, ROR $10 and ADC $10 at $0300.
  if addr = 0x0010 then 0x35 else if addr = 0x0200 then 0x67 else if addr = 0x0201 then 0x10
  else if addr = 0x0300 then 0x66 else if addr = 0x0301 then 0x10
  else if addr = 0x0302 then 0x65 else if addr = 0x0303 then 0x10 else 0

def rraAt (pc : U16) : Cpu6502 × Recorder SimpleBus :=
  ({ new with a := 0x19, p := Psr.U6502 ||| Psr.D, pc }, ⟨⟨rraRam⟩, []⟩)

set_option maxRecDepth 20000 in
theorem combined_pairs_rra : ∃ t u t', Carries .nmos6502 .release .opcodeFetch (rraAt 0x0200) t ∧
    Carries .nmos6502 .release .opcodeFetch (rraAt 0x0300) u ∧
    Carries .nmos6502 .release .opcodeFetch u t' ∧ t'.1.a = t.1.a ∧ t'.1.p = t.1.p ∧
    t'.2.bus.ram = t.2.bus.ram := by
  have boundary (pc : U16) : (rraAt pc).1.AtBoundary .nmos6502 :=
    .of_fresh UcycQueue.default_drained rfl
  have combined : Variant.decode .nmos6502 0x67 = ⟨.rra, .directPage .none, .readModifyWrite⟩ := by
    decide
  have first : Variant.decode .nmos6502 0x66 = ⟨.ror, .directPage .none, .readModifyWrite⟩ := by decide
  have second : Variant.decode .nmos6502 0x65 = ⟨.adc, .directPage .none, .read⟩ := by decide
  have combines := @combined_codes .nmos6502 (.inl rfl) (0x67, 0x66, 0x65) (by decide)
  rw [combined, first, second] at combines
  have pairAt : PairAt .nmos6502 ((rraAt 0x0200).1.arch rraRam) ((rraAt 0x0300).1.arch rraRam) := by
    change Pairs (Variant.decode .nmos6502 0x67) (Variant.decode .nmos6502 0x66)
      (Variant.decode .nmos6502
        (((rraAt 0x0300).1.arch rraRam).skip (Variant.decode .nmos6502 0x66)).opcode) _ _
    rw [combined, first]
    change Pairs _ _ (Variant.decode .nmos6502 0x65) _ _
    rw [second]
    refine ⟨combines, rfl, rfl, fun _ => ⟨rfl, rfl⟩, fun _ n inside => ?_⟩
    replace inside : n < 4 := inside
    change 0x0300 + n ≠ 0x0010
    bv_omega
  obtain ⟨alike, arrives, arrives'⟩ := @combined_pairs .nmos6502 .release (rraAt 0x0200) (rraAt 0x0300)
    (.inl rfl) (boundary _) (boundary _) pairAt
  obtain ⟨t, carries⟩ := arrives rfl
  obtain ⟨u, t', begins, ends⟩ := arrives' rfl
  have same := alike t u t' carries begins ends
  refine ⟨t, u, t', carries, begins, ends, congrArg Arch.a same.registers,
    congrArg Arch.p same.registers, funext fun addr => same.same addr rfl⟩

end Cpu6502

end Rs65x
