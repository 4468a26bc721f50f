import Rs65x.Proof.Entry
import Rs65x.Proof.Observe
import Rs65x.Proof.Control
import Rs65x.Proof.Origin
import Rs65x.Proof.Twins

/-!
# The NES core
-/

namespace Rs65x
open Fallible Machine

/-! ## The byte that differs -/

/-- The buses of the two cores: the same, but for D in a byte that the instruction pushed. -/
inductive Parted (inst : Option Instruction) : Recorder SimpleBus → Recorder SimpleBus → Prop
  | same (r : Recorder SimpleBus) : Parted inst r r
  | pushed {i : Instruction} (running : inst = some i)
      (pushes : i.mnemonic = .php ∨ i.mnemonic = .brk) (ram : U16 → U8) (before after : List Access)
      (sp data : U8) :
      Parted inst
        ⟨⟨Function.update ram (Arch.stackAddr sp) data⟩,
          before ++ .write ((Arch.stackAddr sp).setWidth 32) data true false :: after⟩
        ⟨⟨Function.update ram (Arch.stackAddr sp) (data &&& ~~~Psr.D)⟩,
          before ++ .write ((Arch.stackAddr sp).setWidth 32) (data &&& ~~~Psr.D) true false :: after⟩

theorem Parted.read {inst : Option Instruction} {r r' : Recorder SimpleBus} (parted : Parted inst r r')
    {c : U16} (high : (0x0200 : U16) ≤ c) :
    (Bus.read r' (c.setWidth 32) true false).1 = (Bus.read r (c.setWidth 32) true false).1 ∧
      Parted inst (Bus.read r (c.setWidth 32) true false).2
        (Bus.read r' (c.setWidth 32) true false).2 := by
  cases parted with
  | same => exact ⟨rfl, .same _⟩
  | pushed running pushes ram before after sp data =>
      have cell : (c.setWidth 32).setWidth 16 = c := by simp
      have apart : c ≠ Arch.stackAddr sp := by
        rintro rfl
        have all : ∀ sp : U8, ¬ (0x0200 : U16) ≤ Arch.stackAddr sp := by decide
        exact all sp high
      have other (value : U8) :
          Function.update ram (Arch.stackAddr sp) value ((c.setWidth 32).setWidth 16) = ram c := by
        rw [cell, Function.update_of_ne apart]
      constructor
      · exact (other _).trans (other _).symm
      · have logs := Parted.pushed running pushes ram before
          (after ++ [.read (c.setWidth 32) true false (ram c)]) sp data
        change Parted inst ⟨_, (before ++ _ :: after) ++ [.read _ true false
            (Function.update ram (Arch.stackAddr sp) data ((c.setWidth 32).setWidth 16))]⟩
          ⟨_, (before ++ _ :: after) ++ [.read _ true false (Function.update ram
            (Arch.stackAddr sp) (data &&& ~~~Psr.D) ((c.setWidth 32).setWidth 16))]⟩
        rw [other, other, List.append_assoc, List.append_assoc]
        exact logs

def MicroOp.pushesStatus (op : Mnemonic) (u : MicroOp) : Bool :=
  op = .php && u = .push .none || op = .brk && (u = .push .status || u = .push .brkStatus)

def MicroOp.readsVector (u : MicroOp) : Bool :=
  match u.bus.addr with
  | .constant c => 0x0200 ≤ c &&
      (u = .read (.constant c) .pcLo false || u = .read (.constant c) .pcHi false)
  | _ => false

theorem MicroOp.readsVector_straight {u : MicroOp} (vector : u.readsVector) : u.alu ≠ .fixPtr := by
  rw [readsVector] at vector
  split at vector
  · simp only [Bool.and_eq_true, Bool.or_eq_true, decide_eq_true_eq] at vector
    rcases vector.2 with rfl | rfl
    · intro fix
      cases fix
    · intro fix
      cases fix
  · cases vector

def settles (op : Mnemonic) : List MicroOp → Bool
  | [] => true
  | u :: rest => (u.discreet op || u.pushesStatus op && rest.all (·.readsVector)) &&
      u.alu ≠ .fixPtr && settles op rest

theorem settles_suffix {op : Mnemonic} {us vs : List MicroOp} (settled : settles op vs)
    (suffix : us <:+ vs) : settles op us := by
  induction vs with
  | nil =>
      rw [List.suffix_nil.1 suffix]
      rfl
  | cons v vs ih =>
      rcases List.suffix_cons_iff.1 suffix with rfl | inner
      · exact settled
      · simp only [settles, Bool.and_eq_true] at settled
        exact ih settled.2 inner

theorem settles_straight {op : Mnemonic} {us : List MicroOp} (settled : settles op us) :
    ∀ u ∈ us, u.alu ≠ .fixPtr := by
  induction us with
  | nil => exact fun _ mem => absurd mem List.not_mem_nil
  | cons u us ih =>
      simp only [settles, Bool.and_eq_true, decide_eq_true_eq] at settled
      exact List.forall_mem_cons.2 ⟨settled.1.2, ih settled.2⟩

theorem MicroOp.isDetour_discreet {u : MicroOp} (detour : u.isDetour) (op : Mnemonic) :
    u.discreet op ∧ u.alu ≠ .fixPtr := by
  simp only [isDetour, Bool.and_eq_true, decide_eq_true_eq] at detour
  obtain ⟨⟨⟨⟨read, -⟩, dest⟩, -⟩, alu⟩ := detour
  constructor
  · simp [discreet, dest, read]
  · intro fix
    simp [fix] at alu

theorem settles_detour (op : Mnemonic) {us : List MicroOp} (detour : us.all (·.isDetour)) :
    settles op us := by
  induction us with
  | nil => rfl
  | cons u us ih =>
      rw [List.all_cons, Bool.and_eq_true] at detour
      obtain ⟨quiet, other⟩ := u.isDetour_discreet detour.1 op
      simp [settles, quiet, other, ih detour.2]

def Instruction.settled (i : Instruction) (op : U8) : Bool :=
  match i.addressMode.emitUcycs .release micro6502
      (Cpu6502.decodeContext (Variant.flavor .nes) i.memoryAction op) with
  | .ok us => settles i.mnemonic us
  | .error _ => false

set_option maxRecDepth 20000 in
theorem entries_settled : entries.all fun e =>
    !e.filter.includes .nmos || e.instruction.settled (BitVec.ofNat 8 e.code) := by
  decide

theorem emission_settles (op : U8) :
    settles (Variant.decode .nes op).mnemonic (Variant.emission .nes op) := by
  have checked : (Variant.decode .nes op).settled op :=
    OpcodeTable.decode_checked (fun i op => i.settled op) op rfl entries_settled
  rw [Instruction.settled] at checked
  have emits := (Variant.emission_spec .nes op).2.2.2 .release
  change AddressMode.emitUcycs .release micro6502 _ _ = _ at emits
  rw [emits] at checked
  exact checked

namespace Exec

variable (e : Exec (Recorder SimpleBus)) {q : U8} {i : Instruction}

theorem pushing_parted (pushes : i.mnemonic = .php ∨ i.mnemonic = .brk) {data data' : U8}
    (bytes : data' = data ∨ data' = data &&& ~~~Psr.D) :
    Parted (some i) (e.pushing data).bus (e.pushing data').bus := by
  rcases bytes with rfl | rfl
  · exact .same _
  · have parted := Parted.pushed rfl pushes e.bus.bus.ram e.bus.log [] e.ctx.sp data
    have written (value : U8) : (e.pushing value).bus = _ := write_stack e.bus e.ctx.sp value
    rw [written, written]
    exact parted

theorem next_pushesStatus (inst : e.ctx.instruction = i) {u : MicroOp}
    (pushes : u.pushesStatus i.mnemonic) (inert : Inert i.mnemonic e.ctx.status q)
    (rest : List MicroOp) :
    ∃ data data', e.next (Variant.flavor .nes) u rest = (e.pushing data, rest) ∧
      (e.withStatus q).next (Variant.flavor .nmos6502) u rest =
        ((e.withStatus q).pushing data', rest) ∧
      Parted (some i) (e.pushing data).bus (e.pushing data').bus := by
  have php : ∀ p : U8, p &&& ~~~Psr.D ||| Psr.B6502 = (p ||| Psr.B6502) &&& ~~~Psr.D := by decide
  have brk : ∀ p : U8, p &&& ~~~Psr.D ||| Psr.B6502 ||| Psr.U6502 =
      (p ||| Psr.B6502 ||| Psr.U6502) &&& ~~~Psr.D := by decide
  subst inst
  simp only [MicroOp.pushesStatus, Bool.and_eq_true, Bool.or_eq_true, decide_eq_true_eq] at pushes
  rcases pushes with ⟨op, rfl⟩ | ⟨op, latch⟩
  · have masked := inert.masked (by rw [op]; rfl)
    by_cases modify : e.scratch.memoryAction = .readModifyWrite
    · have stored (ctx : MicroCtx6502) : ctx.aluPrepareStore e.scratch =
          (ctx, { e.scratch with dataLatch := e.scratch.op0 }) := if_pos modify
      exact ⟨_, _, next_stored _ (stored e.ctx) .none rest,
        next_stored _ (e := e.withStatus q) (stored _) .none rest,
        e.pushing_parted (.inl op) (.inl rfl)⟩
    · have stored (ctx : MicroCtx6502) (php : ctx.instruction.mnemonic = .php) :
          ctx.aluPrepareStore e.scratch =
            (ctx, { e.scratch with dataLatch := ctx.status ||| Psr.B6502 }) := by
        simp only [MicroCtx6502.aluPrepareStore, if_neg modify, php]
      exact ⟨_, _, next_stored _ (stored e.ctx op) .none rest,
        next_stored _ (e := e.withStatus q) (stored _ op) .none rest,
        e.pushing_parted (.inl op) (.inr (masked ▸ php e.ctx.status))⟩
  · have masked := inert.masked (by rw [op]; rfl)
    have stored (ctx : MicroCtx6502) (brk : ctx.instruction.mnemonic = .brk) :
        ctx.aluPrepareStore e.scratch = (ctx, { e.scratch with dataLatch :=
          if e.scratch.memoryAction = .readModifyWrite then e.scratch.op0 else e.scratch.dataLatch }) := by
      by_cases modify : e.scratch.memoryAction = .readModifyWrite
      · simp only [MicroCtx6502.aluPrepareStore, if_pos modify]
      · simp only [MicroCtx6502.aluPrepareStore, if_neg modify, brk]
    rcases latch with rfl | rfl
    · exact ⟨_, _, next_stored _ (stored e.ctx op) .status rest,
        next_stored _ (e := e.withStatus q) (stored _ op) .status rest,
        e.pushing_parted (.inr op) (.inr masked)⟩
    · exact ⟨_, _, next_stored _ (stored e.ctx op) .brkStatus rest,
        next_stored _ (e := e.withStatus q) (stored _ op) .brkStatus rest,
        e.pushing_parted (.inr op) (.inr (masked ▸ brk e.ctx.status))⟩

def beside (q d : U8) (r : Recorder SimpleBus) : Exec (Recorder SimpleBus) :=
  ⟨{ e.scratch with dataLatch := d }, { e.ctx with status := q }, r⟩

theorem next_readsVector {inst : Option Instruction} {u : MicroOp} (vector : u.readsVector)
    {r : Recorder SimpleBus} (parted : Parted inst e.bus r) (d : U8) (rest : List MicroOp) :
    ∃ e' r', e.next (Variant.flavor .nes) u rest = (e', rest) ∧
      (e.beside q d r).next (Variant.flavor .nmos6502) u rest =
        (e'.beside q e'.scratch.dataLatch r', rest) ∧
      Parted inst e'.bus r' ∧ e'.ctx.status = e.ctx.status := by
  rw [MicroOp.readsVector] at vector
  split at vector
  · next c _ =>
      simp only [Bool.and_eq_true, Bool.or_eq_true, decide_eq_true_eq] at vector
      obtain ⟨high, latch⟩ := vector
      obtain ⟨same, parted'⟩ := parted.read high
      rcases latch with rfl | rfl
      · refine ⟨_, _, rfl, ?_, parted', rfl⟩
        change (Exec.mk { e.scratch with dataLatch := (Bus.read r (c.setWidth 32) true false).1 }
          ({ e.ctx with status := q }.setPcLo (Bus.read r (c.setWidth 32) true false).1)
          (Bus.read r (c.setWidth 32) true false).2, rest) = _
        rw [same]
        rfl
      · refine ⟨_, _, rfl, ?_, parted', rfl⟩
        change (Exec.mk { e.scratch with dataLatch := (Bus.read r (c.setWidth 32) true false).1 }
          ({ e.ctx with status := q }.setPcHi (Bus.read r (c.setWidth 32) true false).1)
          (Bus.read r (c.setWidth 32) true false).2, rest) = _
        rw [same]
        rfl
  · cases vector

end Exec

namespace Cpu6502

def beside (cpu : Cpu6502) (q d : U8) : Cpu6502 :=
  { cpu with p := q, scratch := { cpu.scratch with dataLatch := d } }

theorem finished_beside {c : Cpu6502} {i : Instruction} (inst : c.currentInst = some i) {q : U8}
    (inert : Inert i.mnemonic c.p q) (d : U8) :
    ∃ q', Within Psr.D (c.finished (Variant.flavor .nes) i).p q' ∧
      (c.beside q d).finished (Variant.flavor .nmos6502) i =
        (c.finished (Variant.flavor .nes) i).beside q' d := by
  obtain ⟨q', within, eq⟩ := c.finished_twin inst inert
  have some : (c.withStatus q).currentInst.isSome := Option.isSome_of_eq_some inst
  have carried := finished_carries (Variant.flavor .nmos6502) some i fun h =>
    { h with scratch := { h.scratch with dataLatch := d } }
  rw [eq] at carried
  exact ⟨q', within, carried⟩

/-- What the two cores leave: the same, but for D in the status and in a byte that pushed it. -/
structure SameButD (t t' : Cpu6502 × Recorder SimpleBus) : Prop where
  a : t'.1.a = t.1.a
  x : t'.1.x = t.1.x
  y : t'.1.y = t.1.y
  s : t'.1.s = t.1.s
  pc : t'.1.pc = t.1.pc
  p : Within Psr.D t.1.p t'.1.p
  bus : Parted t.1.currentInst t.2 t'.2

end Cpu6502

namespace Sequencer
open Cpu6502

/-- The NES core and the other one, with so many instructions or interrupts to begin. -/
inductive Abreast : Nat → Sequencer × Recorder SimpleBus → Sequencer × Recorder SimpleBus → Prop
  | waiting (cpu : Cpu6502) {q : U8} (within : Within Psr.D cpu.p q)
      (clear : flagSet q Psr.D = false) (r : Recorder SimpleBus) :
      Abreast 1 (⟨cpu, []⟩, r) (⟨cpu.withStatus q, []⟩, r)
  | settled (cpu : Cpu6502) {i : Instruction} {q : U8} {live : List MicroOp}
      (inst : cpu.currentInst = some i) (inert : Inert i.mnemonic cpu.p q)
      (settled : settles i.mnemonic live) (r : Recorder SimpleBus) :
      Abreast 0 (⟨cpu, live⟩, r) (⟨cpu.withStatus q, live⟩, r)
  | pushed (cpu : Cpu6502) {i : Instruction} {q d : U8} {live : List MicroOp}
      {r r' : Recorder SimpleBus} (inst : cpu.currentInst = some i)
      (inert : Inert i.mnemonic cpu.p q) (vectors : live.all (·.readsVector))
      (parted : Parted (some i) r r') :
      Abreast 0 (⟨cpu, live⟩, r) (⟨cpu.beside q d, live⟩, r')
  | ended (cpu : Cpu6502) {q d : U8} {r r' : Recorder SimpleBus} (within : Within Psr.D cpu.p q)
      (parted : Parted cpu.currentInst r r') :
      Abreast 0 (⟨cpu, []⟩, r) (⟨cpu.beside q d, []⟩, r')

namespace Abreast
variable {n : Nat} {s t : Sequencer × Recorder SimpleBus}

theorem stalls (abreast : Abreast n s t) (lines : Lines) : t.1.stalls lines = s.1.stalls lines := by
  cases abreast with
  | waiting | settled | pushed | ended => rfl

theorem sampleNmi (abreast : Abreast n s t) (lines : Lines) :
    Abreast n (s.1.sampleNmi lines, s.2) (t.1.sampleNmi lines, t.2) := by
  cases abreast with
  | waiting cpu within clear r =>
      exact .waiting (cpu.sampleNmi lines) within clear r
  | settled cpu inst inert settled r =>
      exact .settled (cpu.sampleNmi lines) inst inert settled r
  | pushed cpu inst inert vectors parted =>
      exact .pushed (cpu.sampleNmi lines) inst inert vectors parted
  | ended cpu within parted => exact .ended (cpu.sampleNmi lines) within parted

theorem executed {c : Cpu6502} {i : Instruction} (inst : c.currentInst = some i) {q d : U8}
    (inert : Inert i.mnemonic c.p q) {us : List MicroOp} {r r' : Recorder SimpleBus}
    (parted : Parted (some i) r r')
    (more : us ≠ [] → Abreast 0 (⟨c, us⟩, r) (⟨c.beside q d, us⟩, r')) :
    Abreast 0 (⟨if us.isEmpty then c.finished (Variant.flavor .nes) i else c, us⟩, r)
      (⟨if us.isEmpty then (c.beside q d).finished (Variant.flavor .nmos6502) i else c.beside q d,
        us⟩, r') := by
  cases us with
  | cons u us => exact more (List.cons_ne_nil u us)
  | nil =>
      obtain ⟨q', within, eq⟩ := finished_beside inst inert d
      obtain ⟨inst', -⟩ := finished_rest (Variant.flavor .nes) inst
      simp only [List.isEmpty_nil, if_true, eq]
      exact .ended _ within (inst' ▸ parted)

theorem execute_eq {v : Variant} {cpu : Cpu6502} {i : Instruction} {u : MicroOp}
    {rest us : List MicroOp} {r : Recorder SimpleBus} {e : Exec (Recorder SimpleBus)}
    (next : (cpu.exec i r).next v.flavor u rest = (e, us)) :
    execute v cpu i u rest r = (.ucyc, ⟨if us.isEmpty then
      (cpu.restore e .default).finished v.flavor i else cpu.restore e .default, us⟩, e.bus) := by
  simp only [execute, next]

theorem execute_settled {cpu : Cpu6502} {i : Instruction} {q : U8} {u : MicroOp}
    {rest : List MicroOp} (inst : cpu.currentInst = some i) (inert : Inert i.mnemonic cpu.p q)
    (settled : settles i.mnemonic (u :: rest)) (r : Recorder SimpleBus) :
    ∃ t', execute .nmos6502 (cpu.withStatus q) i u rest r = (.ucyc, t') ∧
      Abreast 0 (execute .nes cpu i u rest r).2 t' := by
  have whole := settled
  simp only [settles, Bool.and_eq_true, Bool.or_eq_true] at settled
  obtain ⟨⟨quiet | ⟨pushes, vectors⟩, -⟩, settled⟩ := settled
  · rcases turned : (cpu.exec i r).next (Variant.flavor .nes) u rest with ⟨e, us⟩
    have live := (cpu.exec i r).next_live (Variant.flavor .nes) u rest
    obtain ⟨⟨q', inert', eq⟩, same⟩ := (cpu.exec i r).next_twin quiet inert rest
    obtain ⟨_, _, _, _, _, frame, -⟩ := (cpu.exec i r).next_frame (Variant.flavor .nes) u rest
    have instruction : e.ctx.instruction = i := by
      rw [turned] at frame
      exact congrArg (·.ctx.instruction) frame
    rw [turned] at eq same live inert'
    rw [instruction] at inert'
    have turned' : ((cpu.withStatus q).exec i r).next (Variant.flavor .nmos6502) u rest =
      (e.withStatus q', us) := Prod.ext eq same
    have settled' : settles i.mnemonic us := by
      rcases live with ⟨-, looped⟩ | suffix | ⟨-, tail⟩
      · have looped : us = u :: rest := looped
        rw [looped]
        exact whole
      · exact settles_suffix settled suffix
      · have tail : us = _ := tail
        rw [tail]
        exact settles_detour _ (Exec.branchTail_detour _)
    have inst' : (cpu.restore e .default).currentInst = some i := inst
    refine ⟨_, execute_eq turned', ?_⟩
    rw [execute_eq turned]
    exact executed (d := e.scratch.dataLatch) inst' inert' (.same _) fun _ =>
      .settled _ inst' inert' settled' _
  · obtain ⟨data, data', turned, turned', parted⟩ :=
      (cpu.exec i r).next_pushesStatus rfl pushes inert rest
    let c := cpu.restore ((cpu.exec i r).pushing data) .default
    have inst' : c.currentInst = some i := inst
    refine ⟨_, execute_eq turned', ?_⟩
    rw [execute_eq turned]
    exact executed (c := c) (d := data') inst' inert parted fun _ =>
      .pushed c inst' inert vectors parted

theorem execute_pushed {cpu : Cpu6502} {i : Instruction} {q d : U8} {u : MicroOp}
    {rest : List MicroOp} {r r' : Recorder SimpleBus} (inst : cpu.currentInst = some i)
    (inert : Inert i.mnemonic cpu.p q) (vectors : (u :: rest).all (·.readsVector))
    (parted : Parted (some i) r r') :
    ∃ t', execute .nmos6502 (cpu.beside q d) i u rest r' = (.ucyc, t') ∧
      Abreast 0 (execute .nes cpu i u rest r).2 t' := by
  rw [List.all_cons, Bool.and_eq_true] at vectors
  obtain ⟨e, r₁, turned, turned', parted', status⟩ :=
    (cpu.exec i r).next_readsVector (q := q) vectors.1 parted d rest
  let c := cpu.restore e .default
  have inst' : c.currentInst = some i := inst
  have inert' : Inert i.mnemonic c.p q := by
    change Inert i.mnemonic e.ctx.status q
    rw [status]
    exact inert
  refine ⟨_, execute_eq turned', ?_⟩
  rw [execute_eq turned]
  exact executed (c := c) inst' inert' parted' fun _ =>
    .pushed c inst' inert' vectors.2 parted'

theorem fetched (cpu : Cpu6502) {q : U8} (within : Within Psr.D cpu.p q)
    (clear : flagSet q Psr.D = false) (op : U8) (r : Recorder SimpleBus) :
    Abreast 0 (⟨cpu.fetched .nes op .default, Variant.emission .nes op⟩, r)
      (⟨(cpu.withStatus q).fetched .nmos6502 op .default, Variant.emission .nmos6502 op⟩, r) :=
  .settled (cpu.fetched .nes op .default) rfl
    ⟨within, fun _ => clear⟩ (emission_settles op) r

theorem interrupted (cpu : Cpu6502) {q : U8} (within : Within Psr.D cpu.p q)
    (clear : flagSet q Psr.D = false) (data : U8) (type : InterruptType) (r : Recorder SimpleBus) :
    Abreast 0 (⟨cpu.interrupted .nes data .default, interruptTail type.vector⟩, r)
      (⟨(cpu.withStatus q).interrupted .nmos6502 data .default, interruptTail type.vector⟩, r) := by
  have settled : settles (Variant.decode .nes 0).mnemonic (interruptTail type.vector) := by
    rw [decode_brk]
    cases type <;> decide
  exact .settled (cpu.interrupted .nes data .default) rfl
    ⟨within, fun _ => clear⟩ settled r

theorem not_due_nmos {v : Variant} (nmos : v = .nmos6502 ∨ v = .nes) (cpu : Cpu6502)
    (i : Instruction) : cpu.extraCycleDue v.flavor i = false := by
  have decimal : v.flavor.decimal ≠ .cmos65C02 := by
    rcases nmos with rfl | rfl
    · decide
    · decide
  simp [extraCycleDue, adcSbcExtraCycle, decimal]

theorem boundary_waiting {cpu : Cpu6502} {q : U8} (within : Within Psr.D cpu.p q)
    (clear : flagSet q Psr.D = false) (i : Instruction) (lines : Lines) (r : Recorder SimpleBus) :
    ∃ exit s' t', boundary .nes cpu i lines r = (exit, s') ∧
      boundary .nmos6502 (cpu.withStatus q) i lines r = (exit, t') ∧ exit.starts ∧
      Abreast 0 s' t' := by
  have due := not_due_nmos (.inr rfl) cpu i
  have due' := not_due_nmos (.inl rfl) (cpu.withStatus q) i
  have irq : flagSet q Psr.I = flagSet cpu.p Psr.I := within.flagSet (by decide)
  have masked : (cpu.withStatus q).irqDisable = cpu.irqDisable := by
    change cpu.oldI.getD (flagSet q Psr.I) = cpu.oldI.getD (flagSet cpu.p Psr.I)
    rw [irq]
  rw [boundary, boundary, if_neg (by simp [due]), if_neg (by simp [due']), masked]
  change ∃ exit s' t', (if cpu.pendingNmi = true then _ else _) = _ ∧
    (if cpu.pendingNmi = true then _ else _) = _ ∧ _
  cases cpu.pendingNmi with
  | true =>
      exact ⟨_, _, _, rfl, rfl, rfl, interrupted cpu.settled within clear _ .nmi _⟩
  | false =>
      cases lines.irq && !cpu.irqDisable with
      | true =>
          exact ⟨_, _, _, rfl, rfl, rfl, interrupted cpu.settled within clear _ .irq _⟩
      | false => exact ⟨_, _, _, rfl, rfl, rfl, fetched cpu.settled within clear _ _⟩

theorem boundary_starts (cpu : Cpu6502) (i : Instruction) (lines : Lines)
    (r : Recorder SimpleBus) : (boundary .nes cpu i lines r).1.starts := by
  rw [boundary, if_neg (by simp [not_due_nmos (.inr rfl) cpu i])]
  dsimp only
  split
  · rfl
  · split
    · rfl
    · rfl

theorem advance_starts {s : Sequencer} (idle : s.live = []) {prof : Profile} {lines : Lines}
    {r : Recorder SimpleBus} {exit : StepExit} {s' : Sequencer × Recorder SimpleBus}
    (ran : s.advance .nes prof lines r = .ok (exit, s')) : exit.starts := by
  cases inst : s.cpu.currentInst with
  | none =>
      rw [advance_first inst] at ran
      cases ran
      rfl
  | some i =>
      rw [advance_boundary inst idle] at ran
      have starts := boundary_starts s.cpu i lines r
      rw [Except.ok.inj ran] at starts
      exact starts

theorem advance (abreast : Abreast n s t) {prof : Profile} {lines : Lines} {exit : StepExit}
    {s' : Sequencer × Recorder SimpleBus}
    (ran : s.1.advance .nes prof lines s.2 = .ok (exit, s')) (affords : exit.starts → 0 < n) :
    ∃ t', t.1.advance .nmos6502 prof lines t.2 = .ok (exit, t') ∧
      Abreast (if exit.starts then n - 1 else n) s' t' := by
  cases abreast with
  | @waiting cpu q within clear r =>
      cases inst : cpu.currentInst with
      | none =>
          have inst' : (cpu.withStatus q).currentInst = none := inst
          rw [advance_first inst] at ran
          rw [advance_first (s := ⟨cpu.withStatus q, []⟩) inst']
          cases ran
          exact ⟨_, rfl, fetched cpu within clear _ _⟩
      | some i =>
          have inst' : (cpu.withStatus q).currentInst = some i := inst
          rw [advance_boundary inst rfl] at ran
          rw [advance_boundary (s := ⟨cpu.withStatus q, []⟩) inst' rfl]
          obtain ⟨exit', s'', t', nes, nmos, starts, abreast⟩ :=
            boundary_waiting within clear i lines r
          rw [nes] at ran
          cases ran
          rw [if_pos starts]
          exact ⟨t', congrArg _ nmos, abreast⟩
  | @settled cpu i q live inst inert settled r =>
      cases live with
      | nil => exact absurd (affords (advance_starts rfl ran)) (Nat.lt_irrefl 0)
      | cons u rest =>
          have inst' : (cpu.withStatus q).currentInst = some i := inst
          have fits : u.alu ≠ .fixPtr := settles_straight settled u List.mem_cons_self
          rw [advance_execute inst rfl fun fix => fits fix.2.1] at ran
          rw [advance_execute (s := ⟨cpu.withStatus q, u :: rest⟩) inst' rfl fun fix => fits fix.2.1]
          obtain ⟨t', nmos, abreast⟩ := execute_settled inst inert settled r
          cases ran
          exact ⟨t', congrArg _ nmos, abreast⟩
  | @pushed cpu i q d live r r' inst inert vectors parted =>
      cases live with
      | nil => exact absurd (affords (advance_starts rfl ran)) (Nat.lt_irrefl 0)
      | cons u rest =>
          have inst' : (cpu.beside q d).currentInst = some i := inst
          have fits : u.alu ≠ .fixPtr := by
            rw [List.all_cons, Bool.and_eq_true] at vectors
            exact MicroOp.readsVector_straight vectors.1
          rw [advance_execute inst rfl fun fix => fits fix.2.1] at ran
          rw [advance_execute (s := ⟨cpu.beside q d, u :: rest⟩) inst' rfl fun fix => fits fix.2.1]
          obtain ⟨t', nmos, abreast⟩ := execute_pushed inst inert vectors parted
          cases ran
          exact ⟨t', congrArg _ nmos, abreast⟩
  | ended => exact absurd (affords (advance_starts rfl ran)) (Nat.lt_irrefl 0)

theorem step (abreast : Abreast n s t) {prof : Profile} {lines : Lines} {exit : StepExit}
    {s' : Sequencer × Recorder SimpleBus}
    (ran : busCycle .nes prof s lines = .ok (exit, s')) (affords : exit.starts → 0 < n) :
    ∃ t', busCycle .nmos6502 prof t lines = .ok (exit, t') ∧
      Abreast (if exit.starts then n - 1 else n) s' t' := by
  rw [Sequencer.busCycle, Sequencer.step] at ran ⊢
  rw [abreast.stalls]
  cases stalls : s.1.stalls lines with
  | true =>
      rw [stalls, if_pos rfl] at ran
      cases ran
      exact ⟨_, rfl, abreast.sampleNmi lines⟩
  | false =>
      rw [stalls, if_neg Bool.false_ne_true] at ran
      exact (abreast.sampleNmi lines).advance ran affords

theorem sameButD (abreast : Abreast n s t) : SameButD (s.1.cpu, s.2) (t.1.cpu, t.2) := by
  cases abreast with
  | waiting cpu within clear r => exact ⟨rfl, rfl, rfl, rfl, rfl, within, .same r⟩
  | settled cpu inst inert settled r => exact ⟨rfl, rfl, rfl, rfl, rfl, inert.within, .same r⟩
  | pushed cpu inst inert vectors parted =>
      exact ⟨rfl, rfl, rfl, rfl, rfl, inert.within, inst ▸ parted⟩
  | ended cpu within parted => exact ⟨rfl, rfl, rfl, rfl, rfl, within, parted⟩

end Abreast

end Sequencer

namespace Cpu6502

/-! ## Runs -/

def Straight (cpu : Cpu6502) : Prop := ∀ u ∈ cpu.ucycs.live, u.alu ≠ .fixPtr

section
variable {β : Type} [Bus β]

theorem Straight.fits {cpu : Cpu6502} (straight : cpu.Straight) : cpu.ptrOverflows = false := by
  rw [ptrOverflows, UcycQueue.front_eq]
  cases live : cpu.ucycs.live with
  | nil => rfl
  | cons u rest => simp [straight u (live ▸ List.mem_cons_self)]

theorem straight_universal : Universal .nes (·.alu ≠ .fixPtr) where
  emitted op := settles_straight (emission_settles op)
  entry vector := by simp [interruptTail, MicroOp.push, MicroOp.read]
  pause := by decide
  taken pc := by simp [MicroOp.readPcSetPc]

theorem run_nes (prof : Profile) (lines : List Lines) {s : Cpu6502 × β} (inv : s.1.Inv .nes)
    (straight : s.1.Straight) : ∃ exits t, run (busCycle .nes prof) s lines = .ok (exits, t) := by
  induction lines generalizing s with
  | nil => exact ⟨[], s, rfl⟩
  | cons line lines ih =>
      have fits : prof = .release ∨ s.1.ptrOverflows = false := .inr straight.fits
      obtain ⟨exit, cpu', bus', step, outcome⟩ := step_spec inv line s.2 fits
      have inv' := inv.sample line
      have straight' : (s.1.sampleNmi line).Straight := straight
      obtain ⟨exits, t, ran⟩ := ih (s := (cpu', bus')) (outcome.inv inv')
        (straight_universal.outcome inv' outcome straight')
      have first : busCycle .nes prof s line = .ok (exit, (cpu', bus')) := step
      exact ⟨exit :: exits, t, by rw [run_cons _ first, ran, ok_bind]⟩

end

theorem Inv.nmos {cpu : Cpu6502} (inv : cpu.Inv .nes) (q : U8) :
    (cpu.withStatus q).Inv .nmos6502 := ⟨inv.wf, inv.idle, inv.inst⟩

/-- NES is NMOS without decimal mode: up to the end of what begins first, the two cores do the same
cycle by cycle. -/
theorem nes_is_nmos {cpu : Cpu6502} (inv : cpu.Inv .nes) (drained : cpu.ucycs.Drained)
    (prof : Profile) (r : Recorder SimpleBus) (lines : List Lines) :
    ∃ exits t, run (busCycle .nes prof) (cpu, r) lines = .ok (exits, t) ∧
      (exits.countP (·.starts) ≤ 1 → ∃ t', run (busCycle .nmos6502 prof)
        (cpu.withStatus (cpu.p &&& ~~~Psr.D), r) lines = .ok (exits, t') ∧ SameButD t t') := by
  have straight : cpu.Straight := by
    rw [Straight, drained.live_eq]
    exact fun _ mem => absurd mem List.not_mem_nil
  obtain ⟨exits, t, ran⟩ := run_nes prof lines (s := (cpu, r)) inv straight
  refine ⟨exits, t, ran, fun one => ?_⟩
  have clear : ∀ p : U8, flagSet (p &&& ~~~Psr.D) Psr.D = false := by decide
  have within : Within Psr.D cpu.p (cpu.p &&& ~~~Psr.D) := by
    rw [Within, BitVec.and_assoc, BitVec.and_self]
  have start : Sequencer.Abreast 1 (cpu.sequencer, r)
      ((cpu.withStatus (cpu.p &&& ~~~Psr.D)).sequencer, r) := by
    change Sequencer.Abreast 1 (⟨_, cpu.ucycs.live⟩, r) (⟨_, cpu.ucycs.live⟩, r)
    rw [drained.live_eq]
    exact .waiting (cpu.withQueue .default) within (clear cpu.p) r
  have nes := Sequencer.run_agrees prof inv r lines
  rw [ran] at nes
  obtain ⟨u, nes, -, rfl⟩ := nes.to_ok
  obtain ⟨m, u', nmos, abreast⟩ := run_together
    (fun n s t lines exit s' abreast first affords => abreast.step first affords) start nes one
  have sequenced := Sequencer.run_agrees prof (inv.nmos (cpu.p &&& ~~~Psr.D)) r lines
  rw [nmos] at sequenced
  obtain ⟨t', ran', -, rfl⟩ := sequenced.of_ok
  have same := abreast.sameButD
  exact ⟨t', ran', same.a, same.x, same.y, same.s, same.pc, same.p, same.bus⟩

set_option maxRecDepth 20000 in
theorem nes_is_nmos_php : ∃ exits t t',
    run (busCycle .nes .debug) ({ new with p := 0x2C }, (⟨⟨fun _ => 0x08⟩, []⟩ : Recorder SimpleBus))
        (List.replicate 3 Lines.none) = .ok (exits, t) ∧
      run (busCycle .nmos6502 .debug)
        ({ new with p := 0x24 }, (⟨⟨fun _ => 0x08⟩, []⟩ : Recorder SimpleBus))
        (List.replicate 3 Lines.none) = .ok (exits, t') ∧ SameButD t t' ∧
      t.2.bus.ram 0x01FD = 0x3C ∧ t'.2.bus.ram 0x01FD = 0x34 := by
  have inv : Inv .nes { new with p := 0x2C } := .of_fresh UcycQueue.default_drained rfl
  obtain ⟨exits, t, ran, same⟩ := nes_is_nmos inv UcycQueue.default_drained .debug
    (⟨⟨fun _ => 0x08⟩, []⟩ : Recorder SimpleBus) (List.replicate 3 Lines.none)
  obtain ⟨one, pushed⟩ : exits.countP (·.starts) ≤ 1 ∧ t.2.bus.ram 0x01FD = 0x3C := by
    cases ran
    decide
  obtain ⟨t', ran', same⟩ := same one
  have pushed' : t'.2.bus.ram 0x01FD = 0x34 := by
    cases ran'
    decide
  exact ⟨exits, t, t', ran, ran', same, pushed, pushed'⟩

end Cpu6502

end Rs65x
