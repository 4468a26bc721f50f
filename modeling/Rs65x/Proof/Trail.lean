import Rs65x.Proof.Entry
import Rs65x.Proof.Instruction

/-!
# How long an instruction with an operand takes
-/

namespace Rs65x
open Fallible Machine Words Worklist

def Mnemonic.isUnstable (op : Mnemonic) : Bool :=
  op = .sha || op = .shx || op = .shy || op = .tas

theorem Mnemonic.stores {op : Mnemonic} (write : op.action = .write) (stable : op.isUnstable = false)
    (a x y p : U8) : ∃ value, op.stored a x y p = some value := by
  cases op <;> first
    | exact ⟨_, rfl⟩
    | exact absurd write (by decide)
    | exact absurd stable (by decide)

set_option maxRecDepth 20000 in
theorem Variant.decode_immediate (v : Variant) (op : U8)
    (immediate : (v.decode op).addressMode = .noMemory .immediate) :
    (v.decode op).memoryAction = .read := by
  refine OpcodeTable.decode_induction (P := fun i _ => i.addressMode = .noMemory .immediate →
    i.memoryAction = .read) _ op (fun _ => rfl) ?_ immediate
  intro e mem _ immediate
  have all : entries.all fun e => e.instruction.addressMode ≠ .noMemory .immediate ||
      e.instruction.memoryAction = .read := by
    decide
  have checked := List.all_eq_true.1 all e mem
  simp only [Bool.or_eq_true, decide_eq_true_eq] at checked
  exact checked.resolve_left (not_not.2 immediate)

set_option maxRecDepth 20000 in
theorem Variant.decode_modify (v : Variant) (op : U8) (cmos : v.isCmos)
    (modify : (v.decode op).memoryAction = .readModifyWrite) (offset : OffsetType) :
    (v.decode op).addressMode ≠ .dpIndirect offset := by
  refine OpcodeTable.decode_induction (P := fun i _ => i.memoryAction = .readModifyWrite →
    i.addressMode ≠ .dpIndirect offset) _ op (fun bad => by cases bad) ?_ modify
  intro e mem included modify
  have all : entries.all fun e => !e.filter.includes v.flavor.opcodeTable ||
      e.instruction.memoryAction ≠ .readModifyWrite ||
      e.instruction.addressMode ≠ .dpIndirect offset := by
    cases v <;> first
      | exact absurd cmos (by decide)
      | (cases offset <;> decide)
  have checked := List.all_eq_true.1 all e mem
  simpa [included, modify] using checked

theorem Variant.cycles_eq (v : Variant) (s : Arch) (op : U8)
    (operand : (v.decode op).addressMode.isMemory ∨ (v.decode op).addressMode = .noMemory .immediate) :
    s.cycles v (v.decode op) = 1 + (s.trail v.flavor (v.decode op)).length := by
  have immediate := v.decode_immediate op
  have pointer := v.decode_modify op
  have invalid : v.flavor.invalidAddrRead = !v.isCmos := by cases v <;> rfl
  have loads : (v.decode op).memoryAction = .read → Arch.stepsByOne (v.decode op) = false := by
    rw [v.decode_action]
    intro read
    rw [Arch.stepsByOne, Bool.or_eq_false_iff]
    constructor <;> refine decide_eq_false fun eq => ?_ <;> rw [eq] at read <;> cases read
  generalize v.decode op = i at *
  obtain ⟨mnemonic, mode, action⟩ := i
  simp only at immediate pointer loads operand
  simp only [Arch.cycles, Arch.trail, Arch.accesses, Arch.dummyAccesses, Arch.servedByDummy, invalid]
  generalize s.crosses mode = crosses
  cases action with
  | read =>
      rw [loads rfl]
      rcases mode with (_ | _) | _ | (_ | _ | _) | (_ | _ | _) | (_ | _ | _) | _ <;> first
        | rfl
        | (cases v.isCmos <;> cases crosses <;> rfl)
        | simp [AddressMode.isMemory] at operand
  | write =>
      rcases mode with (_ | _) | _ | (_ | _ | _) | (_ | _ | _) | (_ | _ | _) | _ <;> first
        | rfl
        | (cases v.isCmos <;> cases crosses <;> rfl)
        | exact absurd (immediate rfl) (by decide)
        | simp [AddressMode.isMemory] at operand
  | readModifyWrite =>
      generalize Arch.stepsByOne _ = steps
      rcases mode with (_ | _) | _ | (_ | _ | _) | (_ | _ | _) | (_ | _ | _) | _ <;> first
        | rfl
        | (cases v.isCmos <;> cases crosses <;> cases steps <;> rfl)
        | exact absurd (immediate rfl) (by decide)
        | (cases cmos : v.isCmos <;> first
            | rfl
            | exact absurd rfl (pointer cmos rfl _))
        | simp [AddressMode.isMemory] at operand

namespace Exec

theorem Logged.count {β : Type} [Bus β] {F : Flavor} {e e' : Exec (Recorder β)}
    {us left : List MicroOp} {n : Nat} {accesses : List (Bool × U16)}
    (logged : e'.Logged e.bus.log accesses) (turns : Exec.Turns F e us n e' left) :
    n = accesses.length := by
  obtain ⟨tail, log, count⟩ := turns_log turns
  obtain ⟨tail', log', rfl⟩ := logged
  rw [List.length_map, ← List.append_cancel_left (log.symm.trans log'), count]

variable (v : Variant) (s : Arch) (op : U8) (log : List Access)

theorem turns_trail
    (operand : (v.decode op).addressMode.isMemory ∨ (v.decode op).addressMode = .noMemory .immediate) :
    ∃ e, Exec.Turns v.flavor (s.opening (v.decode op) op log).exec (v.emission op)
        (s.trail v.flavor (v.decode op)).length e [] ∧
      ((v.decode op).memoryAction = .read → e.Loaded s (v.decode op) op log ∧
        ((v.decode op).addressMode.isMemory →
          e.scratch.ea.setWidth 16 = s.effectiveAddress (v.decode op).addressMode)) ∧
      ((v.decode op).mnemonic.isUnstable = false →
        e.Logged log (s.trail v.flavor (v.decode op))) := by
  rcases operand with memory | immediate
  · cases action : (v.decode op).memoryAction with
    | read =>
        obtain ⟨n, e, turns, loaded, logged, ea⟩ := turns_read v s op log memory action
        cases logged.count turns
        exact ⟨e, turns, fun _ => ⟨loaded, fun _ => ea⟩, fun _ => logged⟩
    | write =>
        cases unstable : (v.decode op).mnemonic.isUnstable with
        | false =>
            obtain ⟨value, stored⟩ := Mnemonic.stores ((v.decode_action op).symm.trans action)
              unstable s.a s.x s.y s.p
            obtain ⟨n, e, turns, -, -, -, logged⟩ := turns_write v s op log memory stored
            cases logged.count turns
            exact ⟨e, turns, (fun bad => by cases bad), fun _ => logged⟩
        | true =>
            obtain ⟨n, e, dummies, first, -, logged, trail⟩ := turns_store v s op log memory action
            have last : e.next v.flavor .aluWrite [] = ((e.next v.flavor .aluWrite []).1, []) := rfl
            have count : 1 + n = (s.trail v.flavor (v.decode op)).length := by
              rw [trail, List.length_append, logged.count first, Nat.add_comm]
              rfl
            exact ⟨_, count ▸ first.trans (.single (fits rfl) last), (fun bad => by cases bad),
              fun stable => by cases stable⟩
    | readModifyWrite =>
        obtain ⟨n, e, turns, -, -, -, logged⟩ := turns_modify v s op log memory action
        cases logged.count turns
        exact ⟨e, turns, (fun bad => by cases bad), fun _ => logged⟩
  · have read := v.decode_immediate op immediate
    obtain ⟨n, e, turns, loaded, logged⟩ := turns_immediate v s op log read immediate
    cases logged.count turns
    refine ⟨e, turns, fun _ => ⟨loaded, fun memory => ?_⟩, fun _ => logged⟩
    rw [immediate] at memory
    cases memory

end Exec

namespace Cpu6502

section
variable {v : Variant} {prof : Profile} {s t u : Cpu6502 × Recorder SimpleBus} {first : Lines}
  {lines : Nat → Lines} {m n : Nat}

theorem Executes.le (rdy : ∀ n, (lines n).rdy = true) (run : Executes v prof s first lines m t)
    (run' : Executes v prof s first lines n u) : n ≤ m := by
  by_contra more
  obtain ⟨k, rfl⟩ : ∃ k, n = m + (k + 1) := ⟨n - m - 1, by omega⟩
  obtain ⟨exits, ran, -, boundary⟩ := run
  obtain ⟨exits', ran', inside, -⟩ := run'
  have split : first :: (List.range (m + (k + 1))).map lines =
      (first :: (List.range m).map lines) ++
        lines m :: (List.range k).map fun j => lines (m + (j + 1)) := by
    rw [List.range_add, List.map_append, List.range_succ_eq_map]
    simp
  rw [split, run_append _ ran, bind_eq_ok] at ran'
  obtain ⟨⟨exits'', end_⟩, rest, eq⟩ := ran'
  obtain ⟨exit, w, tail, step, -, rfl⟩ := run_cons_ok rest
  have mem : exit ∈ exits' := by
    have same : .opcodeFetch :: (exits ++ exit :: tail) = .opcodeFetch :: exits' :=
      congrArg Prod.fst (Except.ok.inj eq)
    rw [← (List.cons.inj same).2]
    simp
  have awake : (t.1.sampleNmi (lines m)).stalls (lines m) = false := by simp [stalls, rdy]
  rcases boundary.step step with ⟨rfl, -⟩ | starts
  · rcases inside _ mem with bad | bad <;> cases bad
  · rcases inside _ mem with rfl | rfl <;> cases starts

theorem Executes.unique (rdy : ∀ n, (lines n).rdy = true) (run : Executes v prof s first lines m t)
    (run' : Executes v prof s first lines n u) : m = n ∧ t = u := by
  obtain rfl := Nat.le_antisymm (run'.le rdy run) (run.le rdy run')
  obtain ⟨exits, ran, -⟩ := run
  obtain ⟨exits', ran', -⟩ := run'
  cases ran.symm.trans ran'
  exact ⟨rfl, rfl⟩

end

theorem extraCycleDue_eq {v : Variant} {op : U8} {c : Cpu6502} {e : Exec (Recorder SimpleBus)}
    (executing : c.Executing (v.decode op) e) {s : Arch}
    (status : (v.decode op).memoryAction = .read → e.ctx.status = s.p) :
    (c.finished v.flavor (v.decode op)).extraCycleDue v.flavor (v.decode op) =
      (s.addsDecimalCycle v (v.decode op) && !c.extraAdcSbcCycle) := by
  obtain ⟨-, -, -, extra⟩ := finished_rest v.flavor executing.inst
  have cmos : (v.flavor.decimal = .cmos65C02 : Bool) = v.isCmos := by cases v <;> rfl
  by_cases arith : (v.decode op).mnemonic = .adc ∨ (v.decode op).mnemonic = .sbc
  · have read : (v.decode op).memoryAction = .read := by
      rw [v.decode_action]
      rcases arith with eq | eq <;> rw [eq] <;> rfl
    have p : c.p = s.p := by
      rw [← status read, ← executing.exec]
      rfl
    have decimal := finished_decimal v.flavor c arith
    rw [extraCycleDue, adcSbcExtraCycle, extra, decimal, p, cmos, read, Arch.addsDecimalCycle]
    simp
  · obtain ⟨adc, sbc⟩ := not_or.1 arith
    simp [extraCycleDue, adcSbcExtraCycle, Arch.addsDecimalCycle, adc, sbc]

end Cpu6502

end Rs65x
