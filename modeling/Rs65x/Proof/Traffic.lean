import Rs65x.Spec.Opcodes

/-!
# The accesses of the instructions without an operand in memory
-/

namespace Rs65x
open Fallible Words Worklist

attribute [local simp] Access.brief Access.isRead Access.addr

namespace Exec
variable (v : Variant) (s : Arch) (op : U8) (log : List Access)

theorem logged_unstable (unstable : (v.decode op).mnemonic.isUnstable) {n : Nat}
    {e : Exec (Recorder SimpleBus)}
    (turns : Exec.Turns v.flavor (s.opening (v.decode op) op log).exec (v.emission op) n e []) :
    e.Logged log ((s.trail v.flavor (v.decode op)).dropLast ++
      [(false, s.unstableAddress (v.decode op))]) := by
  obtain ⟨memory, write, -⟩ := turns_unstable v s op log unstable
  obtain ⟨-, index⟩ := v.decode_unstable op unstable
  obtain ⟨k, e₀, dummies, first, ready, logged, trail⟩ := turns_store v s op log memory write
  have last := next_prepared v.flavor (aluPrepareStore_unstable ready write unstable index) []
  obtain ⟨-, rfl⟩ := turns.unique (first.trans (.single (fits rfl) last))
  rw [trail, List.dropLast_concat]
  have brief : (Access.write ((s.unstableAddress (v.decode op)).setWidth 32)
      (s.unstableValue (v.decode op)) true false).brief = (false, s.unstableAddress (v.decode op)) := by
    simp
  rw [← brief]
  exact logged.snoc rfl

theorem logged_implied (implied : (v.decode op).addressMode = .noMemory .implied) :
    ∃ e, Exec.Turns v.flavor (s.opening (v.decode op) op log).exec (v.emission op) 1 e [] ∧
      e.Logged log [(true, s.pc + 1)] := by
  have emission : v.emission op = [.read .pc .none false] := by
    rw [Variant.emission, implied]
    cases v <;> rfl
  rw [emission]
  refine ⟨_, .single (fits rfl) (Narrow.next_read _ _ [] rfl rfl rfl), ?_⟩
  simp [Logged, Narrow.exec, Narrow.after, Narrow.load, Narrow.put, Narrow.reading, Narrow.addr,
    Arch.opening, Arch.ctx]

theorem logged_jsr (jump : (v.decode op).addressMode = .jump .toSubroutine)
    (read : (v.decode op).memoryAction = .read) :
    ∃ e, Exec.Turns v.flavor (s.opening (v.decode op) op log).exec (v.emission op) 5 e [] ∧
      e.Logged log [(true, s.pc + 1), (true, Arch.stackAddr s.s), (false, Arch.stackAddr s.s),
        (false, Arch.stackAddr (s.s - 1)), (true, s.pc + 2)] := by
  have emission : v.emission op = [.read .pc .eaLo true, .read .sp .none false, .push .pcHi,
      .push .pcLo, ⟨⟨.pc, false, true, true⟩, false, .eaHi, .swapEaPc⟩] := by
    rw [Variant.emission, jump]
    cases v <;> rfl
  rw [emission]
  have quiet : (v.decode op).mnemonic.action = .read := (v.decode_action op).symm.trans read
  have last (m : Narrow) :
      m.exec.next v.flavor ⟨⟨.pc, false, true, true⟩, false, .eaHi, .swapEaPc⟩ [] =
        ((m.after .pc .eaHi false false true).swap.exec, []) := by
    rw [m.next_access v.flavor [] rfl rfl rfl rfl rfl, Narrow.turn_swap _ _ _ rfl]
  refine ⟨_, .step (fits rfl) (Narrow.next_read _ _ _ rfl rfl rfl)
    (.step (fits rfl) (Narrow.next_read _ _ _ rfl rfl rfl)
    (.step (fits rfl) (Narrow.next_push _ _ _ ⟨read, quiet⟩ (by decide))
    (.step (fits rfl) (Narrow.next_push _ _ _ ⟨read, quiet⟩ (by decide))
    (.single (fits rfl) (last _))))), ?_⟩
  simp [Logged, Narrow.exec, Narrow.swap, Narrow.after, Narrow.bump, Narrow.load, Narrow.put,
    Narrow.reading, Narrow.addr, Narrow.pushing, Arch.opening, Arch.ctx, BitVec.add_assoc]

theorem logged_rts (jump : (v.decode op).addressMode = .jump .fromSubroutine) :
    ∃ e, Exec.Turns v.flavor (s.opening (v.decode op) op log).exec (v.emission op) 5 e [] ∧
      e.Logged log ([s.pc + 1, Arch.stackAddr s.s, Arch.stackAddr (s.s + 1),
        Arch.stackAddr (s.s + 1 + 1), fromLeBytes s.top s.drop.top].map (true, ·)) := by
  have emission : v.emission op = [.dummyRead .pc, .read .sp .none true, .read .sp .pcLo true,
      .read .sp .pcHi false, .read .pc .none true] := by
    rw [Variant.emission, jump]
    cases v <;> rfl
  rw [emission]
  refine ⟨_, .step (fits rfl) (Narrow.next_access _ _ _ rfl rfl rfl rfl rfl)
    (.step (fits rfl) (Narrow.next_read _ _ _ rfl rfl rfl)
    (.step (fits rfl) (Narrow.next_read _ _ _ rfl rfl rfl)
    (.step (fits rfl) (Narrow.next_read _ _ _ rfl rfl rfl)
    (.single (fits rfl) (Narrow.next_read _ _ _ rfl rfl rfl))))), ?_⟩
  simp [Logged, Narrow.exec, Narrow.after, Narrow.bump, Narrow.load, Narrow.put, Narrow.reading,
    Narrow.addr, Arch.opening, Arch.ctx, MicroOp.dummyRead, Arch.drop, Arch.top]

theorem logged_rti (jump : (v.decode op).addressMode = .jump .fromInterrupt) :
    ∃ e, Exec.Turns v.flavor (s.opening (v.decode op) op log).exec (v.emission op) 5 e [] ∧
      e.Logged log ([s.pc + 1, Arch.stackAddr s.s, Arch.stackAddr (s.s + 1),
        Arch.stackAddr (s.s + 1 + 1), Arch.stackAddr (s.s + 1 + 1 + 1)].map (true, ·)) := by
  have emission : v.emission op = [.read .pc .none false, .read .sp .none true,
      .read .sp .status true, .read .sp .pcLo true, .read .sp .pcHi false] := by
    rw [Variant.emission, jump]
    cases v <;> rfl
  rw [emission]
  refine ⟨_, .step (fits rfl) (Narrow.next_read _ _ _ rfl rfl rfl)
    (.step (fits rfl) (Narrow.next_read _ _ _ rfl rfl rfl)
    (.step (fits rfl) (Narrow.next_read _ _ _ rfl rfl rfl)
    (.step (fits rfl) (Narrow.next_read _ _ _ rfl rfl rfl)
    (.single (fits rfl) (Narrow.next_read _ _ _ rfl rfl rfl))))), ?_⟩
  simp [Logged, Narrow.exec, Narrow.after, Narrow.bump, Narrow.load, Narrow.put, Narrow.reading,
    Narrow.addr, Arch.opening, Arch.ctx]

theorem logged_stack_write (stack : (v.decode op).addressMode = .stack) {value : U8}
    (stored : (v.decode op).mnemonic.stored s.a s.x s.y s.p = some value) :
    ∃ e, Exec.Turns v.flavor (s.opening (v.decode op) op log).exec (v.emission op) 2 e [] ∧
      e.Logged log [(true, s.pc + 1), (false, Arch.stackAddr s.s)] := by
  have write : (v.decode op).memoryAction = .write := (v.decode_action op).trans (stored_action stored)
  have emission : v.emission op = [.read .pc .none false, .aluPush] := by
    rw [Variant.emission, stack, write]
    cases v <;> rfl
  rw [emission]
  have other : (v.decode op).memoryAction ≠ .readModifyWrite := by
    rw [write]
    decide
  refine ⟨_, .step (fits rfl) (Narrow.next_read _ _ _ rfl rfl rfl)
    (.single (fits rfl) (Narrow.next_aluPush _ _ [] (aluPrepareStore_stored other stored))), ?_⟩
  simp [Logged, Narrow.exec, Narrow.after, Narrow.load, Narrow.put, Narrow.reading, Narrow.addr,
    Narrow.pushing, Arch.opening, Arch.ctx]

theorem logged_stack_read (stack : (v.decode op).addressMode = .stack)
    (read : (v.decode op).memoryAction = .read) :
    ∃ e, Exec.Turns v.flavor (s.opening (v.decode op) op log).exec (v.emission op) 3 e [] ∧
      e.Logged log [(true, s.pc + 1), (true, Arch.stackAddr s.s), (true, Arch.stackAddr (s.s + 1))] := by
  have emission : v.emission op =
      [.read .pc .none false, .read .sp .none true, .read .sp .op0 false] := by
    rw [Variant.emission, stack, read]
    cases v <;> rfl
  rw [emission]
  refine ⟨_, .step (fits rfl) (Narrow.next_read _ _ _ rfl rfl rfl)
    (.step (fits rfl) (Narrow.next_read _ _ _ rfl rfl rfl)
    (.single (fits rfl) (Narrow.next_read _ _ _ rfl rfl rfl))), ?_⟩
  simp [Logged, Narrow.exec, Narrow.after, Narrow.bump, Narrow.load, Narrow.put, Narrow.reading,
    Narrow.addr, Arch.opening, Arch.ctx]

theorem logged_jmpAbsolute (jump : (v.decode op).addressMode = .jump .jmpAbsolute) :
    ∃ e, Exec.Turns v.flavor (s.opening (v.decode op) op log).exec (v.emission op) 2 e [] ∧
      e.Logged log [(true, s.pc + 1), (true, s.pc + 2)] := by
  have emission : v.emission op =
      [.read .pc .eaLo true, ⟨⟨.pc, false, true, true⟩, true, .eaHi, .swapEaPc⟩] := by
    rw [Variant.emission, jump]
    cases v <;> rfl
  rw [emission]
  have last (m : Narrow) :
      m.exec.next v.flavor ⟨⟨.pc, false, true, true⟩, true, .eaHi, .swapEaPc⟩ [] =
        ((m.after .pc .eaHi true false true).swap.exec, []) := by
    rw [m.next_access v.flavor [] rfl rfl rfl rfl rfl, Narrow.turn_swap _ _ _ rfl]
  refine ⟨_, .step (fits rfl) (Narrow.next_read _ _ _ rfl rfl rfl)
    (.single (fits rfl) (last _)), ?_⟩
  simp [Logged, Narrow.exec, Narrow.swap, Narrow.after, Narrow.bump, Narrow.load, Narrow.put,
    Narrow.reading, Narrow.addr, Arch.opening, Arch.ctx, BitVec.add_assoc]

theorem logged_entry (F : Flavor) {m : Narrow} (quiet : m.Quiet) {sp : U8} (stack : m.ctx.sp = sp)
    {pushed : Latch} (kind : pushed = .status ∨ pushed = .brkStatus) (vector : U16) :
    ∃ e, Exec.Turns F m.exec (entryOps pushed vector) 5 e [] ∧
      e.Logged m.log [(false, Arch.stackAddr sp), (false, Arch.stackAddr (sp - 1)),
        (false, Arch.stackAddr (sp - 1 - 1)), (true, vector), (true, vector + 1)] := by
  have some : pushed ≠ .none := by
    rcases kind with rfl | rfl
    · decide
    · decide
  have kept {m : Narrow} (quiet : m.Quiet) (value : U8) : (m.pushing value).Quiet :=
    ⟨quiet.action, quiet.mnemonic⟩
  have first := kept quiet (hiByte m.ctx.pc)
  have second := kept first (loByte m.ctx.pc)
  refine ⟨_, .step (fits rfl) (m.next_push F _ quiet (by decide))
    (.step (fits rfl) (Narrow.next_push _ F _ first (by decide))
    (.step (fits rfl) (Narrow.next_push _ F _ second some)
    (.step (fits rfl) (Narrow.next_read _ F _ rfl rfl rfl)
    (.single (fits rfl) (Narrow.next_read _ F [] rfl rfl rfl))))), ?_⟩
  subst stack
  simp [Logged, Narrow.exec, Narrow.after, Narrow.load, Narrow.put, Narrow.reading, Narrow.addr,
    Narrow.pushing]

theorem logged_brk (brk : (v.decode op).addressMode = .interrupt .brk)
    (read : (v.decode op).memoryAction = .read) :
    ∃ e, Exec.Turns v.flavor (s.opening (v.decode op) op log).exec (v.emission op) 6 e [] ∧
      e.Logged log ((true, s.pc + 1) :: s.entryAccesses 0xFFFE) := by
  have emission : v.emission op = .read .pc .none true :: entryOps .brkStatus 0xFFFE := by
    rw [Variant.emission, brk]
    cases v <;> rfl
  have quiet : (v.decode op).mnemonic.action = .read := (v.decode_action op).symm.trans read
  let m := (s.opening (v.decode op) op log).after .pc .none true false true
  have kept : m.Quiet := ⟨read, quiet⟩
  obtain ⟨e, turns, tail, logged, briefs⟩ :=
    @logged_entry v.flavor m kept s.s rfl _ (.inr rfl) 0xFFFE
  rw [emission]
  refine ⟨e, .step (fits rfl) (Narrow.next_read _ _ _ rfl rfl rfl) turns, ?_⟩
  refine ⟨[_] ++ tail, logged.trans (List.append_assoc _ _ _), ?_⟩
  rw [List.map_append, briefs]
  simp [Narrow.addr, Arch.opening, Arch.ctx, Arch.entryAccesses]

theorem next_pointed (F : Flavor) (m : Narrow) (rest : List MicroOp) :
    m.exec.next F ⟨⟨.ptr, true, false, true⟩, false, .pcLo, .incLatch .ptrLo⟩ rest =
      ({ m.after .ptr .pcLo false true false with
        ptr := fromLeBytes (loByte m.ptr + 1#8) (hiByte m.ptr) }.exec, rest) := by
  refine (m.next_access F rest rfl rfl rfl rfl rfl).trans ?_
  rw [Narrow.turn_incPtrLo _ _ _ rfl]
  rfl

theorem logged_jmpIndirect (jump : (v.decode op).addressMode = .jump .jmpIndirect) {w : U16}
    (pointer : Arch.word s.ram (s.pc + 1) = w) (other : op ≠ 0x7C) :
    ∃ n e, Exec.TurnsIn .release v.flavor (s.opening (v.decode op) op log).exec (v.emission op) n e [] ∧
      e.Logged log (([s.pc + 1, s.pc + 2, w] ++ (if v.isCmos then
        [fromLeBytes (loByte w + 1) (hiByte w)] else []) ++
        [Arch.pointerSuccessor v w]).map (true, ·)) := by
  have bytes : fromLeBytes (s.ram (s.pc + 1#16)) (s.ram (s.pc + 2#16)) = w := by
    simpa [Arch.word, BitVec.add_assoc] using pointer
  cases cmos : v.isCmos with
  | false =>
      have emission : v.emission op = [.read .pc .ptrLo true, .read .pc .ptrHi false,
          ⟨⟨.ptr, true, false, true⟩, false, .pcLo, .incLatch .ptrLo⟩, .read .ptr .pcHi false] := by
        rw [Variant.emission, jump]
        cases v <;> first | rfl | cases cmos
      rw [emission]
      refine ⟨_, _, .step (.inl rfl) (Narrow.next_read _ _ _ rfl rfl rfl)
        (.step (.inl rfl) (Narrow.next_read _ _ _ rfl rfl rfl)
        (.step (.inl rfl) (next_pointed _ _ _)
        (.single (.inl rfl) (Narrow.next_read _ _ _ rfl rfl rfl)))), ?_⟩
      simp [Logged, Narrow.exec, Narrow.after, Narrow.bump, Narrow.load, Narrow.put, Narrow.reading,
        Narrow.addr, Arch.opening, Arch.ctx, BitVec.add_assoc, bytes, Arch.pointerSuccessor, cmos]
  | true =>
      have emission : v.emission op = [.read .pc .ptrLo true, .read .pc .ptrHi false,
          ⟨⟨.ptr, true, false, true⟩, false, .pcLo, .incLatch .ptrLo⟩, .readInvPtr2 .pcHi,
          .read .ptr .pcHi false] := by
        rw [Variant.emission, jump]
        cases v <;> first | rfl | cases cmos
      have fourth (m : Narrow) (opcode : m.ctx.opcode = op) (rest : List MicroOp) :
          m.exec.next v.flavor (.readInvPtr2 .pcHi) rest =
            ((m.after .ptr .pcHi false true false).fixed.exec, rest) :=
        (m.next_access v.flavor rest rfl rfl rfl rfl rfl).trans
          (Narrow.turn_fixPtr _ v.flavor _ rfl (by rw [← opcode] at other; exact other))
      have carried := fromLeBytes_carry w
      rw [emission]
      refine ⟨_, _, .step (.inl rfl) (Narrow.next_read _ _ _ rfl rfl rfl)
        (.step (.inl rfl) (Narrow.next_read _ _ _ rfl rfl rfl)
        (.step (.inl rfl) (next_pointed _ _ _) (.step (.inl rfl) (fourth _ rfl _)
        (.single (.inl rfl) (Narrow.next_read _ _ _ rfl rfl rfl))))), ?_⟩
      simp [Logged, Narrow.exec, Narrow.fixed, Narrow.after, Narrow.bump, Narrow.load, Narrow.put,
        Narrow.reading, Narrow.addr, Arch.opening, Arch.ctx, BitVec.add_assoc, bytes,
        Arch.pointerSuccessor, cmos]
      exact carried

theorem logged_jmpAbsoluteX (jump : (v.decode op).addressMode = .jump .jmpAbsoluteX) {w : U16}
    (pointer : Arch.word s.ram (s.pc + 1) = w) :
    let indexed := w + s.x.setWidth 16
    ∃ e, Exec.Turns v.flavor (s.opening (v.decode op) op log).exec (v.emission op) 5 e [] ∧
      e.Logged log ([s.pc + 1, s.pc + 2, s.pc + 1, indexed, indexed + 1].map (true, ·)) := by
  intro indexed
  have emission : v.emission op = [.read .pc .eaLo true, .read .pc .eaHi false,
      ⟨⟨.pc, false, true, true⟩, false, .none, .specialAddOffset⟩,
      .read .ea .pcLo true, .read .ea .pcHi false] := by
    rw [Variant.emission, jump]
    cases v <;> rfl
  have bytes : fromLeBytes (s.ram (s.pc + 1#16)) (s.ram (s.pc + 2#16)) = w := by
    simpa [Arch.word, BitVec.add_assoc] using pointer
  have third (m : Narrow) (rest : List MicroOp) : ∃ e : Exec (Recorder SimpleBus),
      m.exec.next v.flavor ⟨⟨.pc, false, true, true⟩, false, .none, .specialAddOffset⟩ rest = (e, rest) ∧
      e.scratch.ea = m.ea.setWidth 32 + m.ctx.regX.setWidth 32 ∧
      ∃ data, e.bus.log = m.log ++ [.read (m.ctx.pc.setWidth 32 - 1) false true data] :=
    ⟨_, rfl, rfl, _, rfl⟩
  have low (base : U16) (x : U8) : ((base.setWidth 32 + x.setWidth 32 : U32)).setWidth 16 =
      base + x.setWidth 16 := by
    rw [BitVec.setWidth_add _ _ (by omega)]
    simp
  have high (base : U16) (x : U8) : ((base.setWidth 32 + (x.setWidth 32 + 1#32) : U32)).setWidth 16 =
      base + (x.setWidth 16 + 1#16) := by
    rw [← BitVec.add_assoc, BitVec.setWidth_add _ _ (by omega), low, ← BitVec.add_assoc]
    rfl
  have before (pc : U16) : (((pc + 2#16).setWidth 32 - 1#32 : U32)).setWidth 16 = pc + 1#16 := by
    apply BitVec.eq_of_toNat_eq
    simp only [BitVec.toNat_setWidth, BitVec.toNat_sub, BitVec.toNat_add, BitVec.toNat_ofNat]
    omega
  rw [emission]
  obtain ⟨e, next, ea, data, read⟩ := third _ _
  refine ⟨_, .step (fits rfl) (Narrow.next_read _ _ _ rfl rfl rfl)
    (.step (fits rfl) (Narrow.next_read _ _ _ rfl rfl rfl) (.step (fits rfl) next
    (.step (fits rfl) (next_ea_pcLo _ _ _) (.single (fits rfl) (next_ea_pcHi _ _ _))))), ?_⟩
  simp [Logged, Narrow.after, Narrow.bump, Narrow.load, Narrow.put,
    Narrow.reading, Narrow.addr, Arch.opening, Arch.ctx, BitVec.add_assoc, bytes, peeked, read, ea,
    before, low, high, MicroCtx6502.regX, indexed]

theorem logged_pcReads (F : Flavor) (moves : List Bool) {e : Exec (Recorder SimpleBus)} {pc : U16}
    (here : e.ctx.pc = pc) {accesses : List (Bool × U16)} (logged : e.Logged log accesses) :
    ∃ e', Exec.Turns F e (pcReads moves) moves.length e' [] ∧
      e'.Logged log (accesses ++ (Arch.walk pc moves).map (true, ·)) := by
  induction moves generalizing e pc accesses with
  | nil => exact ⟨e, .refl, by simpa [Arch.walk] using logged⟩
  | cons move moves ih =>
      let u : MicroOp := .read .pc .none move
      subst here
      have first : e.next F u (pcReads moves) = (e.pcRead move, pcReads moves) := by
        rw [next_reads F e (pcReads moves) e.ctx.pc rfl rfl rfl]
        cases move <;> rfl
      have moved : (e.pcRead move).ctx.pc = if move then e.ctx.pc + 1 else e.ctx.pc := by
        cases move <;> rfl
      have read : (e.pcRead move).Logged log (accesses ++ [(true, e.ctx.pc)]) := by
        have last : ∃ a, (e.pcRead move).bus.log = e.bus.log ++ [a] ∧ a.brief = (true, e.ctx.pc) := by
          cases move <;> exact ⟨_, rfl, by simp⟩
        obtain ⟨a, log, brief⟩ := last
        exact brief ▸ logged.snoc log
      obtain ⟨e', turns, logged'⟩ := ih moved read
      refine ⟨e', .step (fits rfl) first turns, ?_⟩
      rw [List.append_assoc] at logged'
      exact logged'

theorem logged_branchTail (m : Narrow) {pc : U16} (here : m.ctx.pc = pc) {taken : Bool}
    (decides : m.exec.branches = taken) {accesses : List (Bool × U16)}
    (logged : m.exec.Logged log accesses) :
    let target := pc + m.signedOffset8.signExtend 16
    ∃ n e, Exec.Turns v.flavor m.exec m.exec.branchTail n e [] ∧
      e.Logged log (accesses ++ (Arch.hopReads m.ctx.opcode taken pc target).map (true, ·)) := by
  subst here
  intro target
  have same : (m.ctx.pc &&& 0xFF00#16) ||| (target &&& 0xFF#16) =
      fromLeBytes (loByte target) (hiByte m.ctx.pc) := by
    rw [mask_lo, replace_lo]
  have page : target ≠ fromLeBytes (loByte target) (hiByte m.ctx.pc) ↔
      hiByte target ≠ hiByte m.ctx.pc := by
    rw [not_iff_not]
    constructor <;> intro same
    · rw [same, hiByte_fromLeBytes]
    · rw [← same, fromLeBytes_halves]
  obtain ⟨tail, log, briefs⟩ := logged
  replace log : m.log = _ := log
  rw [branchTail, decides, Arch.hopReads]
  cases taken with
  | false => exact ⟨_, _, .refl, tail, log, by simpa using briefs⟩
  | true =>
      change ∃ n e, Exec.Turns v.flavor m.exec
        (if target ≠ ((m.ctx.pc &&& 0xFF00#16) ||| (target &&& 0xFF#16)) then
          [if m.ctx.opcode &&& 0x0F = 0x0F then .read .pc .none false
            else .readPcSetPc ((m.ctx.pc &&& 0xFF00#16) ||| (target &&& 0xFF#16)), _] else _) n e [] ∧ _
      rw [same]
      simp only [page, Bool.not_true, Bool.false_eq_true, if_false]
      by_cases inPage : hiByte target = hiByte m.ctx.pc
      · rw [if_neg (not_not.2 inPage), if_pos inPage]
        refine ⟨_, _, .single (fits rfl) (Narrow.next_setPc _ _ _ _), ?_⟩
        simp [Logged, Narrow.exec, Narrow.reading, log, briefs]
      · rw [if_pos inPage, if_neg inPage]
        split
        · refine ⟨_, _, .step (fits rfl) (Narrow.next_read _ _ _ rfl rfl rfl)
            (.single (fits rfl) (Narrow.next_setPc _ _ _ _)), ?_⟩
          simp [Logged, Narrow.exec, Narrow.after, Narrow.load, Narrow.put, Narrow.addr,
            Narrow.reading, log, briefs]
        · refine ⟨_, _, .step (fits rfl) (Narrow.next_setPc _ _ _ _)
            (.single (fits rfl) (Narrow.next_setPc _ _ _ _)), ?_⟩
          simp [Logged, Narrow.exec, Narrow.reading, log, briefs]

theorem logged_branchLast (m : Narrow) {following : U16} (here : m.ctx.pc + 1 = following)
    {taken : Bool} (decides : ∀ scratch : MicroExecutor, scratch.op0 = m.op0 →
      ({ m.ctx with pc := m.ctx.pc + 1 } : MicroCtx6502).aluBranch .release scratch = .ok taken)
    {accesses : List (Bool × U16)} (logged : m.exec.Logged log accesses) :
    let target := following + (m.ram m.ctx.pc).signExtend 16
    ∃ n e, Exec.Turns v.flavor m.exec [⟨⟨.pc, false, true, true⟩, true, .signedOffset8, .branch⟩] n e [] ∧
      e.Logged log (accesses ++ [(true, m.ctx.pc)] ++
        (Arch.hopReads m.ctx.opcode taken following target).map (true, ·)) := by
  intro target
  have first := m.next_access v.flavor [] (u := ⟨⟨.pc, false, true, true⟩, true, .signedOffset8, .branch⟩)
    rfl rfl rfl rfl rfl
  have decides' : (m.after .pc .signedOffset8 true false true).exec.branches = taken := by
    rw [branches]
    exact congrArg (get · false) (decides _ rfl)
  have read : (m.after .pc .signedOffset8 true false true).exec.Logged log
      (accesses ++ [(true, m.ctx.pc)]) := by
    obtain ⟨tail, log, briefs⟩ := logged
    replace log : m.log = _ := log
    simp [Logged, Narrow.exec, Narrow.after, Narrow.bump, Narrow.load, Narrow.put, Narrow.addr,
      Narrow.reading, log, briefs]
  obtain ⟨n, e, tail, logged'⟩ := logged_branchTail v log _ here decides' read
  exact ⟨_, e, .step (fits rfl) first tail, logged'⟩

theorem logged_branch (branch : (v.decode op).addressMode = .branch .relative) {taken : Bool}
    (decides : ∀ scratch, (s.ctx (v.decode op) op 2).aluBranch .release scratch = .ok taken) :
    let target := s.pc + 2 + s.operand.signExtend 16
    ∃ n e, Exec.Turns v.flavor (s.opening (v.decode op) op log).exec (v.emission op) n e [] ∧
      e.Logged log (((s.pc + 1) :: Arch.hopReads op taken (s.pc + 2) target).map (true, ·)) := by
  have emission : v.emission op =
      [⟨⟨.pc, false, true, true⟩, true, .signedOffset8, .branch⟩] := by
    rw [Variant.emission, branch]
    cases v <;> rfl
  have following : s.pc + 1 + 1 = s.pc + 2 := by simp [BitVec.add_assoc]
  rw [s.ctx_pc _ _ following.symm] at decides
  rw [emission]
  exact logged_branchLast v log (s.opening (v.decode op) op log) following
    (fun scratch _ => decides scratch) ⟨[], (List.append_nil _).symm, rfl⟩

theorem logged_zeroPage (F : Flavor) (m : Narrow) (page : hiByte m.ea = 0) (rest : List MicroOp) :
    ∃ m' : Narrow, Exec.Turns F m.exec
        (.read .pc .eaLo true :: .read .ea .op0 false :: .read .ea .op0 false :: rest) 3 m'.exec rest ∧
      m'.ctx = { m.ctx with pc := m.ctx.pc + 1 } ∧ m'.ram = m.ram ∧
      m'.op0 = m.ram ((m.ram m.ctx.pc).setWidth 16) ∧
      m'.exec.Logged m.log ([m.ctx.pc, (m.ram m.ctx.pc).setWidth 16,
        (m.ram m.ctx.pc).setWidth 16].map (true, ·)) := by
  have ea : fromLeBytes (m.ram m.ctx.pc) (hiByte m.ea) = (m.ram m.ctx.pc).setWidth 16 := by
    rw [page]
    exact fromLeBytes_zero _
  refine ⟨_, .step (fits rfl) (Narrow.next_pc_eaLo _ _ _) (.step (fits rfl)
    (Narrow.next_ea_op0 _ _ _) (.single (fits rfl) (Narrow.next_ea_op0 _ _ _))), rfl, rfl, ?_, ?_⟩
  · exact congrArg m.ram ea
  · simp [Logged, Narrow.exec, Narrow.reading, Narrow.fetching, ea]

theorem logged_bitBranch (branch : (v.decode op).addressMode = .branch .dpRelative) {taken : Bool}
    (decides : ∀ scratch : MicroExecutor, scratch.op0 = s.ram (s.operand.setWidth 16) →
      (s.ctx (v.decode op) op 3).aluBranch .release scratch = .ok taken) :
    let target := s.pc + 3 + (s.ram (s.pc + 2)).signExtend 16
    ∃ n e, Exec.Turns v.flavor (s.opening (v.decode op) op log).exec (v.emission op) n e [] ∧
      e.Logged log (([s.pc + 1, s.operand.setWidth 16, s.operand.setWidth 16, s.pc + 2] ++
        Arch.hopReads op taken (s.pc + 3) target).map (true, ·)) := by
  have emission : v.emission op = [.read .pc .eaLo true, .read .ea .op0 false, .read .ea .op0 false,
      ⟨⟨.pc, false, true, true⟩, true, .signedOffset8, .branch⟩] := by
    rw [Variant.emission, branch]
    cases v <;> rfl
  have second : s.pc + 1 + 1 = s.pc + 2 := by simp [BitVec.add_assoc]
  have third : s.pc + 1 + 1 + 1 = s.pc + 3 := by simp [BitVec.add_assoc]
  rw [s.ctx_pc _ _ third.symm] at decides
  rw [emission]
  generalize v.decode op = i at decides ⊢
  obtain ⟨m, first, ctx, ram, op0, logged⟩ :=
    logged_zeroPage v.flavor (s.opening i op log) (s.hiByte_opening_ea _ _ _)
      [⟨⟨.pc, false, true, true⟩, true, .signedOffset8, .branch⟩]
  have decides' (scratch : MicroExecutor) (same : scratch.op0 = m.op0) :
      ({ m.ctx with pc := m.ctx.pc + 1 } : MicroCtx6502).aluBranch .release scratch = .ok taken := by
    rw [ctx]
    exact decides scratch (same.trans op0)
  have pc : m.ctx.pc = s.pc + 2 := (congrArg MicroCtx6502.pc ctx).trans second
  have opcode : m.ctx.opcode = op := congrArg MicroCtx6502.opcode ctx
  have following : m.ctx.pc + 1 = s.pc + 3 := by rw [pc, ← third, ← second]
  obtain ⟨n, e, last, logged'⟩ := logged_branchLast v _ m following decides' logged
  refine ⟨_, e, first.trans last, ?_⟩
  rw [pc, opcode, ram] at logged'
  simpa [Arch.operand, Arch.opening, Arch.ctx] using logged'

end Exec

end Rs65x
