import Rs65x.Proof.Step

/-!
# What a micro-op leaves alone
-/

namespace Rs65x
open Fallible

def MicroOp.access (u : MicroOp) (addr : U32) (data : U8) : Access :=
  if u.bus.read then .read addr u.bus.vda u.bus.vpa data else .write addr data u.bus.vda u.bus.vpa

namespace Exec
variable {β : Type}

theorem addTo_frame (e : Exec β) (latch : Latch) (offset : U16) :
    ∃ scratch pc sp, e.addTo latch offset = ⟨scratch, { e.ctx with pc, sp }, e.bus⟩ := by
  cases latch <;> exact ⟨_, _, _, rfl⟩

theorem prepareStore_frame (e : Exec β) (u : MicroOp) :
    ∃ scratch sp, e.prepareStore u = ⟨scratch, { e.ctx with sp }, e.bus⟩ := by
  simp only [prepareStore]
  split
  · exact ⟨_, _, rfl⟩
  · simp only [MicroCtx6502.aluPrepareStore]
    split
    · exact ⟨_, _, rfl⟩
    · split <;> exact ⟨_, _, rfl⟩

theorem prepareAlu_frame (F : Flavor) (e : Exec β) (alu : AluOp) :
    ∃ scratch, (e.prepareAlu F alu).1 = ⟨scratch, e.ctx, e.bus⟩ := by
  cases alu <;> exact ⟨_, rfl⟩

def prepared (F : Flavor) (e : Exec β) (u : MicroOp) : Exec β :=
  ((e.prepareStore u).prepareAlu F u.alu).1

theorem prepared_frame (F : Flavor) (e : Exec β) (u : MicroOp) :
    ∃ scratch sp, e.prepared F u = ⟨scratch, { e.ctx with sp }, e.bus⟩ := by
  obtain ⟨_, sp, stored⟩ := e.prepareStore_frame u
  obtain ⟨scratch, eq⟩ := (e.prepareStore u).prepareAlu_frame F u.alu
  exact ⟨scratch, sp, by rw [prepared, eq, stored]⟩

def accessAddr (F : Flavor) (e : Exec β) (u : MicroOp) : U32 :=
  let addr := (e.prepared F u).scratch.address (e.prepared F u).ctx u.bus.addr
  if u.alu = .specialAddOffset then addr - 1 else addr

theorem access_frame [Bus β] (e : Exec β) (u : MicroOp) (addr : U32) :
    ∃ scratch pc sp status, e.access u addr =
        ⟨scratch, { e.ctx with pc, sp, status }, (e.access u addr).bus⟩ ∧
      ((u.bus.read = true → u.localLatch ≠ .status ∧ u.localLatch ≠ .brkStatus) →
        status = e.ctx.status) := by
  unfold access
  split
  · next read =>
      cases dest : u.localLatch
      case status | brkStatus =>
        refine ⟨_, _, _, _, rfl, fun other => ?_⟩
        simp at other
        exact absurd read (by simp [other])
      all_goals exact ⟨_, _, _, _, rfl, fun _ => rfl⟩
  · exact ⟨_, _, _, _, rfl, fun _ => rfl⟩

theorem body_frame [Bus β] (F : Flavor) (e : Exec β) (u : MicroOp) :
    ∃ scratch pc sp status, (e.body F u).1 = ⟨scratch, { e.ctx with pc, sp, status },
        ((e.prepared F u).access u (e.accessAddr F u)).bus⟩ ∧
      ((u.bus.read = true → u.localLatch ≠ .status ∧ u.localLatch ≠ .brkStatus) →
        status = e.ctx.status) := by
  obtain ⟨_, _, before⟩ := e.prepared_frame F u
  obtain ⟨scratch, pc, sp, status, eq, kept⟩ :=
    (e.prepared F u).access_frame u (e.accessAddr F u)
  have ctx : (e.prepared F u).ctx = { e.ctx with sp := (e.prepared F u).ctx.sp } := by rw [before]
  rw [ctx] at eq kept
  change ∃ scratch pc sp status, (if u.incSrc then
    ((e.prepared F u).access u (e.accessAddr F u)).addTo u.bus.addr 1
    else (e.prepared F u).access u (e.accessAddr F u)) = _ ∧ _
  split
  · obtain ⟨scratch', pc', sp', added⟩ :=
      ((e.prepared F u).access u (e.accessAddr F u)).addTo_frame u.bus.addr 1
    refine ⟨scratch', pc', sp', status, ?_, kept⟩
    rw [added, eq]
  · exact ⟨scratch, pc, sp, status, eq, kept⟩

theorem modified_frame (F : Flavor) (e : Exec β) : ∃ a status op0,
    e.modified F = ⟨{ e.scratch with op0 }, { e.ctx with a, status }, e.bus⟩ := by
  obtain ⟨a, status, op0, eq⟩ :=
    ((e.ctx.aluModify_always F e.scratch).eq_get .release .release (e.ctx, e.scratch)).2
  exact ⟨a, status, op0, by simp only [modified, eq]⟩

theorem turn_frame (F : Flavor) (e : Exec β) (u : MicroOp) (fixedAddr : Option U32)
    (rest : List MicroOp) : ∃ scratch pc sp a status, (e.turn F u fixedAddr rest).1 =
        ⟨scratch, { e.ctx with pc, sp, a, status }, e.bus⟩ ∧
      (u.alu ≠ .modify → a = e.ctx.a ∧ status = e.ctx.status) := by
  unfold turn
  cases alu : u.alu with
  | addOffset latch offset | incLatch latch =>
      obtain ⟨scratch, pc, sp, eq⟩ := e.addTo_frame latch _
      exact ⟨scratch, pc, sp, e.ctx.a, e.ctx.status, eq, fun _ => ⟨rfl, rfl⟩⟩
  | specialAddOffset =>
      obtain ⟨scratch, pc, sp, eq⟩ := e.addTo_frame .ea e.ctx.regX
      exact ⟨scratch, pc, sp, e.ctx.a, e.ctx.status, eq, fun _ => ⟨rfl, rfl⟩⟩
  | modify =>
      obtain ⟨a, status, op0, eq⟩ := e.modified_frame F
      exact ⟨_, e.ctx.pc, e.ctx.sp, a, status, eq, fun other => absurd rfl other⟩
  | offsetWithExtraCycle offset =>
      cases fixedAddr with
      | some addr => exact ⟨_, _, _, _, _, rfl, fun _ => ⟨rfl, rfl⟩⟩
      | none =>
          dsimp only
          split
          · exact ⟨_, _, _, _, _, rfl, fun _ => ⟨rfl, rfl⟩⟩
          · split <;> exact ⟨_, _, _, _, _, rfl, fun _ => ⟨rfl, rfl⟩⟩
  | fixPtr =>
      dsimp only
      split
      · exact ⟨_, _, _, _, _, rfl, fun _ => ⟨rfl, rfl⟩⟩
      · split <;> exact ⟨_, _, _, _, _, rfl, fun _ => ⟨rfl, rfl⟩⟩
  | _ => exact ⟨_, _, _, _, _, rfl, fun _ => ⟨rfl, rfl⟩⟩

theorem next_frame [Bus β] (F : Flavor) (e : Exec β) (u : MicroOp) (rest : List MicroOp) :
    ∃ scratch pc sp a status, (e.next F u rest).1 = ⟨scratch, { e.ctx with pc, sp, a, status },
        ((e.prepared F u).access u (e.accessAddr F u)).bus⟩ ∧
      (u.keepsStatus → status = e.ctx.status) := by
  obtain ⟨_, _, _, status, accessed, kept⟩ := e.body_frame F u
  obtain ⟨scratch, pc, sp, a, status', eq, kept'⟩ := (e.body F u).1.turn_frame F u (e.body F u).2 rest
  refine ⟨scratch, pc, sp, a, status', ?_, fun keeps => ?_⟩
  · rw [next, eq, accessed]
  · simp only [MicroOp.keepsStatus, Bool.and_eq_true, Bool.or_eq_true, decide_eq_true_eq,
      Bool.not_eq_true', ne_eq] at keeps
    obtain ⟨notModify, latch⟩ := keeps
    rw [(kept' notModify).2, accessed]
    exact kept fun read => latch.resolve_left (by simp [read])

theorem next_bus [Bus β] (F : Flavor) (e : Exec β) (u : MicroOp) (rest : List MicroOp) :
    (e.next F u rest).1.bus = ((e.prepared F u).access u (e.accessAddr F u)).bus := by
  obtain ⟨_, _, _, _, _, eq, -⟩ := e.next_frame F u rest
  rw [eq]

theorem next_access [Bus β] (F : Flavor) (e : Exec (Recorder β)) (u : MicroOp)
    (rest : List MicroOp) : ∃ data, (e.next F u rest).1.bus.log =
      e.bus.log ++ [u.access (e.accessAddr F u) data] := by
  have bus : (e.prepared F u).bus = e.bus := by
    obtain ⟨_, _, eq⟩ := e.prepared_frame F u
    rw [eq]
  rw [next_bus]
  simp only [access, MicroOp.access]
  cases read : u.bus.read with
  | true => exact ⟨_, by simp only [if_true, bus]; rfl⟩
  | false => exact ⟨_, by simp only [Bool.false_eq_true, if_false, bus]; rfl⟩

theorem next_log [Bus β] (F : Flavor) (e : Exec (Recorder β)) (u : MicroOp)
    (rest : List MicroOp) : ∃ a : Access, (e.next F u rest).1.bus.log = e.bus.log ++ [a] ∧
      a.isRead = u.bus.read ∧ a.addr = e.accessAddr F u := by
  obtain ⟨data, log⟩ := e.next_access F u rest
  refine ⟨_, log, ?_, ?_⟩ <;> cases read : u.bus.read <;> simp only [MicroOp.access, read] <;> rfl

theorem next_status [Bus β] (F : Flavor) (e : Exec β) {u : MicroOp} (rest : List MicroOp)
    (keeps : u.keepsStatus) : (e.next F u rest).1.ctx.status = e.ctx.status := by
  obtain ⟨_, _, _, _, _, eq, kept⟩ := e.next_frame F u rest
  rw [eq]
  exact kept keeps

theorem writeLatch_action (scratch : MicroExecutor) (ctx : MicroCtx6502) (latch : Latch) (b : U8) :
    (scratch.writeLatch ctx latch b).1.memoryAction = scratch.memoryAction := by
  cases latch <;> rfl

theorem addTo_action (e : Exec β) (latch : Latch) (offset : U16) :
    (e.addTo latch offset).scratch.memoryAction = e.scratch.memoryAction := by
  cases latch <;> rfl

theorem prepared_action (F : Flavor) (e : Exec β) (u : MicroOp) :
    (e.prepared F u).scratch.memoryAction = e.scratch.memoryAction := by
  have stored : (e.prepareStore u).scratch.memoryAction = e.scratch.memoryAction := by
    simp only [prepareStore]
    split
    · rfl
    · simp only [MicroCtx6502.aluPrepareStore]
      split
      · rfl
      · split <;> rfl
  rw [prepared, ← stored]
  cases u.alu <;> rfl

theorem body_action [Bus β] (F : Flavor) (e : Exec β) (u : MicroOp) :
    (e.body F u).1.scratch.memoryAction = e.scratch.memoryAction := by
  have accessed : ((e.prepared F u).access u (e.accessAddr F u)).scratch.memoryAction =
      e.scratch.memoryAction := by
    rw [← prepared_action F e u]
    simp only [access]
    split
    · exact writeLatch_action _ _ _ _
    · rfl
  rw [← accessed]
  change (if u.incSrc then ((e.prepared F u).access u (e.accessAddr F u)).addTo u.bus.addr 1
    else (e.prepared F u).access u (e.accessAddr F u)).scratch.memoryAction = _
  split
  · exact addTo_action _ _ _
  · rfl

theorem next_action [Bus β] (F : Flavor) (e : Exec β) (u : MicroOp) (rest : List MicroOp) :
    (e.next F u rest).1.scratch.memoryAction = e.scratch.memoryAction := by
  rw [← body_action F e u]
  simp only [next, turn]
  cases u.alu with
  | addOffset latch offset | incLatch latch => exact addTo_action _ _ _
  | specialAddOffset => exact addTo_action _ _ _
  | modify =>
      obtain ⟨_, _, _, eq⟩ := (e.body F u).1.modified_frame F
      dsimp only
      rw [eq]
  | offsetWithExtraCycle =>
      dsimp only
      split
      · rfl
      split
      · rfl
      · split <;> rfl
  | fixPtr =>
      dsimp only
      split
      · rfl
      · split <;> rfl
  | _ => rfl

/-! ## Pushes -/

section
variable [Bus β]

def pushing (e : Exec β) (value : U8) : Exec β where
  scratch := { e.scratch with dataLatch := value }
  ctx := { e.ctx with sp := e.ctx.sp - 1 }
  bus := Bus.write e.bus (e.scratch.address e.ctx .sp) value true false

theorem next_stored (F : Flavor) {e : Exec β} {data : U8}
    (stored : e.ctx.aluPrepareStore e.scratch = (e.ctx, { e.scratch with dataLatch := data }))
    (src : Latch) (rest : List MicroOp) : e.next F (.push src) rest =
      (e.pushing (if src ≠ .none then e.scratch.readLatch e.ctx src else data), rest) := by
  let prepared : Exec β := ⟨{ e.scratch with dataLatch := data }, e.ctx, e.bus⟩
  have store : e.prepareStore (.push src) = prepared := by
    rw [prepareStore, stored]
    rfl
  have body : e.body F (.push src) = ((e.prepareStore (.push src)).access (.push src)
    ((e.prepareStore (.push src)).scratch.address (e.prepareStore (.push src)).ctx .sp), none) := rfl
  have latch : prepared.scratch.readLatch e.ctx src = e.scratch.readLatch e.ctx src := by
    cases src <;> rfl
  rw [next, body, store, access, if_neg (by simp [MicroOp.push])]
  change (turn F ⟨{ e.scratch with dataLatch :=
    if src ≠ .none then prepared.scratch.readLatch e.ctx src else data }, _, Bus.write e.bus
    (e.scratch.address e.ctx .sp) (if src ≠ .none then prepared.scratch.readLatch e.ctx src
      else data) true false⟩ _ _ _) = _
  rw [latch]
  rfl

end

structure Storeless (e : Exec β) : Prop where
  action : e.scratch.memoryAction = .read
  mnemonic : e.ctx.instruction.mnemonic.action = .read

theorem Storeless.aluPrepareStore {e : Exec β} (storeless : e.Storeless) :
    e.ctx.aluPrepareStore e.scratch = (e.ctx, e.scratch) := by
  have read : e.scratch.memoryAction ≠ .readModifyWrite := by
    rw [storeless.action]
    decide
  have mnemonic := storeless.mnemonic
  rw [MicroCtx6502.aluPrepareStore, if_neg read]
  cases h : e.ctx.instruction.mnemonic <;> rw [h] at mnemonic <;> first
    | rfl
    | cases mnemonic

theorem next_push [Bus β] {e : Exec β} (storeless : e.Storeless) (F : Flavor) {src : Latch}
    (some : src ≠ .none) (rest : List MicroOp) :
    e.next F (.push src) rest = (e.pushing (e.scratch.readLatch e.ctx src), rest) := by
  rw [next_stored F storeless.aluPrepareStore src rest, if_pos some]

end Exec

end Rs65x
