import Rs65x.Proof.Frame

/-!
# The upper half of EA

EA is a 32-bit latch. Its upper half stays zero in every micro-op but the three that add to the
whole latch without wrapping, and so does that of the address on the bus, but for the two accesses
at PC - 1.
-/

namespace Rs65x
open Fallible Words

namespace MicroExecutor

theorem fits_address {scratch : MicroExecutor} (fits : Fits scratch.ea) (ctx : MicroCtx6502)
    (latch : Latch) : Fits (scratch.address ctx latch) := by
  cases latch with
  | constant | pc | ptr | ptrLo => exact fits_setWidth _ (by omega)
  | sp =>
      have bound := ctx.sp.isLt
      refine fits_add ?_
      rw [toNat_stackBase, BitVec.toNat_setWidth]
      omega
  | ea => exact fits
  | eaLo => exact fits_and fits _
  | _ => exact Nat.zero_lt_succ _

theorem fits_writeLatch (scratch : MicroExecutor) (fits : Fits scratch.ea) (ctx : MicroCtx6502)
    (latch : Latch) (value : U8) : Fits (scratch.writeLatch ctx latch value).1.ea := by
  cases latch with
  | ea | eaLo => exact fits_or (fits_and fits _) (fits_setWidth _ (by omega))
  | eaHi => exact fits_or (fits_and fits _) (fits_shiftLeft _)
  | _ => exact fits

end MicroExecutor

namespace Exec
variable {β : Type}

theorem fits_addTo {e : Exec β} (fits : Fits e.scratch.ea) {latch : Latch} (other : latch ≠ .ea)
    (offset : U16) : Fits (e.addTo latch offset).scratch.ea := by
  cases latch with
  | ea => exact absurd rfl other
  | eaLo | eaHi => exact fits_or (fits_and fits _) (fits_setWidth _ (by omega))
  | _ => exact fits

theorem prepareStore_read (e : Exec β) {u : MicroOp} (read : u.bus.read = true) :
    e.prepareStore u = e := by simp [prepareStore, read]

theorem fits_hPlusOne (ea : U32) (a offset opReg : U8) :
    Fits (hPlusOneNonsense ea a offset opReg).1 := by
  unfold hPlusOneNonsense
  exact fits_setWidth _ (by omega)

theorem fits_prepareStore {e : Exec β} (fits : Fits e.scratch.ea) (u : MicroOp) :
    Fits (e.prepareStore u).scratch.ea := by
  simp only [prepareStore]
  split
  · exact fits
  · simp only [MicroCtx6502.aluPrepareStore]
    split
    · exact fits
    · split
      all_goals first | exact fits | exact fits_hPlusOne _ _ _ _

theorem fits_access [Bus β] {e : Exec β} (fits : Fits e.scratch.ea) (u : MicroOp) (addr : U32) :
    Fits (e.access u addr).scratch.ea := by
  simp only [access]
  split
  · refine MicroExecutor.fits_writeLatch _ ?_ _ _ _
    exact fits
  · exact fits

theorem modified_ea (F : Flavor) (e : Exec β) : (e.modified F).scratch.ea = e.scratch.ea := by
  obtain ⟨eq, -⟩ := (e.ctx.aluModify_always F e.scratch).eq_get .release .release (e.ctx, e.scratch)
  obtain ⟨a, status, op0, same⟩ :=
    ((e.ctx.aluModify_always F e.scratch).eq_get .release .release (e.ctx, e.scratch)).2
  simp only [modified, same]

def pageCrossed (e : Exec β) (offset : U16) : Prop :=
  256 ≤ e.scratch.ea.toNat % 256 + offset.toNat

/-- What keeps a micro-op inside 64K. -/
def InRange (F : Flavor) (e : Exec β) (u : MicroOp) : Prop :=
  match u.alu with
  | .offsetWithExtraCycle offset =>
      e.scratch.ea.toNat + (e.ctx.offset offset).toNat < 0x10000 ∧
      (F.invalidAddrRead = false → (e.pageCrossed (e.ctx.offset offset) ∨
        e.scratch.memoryAction = .write ∨
        e.scratch.memoryAction = .readModifyWrite ∧ isIncdecAbsX e.ctx.opcode) → e.ctx.pc ≠ 0)
  | .specialAddOffset => e.ctx.pc ≠ 0 ∧ e.scratch.ea.toNat + e.ctx.x.toNat < 0x10000
  | _ => u.incSrc = true ∧ u.bus.addr = .ea → e.scratch.ea.toNat + 1 < 0x10000

instance (e : Exec β) (offset : U16) : Decidable (e.pageCrossed offset) :=
  inferInstanceAs (Decidable (_ ≤ _))

instance (F : Flavor) (e : Exec β) (u : MicroOp) : Decidable (e.InRange F u) :=
  match u with
  | ⟨_, _, _, alu⟩ =>
      match alu with
      | .offsetWithExtraCycle _ | .specialAddOffset => inferInstanceAs (Decidable (_ ∧ _))
      | .none | .addOffset .. | .decSp | .modify | .swapEaPc | .incLatch _ | .branch | .setPc _ | .jam
      | .fixPtr => inferInstanceAs (Decidable (_ → _))

theorem offsetWithExtraCycle_fits {F : Flavor} {e : Exec β} {offset : OffsetType}
    (fits : Fits e.scratch.ea)
    (sum : e.scratch.ea.toNat + (e.ctx.offset offset).toNat < 0x10000)
    (dummy : F.invalidAddrRead = false → (e.pageCrossed (e.ctx.offset offset) ∨
      e.scratch.memoryAction = .write ∨
      e.scratch.memoryAction = .readModifyWrite ∧ isIncdecAbsX e.ctx.opcode) → e.ctx.pc ≠ 0) :
    Fits (e.offsetWithExtraCycle F offset).1 ∧
      ∀ addr, (e.offsetWithExtraCycle F offset).2 = some addr → Fits addr := by
  have target : Fits (e.scratch.ea + (e.ctx.offset offset).setWidth 32) := by
    refine fits_add ?_
    rw [BitVec.toNat_setWidth, Nat.mod_eq_of_lt (by omega)]
    exact sum
  have invalid : Fits ((e.scratch.ea &&& ~~~(0xFF : U32)) |||
      (e.scratch.ea.setWidth 8 + (e.ctx.offset offset).setWidth 8 : U8).setWidth 32) :=
    fits_or (fits_and fits _) (fits_setWidth _ (by omega))
  simp only [offsetWithExtraCycle]
  split
  · next need =>
      refine ⟨?_, fun addr eq => by cases eq; exact target⟩
      split
      · exact invalid
      · next guessed =>
          have crossed : e.pageCrossed (e.ctx.offset offset) ∨ e.scratch.memoryAction = .write ∨
              e.scratch.memoryAction = .readModifyWrite ∧ isIncdecAbsX e.ctx.opcode := by
            simp only [Bool.or_eq_true, Bool.and_eq_true, decide_eq_true_eq, or_assoc] at need
            refine need.imp_left fun differ => ?_
            by_contra small
            exact differ (add_lo32 _ _ (Nat.lt_of_not_le small))
          exact fits_pred (dummy (by simpa using guessed) crossed)
  · exact ⟨invalid, fun _ none => by cases none⟩

theorem turn_fits {F : Flavor} {e : Exec β} {u : MicroOp} {fixedAddr : Option U32}
    (rest : List MicroOp) (fits : Fits e.scratch.ea) (special : u.alu ≠ .specialAddOffset)
    (latch_ok : match u.alu with
      | .addOffset latch _ | .incLatch latch => latch ≠ .ea
      | _ => True)
    (fixed : ∀ addr, fixedAddr = some addr → Fits addr) :
    Fits (e.turn F u fixedAddr rest).1.scratch.ea := by
  unfold turn
  cases alu : u.alu with
  | addOffset latch offset | incLatch latch => exact fits_addTo fits (by simpa [alu] using latch_ok) _
  | specialAddOffset => exact absurd alu special
  | offsetWithExtraCycle offset =>
      cases fixedAddr with
      | some addr => exact fixed addr rfl
      | none =>
          dsimp only
          split
          · exact fits
          · split <;> exact fits
  | modify => rw [← modified_ea F e] at fits; exact fits
  | swapEaPc => exact fits_setWidth _ (by omega)
  | fixPtr =>
      dsimp only
      split
      · exact fits
      · split <;> exact fits
  | _ => exact fits

theorem increment_form {u : MicroOp} (form : u.addsToEa) (inc : u.incSrc = true)
    (whole : u.bus.addr = .ea) : u.bus.read = true ∧ u.localLatch = .pcLo ∧ u.alu = .none := by
  unfold MicroOp.addsToEa at form
  cases alu : u.alu <;> simp_all

theorem next_fits [Bus β] {F : Flavor} {e : Exec β} {u : MicroOp} (rest : List MicroOp)
    (form : u.addsToEa) (fits : Fits e.scratch.ea) (range : e.InRange F u) :
    Fits (e.accessAddr F u) ∧ Fits (e.next F u rest).1.scratch.ea := by
  by_cases special : u.alu = .specialAddOffset
  · simp only [MicroOp.addsToEa, special, Bool.and_eq_true, decide_eq_true_eq,
      Bool.not_eq_true'] at form
    obtain ⟨⟨⟨read, addr⟩, inc⟩, dest⟩ := form
    simp only [InRange, special] at range
    have prepared : e.prepared F u = e := by
      simp [Exec.prepared, prepareStore_read e read, special, prepareAlu]
    constructor
    · simp only [accessAddr, special, if_true, prepared, addr]
      exact fits_pred range.1
    · have sum : Fits (e.scratch.ea + e.ctx.regX.setWidth 32) := by
        have := e.ctx.x.isLt
        refine fits_add ?_
        rw [MicroCtx6502.regX, BitVec.toNat_setWidth, BitVec.toNat_setWidth,
          Nat.mod_eq_of_lt (by omega), Nat.mod_eq_of_lt (by omega)]
        exact range.2
      simp only [next, body, prepareStore_read e read, special, prepareAlu, inc, access, read, dest,
        turn, if_true, Bool.false_eq_true, if_false]
      exact sum
  have prepared : Fits (e.prepared F u).scratch.ea ∧
      ∀ addr, ((e.prepareStore u).prepareAlu F u.alu).2 = some addr → Fits addr := by
    cases alu : u.alu with
    | offsetWithExtraCycle offset =>
        simp only [MicroOp.addsToEa, alu, Bool.and_eq_true] at form
        simp only [InRange, alu] at range
        simp only [Exec.prepared, prepareStore_read e form.1.1.1, alu]
        exact offsetWithExtraCycle_fits fits range.1 range.2
    | _ =>
        simp only [Exec.prepared, alu, prepareAlu]
        exact ⟨fits_prepareStore fits u, fun _ none => by cases none⟩
  have addr : Fits (e.accessAddr F u) := by
    simp only [accessAddr, if_neg special]
    exact MicroExecutor.fits_address prepared.1 _ _
  refine ⟨addr, turn_fits rest ?_ special ?_ prepared.2⟩
  · simp only [body]
    split
    · next inc =>
        by_cases whole : u.bus.addr = .ea
        · obtain ⟨read, dest, alu⟩ := increment_form form inc whole
          simp only [InRange, alu] at range
          have sum : Fits (e.scratch.ea + 1) := fits_add (range ⟨inc, whole⟩)
          simp only [prepareStore_read e read, alu, prepareAlu, access, read, dest, whole, if_true]
          exact sum
        · exact fits_addTo (fits_access prepared.1 _ _) whole _
    · exact fits_access prepared.1 _ _
  · cases alu : u.alu with
    | addOffset latch offset | incLatch latch =>
        simp only [MicroOp.addsToEa, alu, Bool.and_eq_true, decide_eq_true_eq] at form
        exact form.1
    | _ => trivial

end Exec

end Rs65x
