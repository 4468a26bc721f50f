import Mathlib.Data.BitVec
import Mathlib.Tactic.IntervalCases

/-!
# Bytes inside words

Masks, shifts and the two halves of a 16-bit word, also when the word sits in a 32-bit latch.
-/

namespace Words
open BitVec

def fromLeBytes (lo hi : BitVec 8) : BitVec 16 := (hi.setWidth 16 <<< 8) ||| lo.setWidth 16

def loByte (w : BitVec 16) : BitVec 8 := w.setWidth 8

def hiByte (w : BitVec 16) : BitVec 8 := (w >>> 8).setWidth 8

theorem getLsbD_fromLeBytes (lo hi : BitVec 8) (i : Nat) :
    (fromLeBytes lo hi).getLsbD i = if i < 8 then lo.getLsbD i else hi.getLsbD (i - 8) := by
  simp only [fromLeBytes, getLsbD_or, getLsbD_shiftLeft, getLsbD_setWidth]
  by_cases h : i < 8
  · simp [h]
    omega
  · by_cases h' : i < 16
    · simp [h, h', BitVec.getLsbD_of_ge lo i (by omega)]
      omega
    · simp [h, h', BitVec.getLsbD_of_ge hi (i - 8) (by omega)]

@[simp] theorem loByte_fromLeBytes (lo hi : BitVec 8) : loByte (fromLeBytes lo hi) = lo := by
  ext i h
  simp [loByte, ← getLsbD_eq_getElem, getLsbD_fromLeBytes, h]

@[simp] theorem hiByte_fromLeBytes (lo hi : BitVec 8) : hiByte (fromLeBytes lo hi) = hi := by
  ext i h
  simp [hiByte, ← getLsbD_eq_getElem, getLsbD_fromLeBytes, h]

@[simp] theorem fromLeBytes_halves (w : BitVec 16) : fromLeBytes (loByte w) (hiByte w) = w := by
  ext i h
  simp only [← getLsbD_eq_getElem, getLsbD_fromLeBytes, loByte, hiByte, getLsbD_setWidth,
    getLsbD_ushiftRight]
  split
  · simp_all
  · simp [show i - 8 < 8 by omega, show 8 + (i - 8) = i by omega]

theorem toNat_fromLeBytes (lo hi : BitVec 8) :
    (fromLeBytes lo hi).toNat = hi.toNat * 256 + lo.toNat := by
  have hlo := lo.isLt
  have hhi := hi.isLt
  rw [fromLeBytes, toNat_or, toNat_shiftLeft, toNat_setWidth, toNat_setWidth,
    Nat.mod_eq_of_lt (by omega), Nat.mod_eq_of_lt (by omega), Nat.shiftLeft_eq,
    Nat.mod_eq_of_lt (by omega), Nat.mul_comm, Nat.two_pow_add_eq_or_of_lt (by omega)]

theorem toNat_loByte (w : BitVec 16) : (loByte w).toNat = w.toNat % 256 := by
  simp [loByte]

theorem toNat_hiByte (w : BitVec 16) : (hiByte w).toNat = w.toNat / 256 := by
  have lt := w.isLt
  simp [hiByte, Nat.shiftRight_eq_div_pow]
  omega

theorem fromLeBytes_succ {w : BitVec 16} (inPage : loByte w ≠ 0xFF) :
    fromLeBytes (loByte w + 1#8) (hiByte w) = w + 1#16 := by
  have lt := w.isLt
  have low : w.toNat % 256 ≠ 255 := by
    intro eq
    refine inPage (eq_of_toNat_eq ?_)
    rw [toNat_loByte, eq]
    rfl
  apply eq_of_toNat_eq
  rw [toNat_fromLeBytes, toNat_add, toNat_add, toNat_loByte, toNat_hiByte]
  simp only [toNat_ofNat]
  omega

/-! ## A half at a time -/

theorem replace_lo (w : BitVec 16) (v : BitVec 8) :
    (w &&& 0xFF00#16) ||| v.setWidth 16 = fromLeBytes v (hiByte w) := by
  apply eq_of_getLsbD_eq
  intro i h
  simp only [getLsbD_fromLeBytes, hiByte, getLsbD_or, getLsbD_and, getLsbD_setWidth,
    getLsbD_ushiftRight]
  interval_cases i <;> simp

theorem replace_hi (w : BitVec 16) (v : BitVec 8) :
    (w &&& 0x00FF#16) ||| (v.setWidth 16 <<< 8) = fromLeBytes (loByte w) v := by
  apply eq_of_getLsbD_eq
  intro i h
  simp only [getLsbD_fromLeBytes, loByte, getLsbD_or, getLsbD_and, getLsbD_setWidth,
    getLsbD_shiftLeft]
  interval_cases i <;> simp

theorem mask_lo (w : BitVec 16) : w &&& 0xFF#16 = (loByte w).setWidth 16 := by
  apply eq_of_getLsbD_eq
  intro i h
  simp only [loByte, getLsbD_and, getLsbD_setWidth]
  interval_cases i <;> simp

/-! ## A word in a 32-bit latch -/

theorem replace_lo32 (w : BitVec 16) (v : BitVec 8) :
    (w.setWidth 32 &&& ~~~(0xFF#32)) ||| v.setWidth 32 =
      (fromLeBytes v (hiByte w)).setWidth 32 := by
  apply eq_of_getLsbD_eq
  intro i h
  simp only [getLsbD_fromLeBytes, hiByte, getLsbD_or, getLsbD_and, getLsbD_setWidth,
    getLsbD_ushiftRight, getLsbD_not]
  interval_cases i <;> simp

theorem replace_hi32 (w : BitVec 16) (v : BitVec 8) :
    (w.setWidth 32 &&& ~~~(0xFF00#32)) ||| (v.setWidth 32 <<< 8) =
      (fromLeBytes (loByte w) v).setWidth 32 := by
  apply eq_of_getLsbD_eq
  intro i h
  simp only [getLsbD_fromLeBytes, loByte, getLsbD_or, getLsbD_and, getLsbD_setWidth,
    getLsbD_shiftLeft, getLsbD_not]
  interval_cases i <;> simp

theorem mask_lo32 (w : BitVec 16) :
    w.setWidth 32 &&& 0xFF#32 = ((loByte w).setWidth 16).setWidth 32 := by
  apply eq_of_getLsbD_eq
  intro i h
  simp only [loByte, getLsbD_and, getLsbD_setWidth]
  interval_cases i <;> simp

/-! ## A word that shares its latch -/

theorem loByte_setWidth (x : BitVec 32) : loByte (x.setWidth 16) = x.setWidth 8 := by
  rw [loByte, setWidth_setWidth_of_le _ (by decide)]

theorem hiByte_setWidth (x : BitVec 32) : hiByte (x.setWidth 16) = (x >>> 8).setWidth 8 := by
  ext i h
  simp only [hiByte, getElem_setWidth, getLsbD_ushiftRight, getLsbD_setWidth]
  simp [show 8 + i < 16 by omega]

theorem setWidth_replace_lo (x : BitVec 32) (v : BitVec 8) :
    ((x &&& ~~~(0xFF#32)) ||| v.setWidth 32).setWidth 16 =
      fromLeBytes v (hiByte (x.setWidth 16)) := by
  rw [← replace_lo, setWidth_or, setWidth_and, setWidth_setWidth_of_le _ (by decide)]
  rfl

theorem setWidth_replace_hi (x : BitVec 32) (v : BitVec 8) :
    ((x &&& ~~~(0xFF00#32)) ||| (v.setWidth 32 <<< 8)).setWidth 16 =
      fromLeBytes (loByte (x.setWidth 16)) v := by
  have shifted : (v.setWidth 32 <<< 8).setWidth 16 = v.setWidth 16 <<< 8 := by
    apply eq_of_getLsbD_eq
    intro i h
    simp only [getLsbD_setWidth, getLsbD_shiftLeft]
    interval_cases i <;> simp
  rw [← replace_hi, setWidth_or, setWidth_and, shifted]
  rfl

theorem and_replace {x y kept mask : BitVec 32} (inside : kept &&& mask = mask)
    (outside : y &&& mask = 0#32) : ((x &&& kept) ||| y) &&& mask = x &&& mask := by
  rw [and_or_distrib_right, BitVec.and_assoc, inside, outside, BitVec.or_zero]

theorem fromLeBytes_zero (v : BitVec 8) : fromLeBytes v 0#8 = v.setWidth 16 := by
  simp [fromLeBytes]

/-! ## Sixteen bits of a 32-bit latch -/

/-- The upper half of the latch is zero. -/
def Fits (x : BitVec 32) : Prop := x.toNat < 0x10000

instance (x : BitVec 32) : Decidable (Fits x) := inferInstanceAs (Decidable (_ < _))

theorem fits_setWidth {w : Nat} (v : BitVec w) (le : w ≤ 16) : Fits (v.setWidth 32) := by
  have := Nat.pow_le_pow_right (n := 2) (by omega) le
  have := v.isLt
  rw [Fits, toNat_setWidth, Nat.mod_eq_of_lt] <;> omega

theorem Fits.and_eq_zero {x mask : BitVec 32} (h : Fits x) (upper : 0xFFFF#32 &&& mask = 0#32) :
    x &&& mask = 0#32 := by
  have low : x &&& 0xFFFF#32 = x := by
    apply eq_of_toNat_eq
    rw [toNat_and]
    exact (Nat.and_two_pow_sub_one_eq_mod _ 16).trans (Nat.mod_eq_of_lt h)
  rw [← low, BitVec.and_assoc, upper, BitVec.and_zero]

theorem fits_and {x : BitVec 32} (h : Fits x) (m : BitVec 32) : Fits (x &&& m) := by
  rw [Fits, toNat_and]
  exact Nat.lt_of_le_of_lt Nat.and_le_left h

theorem fits_or {x y : BitVec 32} (h : Fits x) (h' : Fits y) : Fits (x ||| y) := by
  rw [Fits, toNat_or]
  exact Nat.or_lt_two_pow (n := 16) h h'

theorem fits_shiftLeft (v : BitVec 8) : Fits (v.setWidth 32 <<< 8) := by
  have := v.isLt
  rw [Fits, toNat_shiftLeft, toNat_setWidth, Nat.shiftLeft_eq]
  omega

theorem fits_add {x y : BitVec 32} (h : x.toNat + y.toNat < 0x10000) : Fits (x + y) := by
  rw [Fits, toNat_add]
  omega

theorem fits_pred {w : BitVec 16} (positive : w ≠ 0) : Fits (w.setWidth 32 - 1) := by
  have : w.toNat ≠ 0 := fun zero => positive (eq_of_toNat_eq zero)
  have := w.isLt
  rw [Fits, toNat_sub, toNat_setWidth]
  change (2 ^ 32 - 1 + w.toNat % 2 ^ 32) % 2 ^ 32 < 0x10000
  omega

theorem add_lo32 (x : BitVec 32) (o : BitVec 16) (small : x.toNat % 256 + o.toNat < 256) :
    (x &&& ~~~(0xFF#32)) ||| (x.setWidth 8 + o.setWidth 8 : BitVec 8).setWidth 32 =
      x + o.setWidth 32 := by
  have high : x &&& ~~~(0xFF#32) = (x >>> 8) <<< 8 := by
    apply eq_of_getLsbD_eq
    intro i h
    simp only [getLsbD_and, getLsbD_not, getLsbD_shiftLeft, getLsbD_ushiftRight]
    interval_cases i <;> simp
  apply eq_of_toNat_eq
  have bound := x.isLt
  have lo : (x.setWidth 8 + o.setWidth 8 : BitVec 8).toNat = x.toNat % 256 + o.toNat := by
    rw [toNat_add, toNat_setWidth, toNat_setWidth]
    omega
  have shifted : ((x >>> 8) <<< 8).toNat = 2 ^ 8 * (x.toNat / 256) := by
    rw [toNat_shiftLeft, toNat_ushiftRight, Nat.shiftLeft_eq, Nat.shiftRight_eq_div_pow]
    omega
  rw [high, toNat_or, shifted, toNat_setWidth, lo, Nat.mod_eq_of_lt (by omega),
    ← Nat.two_pow_add_eq_or_of_lt (by omega), toNat_add, toNat_setWidth]
  omega

theorem setWidth_pred (w : BitVec 16) : ((w.setWidth 32 - 1#32).setWidth 16 : BitVec 16) = w - 1#16 := by
  have bound := w.isLt
  apply eq_of_toNat_eq
  rw [toNat_setWidth, toNat_sub, toNat_sub, toNat_setWidth]
  simp only [toNat_ofNat]
  omega

theorem add_lo_iff (w : BitVec 16) (o : BitVec 8) :
    (fromLeBytes (loByte w + o) (hiByte w)).setWidth 32 =
        w.setWidth 32 + (o.setWidth 16 : BitVec 16).setWidth 32 ↔ (loByte w).toNat + o.toNat < 256 := by
  have bound := w.isLt
  have small := o.isLt
  rw [← BitVec.toNat_inj, toNat_setWidth, toNat_fromLeBytes, toNat_add, toNat_add, toNat_setWidth,
    toNat_setWidth, toNat_setWidth, toNat_loByte, toNat_hiByte]
  omega

theorem add_lo {w : BitVec 16} {o : BitVec 8} (small : (loByte w).toNat + o.toNat < 256) :
    fromLeBytes (loByte w + o) (hiByte w) = w + o.setWidth 16 := by
  have bound := w.isLt
  apply eq_of_toNat_eq
  rw [toNat_loByte] at small
  rw [toNat_fromLeBytes, toNat_add, toNat_add, toNat_setWidth, toNat_loByte, toNat_hiByte]
  omega

/-! ## The carry out of the low byte -/

theorem loByte_add (w : BitVec 16) (o : BitVec 8) : loByte (w + o.setWidth 16) = loByte w + o := by
  apply eq_of_toNat_eq
  have small := o.isLt
  rw [toNat_loByte, toNat_add, toNat_add, toNat_loByte, toNat_setWidth]
  omega

theorem loByte_add_lt (w : BitVec 16) (o : BitVec 8) :
    loByte (w + o.setWidth 16) < o ↔ 256 ≤ (loByte w).toNat + o.toNat := by
  have small := o.isLt
  have bound := (loByte w).isLt
  rw [loByte_add, lt_def, toNat_add]
  omega

theorem hiByte_add (w : BitVec 16) (o : BitVec 8) : hiByte (w + o.setWidth 16) =
    hiByte w + if 256 ≤ (loByte w).toNat + o.toNat then 1 else 0 := by
  have bound := w.isLt
  have small := o.isLt
  apply eq_of_toNat_eq
  rw [toNat_loByte, toNat_hiByte, toNat_add, toNat_add, toNat_setWidth, toNat_hiByte]
  split
  · change _ = (w.toNat / 256 + 1) % 2 ^ 8
    omega
  · change _ = (w.toNat / 256 + 0) % 2 ^ 8
    omega

theorem fromLeBytes_carry (w : BitVec 16) :
    (if loByte w + 1#8 = 0 then fromLeBytes (loByte w + 1#8) (hiByte w) + 0x100#16
      else fromLeBytes (loByte w + 1#8) (hiByte w)) = w + 1#16 := by
  split
  · next wraps =>
      have lt := w.isLt
      have low := congrArg BitVec.toNat wraps
      have zero : (0 : BitVec 8).toNat = 0 := rfl
      rw [zero, toNat_add, toNat_loByte] at low
      apply eq_of_toNat_eq
      rw [wraps, toNat_add, toNat_fromLeBytes, toNat_add, toNat_hiByte, zero]
      simp only [toNat_ofNat] at low ⊢
      omega
  · next stays =>
      refine fromLeBytes_succ fun top => stays ?_
      rw [top]
      rfl

theorem eq_top_of_carry {w : BitVec 16} (top : fromLeBytes (loByte w + 1#8) (hiByte w) = 0xFF00#16) :
    w = 0xFFFF#16 := by
  have lt := w.isLt
  have both := congrArg BitVec.toNat top
  rw [toNat_fromLeBytes, toNat_add, toNat_loByte, toNat_hiByte] at both
  apply eq_of_toNat_eq
  simp only [toNat_ofNat] at both ⊢
  omega

end Words
