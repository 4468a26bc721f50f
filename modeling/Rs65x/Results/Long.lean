import Mathlib.Data.Nat.Digits.Defs
import Rs65x.Results.Binary

/-!
# Numbers of many words

The carry flag takes an addition or a subtraction from one word to the next, in either base.
-/

namespace Rs65x
open Fallible Positional

namespace Alu
open AluWord

section
variable {T : Type} [AluWord T]

/-- An operation on the words of two numbers, the lowest first. -/
def chain (op : T → T → U8 → Except Fault (AluResult T)) :
    List (T × T) → U8 → Except Fault (List T × U8)
  | [], p => .ok ([], p)
  | (a, b) :: words, p => do
      let r ← op a b p
      let (value, p) := r.apply p
      let (values, p) ← chain op words p
      return (value :: values, p)

def radix (p : U8) (semantics : DecimalSemantics) : Nat :=
  if flagSet p Psr.D = true ∧ semantics ≠ .none then 10 else 16

def Reads (r : Nat) (v : T) : Prop := ∀ j < nibbles T, digit 16 (widen v).toNat j < r

def numeral (r : Nat) (v : T) : Nat := recode 16 r (nibbles T) (widen v).toNat

def long (r : Nat) (vs : List T) : Nat := Nat.ofDigits (r ^ nibbles T) (vs.map (numeral r))

theorem radix_cases (p : U8) (semantics : DecimalSemantics) :
    radix p semantics = 10 ∧ flagSet p Psr.D = true ∧ semantics ≠ .none ∨
      radix p semantics = 16 ∧ IsBinary p semantics := by
  rw [radix]
  by_cases decimal : flagSet p Psr.D = true ∧ semantics ≠ .none
  · exact .inl ⟨if_pos decimal, decimal⟩
  · refine .inr ⟨if_neg decimal, ?_⟩
    rw [not_and_or, not_ne_iff, Bool.not_eq_true] at decimal
    exact decimal

theorem radix_le (p : U8) (semantics : DecimalSemantics) : 1 < radix p semantics ∧ radix p semantics ≤ 16 := by
  rcases radix_cases p semantics with ⟨ten, -⟩ | ⟨sixteen, -⟩
  · omega
  · omega

theorem radix_congr {p p' : U8} {semantics : DecimalSemantics}
    (same : flagSet p' Psr.D = flagSet p Psr.D) : radix p' semantics = radix p semantics := by
  rw [radix, radix, same]

theorem reads_sixteen (v : T) : Reads 16 v := fun j _ => digit_lt _ j

theorem numeral_lt {r : Nat} {v : T} (reads : Reads r v) : numeral r v < r ^ nibbles T := value_lt reads

theorem numeral_of_value {r : Nat} {v : T} {d : Nat → Nat} (le : r ≤ 16) (small : ∀ j < nibbles T, d j < r)
    (eq : (widen v).toNat = value 16 d (nibbles T)) :
    Reads r v ∧ numeral r v = value r d (nibbles T) := by
  have fits : ∀ j < nibbles T, d j < 16 := fun j lt => Nat.lt_of_lt_of_le (small j lt) le
  have digits : ∀ j < nibbles T, digit 16 (widen v).toNat j = d j := by
    intro j lt
    have here := digit_value fits 0 lt
    rwa [Nat.zero_mul, Nat.add_zero, ← eq] at here
  refine ⟨fun j lt => ?_, value_congr digits⟩
  rw [digits j lt]
  exact small j lt

omit [AluWord T] in
theorem apply_decimal (r : AluResult T) (p : U8) (mask : r.flagMask = arithMask) :
    flagSet (r.apply p).2 Psr.D = flagSet p Psr.D := by
  rw [flagSet, flagSet, apply_and r p (by rw [mask]; decide)]

omit [AluWord T] in
theorem apply_carry (r : AluResult T) (p : U8) (mask : r.flagMask = arithMask) :
    carryIn (r.apply p).2 = if flagSet r.flags Psr.C then 1 else 0 := by
  rw [carryIn, (flagSet_arith r p mask).1]

def WordLinks (op : T → T → U8 → DecimalSemantics → Profile → Except Fault (AluResult T))
    (link : Nat → Nat → Nat → Nat → Nat → Nat → Prop) : Prop :=
  ∀ (a b : T) (p : U8) (semantics : DecimalSemantics),
    Reads (radix p semantics) a → Reads (radix p semantics) b →
    Always (op a b p semantics) fun res => res.flagMask = arithMask ∧
      Reads (radix p semantics) res.value ∧
      link (radix p semantics ^ nibbles T) (numeral (radix p semantics) a)
        (numeral (radix p semantics) b) (carryIn p) (numeral (radix p semantics) res.value)
        (carryIn (res.apply p).2)

theorem chain_links {op : T → T → U8 → DecimalSemantics → Profile → Except Fault (AluResult T)}
    {link : Nat → Nat → Nat → Nat → Nat → Nat → Prop} (words : WordLinks op link)
    {semantics : DecimalSemantics} {l : List (T × T)} {p : U8} {r : Nat}
    (base : radix p semantics = r) (reads : ∀ word ∈ l, Reads r word.1 ∧ Reads r word.2) :
    Always (fun prof => chain (fun a b p => op a b p semantics prof) l p) fun out =>
      (∀ v ∈ out.1, Reads r v) ∧ flagSet out.2 Psr.D = flagSet p Psr.D ∧
        Linked (link (r ^ nibbles T)) ((l.map (·.1)).map (numeral r)) ((l.map (·.2)).map (numeral r))
          (carryIn p) (out.1.map (numeral r)) (carryIn out.2) := by
  induction l generalizing p with
  | nil => exact .ok ⟨fun _ mem => absurd mem List.not_mem_nil, rfl, .nil⟩
  | cons word l ih =>
      obtain ⟨a, b⟩ := word
      obtain ⟨⟨ha, hb⟩, reads⟩ := List.forall_mem_cons.1 reads
      subst base
      refine (words a b p semantics ha hb).bind fun res ⟨mask, here, linked⟩ => ?_
      have same := apply_decimal res p mask
      refine (ih (radix_congr same) reads).bind fun out ⟨further, decimal, rest⟩ => ?_
      exact .ok ⟨List.forall_mem_cons.2 ⟨here, further⟩, decimal.trans same, .cons linked rest⟩

end

section
variable {w : Nat} [AluWord (BitVec w)] [Word w]

theorem binary_sum (a b : BitVec w) {p : U8} {semantics : DecimalSemantics}
    (binary : IsBinary p semantics) : Always (adc · a b p semantics) (fun r => r.flagMask = arithMask ∧
      (widen r.value).toNat = value 16 (sum 16 (digit 16 (widen a).toNat) (digit 16 (widen b).toNat)
        (carryIn p)) (nibbles (BitVec w)) ∧
      (flagSet r.flags Psr.C = true ↔ carry 16 (digit 16 (widen a).toNat) (digit 16 (widen b).toNat)
        (carryIn p) (nibbles (BitVec w)) ≠ 0)) := by
  have le := carryIn_le p
  have total := value_sum le (reads_sixteen a) (reads_sixteen b)
  have small := value_lt fun j lt => (sum_digit le (reads_sixteen a j lt) (reads_sixteen b j lt)).1
  have bit := carry_le (b := 16) (x := digit 16 (widen a).toNat) (y := digit 16 (widen b).toNat) le
    (nibbles (BitVec w))
  have ones := toNat_mask (w := w)
  rw [value_digit, value_digit, toNat_widen, toNat_widen, nibbles_pow, Nat.mod_eq_of_lt a.isLt,
    Nat.mod_eq_of_lt b.isLt] at total
  rw [nibbles_pow, toNat_widen, toNat_widen] at small
  rw [toNat_widen, toNat_widen] at bit ⊢
  refine (adc_sum a b binary).mono fun res ⟨word, exact, eq⟩ => ?_
  subst eq
  rw [total] at exact
  have greater : word > mask (BitVec w) ↔ (mask (BitVec w)).toNat < word.toNat := Iff.rfl
  refine ⟨rfl, ?_, ?_⟩
  · change (widen (truncate word : BitVec w)).toNat = _
    rw [toNat_widen, Word.truncate_eq, BitVec.toNat_setWidth, exact, Nat.add_mul_mod_self_right,
      Nat.mod_eq_of_lt small]
  · rw [withArithFlags_C, decide_eq_true_eq, greater, exact]
    rcases Nat.le_one_iff_eq_zero_or_eq_one.1 bit with eq | eq
    · rw [eq]
      omega
    · rw [eq]
      omega

theorem adc_sums (a b : BitVec w) (p : U8) (semantics : DecimalSemantics)
    (ha : Reads (radix p semantics) a) (hb : Reads (radix p semantics) b) :
    Always (adc · a b p semantics) (fun r => r.flagMask = arithMask ∧
      (widen r.value).toNat = value 16 (sum (radix p semantics) (digit 16 (widen a).toNat)
        (digit 16 (widen b).toNat) (carryIn p)) (nibbles (BitVec w)) ∧
      (flagSet r.flags Psr.C = true ↔ carry (radix p semantics) (digit 16 (widen a).toNat)
        (digit 16 (widen b).toNat) (carryIn p) (nibbles (BitVec w)) ≠ 0)) := by
  rcases radix_cases p semantics with ⟨ten, decimal, some⟩ | ⟨sixteen, binary⟩
  · rw [ten] at ha hb ⊢
    refine (adc_digits (fun j lt => Nat.le_of_lt_succ (ha j lt)) (fun j lt => Nat.le_of_lt_succ (hb j lt))
      decimal some).mono fun res spec => ?_
    exact ⟨spec.1, spec.2.1, spec.2.2.1⟩
  · rw [sixteen]
    exact binary_sum a b binary

theorem sbc_differences (a b : BitVec w) (p : U8) (semantics : DecimalSemantics)
    (ha : Reads (radix p semantics) a) (hb : Reads (radix p semantics) b) :
    Always (sbc · a b p semantics) (fun r => r.flagMask = arithMask ∧
      (widen r.value).toNat = value 16 (difference (radix p semantics) (digit 16 (widen a).toNat)
        (digit 16 (widen b).toNat) (1 - carryIn p)) (nibbles (BitVec w)) ∧
      (flagSet r.flags Psr.C = true ↔ borrow (digit 16 (widen a).toNat) (digit 16 (widen b).toNat)
        (1 - carryIn p) (nibbles (BitVec w)) = 0)) := by
  rcases radix_cases p semantics with ⟨ten, decimal, some⟩ | ⟨sixteen, binary⟩
  · rw [ten] at ha hb ⊢
    refine (sbc_digits (fun j lt => Nat.le_of_lt_succ (ha j lt)) (fun j lt => Nat.le_of_lt_succ (hb j lt))
      decimal some).mono fun res spec => ?_
    exact ⟨spec.1, spec.2.1, spec.2.2.1⟩
  · rw [sixteen]
    refine (sbc_difference a b binary).mono fun res spec => ?_
    exact ⟨spec.1, spec.2.1, spec.2.2.1⟩

theorem adc_links : WordLinks (fun a b p semantics prof => adc prof (a : BitVec w) b p semantics)
    Adds := by
  intro a b p semantics ha hb
  have le := carryIn_le p
  have total := value_sum le ha hb
  have bit := carry_le (b := radix p semantics) (x := digit 16 (widen a).toNat)
    (y := digit 16 (widen b).toNat) le (nibbles (BitVec w))
  refine (adc_sums a b p semantics ha hb).mono fun res ⟨mask, value_eq, carry_iff⟩ => ?_
  obtain ⟨reads, number⟩ := numeral_of_value (radix_le p semantics).2
    (fun j lt => (sum_digit le (ha j lt) (hb j lt)).1) value_eq
  refine ⟨mask, reads, ?_⟩
  have out : carryIn (res.apply p).2 = carry (radix p semantics) (digit 16 (widen a).toNat)
      (digit 16 (widen b).toNat) (carryIn p) (nibbles (BitVec w)) := by
    rw [apply_carry res p mask]
    split
    · next set => exact (Nat.le_antisymm bit (Nat.pos_of_ne_zero (carry_iff.1 set))).symm
    · next clear => exact (not_not.1 (mt carry_iff.2 clear)).symm
  rw [Adds, number, out]
  exact total.symm

theorem sbc_links : WordLinks (fun a b p semantics prof => sbc prof (a : BitVec w) b p semantics)
    Subtracts := by
  intro a b p semantics ha hb
  have le : 1 - carryIn p ≤ 1 := Nat.sub_le 1 _
  have total := value_difference le ha hb
  have bit := borrow_le (x := digit 16 (widen a).toNat) (y := digit 16 (widen b).toNat) le
    (nibbles (BitVec w))
  refine (sbc_differences a b p semantics ha hb).mono fun res ⟨mask, value_eq, borrow_iff⟩ => ?_
  obtain ⟨reads, number⟩ := numeral_of_value (radix_le p semantics).2 (difference_lt le ha hb) value_eq
  refine ⟨mask, reads, ?_⟩
  have out : 1 - carryIn (res.apply p).2 = borrow (digit 16 (widen a).toNat)
      (digit 16 (widen b).toNat) (1 - carryIn p) (nibbles (BitVec w)) := by
    rw [apply_carry res p mask]
    split
    · next set => exact (borrow_iff.1 set).symm
    · next clear => exact (Nat.le_antisymm bit (Nat.pos_of_ne_zero (mt borrow_iff.2 clear))).symm
  rw [Subtracts, number, out, Nat.add_assoc]
  exact total.symm

/-! ## The numbers -/

theorem numeral_injective {r : Nat} {u v : BitVec w} (hu : Reads r u) (hv : Reads r v)
    (same : numeral r u = numeral r v) : u = v := by
  have digits : ∀ j < nibbles (BitVec w), digit 16 (widen u).toNat j = digit 16 (widen v).toNat j := by
    intro j lt
    have left := digit_value hu 0 lt
    have right := digit_value hv 0 lt
    rw [Nat.zero_mul, Nat.add_zero] at left right
    rw [← left, ← right]
    exact congrArg (digit r · j) same
  have values := value_congr (b := 16) digits
  rw [value_digit, value_digit, toNat_widen, toNat_widen, nibbles_pow, Nat.mod_eq_of_lt u.isLt,
    Nat.mod_eq_of_lt v.isLt] at values
  exact BitVec.eq_of_toNat_eq values

theorem numerals_injective {r : Nat} {us vs : List (BitVec w)} (hu : ∀ u ∈ us, Reads r u)
    (hv : ∀ v ∈ vs, Reads r v) (same : us.map (numeral r) = vs.map (numeral r)) : us = vs := by
  induction us generalizing vs with
  | nil => exact (List.map_eq_nil_iff.1 same.symm).symm
  | cons u us ih =>
      cases vs with
      | nil => cases same
      | cons v vs =>
          obtain ⟨first, rest⟩ := List.cons.inj same
          rw [List.forall_mem_cons] at hu hv
          rw [numeral_injective hu.1 hv.1 first, ih hu.2 hv.2 rest]

variable (w) in
def LongAdc : Prop := ∀ semantics (l : List (BitVec w × BitVec w)) (p : U8) (r : Nat),
  radix p semantics = r → (∀ word ∈ l, Reads r word.1 ∧ Reads r word.2) →
  ∃ values p', (∀ prof, chain (adc prof · · · semantics) l p = .ok (values, p')) ∧
    values.length = l.length ∧ (∀ v ∈ values, Reads r v) ∧
    long r values + carryIn p' * (r ^ nibbles (BitVec w)) ^ l.length =
      long r (l.map (·.1)) + long r (l.map (·.2)) + carryIn p

variable (w) in
def LongSbc : Prop := ∀ semantics (l : List (BitVec w × BitVec w)) (p : U8) (r : Nat),
  radix p semantics = r → (∀ word ∈ l, Reads r word.1 ∧ Reads r word.2) →
  ∃ values p', (∀ prof, chain (sbc prof · · · semantics) l p = .ok (values, p')) ∧
    values.length = l.length ∧ (∀ v ∈ values, Reads r v) ∧
    long r (l.map (·.1)) + (1 - carryIn p') * (r ^ nibbles (BitVec w)) ^ l.length =
      long r values + long r (l.map (·.2)) + (1 - carryIn p)

variable (w) in
def SbcUndoesAdc : Prop := ∀ semantics (l : List (BitVec w × BitVec w)) (p q : U8) (r : Nat),
  radix p semantics = r → radix q semantics = r → carryIn q = 1 - carryIn p →
  (∀ word ∈ l, Reads r word.1 ∧ Reads r word.2) →
  ∃ values p' q', (∀ prof, chain (adc prof · · · semantics) l p = .ok (values, p')) ∧
    (∀ prof, chain (sbc prof · · · semantics) (values.zip (l.map (·.2))) q = .ok (l.map (·.1), q')) ∧
    carryIn q' = 1 - carryIn p'

theorem adc_long : LongAdc w := by
  intro semantics l p r base reads
  obtain ⟨⟨values, p'⟩, ⟨fine, -, linked⟩, run⟩ := chain_links adc_links base reads
  have length := linked.lengths.2
  have sum := linked.sum
  simp only [List.length_map] at length sum
  exact ⟨values, p', run, length, fine, sum⟩

theorem sbc_long : LongSbc w := by
  intro semantics l p r base reads
  obtain ⟨⟨values, p'⟩, ⟨fine, -, linked⟩, run⟩ := chain_links sbc_links base reads
  have length := linked.lengths.2
  have sum := linked.backwards.sum
  simp only [List.length_map] at length sum
  rw [length] at sum
  exact ⟨values, p', run, length, fine, sum⟩

theorem nibbles_pos : 0 < nibbles (BitVec w) := by
  have bits := Word.bits (w := w)
  have pos := Word.pos (w := w)
  omega

theorem sbc_undoes : SbcUndoesAdc w := by
  intro semantics l p q r base base' turned reads
  obtain ⟨⟨values, p'⟩, ⟨fine, -, adds⟩, run⟩ := chain_links adc_links base reads
  have length := adds.lengths.2
  simp only [List.length_map] at length
  have pairs : ∀ word ∈ values.zip (l.map (·.2)), Reads r word.1 ∧ Reads r word.2 := by
    rintro ⟨v, b⟩ mem
    obtain ⟨left, right⟩ := List.of_mem_zip mem
    obtain ⟨word, mem', rfl⟩ := List.mem_map.1 right
    exact ⟨fine v left, (reads word mem').2⟩
  have firsts : (values.zip (l.map (·.2))).map (·.1) = values :=
    List.map_fst_zip (by rw [List.length_map, length])
  have seconds : (values.zip (l.map (·.2))).map (·.2) = l.map (·.2) :=
    List.map_snd_zip (by rw [List.length_map, length])
  obtain ⟨⟨us, q'⟩, ⟨fine', -, subtracts⟩, run'⟩ := chain_links sbc_links base' pairs
  rw [firsts, seconds] at subtracts
  have reads' : ∀ v ∈ l.map (·.1), Reads r v := by
    intro v mem
    obtain ⟨word, mem', rfl⟩ := List.mem_map.1 mem
    exact (reads word mem').1
  have below {vs : List (BitVec w)} (reads : ∀ v ∈ vs, Reads r v) :
      ∀ x ∈ vs.map (numeral r), x < r ^ nibbles (BitVec w) := by
    intro x mem
    obtain ⟨v, mem', rfl⟩ := List.mem_map.1 mem
    exact numeral_lt (reads v mem')
  have one := (radix_le p semantics).1
  rw [base] at one
  have bit := carryIn_le p
  obtain ⟨same, out⟩ := adds.undo subtracts (Nat.one_lt_pow nibbles_pos.ne' one) (by omega) (below reads')
    (below fine') (carryIn_le p')
  cases numerals_injective fine' reads' same
  have bit' := carryIn_le q'
  refine ⟨values, p', q', run, run', ?_⟩
  dsimp only at out
  omega

end

/-! ## Sixteen bits at a time -/

section
open Words

theorem digit_halves (v : U16) : (∀ j < 2, digit 16 (widen v).toNat j = digit 16 (widen (loByte v)).toNat j) ∧
    ∀ j < 2, digit 16 (widen v).toNat (2 + j) = digit 16 (widen (hiByte v)).toNat j := by
  have low := toNat_loByte v
  have high := toNat_hiByte v
  have small := v.isLt
  rw [toNat_widen, toNat_widen, toNat_widen, low, high]
  refine ⟨fun j lt => ?_, fun j lt => ?_⟩
  · interval_cases j <;> simp only [digit] <;> omega
  · interval_cases j <;> simp only [digit] <;> omega

theorem reads_halves {r : Nat} {v : U16} : Reads r v ↔ Reads r (loByte v) ∧ Reads r (hiByte v) := by
  obtain ⟨low, high⟩ := digit_halves v
  constructor
  · intro reads
    refine ⟨fun j lt => low j lt ▸ reads j ?_, fun j lt => high j lt ▸ reads (2 + j) ?_⟩
    · exact Nat.lt_of_lt_of_le lt (by decide)
    · exact Nat.add_lt_add_left lt 2
  · rintro ⟨left, right⟩ j lt
    rcases Nat.lt_or_ge j 2 with less | more
    · exact low j less ▸ left j less
    · obtain ⟨k, rfl⟩ := Nat.exists_eq_add_of_le more
      have less : k < 2 := Nat.lt_of_add_lt_add_left lt
      exact high k less ▸ right k less

theorem numeral_halves (r : Nat) (v : U16) :
    numeral r v = numeral r (loByte v) + r ^ nibbles U8 * numeral r (hiByte v) := by
  obtain ⟨low, high⟩ := digit_halves v
  change value r _ 4 = value r _ 2 + r ^ 2 * value r _ 2
  simp only [value_succ, value_zero]
  rw [low 0 (by decide), low 1 (by decide), high 0 (by decide), high 1 (by decide)]
  ring

/-- A sixteen-bit operation is the eight-bit one on both halves, the low one first. -/
def ByHalves (op8 : U8 → U8 → U8 → DecimalSemantics → Profile → Except Fault (AluResult U8))
    (op16 : U16 → U16 → U8 → DecimalSemantics → Profile → Except Fault (AluResult U16)) : Prop :=
  ∀ (a b : U16) (p : U8) semantics, Reads (radix p semantics) a → Reads (radix p semantics) b →
    ∃ res p', (∀ prof, op16 a b p semantics prof = .ok res) ∧
      (∀ prof, chain (fun a b p => op8 a b p semantics prof) [(loByte a, loByte b), (hiByte a, hiByte b)] p =
        .ok ([loByte res.value, hiByte res.value], p')) ∧ carryIn p' = carryIn (res.apply p).2

theorem by_halves {op8 : U8 → U8 → U8 → DecimalSemantics → Profile → Except Fault (AluResult U8)}
    {op16 : U16 → U16 → U8 → DecimalSemantics → Profile → Except Fault (AluResult U16)}
    {link : Nat → Nat → Nat → Nat → Nat → Nat → Prop} (bytes : WordLinks op8 link)
    (words : WordLinks op16 link)
    (unique : ∀ {b x y c z z' c' c'' : Nat}, link b x y c z c' → link b x y c z' c'' → z < b → z' < b →
      c' ≤ 1 → c'' ≤ 1 → z = z' ∧ c' = c'')
    (pair : ∀ {b x x' y y' c z z' c' c'' : Nat}, link b x y c z c' → link b x' y' c' z' c'' →
      link (b * b) (x + b * x') (y + b * y') c (z + b * z') c'') : ByHalves op8 op16 := by
  intro a b p semantics ha hb
  obtain ⟨res, ⟨-, reads, whole⟩, run⟩ := words a b p semantics ha hb
  have halves : ∀ word ∈ [(loByte a, loByte b), (hiByte a, hiByte b)],
      Reads (radix p semantics) word.1 ∧ Reads (radix p semantics) word.2 := by
    rw [reads_halves] at ha hb
    simpa using ⟨⟨ha.1, hb.1⟩, ha.2, hb.2⟩
  obtain ⟨⟨values, p'⟩, ⟨fine, -, links⟩, run'⟩ := chain_links bytes rfl halves
  obtain ⟨lo, hi, rfl⟩ : ∃ lo hi, values = [lo, hi] := by
    have length := links.lengths.2
    simp only [List.length_map] at length
    exact List.length_eq_two.1 length
  cases links with
  | cons low rest =>
    cases rest with
    | cons high rest =>
      cases rest
      have both := pair low high
      rw [← numeral_halves, ← numeral_halves] at both
      have joined := numeral_halves (radix p semantics) (fromLeBytes lo hi)
      rw [loByte_fromLeBytes, hiByte_fromLeBytes] at joined
      rw [← joined] at both
      have reads' : Reads (radix p semantics) (fromLeBytes lo hi) := by
        rw [reads_halves, loByte_fromLeBytes, hiByte_fromLeBytes]
        simpa using fine
      have square : radix p semantics ^ nibbles U8 * radix p semantics ^ nibbles U8 =
          radix p semantics ^ nibbles U16 := (Nat.pow_add _ 2 2).symm
      rw [square] at both
      obtain ⟨same, carries⟩ := unique whole both (numeral_lt reads) (numeral_lt reads') (carryIn_le _)
        (carryIn_le _)
      have value : res.value = fromLeBytes lo hi := numeral_injective reads reads' same
      refine ⟨res, p', run, ?_, carries.symm⟩
      rw [value, loByte_fromLeBytes, hiByte_fromLeBytes]
      exact run'

end

/-- Word by word the ALU adds and subtracts numbers of any length, in binary and in decimal, in both
widths and under all semantics; the widths agree with each other. -/
theorem long_arithmetic : LongAdc 8 ∧ LongAdc 16 ∧ LongSbc 8 ∧ LongSbc 16 ∧
    SbcUndoesAdc 8 ∧ SbcUndoesAdc 16 ∧
    ByHalves (fun a b p semantics prof => adc prof a b p semantics)
      (fun a b p semantics prof => adc prof a b p semantics) ∧
    ByHalves (fun a b p semantics prof => sbc prof a b p semantics)
      (fun a b p semantics prof => sbc prof a b p semantics) :=
  ⟨adc_long, adc_long, sbc_long, sbc_long, sbc_undoes, sbc_undoes,
    by_halves adc_links adc_links Adds.unique Adds.pair,
    by_halves sbc_links sbc_links Subtracts.unique fun low high => Adds.pair low high⟩

end Alu
end Rs65x
