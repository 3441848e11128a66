import TemplateCompiler.Number.Double
import TemplateCompiler.Proofs.Text.Digits

/-!
# Digits of doubles

The digits that a finite double is written with read back as the double
(`Double.ofDecimal?_shortest`). They were tried by reading them, unless the
double is a whole number or none of the shorter decimals was found fit; then
they are all of its digits, and a decimal that is a double is rounded to itself
(`Double.ofQuotient?_exact`). Whole numbers below `2 ^ 53` are doubles, and are
written with their own digits (`Double.exists_whole`).
-/

namespace TemplateCompiler.Double

variable {den k n : Nat}

variable {d : Double}

/-! ## Fields -/

theorem ofFields_fields (d : Double) :
    ofFields d.signBit d.exponentField d.fractionField = d := by
  obtain ⟨bits⟩ := d
  have bound := bits.toNat_lt
  rw [ofFields, Double.mk.injEq, ← UInt64.toNat_inj, UInt64.toNat_ofNat']
  simp only [signBit, exponentField, fractionField, decide_eq_true_eq]
  split <;> omega

theorem fields_ofFields {e f : Nat} (he : e < 2048) (hf : f < 2 ^ 52) :
    (ofFields false e f).exponentField = e ∧ (ofFields false e f).fractionField = f
      ∧ (ofFields false e f).signBit = false := by
  simp only [ofFields, signBit, exponentField, fractionField, UInt64.toNat_ofNat',
    decide_eq_false_iff_not]
  simp only [Bool.false_eq_true, if_false]
  omega

/-! ## Exact quotients -/

theorem roundDiv_mul (m : Nat) (pos : 0 < den) : roundDiv (m * den) den = m := by
  rw [roundDiv, Nat.mul_div_cancel m pos, Nat.mul_mod_left, if_pos (by omega)]

theorem log2_mul_pow {m : Nat} (pos : 0 < m) (k : Nat) : Nat.log2 (m * 2 ^ k) = Nat.log2 m + k := by
  have ne : m ≠ 0 := Nat.ne_of_gt pos
  rw [Nat.log2_eq_iff (Nat.mul_ne_zero ne (Nat.ne_of_gt (Nat.two_pow_pos k))), Nat.pow_add,
    Nat.add_right_comm, Nat.pow_add]
  exact ⟨Nat.mul_le_mul_right _ (Nat.log2_self_le ne),
    Nat.mul_lt_mul_of_pos_right Nat.lt_log2_self (Nat.two_pow_pos k)⟩

theorem exponent_of_zero (zero : d.exponentField = 0) :
    d.exponent = 1 ∧ d.significand = d.fractionField := by
  simp [exponent, significand, zero]

theorem exponent_of_ne (ne : d.exponentField ≠ 0) :
    d.exponent = d.exponentField ∧ d.significand = 2 ^ 52 + d.fractionField := by
  simp [exponent, significand, ne]
  omega

theorem fractionField_lt (d : Double) : d.fractionField < 2 ^ 52 := Nat.mod_lt _ (by decide)

/-- The last place of a double, counted from the finest. -/
def place (d : Double) : Nat := d.exponent + 25

theorem significand_lt (d : Double) : d.significand < 2 ^ 53 := by
  have fraction := d.fractionField_lt
  by_cases zero : d.exponentField = 0
  · have := exponent_of_zero zero; omega
  · have := exponent_of_ne zero; omega

theorem significand_pos (some_ : d.isZero = false) : 0 < d.significand := by
  by_cases zero : d.exponentField = 0
  · rw [(exponent_of_zero zero).2]
    exact Nat.pos_of_ne_zero (by simpa [isZero, zero] using some_)
  · rw [(exponent_of_ne zero).2]
    exact Nat.add_pos_left (by decide) _

/-- The last place is where rounding puts it. -/
theorem place_eq (some_ : 0 < d.significand) :
    max (Nat.log2 (d.significand * 2 ^ d.place) - 52) 26 = d.place := by
  have fraction := d.fractionField_lt
  have ne := Nat.ne_of_gt some_
  rw [log2_mul_pow some_, place]
  by_cases zero : d.exponentField = 0
  · obtain ⟨least, digits⟩ := exponent_of_zero zero
    have small : Nat.log2 d.significand < 52 := (Nat.log2_lt ne).2 (digits ▸ fraction)
    omega
  · obtain ⟨field, digits⟩ := exponent_of_ne zero
    have large : Nat.log2 d.significand = 52 := (Nat.log2_eq_iff ne).2 (by omega)
    omega

/-- **A quotient that is a double is rounded to it.** -/
theorem round?_exact (finite : d.exponentField < 2047) (some_ : 0 < d.significand) (pos : 0 < den) :
    round? d.signBit (d.significand * 2 ^ d.place * den) den = some d := by
  have rounded : roundDiv (d.significand * 2 ^ d.place * den) (den * 2 ^ d.place)
      = d.significand := by
    rw [Nat.mul_assoc, Nat.mul_comm _ den]
    exact roundDiv_mul _ (Nat.mul_pos pos (Nat.two_pow_pos _))
  have full : (d.significand == 2 ^ 53) = false :=
    beq_eq_false_iff_ne.2 (Nat.ne_of_lt d.significand_lt)
  have whole := ofFields_fields d
  simp only [round?, Nat.mul_div_cancel _ pos, place_eq some_, rounded, full, Bool.false_eq_true,
    if_false]
  by_cases zero : d.exponentField = 0
  · rw [(exponent_of_zero zero).2, if_pos d.fractionField_lt, ← zero, whole]
  · obtain ⟨field, digits⟩ := exponent_of_ne zero
    have behind : d.place - 25 = d.exponentField := by rw [place, field, Nat.add_sub_cancel]
    rw [digits, behind, if_neg (by omega), if_neg (by omega), Nat.add_sub_cancel_left, whole]

theorem finest_eq : finest = 1100 := rfl

theorem ofQuotient?_exact (finite : d.exponentField < 2047) (some_ : 0 < d.significand) {num : Nat}
    (pos : 0 < den) (same : num * 2 ^ finest = d.significand * 2 ^ d.place * den) :
    ofQuotient? d.signBit num den = some d := by
  rw [ofQuotient?, same, round?_exact finite some_ pos]

/-! ## Digits that read back -/

/-- Zeros at the end of a number go into its exponent. -/
theorem dropZeros_spec (n : Nat) (exp : Int) :
    ∃ k : Nat, (dropZeros n exp).2 = exp + k ∧ n = (dropZeros n exp).1 * 10 ^ k
      ∧ Bytes.decimal n = Bytes.decimal (dropZeros n exp).1 ++ List.replicate k Byte.zero := by
  fun_induction dropZeros n exp with
  | case1 n exp h => exact ⟨0, by simp, by simp, by simp⟩
  | case2 n exp h ih =>
    obtain ⟨k, exponent, value, digits⟩ := ih
    simp only [Bool.or_eq_true, not_or, beq_iff_eq, bne_iff_ne, not_not] at h
    refine ⟨k + 1, by omega, ?_, ?_⟩
    · rw [Nat.pow_succ, ← Nat.mul_assoc, ← value]
      omega
    · rw [Bytes.decimal, if_neg (by omega), digits, h.2, List.append_assoc]
      congr 1
      exact (List.replicate_succ' ..).symm

theorem ofDecimal?_whole (negative : Bool) (pos : 0 < n) (small : k ≤ 400) :
    ofDecimal? negative n k = ofQuotient? negative (n * 10 ^ k) 1 := by
  rw [ofDecimal?, if_neg (by rw [beq_iff_eq]; omega), if_neg (by omega), if_neg (by omega),
    if_pos (by omega), Int.toNat_natCast]

theorem ofDecimal?_shift (negative : Bool) (pos : 0 < n) (small : k ≤ 400) :
    ofDecimal? negative (n * 10 ^ k) 0 = ofDecimal? negative n k := by
  have shifted := Nat.mul_pos pos (Nat.pow_pos (n := k) (Nat.succ_pos 9))
  rw [← Int.ofNat_zero, ofDecimal?_whole negative shifted (Nat.zero_le _),
    ofDecimal?_whole negative pos small, Nat.pow_zero, Nat.mul_one]

theorem ofDecimal?_allDigits (finite : d.exponentField < 2047)
    (some_ : 0 < d.significand) : ofDecimal? d.signBit d.allDigits.1 d.allDigits.2 = some d := by
  have units := finest_eq
  rw [allDigits]
  split
  · next large =>
    have same : finest + (d.exponent - 1075) = d.place := by rw [units, place]; omega
    rw [← Int.ofNat_zero, ofDecimal?_whole _ (Nat.mul_pos some_ (Nat.two_pow_pos _)) (by omega)]
    exact ofQuotient?_exact finite some_ Nat.one_pos (by rw [← same, Nat.pow_add]; ring)
  · next small =>
    have same : finest = d.place + (1075 - d.exponent) := by rw [units, place]; omega
    have least : 1 ≤ d.exponent := Nat.le_max_right ..
    have digits : d.significand * 5 ^ (1075 - d.exponent) ≠ 0 :=
      Nat.mul_ne_zero (Nat.ne_of_gt some_) (Nat.ne_of_gt (Nat.pow_pos (by decide)))
    dsimp only
    rw [ofDecimal?, if_neg (by rwa [beq_iff_eq]), if_neg (by omega), if_neg (by omega),
      if_neg (by omega), show (-((d.exponent : Int) - 1075)).toNat = 1075 - d.exponent by omega]
    refine ofQuotient?_exact finite some_ (Nat.pow_pos (by decide)) ?_
    rw [same, Nat.pow_add, show 10 = 5 * 2 from rfl, Nat.mul_pow]
    ring

theorem whole?_eq_some (whole : d.whole? = some n) :
    d.exponent ≤ 1075 ∧ d.significand = n * 2 ^ (1075 - d.exponent) := by
  simp only [whole?, Option.ite_none_right_eq_some, Option.some.injEq] at whole
  obtain ⟨⟨small, even⟩, rfl⟩ := whole
  exact ⟨small, (Nat.div_mul_cancel (Nat.dvd_of_mod_eq_zero even)).symm⟩

theorem ofQuotient?_of_whole (finite : d.exponentField < 2047) (some_ : 0 < d.significand)
    (whole : d.whole? = some n) :
    ofQuotient? d.signBit n 1 = some d := by
  obtain ⟨small, digits⟩ := whole?_eq_some whole
  have same : finest = 1075 - d.exponent + d.place := by rw [finest_eq, place]; omega
  refine ofQuotient?_exact finite some_ Nat.one_pos ?_
  rw [digits, same, Nat.pow_add]
  ring

/-- The zeros at the end of a whole number below `2 ^ 53` are few. -/
theorem dropZeros_small (pos : 0 < n) (small : n < 2 ^ 53) :
    ∃ k : Nat, k < 17 ∧ (dropZeros n 0).2 = k ∧ n = (dropZeros n 0).1 * 10 ^ k
      ∧ Bytes.decimal n = Bytes.decimal (dropZeros n 0).1 ++ List.replicate k Byte.zero := by
  obtain ⟨k, exponent, value, digits⟩ := dropZeros_spec n 0
  refine ⟨k, ?_, by omega, value, digits⟩
  by_contra large
  have power : 10 ^ 17 ≤ 10 ^ k := Nat.pow_le_pow_right (by decide) (Nat.not_lt.1 large)
  have first : 10 ^ k ≤ n := Nat.le_of_dvd pos ⟨_, value.trans (Nat.mul_comm ..)⟩
  omega

theorem pos_of_ofDecimal? (some_ : 0 < d.significand) {negative : Bool} {exp : Int}
    (reads : ofDecimal? negative n exp = some d) : 0 < n := by
  refine Nat.pos_of_ne_zero fun zero => ?_
  obtain rfl : ofFields negative 0 0 = d := by simpa [ofDecimal?, zero] using reads
  cases negative <;> exact absurd some_ (by decide)

/-- **The digits of a number read back** as the number. -/
theorem ofDecimal?_shortest (finite : d.exponentField < 2047)
    (some_ : 0 < d.significand) :
    0 < d.shortest.1 ∧ ofDecimal? d.signBit d.shortest.1 d.shortest.2 = some d := by
  suffices reads : ofDecimal? d.signBit d.shortest.1 d.shortest.2 = some d from
    ⟨pos_of_ofDecimal? some_ reads, reads⟩
  rw [shortest]
  split
  · next n whole =>
    obtain ⟨small, digits⟩ := whole?_eq_some whole
    have pos : 0 < n := Nat.pos_of_ne_zero fun zero => by simp [digits, zero] at some_
    have bound : n < 2 ^ 53 := by
      refine Nat.lt_of_le_of_lt ?_ d.significand_lt
      rw [digits]
      exact Nat.le_mul_of_pos_right _ (Nat.two_pow_pos _)
    obtain ⟨k, few, exponent, value, -⟩ := dropZeros_small pos bound
    rw [exponent, ofDecimal?_whole _ (Nat.pos_of_mul_pos_right (value ▸ pos)) (by omega), ← value]
    exact ofQuotient?_of_whole finite some_ whole
  · dsimp only
    cases found : List.findSome? _ (List.range 17) with
    | none => exact ofDecimal?_allDigits finite some_
    | some p =>
      obtain ⟨n, -, near⟩ := List.exists_of_findSome?_eq_some found
      have reads := List.find?_some near
      exact eq_of_beq reads

/-- **Whole numbers are doubles.** -/
theorem exists_whole (pos : 0 < n) (small : n < 2 ^ 53) :
    ∃ d : Double, ofDecimal? false n 0 = some d ∧ d.isZero = false ∧ d.whole? = some n := by
  have ne := Nat.ne_of_gt pos
  obtain ⟨low, high⟩ := (Nat.log2_eq_iff ne).1 rfl
  have length : Nat.log2 n < 53 := (Nat.log2_lt ne).2 small
  generalize Nat.log2 n = l at *
  have shift : 2 ^ l * 2 ^ (52 - l) = 2 ^ 52 := by rw [← Nat.pow_add]; congr 1; omega
  have least : 2 ^ 52 ≤ n * 2 ^ (52 - l) := shift ▸ Nat.mul_le_mul_right _ low
  have most : n * 2 ^ (52 - l) < 2 * 2 ^ 52 := by
    rw [← shift, ← Nat.mul_assoc, ← Nat.pow_succ']
    exact Nat.mul_lt_mul_of_pos_right high (Nat.two_pow_pos _)
  obtain ⟨field, fraction, sign⟩ :=
    fields_ofFields (e := l + 1023) (f := n * 2 ^ (52 - l) - 2 ^ 52) (by omega) (by omega)
  generalize ofFields false (l + 1023) (n * 2 ^ (52 - l) - 2 ^ 52) = d at field fraction sign
  obtain ⟨exponent, digits⟩ := exponent_of_ne (d := d) (by omega)
  have digits : d.significand = n * 2 ^ (52 - l) := by omega
  have unit : 1075 - d.exponent = 52 - l := by omega
  have whole : d.whole? = some n := by
    rw [whole?, unit, digits, if_pos ⟨by omega, Nat.mul_mod_left ..⟩,
      Nat.mul_div_cancel _ (Nat.two_pow_pos _)]
  have reads : ofDecimal? false n 0 = some d := by
    rw [← Int.ofNat_zero, ofDecimal?_whole _ pos (by omega), Nat.pow_zero, Nat.mul_one, ← sign]
    exact ofQuotient?_of_whole (by omega) (by omega) whole
  exact ⟨d, reads, by simp [isZero, field], whole⟩

end TemplateCompiler.Double
