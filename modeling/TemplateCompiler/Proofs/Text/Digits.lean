import TemplateCompiler.Text.Bytes
import Mathlib

/-!
# Digits

A number is written in base ten by `Bytes.decimal` and read by
`Bytes.digitsValue`. Reading undoes writing (`Bytes.digitsValue_decimal`), so
no two numbers are written alike.
-/

open List

namespace TemplateCompiler

/-- A decimal digit is its value behind the zero. -/
theorem Byte.toNat_hexDigit {n : Nat} (h : n < 10) : (Byte.hexDigit n).toNat = 0x30 + n := by
  rw [Byte.hexDigit, if_pos h, UInt8.toNat_ofNat']
  omega

/-- The digits below ten are decimal digits. -/
theorem Byte.isDigit_hexDigit {n : Nat} (h : n < 10) : Byte.isDigit (Byte.hexDigit n) = true := by
  have value := Byte.toNat_hexDigit h
  have low : Byte.zero ≤ Byte.hexDigit n := by
    rw [UInt8.le_iff_toNat_le, value]
    exact Nat.le_add_right 48 n
  have high : Byte.hexDigit n ≤ 0x39 := by
    rw [UInt8.le_iff_toNat_le, value]
    exact Nat.add_le_add_left (Nat.le_of_lt_succ h) 48
  simp [Byte.isDigit, low, high]

namespace Bytes

theorem digitsValue_concat (ds : Bytes) (d : UInt8) :
    digitsValue (ds ++ [d]) = 10 * digitsValue ds + (d.toNat - 0x30) := by
  rw [digitsValue, foldl_append]
  rfl

/-- **Reading the digits of a number** gives the number. -/
theorem digitsValue_decimal (n : Nat) : digitsValue (decimal n) = n := by
  induction n using Nat.strongRecOn with
  | ind n ih =>
    rw [decimal]
    split
    · next small =>
      have digit := Byte.toNat_hexDigit small
      simp [digitsValue, digit]
    · next large =>
      have digit := Byte.toNat_hexDigit (Nat.mod_lt n (show 0 < 10 by decide))
      rw [digitsValue_concat, ih (n / 10) (Nat.div_lt_self (by omega) (by decide)), digit]
      omega

theorem decimal_injective : Function.Injective decimal :=
  Function.LeftInverse.injective digitsValue_decimal

/-- Numbers are written with digits only. -/
theorem isDigit_of_mem_decimal {n : Nat} {b : UInt8} (h : b ∈ decimal n) :
    Byte.isDigit b = true := by
  induction n using Nat.strongRecOn with
  | ind n ih =>
    rw [decimal] at h
    split at h
    · next small => exact mem_singleton.mp h ▸ Byte.isDigit_hexDigit small
    · next large =>
      rcases mem_append.mp h with front | last
      · exact ih (n / 10) (Nat.div_lt_self (by omega) (by decide)) front
      · rw [mem_singleton.mp last]
        exact Byte.isDigit_hexDigit (Nat.mod_lt n (by decide))

theorem decimal_ne_nil (n : Nat) : decimal n ≠ [] := by
  rw [decimal]
  split <;> simp

theorem digitsValue_zeros (ds : Bytes) (k : Nat) :
    digitsValue (List.replicate k Byte.zero ++ ds) = digitsValue ds := by
  induction k with
  | zero => rfl
  | succ k ih => rw [replicate_succ, cons_append, ← ih]; rfl

theorem digitsValue_shift (ds : Bytes) (k : Nat) :
    digitsValue (ds ++ List.replicate k Byte.zero) = digitsValue ds * 10 ^ k := by
  induction k with
  | zero => simp
  | succ k ih =>
    rw [replicate_succ', ← append_assoc, digitsValue_concat, ih, Nat.pow_succ]
    exact (Nat.mul_comm ..).trans (Nat.mul_assoc ..)

/-- Numbers are written without leading zeros. -/
theorem head?_decimal {n : Nat} (pos : 0 < n) : ∃ b, (decimal n).head? = some b ∧ b ≠ Byte.zero := by
  induction n using Nat.strongRecOn with
  | ind n ih =>
    rw [decimal]
    split
    · next small =>
      refine ⟨_, rfl, fun zero => ?_⟩
      have value := Byte.toNat_hexDigit small
      rw [zero] at value
      exact absurd value (by simp [Byte.zero]; omega)
    · obtain ⟨b, first, other⟩ := ih (n / 10) (Nat.div_lt_self pos (by decide)) (by omega)
      exact ⟨b, by rw [head?_append, first]; rfl, other⟩

theorem length_decimal {n k : Nat} (small : n < 10 ^ (k + 1)) : (decimal n).length ≤ k + 1 := by
  induction k generalizing n with
  | zero => rw [decimal, if_pos (by omega)]; rfl
  | succ k ih =>
    rw [decimal]
    split
    · exact Nat.le_add_left ..
    · rw [length_append]
      exact Nat.succ_le_succ (ih (Nat.div_lt_of_lt_mul (by rwa [Nat.pow_succ'] at small)))

end Bytes

end TemplateCompiler
