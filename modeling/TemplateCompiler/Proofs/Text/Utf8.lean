import TemplateCompiler.Text.Utf8
import Mathlib

/-!
# Valid text

A code point that was read from the front of a text is written with the bytes
it was read from (`Utf8.encode_of_point?`). So a text that is UTF-8 throughout
is the text of its code points (`Utf8.ofPoints_points`).
-/

namespace TemplateCompiler.Utf8

variable {a b c : UInt8}

theorem ofNat_eq {n : Nat} (h : n = b.toNat) : UInt8.ofNat n = b := by
  rw [h, UInt8.ofNat_toNat]

theorem isContinuation_iff :
    isContinuation b = true ↔ 0x80 ≤ b.toNat ∧ b.toNat ≤ 0xbf := by
  rw [isContinuation, Bool.and_eq_true, decide_eq_true_eq, decide_eq_true_eq,
    UInt8.le_iff_toNat_le, UInt8.le_iff_toNat_le]
  rfl

/-! ## Code points by the number of their bytes -/

theorem encode_one (ha : a.toNat < 0x80) : encode a.toNat = [a] := by
  rw [encode, if_pos ha, UInt8.ofNat_toNat]

theorem encode_two (ha : 0xc2 ≤ a.toNat ∧ a.toNat ≤ 0xdf) (hb : 0x80 ≤ b.toNat ∧ b.toNat ≤ 0xbf) :
    encode (a.toNat % 32 * 64 + payload b) = [a, b] := by
  rw [payload]
  generalize hn : a.toNat % 32 * 64 + b.toNat % 64 = n
  rw [encode, if_neg (by omega), if_pos (by omega), ofNat_eq (b := a) (by omega),
    ofNat_eq (b := b) (by omega)]

theorem encode_three (ha : 0xe0 ≤ a.toNat ∧ a.toNat ≤ 0xef) (hb : 0x80 ≤ b.toNat ∧ b.toNat ≤ 0xbf)
    (hc : 0x80 ≤ c.toNat ∧ c.toNat ≤ 0xbf) (least : a.toNat = 0xe0 → 0xa0 ≤ b.toNat) :
    encode (a.toNat % 16 * 4096 + payload b * 64 + payload c) = [a, b, c] := by
  rw [payload, payload]
  generalize hn : a.toNat % 16 * 4096 + b.toNat % 64 * 64 + c.toNat % 64 = n
  rw [encode, if_neg (by omega), if_neg (by omega), if_pos (by omega),
    ofNat_eq (b := a) (by omega), ofNat_eq (b := b) (by omega), ofNat_eq (b := c) (by omega)]

theorem encode_four {d : UInt8} (ha : 0xf0 ≤ a.toNat ∧ a.toNat ≤ 0xf4)
    (hb : 0x80 ≤ b.toNat ∧ b.toNat ≤ 0xbf) (hc : 0x80 ≤ c.toNat ∧ c.toNat ≤ 0xbf)
    (hd : 0x80 ≤ d.toNat ∧ d.toNat ≤ 0xbf) (least : a.toNat = 0xf0 → 0x90 ≤ b.toNat) :
    encode (a.toNat % 8 * 262144 + payload b * 4096 + payload c * 64 + payload d) =
      [a, b, c, d] := by
  rw [payload, payload, payload]
  generalize hn :
    a.toNat % 8 * 262144 + b.toNat % 64 * 4096 + c.toNat % 64 * 64 + d.toNat % 64 = n
  rw [encode, if_neg (by omega), if_neg (by omega), if_neg (by omega),
    ofNat_eq (b := a) (by omega), ofNat_eq (b := b) (by omega), ofNat_eq (b := c) (by omega),
    ofNat_eq (b := d) (by omega)]

/-! ## Whole texts -/

/-- The range of the second byte lies among the continuation bytes. -/
theorem second_range {edge least far most : UInt8} (hl : 0x80 ≤ least.toNat)
    (hm : most.toNat ≤ 0xbf) (h : (if a == edge then least else (0x80 : UInt8)).toNat ≤ b.toNat ∧
      b.toNat ≤ (if a == far then most else (0xbf : UInt8)).toNat) :
    (0x80 ≤ b.toNat ∧ b.toNat ≤ 0xbf) ∧ (a.toNat = edge.toNat → least.toNat ≤ b.toNat) := by
  refine ⟨⟨Nat.le_trans ?_ h.1, Nat.le_trans h.2 ?_⟩, fun same => ?_⟩
  · split
    · exact hl
    · decide
  · split
    · exact hm
    · decide
  · rw [UInt8.toNat_inj.mp same, if_pos (beq_self_eq_true edge)] at h
    exact h.1

/-- **Reading a code point and writing it** gives its bytes back. -/
theorem encode_of_point? {rest : Bytes} {code more : Nat}
    (h : point? (a :: rest) = some (code, more)) : encode code = a :: rest.take more := by
  have bound (x y : UInt8) : (decide (x ≤ y)) = true ↔ x.toNat ≤ y.toNat := by
    rw [decide_eq_true_eq, UInt8.le_iff_toNat_le]
  rw [point?.eq_def] at h
  simp only [Bool.and_eq_true, bound, isContinuation_iff] at h
  split at h
  · next one =>
    obtain ⟨rfl, rfl⟩ := Prod.mk.inj (Option.some.inj h)
    exact encode_one (UInt8.lt_iff_toNat_lt.mp one)
  split at h
  · next two =>
    split at h
    · obtain ⟨tail, h⟩ := Option.ite_none_right_eq_some.mp h
      obtain ⟨rfl, rfl⟩ := Prod.mk.inj (Option.some.inj h)
      exact encode_two two tail
    · exact absurd h (by simp)
  split at h
  · next three =>
    split at h
    · obtain ⟨⟨second, third⟩, h⟩ := Option.ite_none_right_eq_some.mp h
      obtain ⟨rfl, rfl⟩ := Prod.mk.inj (Option.some.inj h)
      obtain ⟨tail, least⟩ := second_range (by decide) (by decide) second
      exact encode_three three tail third least
    · exact absurd h (by simp)
  split at h
  · next four =>
    split at h
    · obtain ⟨⟨⟨second, third⟩, fourth⟩, h⟩ := Option.ite_none_right_eq_some.mp h
      obtain ⟨rfl, rfl⟩ := Prod.mk.inj (Option.some.inj h)
      obtain ⟨tail, least⟩ := second_range (by decide) (by decide) second
      exact encode_four four tail third fourth least
    · exact absurd h (by simp)
  · exact absurd h (by simp)

/-- **A text that is UTF-8 throughout** is the text of its code points. -/
theorem ofPoints_points {bs : Bytes} (valid : isValid bs = true) : ofPoints (points bs) = bs := by
  rw [isValid] at valid
  rw [points]
  fun_induction runes bs with
  | case1 => rfl
  | case2 b rest code more found ih =>
    rw [List.all_cons, Bool.and_eq_true] at valid
    rw [List.map_cons, ofPoints, List.flatMap_cons, encode_of_point? found, ← ofPoints, ih valid.2,
      List.cons_append, List.take_append_drop]
  | case3 b rest found ih => exact absurd valid (by simp)

end TemplateCompiler.Utf8
