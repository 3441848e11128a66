import TemplateCompiler.Text.Bytes
import Mathlib

/-!
# Pieces of a text

Splitting a text at a separator gives back the pieces that are free of it.
-/

open List

namespace TemplateCompiler.Bytes

variable {sep : UInt8} {bs : Bytes}

theorem splitOn_ne_nil (sep : UInt8) (bs : Bytes) : splitOn sep bs ≠ [] := by
  cases bs with
  | nil => simp [splitOn]
  | cons b bs =>
    rw [splitOn]
    split
    · simp
    · split <;> simp

/-- A text without a separator in front joins the first piece. -/
theorem splitOn_append (apart : sep ∉ bs) (rest : Bytes) :
    splitOn sep (bs ++ rest) = (splitOn sep rest).modifyHead (bs ++ ·) := by
  induction bs with
  | nil =>
    rw [nil_append]
    cases splitOn sep rest <;> rfl
  | cons b bs ih =>
    obtain ⟨other, apart⟩ := not_or.1 (mt mem_cons.2 apart)
    rw [cons_append, splitOn, if_neg (by simpa using Ne.symm other), ih apart]
    cases pieces : splitOn sep rest with
    | nil => exact absurd pieces (splitOn_ne_nil sep rest)
    | cons piece more => rfl

theorem splitOn_cons (sep : UInt8) (bs : Bytes) : splitOn sep (sep :: bs) = [] :: splitOn sep bs := by
  rw [splitOn, if_pos (beq_self_eq_true sep)]

/-- Pieces with a separator in front of each of them. -/
theorem splitOn_flatMap {pieces : List Bytes} (first : sep ∉ bs) (apart : ∀ piece ∈ pieces, sep ∉ piece) :
    splitOn sep (bs ++ pieces.flatMap (sep :: ·)) = bs :: pieces := by
  induction pieces generalizing bs with
  | nil => rw [splitOn_append first]; simp [splitOn]
  | cons piece pieces ih =>
    obtain ⟨here, others⟩ := forall_mem_cons.1 apart
    rw [splitOn_append first, flatMap_cons, cons_append, splitOn_cons, ih here others]
    simp

/-- Pieces with a separator behind each of them. -/
theorem splitOn_ended {pieces : List Bytes} (apart : ∀ piece ∈ pieces, sep ∉ piece) (rest : Bytes) :
    splitOn sep (pieces.flatMap (· ++ [sep]) ++ rest) = pieces ++ splitOn sep rest := by
  induction pieces with
  | nil => rfl
  | cons piece pieces ih =>
    obtain ⟨here, others⟩ := forall_mem_cons.1 apart
    rw [flatMap_cons, append_assoc, append_assoc, splitOn_append here,
      singleton_append, splitOn_cons, ih others]
    simp

end TemplateCompiler.Bytes
