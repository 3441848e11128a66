import TemplateCompiler.Proofs.Text.Utf8

/-!
# Steps through text that is put together

The steps through two texts side by side are those through each of them, unless
the first one ends inside a code point and the second one goes on with it. So
they are if the first text is UTF-8 throughout or ends with a byte of ASCII
(`Utf8.Closed`), and if the second one does not start with a continuation byte
(`Utf8.runes_append_of_start`). What was read code point by code point is read
again from what they are written as (`Utf8.runes_ofPoints`).
-/

open List

namespace TemplateCompiler.Utf8

variable {bs cs : Bytes} {b : UInt8} {rest : Bytes} {code more : Nat}

/-- A code point that was read stays the same in front of more bytes. -/
theorem point?_append (h : point? bs = some (code, more)) (cs : Bytes) :
    point? (bs ++ cs) = some (code, more) := by
  cases bs with
  | nil => cases h
  | cons a rest =>
    rw [cons_append, point?.eq_def]
    rw [point?.eq_def] at h
    rcases rest with _ | ⟨b, _ | ⟨c, _ | ⟨d, rest⟩⟩⟩ <;> grind

theorem more_le (h : point? (b :: rest) = some (code, more)) : more ≤ rest.length := by
  rw [point?.eq_def] at h
  rcases rest with _ | ⟨b, _ | ⟨c, _ | ⟨d, rest⟩⟩⟩ <;> grind

/-- Whether a text starts with a byte that continues no code point. -/
def starts (bs : Bytes) : Bool := bs.head?.any fun b => !isContinuation b

/-- A byte that starts no code point still starts none if a text with a start
of its own follows. -/
theorem point?_append_none (h : point? (b :: rest) = none) (start : starts cs = true) :
    point? (b :: (rest ++ cs)) = none := by
  cases cs with
  | nil => cases start
  | cons c cs =>
    have other : isContinuation c = false := by simpa [starts] using start
    have low : ¬c < 0x80 → 0xbf < c := by
      intro high
      have range : ¬(0x80 ≤ c ∧ c ≤ 0xbf) := by simpa [isContinuation] using other
      grind
    rw [point?.eq_def] at h ⊢
    rcases rest with _ | ⟨b, _ | ⟨c, _ | ⟨d, rest⟩⟩⟩ <;> grind

/-- A code point takes no bytes but its own. -/
theorem point?_take (h : point? (b :: rest) = some (code, more)) (cs : Bytes) :
    point? (b :: rest.take more ++ cs) = some (code, more) := by
  rw [cons_append, point?.eq_def]
  rw [point?.eq_def] at h
  rcases rest with _ | ⟨b, _ | ⟨c, _ | ⟨d, rest⟩⟩⟩ <;> grind

/-- The step over a code point. -/
theorem runes_point (found : point? (b :: rest) = some (code, more)) (cs : Bytes) :
    runes (b :: rest ++ cs) = .point code :: runes (rest.drop more ++ cs) := by
  have read := point?_append found cs
  rw [cons_append] at read ⊢
  rw [runes, read]
  show Rune.point code :: runes ((rest ++ cs).drop more) = _
  rw [drop_append_of_le_length (more_le found)]

/-- Texts side by side, if the second has a start of its own. -/
theorem runes_append_of_start (start : starts cs = true) (bs : Bytes) :
    runes (bs ++ cs) = runes bs ++ runes cs := by
  fun_induction runes bs with
  | case1 => rfl
  | case2 b rest code more found ih =>
    rw [runes_point found, ih, cons_append]
  | case3 b rest found ih =>
    rw [cons_append, runes, point?_append_none found start, cons_append, ih]

/-- **A text that nothing runs into**: the steps through it stay the same,
whatever follows. -/
def Closed (bs : Bytes) : Prop := ∀ cs, runes (bs ++ cs) = runes bs ++ runes cs

theorem closed_of_isValid (valid : isValid bs = true) : Closed bs := by
  intro cs
  rw [isValid] at valid
  fun_induction runes bs with
  | case1 => rfl
  | case2 b rest code more found ih =>
    rw [all_cons, Bool.and_eq_true] at valid
    rw [runes_point found, ih valid.2, cons_append]
  | case3 b rest found ih => exact absurd valid (by simp)

theorem Closed.append (first : Closed bs) (second : Closed cs) : Closed (bs ++ cs) := by
  intro ds
  rw [append_assoc, first, second, first, append_assoc]

theorem starts_of_ascii (ascii : b < 0x80) (rest : Bytes) : starts (b :: rest) = true := by
  have low : ¬(0x80 : UInt8) ≤ b := UInt8.not_le.2 ascii
  simp [starts, isContinuation, low]

theorem runes_ascii_cons (ascii : b < 0x80) (rest : Bytes) :
    runes (b :: rest) = .point b.toNat :: runes rest := by
  have read : point? (b :: rest) = some (b.toNat, 0) := by rw [point?.eq_def]; exact if_pos ascii
  rw [runes, read]
  rfl

/-- No byte of a code point beyond ASCII is ASCII. -/
theorem high_of_point? (found : point? (b :: rest) = some (code, more)) (high : ¬b < 0x80) :
    0x80 ≤ code ∧ ∀ c ∈ b :: rest.take more, ¬c < 0x80 := by
  refine ⟨?_, ?_⟩
  · have bytes := encode_of_point? found
    refine Nat.le_of_not_lt fun low => high (UInt8.lt_iff_toNat_lt.2 ?_)
    rw [encode, if_pos low] at bytes
    rw [← (List.cons.inj bytes).1, UInt8.toNat_ofNat']
    exact Nat.lt_of_le_of_lt (Nat.mod_le ..) low
  · rw [point?.eq_def] at found
    rcases rest with _ | ⟨b, _ | ⟨c, _ | ⟨d, rest⟩⟩⟩ <;> grind [isContinuation]

theorem points_ascii_cons (ascii : b < 0x80) (bs : Bytes) :
    points (b :: bs) = b.toNat :: points bs := by
  rw [points, runes_ascii_cons ascii]
  rfl

theorem points_append_ascii (ascii : b < 0x80) (bs cs : Bytes) :
    points (bs ++ b :: cs) = points bs ++ b.toNat :: points cs := by
  rw [points, runes_append_of_start (starts_of_ascii ascii cs), map_append, ← points,
    ← points, points_ascii_cons ascii]

theorem head?_points {c : UInt8} (ascii : c < 0x80) (bs : Bytes) :
    (points bs).head? = some c.toNat ↔ bs.head? = some c := by
  cases bs with
  | nil => simp [points, runes]
  | cons b rest =>
    by_cases low : b < 0x80
    · simp [points_ascii_cons low, UInt8.toNat_inj]
    · have other : b ≠ c := fun same => low (same ▸ ascii)
      have small : c.toNat < 0x80 := UInt8.lt_iff_toNat_lt.1 ascii
      rw [points, runes]
      cases found : point? (b :: rest) with
      | none =>
        have mark : replacement ≠ c.toNat := by rw [replacement]; omega
        simp [other, mark]
      | some read =>
        have high := (high_of_point? found low).1
        have apart : read.1 ≠ c.toNat := by omega
        simp [other, apart]

/-- A text of ASCII is UTF-8. -/
theorem isValid_of_ascii (ascii : ∀ b ∈ bs, b < 0x80) : isValid bs = true := by
  rw [isValid]
  induction bs with
  | nil => rw [runes]; rfl
  | cons b bs ih =>
    obtain ⟨first, rest⟩ := forall_mem_cons.1 ascii
    rw [runes_ascii_cons first, all_cons, ih rest]
    rfl

/-- Whether a text ends with a byte of ASCII. -/
def endsAscii (bs : Bytes) : Bool := bs.getLast?.any (· < 0x80)

theorem closed_of_endsAscii (h : endsAscii bs = true) : Closed bs := by
  intro cs
  obtain ⟨b, last, ascii⟩ := (Option.any_eq_true _ _).1 h
  obtain ⟨front, rfl⟩ := getLast?_eq_some_iff.1 last
  have low : b < 0x80 := of_decide_eq_true ascii
  rw [append_assoc, singleton_append, runes_append_of_start (starts_of_ascii low cs),
    runes_append_of_start (starts_of_ascii low []), runes_ascii_cons low cs,
    runes_ascii_cons low []]
  simp [runes]

/-- Whether a text shares no code point with its neighbours, whatever they
are. -/
def isSeam (bs : Bytes) : Bool := starts bs && endsAscii bs

theorem isSeam.starts (h : isSeam bs = true) : starts bs = true := (Bool.and_eq_true_iff.1 h).1

theorem isSeam.closed (h : isSeam bs = true) : Closed bs :=
  closed_of_endsAscii (Bool.and_eq_true_iff.1 h).2

/-! ## Texts of code points -/

theorem points_append (closed : Closed bs) (cs : Bytes) : points (bs ++ cs) = points bs ++ points cs := by
  rw [points, closed, map_append]
  rfl

theorem points_of_ascii (ascii : ∀ b ∈ bs, b < 0x80) : points bs = bs.map UInt8.toNat := by
  induction bs with
  | nil => rw [points, runes]; rfl
  | cons b bs ih =>
    obtain ⟨first, rest⟩ := forall_mem_cons.1 ascii
    rw [points_ascii_cons first, ih rest]
    rfl

theorem mem_points_of_ascii (mem : b ∈ bs) (ascii : b < 0x80) : b.toNat ∈ points bs := by
  obtain ⟨front, back, rfl⟩ := append_of_mem mem
  rw [points_append_ascii ascii]
  simp

/-- A code point of a text is read again from its own bytes. -/
theorem runes_encode (mem : code ∈ points bs) (cs : Bytes) :
    runes (encode code ++ cs) = .point code :: runes cs := by
  have again {b : UInt8} {r : Bytes} {code more : Nat}
      (found : point? (b :: r) = some (code, more)) :
      runes (encode code ++ cs) = .point code :: runes cs := by
    have read := point?_take found []
    rw [append_nil] at read
    rw [encode_of_point? found, runes_point read, drop_take_self, nil_append]
  rw [points] at mem
  fun_induction runes bs with
  | case1 => cases mem
  | case2 b rest code' more found ih =>
    rcases mem_cons.1 mem with rfl | mem
    · exact again found
    · exact ih mem
  | case3 b rest found ih =>
    rcases mem_cons.1 mem with rfl | mem
    · exact again (b := 0xef) (r := [0xbf, 0xbd]) rfl
    · exact ih mem

theorem points_encode (mem : code ∈ points bs) : points (encode code) = [code] := by
  have read := runes_encode mem []
  rw [append_nil, runes] at read
  rw [points, read]
  rfl

theorem isValid_encode (mem : code ∈ points bs) : isValid (encode code) = true := by
  have read := runes_encode mem []
  rw [append_nil, runes] at read
  rw [isValid, read]
  rfl

theorem isValid_append (first : isValid bs = true) (second : isValid cs = true) :
    isValid (bs ++ cs) = true := by
  have steps := closed_of_isValid first cs
  rw [isValid] at first second ⊢
  rw [steps, all_append, first, second]
  rfl

/-- Code points of texts are read again from the text that is put together of
them. -/
theorem runes_ofPoints {codes : List Nat} (read : ∀ code ∈ codes, ∃ bs, code ∈ points bs) :
    runes (ofPoints codes) = codes.map .point := by
  induction codes with
  | nil => rw [ofPoints, flatMap_nil, runes]; rfl
  | cons code codes ih =>
    obtain ⟨⟨bs, mem⟩, others⟩ := forall_mem_cons.1 read
    rw [ofPoints, flatMap_cons, runes_encode mem, ← ofPoints, ih others, map_cons]

end TemplateCompiler.Utf8
