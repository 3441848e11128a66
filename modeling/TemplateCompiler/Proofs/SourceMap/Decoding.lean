import TemplateCompiler.Proofs.Text.Pieces
import TemplateCompiler.SourceMap.Basic

/-!
# Reading source maps

The rules by which the mappings of a source map are read: lines stand between
semicolons and the segments of a line between commas. A segment has four
numbers, each relative to the segment before it; the generated column starts at
zero on every line.

`Mapping.decode?` follows these rules and knows nothing of how mappings are
written. Reading what was written gives the mappings back
(`Mapping.encode_readBack`), as long as their lines are in order.
-/

open List

namespace TemplateCompiler

/-! ## Numbers -/

namespace Base64

/-- The number that a digit stands for. -/
def value? (b : UInt8) : Option Nat := alphabet.findIdx? (· == b)

theorem value?_digit {n : Nat} (h : n < 64) : value? (digit n) = some n := by
  have all : ∀ n : Fin 64, value? (digit n) = some n.val := by decide +kernel
  exact all ⟨n, h⟩

end Base64

namespace Vlq

/-- The natural number at the front of a text, and what follows it. -/
def decodeNat? : Bytes → Option (Nat × Bytes)
  | [] => none
  | b :: rest => do
    let d ← Base64.value? b
    if d < 32 then some (d, rest)
    else do
      let (n, rest) ← decodeNat? rest
      some (d - 32 + 32 * n, rest)

/-- The integer at the front of a text, and what follows it. An odd number
stands for a negative one. -/
def decode? (bs : Bytes) : Option (Int × Bytes) := do
  let (n, rest) ← decodeNat? bs
  some (if n % 2 = 1 then -((n / 2 : Nat) : Int) else ((n / 2 : Nat) : Int), rest)

theorem decodeNat?_encodeNat (n : Nat) (rest : Bytes) :
    decodeNat? (encodeNat n ++ rest) = some (n, rest) := by
  induction n using Nat.strongRecOn with
  | ind n ih =>
    rw [encodeNat]
    split
    · next small =>
      rw [singleton_append, decodeNat?, Base64.value?_digit (by omega)]
      exact if_pos small
    · next large =>
      rw [cons_append, decodeNat?, Base64.value?_digit (by omega), ih (n / 32) (by omega)]
      simp only [Option.bind_eq_bind, Option.bind_some]
      rw [if_neg (by omega), Nat.add_sub_cancel, Nat.mod_add_div]

/-- **An integer is read back** from its digits, and no others are read. -/
theorem decode?_encode (n : Int) (rest : Bytes) : decode? (encode n ++ rest) = some (n, rest) := by
  cases n with
  | ofNat n =>
    rw [encode, decode?, decodeNat?_encodeNat]
    simp only [Option.bind_eq_bind, Option.bind_some]
    rw [if_neg (by omega), Nat.mul_div_cancel_left n (by decide)]
    rfl
  | negSucc n =>
    rw [encode, decode?, decodeNat?_encodeNat]
    simp only [Option.bind_eq_bind, Option.bind_some]
    have half : (2 * (n + 1) + 1) / 2 = n + 1 := by omega
    rw [if_pos (by omega), half]
    rfl

/-- Whether a byte separates the segments or lines of a map. -/
def isSeparator (b : UInt8) : Bool := b == Byte.comma || b == 0x3b

theorem not_isSeparator_digit {n : Nat} (h : n < 64) : isSeparator (Base64.digit n) = false := by
  have all : ∀ n : Fin 64, isSeparator (Base64.digit n) = false := by decide +kernel
  exact all ⟨n, h⟩

theorem encodeNat_plain (n : Nat) : ∀ b ∈ encodeNat n, isSeparator b = false := by
  induction n using Nat.strongRecOn with
  | ind n ih =>
    rw [encodeNat]
    split
    · exact forall_mem_singleton.2 (not_isSeparator_digit (by omega))
    · exact forall_mem_cons.2 ⟨not_isSeparator_digit (by omega), ih (n / 32) (by omega)⟩

theorem encode_plain (n : Int) : ∀ b ∈ encode n, isSeparator b = false := by
  cases n <;> exact encodeNat_plain _

end Vlq

namespace Mapping

/-! ## Mappings -/

/-- The mapping of a segment, which has four numbers. -/
def ofSegment? (before : Mapping) (segment : Bytes) : Option Mapping := do
  let (column, rest) ← Vlq.decode? segment
  let (source, rest) ← Vlq.decode? rest
  let (sourceLine, rest) ← Vlq.decode? rest
  let (sourceColumn, rest) ← Vlq.decode? rest
  if rest.isEmpty then
    some { line := before.line, column := before.column + column, source := before.source + source
           sourceLine := before.sourceLine + sourceLine
           sourceColumn := before.sourceColumn + sourceColumn }
  else none

/-- Where the next line starts. -/
def nextLine (m : Mapping) : Mapping := { m with line := m.line + 1, column := 0 }

/-- The segments of a line. -/
def segments (line : Bytes) : List Bytes := if line.isEmpty then [] else Bytes.splitOn Byte.comma line

/-- The mappings of the segments of a line, and the last of them. -/
def ofSegments? (before : Mapping) : List Bytes → Option (List Mapping × Mapping)
  | [] => some ([], before)
  | segment :: segments => do
    let m ← ofSegment? before segment
    let (ms, last) ← ofSegments? m segments
    some (m :: ms, last)

/-- The mappings of lines. -/
def ofLines? (before : Mapping) : List Bytes → Option (List Mapping)
  | [] => some []
  | line :: lines => do
    let (ms, last) ← ofSegments? before (segments line)
    let more ← ofLines? last.nextLine lines
    some (ms ++ more)

/-- **The mappings that a text stands for.** -/
def decode? (text : Bytes) : Option (List Mapping) :=
  ofLines? ⟨0, 0, 0, 0, 0⟩ (Bytes.splitOn 0x3b text)

variable {before m : Mapping} {ms : List Mapping}

/-- Where the line of a mapping starts, after the mapping before it. -/
def lineStart (before m : Mapping) : Mapping :=
  if before.line < m.line then { before with line := m.line, column := 0 } else before

/-- **A segment is read back**, seen from the start of its line or from the
mapping before it. -/
theorem ofSegment?_segment (order : before.line ≤ m.line) :
    ofSegment? (lineStart before m) (segment before m) = some m := by
  have line : (lineStart before m).line = m.line := by
    unfold lineStart
    split
    · rfl
    · omega
  have fields : (lineStart before m).column = (if before.line < m.line then 0 else before.column)
      ∧ (lineStart before m).source = before.source
      ∧ (lineStart before m).sourceLine = before.sourceLine
      ∧ (lineStart before m).sourceColumn = before.sourceColumn := by
    unfold lineStart
    split <;> exact ⟨rfl, rfl, rfl, rfl⟩
  obtain ⟨column, source, sourceLine, sourceColumn⟩ := fields
  unfold ofSegment? segment
  simp only [append_assoc, Vlq.decode?_encode, Option.bind_eq_bind, Option.bind_some]
  have last := Vlq.decode?_encode (m.sourceColumn - before.sourceColumn) []
  rw [append_nil] at last
  have difference (a b : Int) : a + (b - a) = b := by omega
  simp only [last, Option.bind_some, isEmpty_nil, if_true, line, column, source, sourceLine,
    sourceColumn, difference]

theorem segment_plain (before m : Mapping) : ∀ b ∈ segment before m, Vlq.isSeparator b = false := by
  unfold segment
  simp only [forall_mem_append]
  exact ⟨⟨⟨Vlq.encode_plain _, Vlq.encode_plain _⟩, Vlq.encode_plain _⟩, Vlq.encode_plain _⟩

theorem comma_not_mem_segment (before m : Mapping) : Byte.comma ∉ segment before m :=
  fun h => absurd (segment_plain before m _ h) (by decide)

theorem semicolon_not_mem_segment (before m : Mapping) : (0x3b : UInt8) ∉ segment before m :=
  fun h => absurd (segment_plain before m _ h) (by decide)

theorem segment_ne_nil (before m : Mapping) : segment before m ≠ [] := by
  intro empty
  have last : Vlq.encode (m.sourceColumn - before.sourceColumn) = [] := by
    unfold segment at empty
    exact (append_eq_nil_iff.1 empty).2
  have read := Vlq.decode?_encode (m.sourceColumn - before.sourceColumn) []
  rw [last] at read
  cases read

/-! ## Lines -/

/-- **A text goes on behind a segment** and is read as `ms`: more segments, each
behind a comma, up to the end of the line, and then lines. -/
def Continues (before : Mapping) (text : Bytes) (ms : List Mapping) : Prop :=
  ∃ (pieces lines : List Bytes) (front back : List Mapping) (last : Mapping),
    Bytes.splitOn 0x3b text = pieces.flatMap (Byte.comma :: ·) :: lines
      ∧ (∀ piece ∈ pieces, Byte.comma ∉ piece) ∧ ofSegments? before pieces = some (front, last)
      ∧ ofLines? last.nextLine lines = some back ∧ ms = front ++ back

namespace Continues

variable {text segment : Bytes}

theorem nil (before : Mapping) : Continues before [] [] :=
  ⟨[], [], [], [], before, rfl, forall_mem_nil _, rfl, rfl, rfl⟩

/-- A line ends. -/
theorem semicolon (lines : ofLines? before.nextLine (Bytes.splitOn 0x3b text) = some ms) :
    Continues before (0x3b :: text) ms :=
  ⟨[], _, [], ms, before, Bytes.splitOn_cons _ _, forall_mem_nil _, rfl, lines, rfl⟩

/-- One more segment on the same line. -/
theorem comma (read : ofSegment? before segment = some m) (inLine : (0x3b : UInt8) ∉ segment)
    (single : Byte.comma ∉ segment) (more : Continues m text ms) :
    Continues before (Byte.comma :: (segment ++ text)) (m :: ms) := by
  obtain ⟨pieces, lines, front, back, last, split, apart, segments, rest, rfl⟩ := more
  refine ⟨segment :: pieces, lines, m :: front, back, last, ?_,
    forall_mem_cons.2 ⟨single, apart⟩, ?_, rest, rfl⟩
  · have front : (0x3b : UInt8) ∉ Byte.comma :: segment :=
      mt mem_cons.1 (not_or.2 ⟨by decide, inLine⟩)
    rw [← cons_append, Bytes.splitOn_append front, split]
    rfl
  · rw [ofSegments?, read]
    simp only [Option.bind_eq_bind, Option.bind_some, segments]

/-- The first segment of a line. -/
theorem first (read : ofSegment? before segment = some m) (some : segment ≠ [])
    (inLine : (0x3b : UInt8) ∉ segment) (single : Byte.comma ∉ segment)
    (more : Continues m text ms) :
    ofLines? before (Bytes.splitOn 0x3b (segment ++ text)) = .some (m :: ms) := by
  obtain ⟨pieces, lines, front, back, last, split, apart, read', rest, rfl⟩ := more
  have line : segments (segment ++ pieces.flatMap (Byte.comma :: ·)) = segment :: pieces := by
    rw [segments, if_neg (by simp [some]), Bytes.splitOn_flatMap single apart]
  rw [Bytes.splitOn_append inLine, split, modifyHead_cons, ofLines?, line, ofSegments?, read]
  simp only [Option.bind_eq_bind, Option.bind_some, read', rest]
  rfl

end Continues

/-- Lines without segments. -/
theorem ofLines?_semicolons (before : Mapping) (n : Nat) (text : Bytes) :
    ofLines? { before with column := 0 } (Bytes.splitOn 0x3b (Bytes.repeated n ";" ++ text))
      = ofLines? { before with line := before.line + n, column := 0 } (Bytes.splitOn 0x3b text) := by
  induction n generalizing before with
  | zero => rfl
  | succ n ih =>
    have split : Bytes.splitOn 0x3b (Bytes.repeated (n + 1) ";" ++ text)
        = [] :: Bytes.splitOn 0x3b (Bytes.repeated n ";" ++ text) := Bytes.splitOn_cons _ _
    have rest := ih { before with line := before.line + 1 }
    rw [Nat.add_right_comm] at rest
    rw [split, ofLines?]
    show (ofLines? { before with line := before.line + 1, column := 0 } _).bind _ = _
    rw [rest, ← Nat.add_assoc]
    cases ofLines? _ (Bytes.splitOn 0x3b text) <;> rfl

/-- **Written mappings are read back** behind the mapping before them. -/
theorem continues_encodeFrom (ordered : (before :: ms).Pairwise (·.line ≤ ·.line)) :
    Continues before (encodeFrom false before ms) ms := by
  induction ms generalizing before with
  | nil => exact .nil before
  | cons m ms ih =>
    obtain ⟨first, later⟩ := pairwise_cons.1 ordered
    have order : before.line ≤ m.line := first m mem_cons_self
    have read := ofSegment?_segment order
    have inLine := semicolon_not_mem_segment before m
    have single := comma_not_mem_segment before m
    unfold lineStart at read
    rw [encodeFrom, append_assoc]
    split
    · next further =>
      rw [if_pos further] at read
      obtain ⟨n, lines⟩ : ∃ n, m.line = before.line + 1 + n := Nat.exists_eq_add_of_lt further |>.imp
        fun n h => by omega
      have gap : m.line - before.line = n + 1 := by omega
      rw [gap]
      refine .semicolon ((ofLines?_semicolons before.nextLine n _).trans ?_)
      rw [lines] at read
      exact (ih later).first read (segment_ne_nil before m) inLine single
    · next same =>
      rw [if_neg same] at read
      show Continues before (Byte.comma :: (segment before m ++ encodeFrom false m ms)) (m :: ms)
      exact (ih later).comma read inLine single

/-- **Mappings are read back from what is written of them**, if their lines are
in order; and so is every single number, with nothing of what follows it. -/
theorem encode_readBack (ms : List Mapping) (ordered : ms.Pairwise (·.line ≤ ·.line)) :
    decode? (encode ms) = some ms
      ∧ ∀ (n : Int) (rest : Bytes), Vlq.decode? (Vlq.encode n ++ rest) = some (n, rest) := by
  refine ⟨?_, Vlq.decode?_encode⟩
  cases ms with
  | nil => rfl
  | cons m ms =>
    have read : ofSegment? (lineStart ⟨0, 0, 0, 0, 0⟩ m) (segment ⟨0, 0, 0, 0, 0⟩ m) = some m :=
      ofSegment?_segment (Nat.zero_le _)
    have start : lineStart ⟨0, 0, 0, 0, 0⟩ m = ⟨0 + m.line, 0, 0, 0, 0⟩ := by
      unfold lineStart
      split
      · simp
      · next same => simp [Nat.eq_zero_of_not_pos same]
    have gap : encode (m :: ms) = Bytes.repeated m.line ";"
        ++ (segment ⟨0, 0, 0, 0, 0⟩ m ++ encodeFrom false m ms) := by
      rw [encode, encodeFrom, List.append_assoc]
      split
      · rfl
      · next same => rw [Nat.eq_zero_of_not_pos same]; rfl
    rw [decode?, gap]
    refine (ofLines?_semicolons ⟨0, 0, 0, 0, 0⟩ m.line _).trans ?_
    rw [start] at read
    exact (continues_encodeFrom ordered).first read (segment_ne_nil _ m)
      (semicolon_not_mem_segment _ m) (comma_not_mem_segment _ m)

/-- Three mappings on two lines, with steps back and a number of several
digits. -/
theorem sample_readBack :
    decode? (encode [⟨0, 0, 0, 0, 4⟩, ⟨0, 9, 1, 700, 0⟩, ⟨3, 2, 0, 5, 31⟩])
      = some [⟨0, 0, 0, 0, 4⟩, ⟨0, 9, 1, 700, 0⟩, ⟨3, 2, 0, 5, 31⟩] :=
  (encode_readBack [⟨0, 0, 0, 0, 4⟩, ⟨0, 9, 1, 700, 0⟩, ⟨3, 2, 0, 5, 31⟩] (by decide)).1

end Mapping

end TemplateCompiler
