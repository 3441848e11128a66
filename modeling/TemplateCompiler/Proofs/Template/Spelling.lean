import TemplateCompiler.Proofs.Template.Precedence
import TemplateCompiler.Proofs.Text.Digits

/-!
# Words read back from their spelling

A word followed by a space or by nothing is read back as itself, so text made
of words and single spaces is cut into just these words. The only words that
are left out are numbers with a fraction, which expressions in the normal form
do not have.
-/

namespace TemplateCompiler

open Token (scan lex)

variable {tail : Bytes}

namespace Lexeme

/-- Words that are spelled as the scanner reads them. -/
def IsWritable : Lexeme → Prop
  | .name text => Script.isIdentifier text = true
  | .int digits => digits ≠ [] ∧ ∀ b ∈ digits, Byte.isDigit b = true
  | .float _ => False
  | .string _ | .op _ => True

instance : (w : Lexeme) → Decidable w.IsWritable
  | .name _ => inferInstanceAs (Decidable (_ = true))
  | .int _ => inferInstanceAs (Decidable (_ ∧ _))
  | .float _ => .isFalse id
  | .string _ | .op _ => .isTrue trivial

/-- Where a word ends: at a space or at the end of the text. -/
def Ends (tail : Bytes) : Prop := ∀ b ∈ tail.head?, b = Byte.space

theorem ends_nil : Ends [] := fun _ h => nomatch h

theorem ends_space (tail : Bytes) : Ends (Byte.space :: tail) := by
  intro b h
  simpa using h.symm

/-! ## The scanner at the front of a word -/

/-- A run that its end cannot continue is taken whole. -/
theorem takeWhile_run {p : UInt8 → Bool} {run tail : Bytes} (all : ∀ b ∈ run, p b = true)
    (ends : Ends tail) (space : p Byte.space = false) :
    (run ++ tail).takeWhile p = run ∧ (run ++ tail).dropWhile p = tail := by
  rw [List.takeWhile_append_of_pos all, List.dropWhile_append_of_pos all]
  cases tail with
  | nil => simp
  | cons b tail =>
    obtain rfl : b = Byte.space := ends b rfl
    simp [space]

/-- Nothing is dropped from the front of a run of other things. -/
theorem dropWhile_front {α : Type} {p : α → Bool} {run : List α}
    (none : ∀ x ∈ run, p x = false) (some_ : run ≠ []) (tail : List α) :
    (run ++ tail).dropWhile p = run ++ tail := by
  obtain ⟨x, run, rfl⟩ := List.exists_cons_of_ne_nil some_
  rw [List.cons_append, List.dropWhile_cons_of_neg (by simp [none x List.mem_cons_self])]

/-- What a byte of a string is written as, if it is read back from there. -/
def Spells (f : UInt8 → Bytes) : Prop := ∀ b text, Token.spanString Byte.quote (f b ++ text)
  = (Token.spanString Byte.quote text).map fun (value, taken, after) => (b :: value, f b ++ taken, after)

/-- A byte that is neither a quote nor a backslash stands for itself. -/
theorem spanString_plain {b : UInt8} (quote : b ≠ Byte.quote) (backslash : b ≠ Byte.backslash)
    (text : Bytes) : Token.spanString Byte.quote ([b] ++ text)
      = (Token.spanString Byte.quote text).map fun (value, taken, after) =>
          (b :: value, [b] ++ taken, after) := by
  rw [List.singleton_append, Token.spanString.eq_def]
  split
  · next heq => cases heq
  · next heq =>
    rw [List.cons.injEq] at heq
    exact absurd heq.1 backslash
  · next heq =>
    obtain ⟨rfl, rfl⟩ := List.cons.inj heq
    rw [if_neg (by simpa using quote)]
    rfl

/-- An escaped byte stands for itself. -/
theorem spells_escape : Spells escape := by
  intro b text
  unfold escape
  split
  · next h => rw [eq_of_beq h]; rfl
  split
  · next h => rw [eq_of_beq h]; rfl
  split
  · next h => rw [eq_of_beq h]; rfl
  split
  · next h =>
    rw [Bool.or_eq_true, beq_iff_eq, beq_iff_eq] at h
    obtain rfl | rfl := h <;> rfl
  · next h =>
    rw [Bool.or_eq_true, beq_iff_eq, beq_iff_eq, not_or] at h
    exact spanString_plain h.1 h.2 text

/-- A string is read up to its closing quote. -/
theorem spanString_quoted {f : UInt8 → Bytes} (spells : Spells f) (value tail : Bytes) :
    Token.spanString Byte.quote (value.flatMap f ++ Byte.quote :: tail)
      = some (value, value.flatMap f ++ [Byte.quote], tail) := by
  induction value with
  | nil => rfl
  | cons b value ih =>
    rw [List.flatMap_cons, List.append_assoc, spells, ih]
    simp

/-- A string at the front is a word. -/
theorem lex_string {body value taken after : Bytes}
    (read : Token.spanString Byte.quote body = some (value, taken, after)) (pos : Position) :
    ∃ word : Token.Lexed _, lex pos Byte.quote body = .ok word ∧ word.lexeme = .string value
      ∧ word.taken = Byte.quote :: taken ∧ word.rest = after := by
  simp only [lex]
  rw [if_pos (by decide)]
  split
  · next heq =>
    rw [read] at heq
    cases heq
    exact ⟨_, rfl, rfl, rfl, rfl⟩
  · next heq => rw [read] at heq; cases heq

/-- An operator is read whole where a space or nothing follows. -/
theorem operator?_text (op : Op) (ends : Ends tail) :
    Token.operator? (op.text ++ tail) = some op := by
  cases tail with
  | nil => cases op <;> rfl
  | cons b tail =>
    obtain rfl : b = Byte.space := ends b rfl
    cases op <;> rfl

/-- The first byte of an operator starts no other word. -/
theorem operator_front (op : Op) : ∃ c body, op.text = c :: body ∧ Byte.isBlank c = false
    ∧ (c == Byte.quote || c == Byte.apostrophe) = false ∧ Byte.isDigit c = false
    ∧ Byte.isNameStart c = false := by
  cases op <;> exact ⟨_, _, rfl, by decide⟩

/-- A digit is no blank and no quote. -/
theorem isDigit_front {c : UInt8} (h : Byte.isDigit c = true) :
    Byte.isBlank c = false ∧ (c == Byte.quote || c == Byte.apostrophe) = false := by
  grind [Byte.isDigit, Byte.isBlank]

/-- What a name may start with is no blank, quote or digit. -/
theorem isNameStart_front {c : UInt8} (h : Byte.isNameStart c = true) :
    Byte.isBlank c = false ∧ (c == Byte.quote || c == Byte.apostrophe) = false
      ∧ Byte.isDigit c = false := by
  grind [Byte.isNameStart, Byte.isLower, Byte.isUpper, Byte.isDigit, Byte.isBlank]

theorem isNamePart_of_mem {name : Bytes} (identifier : Script.isIdentifier name = true) :
    ∀ b ∈ name, Byte.isNamePart b = true := by
  intro b mem
  obtain _ | ⟨c, body⟩ := name
  · cases mem
  rw [Script.isIdentifier, Bool.and_eq_true, List.all_eq_true] at identifier
  obtain rfl | mem := List.mem_cons.1 mem
  · rw [Byte.isNamePart, identifier.1, Bool.true_or]
  · exact identifier.2 b mem

/-- **A word is read back from its spelling**, where a space or nothing
follows. -/
theorem lex_spelling {w : Lexeme} (writable : w.IsWritable) (ends : Ends tail) :
    ∃ c body, w.spelling = c :: body ∧ Byte.isBlank c = false ∧ ∀ pos, ∃ word : Token.Lexed _,
      lex pos c (body ++ tail) = .ok word ∧ word.lexeme = w ∧ word.taken = w.spelling
        ∧ word.rest = tail := by
  cases w with
  | float text => exact writable.elim
  | name text =>
    obtain _ | ⟨c, body⟩ := text
    · cases writable
    rw [IsWritable, Script.isIdentifier, Bool.and_eq_true, List.all_eq_true] at writable
    obtain ⟨blank, quote, digit⟩ := isNameStart_front writable.1
    obtain ⟨taken, dropped⟩ := takeWhile_run writable.2 ends (by decide)
    refine ⟨c, body, rfl, blank, fun pos => ⟨Token.name c (body ++ tail), ?_, ?_⟩⟩
    · simp only [lex, quote, digit, writable.1, Bool.false_eq_true, if_false, if_true]
    · simp only [Token.name, taken, dropped, spelling, and_self]
  | int digits =>
    obtain _ | ⟨c, body⟩ := digits
    · exact absurd rfl writable.1
    obtain ⟨start, all⟩ := List.forall_mem_cons.1 writable.2
    obtain ⟨blank, quote⟩ := isDigit_front start
    obtain ⟨taken, dropped⟩ := takeWhile_run all ends (by decide)
    refine ⟨c, body, rfl, blank, fun pos => ⟨Token.number c (body ++ tail), ?_, ?_⟩⟩
    · simp only [lex, quote, start, Bool.false_eq_true, if_false, if_true]
    · have plain : ∀ d more, tail ≠ Byte.dot :: d :: more := by
        rintro d more rfl
        exact absurd (ends _ rfl) (by decide)
      unfold Token.number
      split
      · next heq => exact absurd (dropped.symm.trans heq) (plain _ _)
      · simp only [taken, dropped, spelling, and_self]
  | string value =>
    refine ⟨Byte.quote, _, rfl, by decide, fun pos => ?_⟩
    have read := spanString_quoted spells_escape value tail
    rw [← List.singleton_append, ← List.append_assoc] at read
    exact lex_string read pos
  | op symbol =>
    obtain ⟨c, body, text, blank, quote, digit, start⟩ := operator_front symbol
    have found : Token.operator? (c :: (body ++ tail)) = some symbol := by
      rw [← List.cons_append, ← text, operator?_text symbol ends]
    refine ⟨c, body, text, blank, fun pos => ?_⟩
    simp only [lex, quote, digit, start, Bool.false_eq_true, if_false]
    split
    · next heq =>
      rw [found] at heq
      cases heq
      refine ⟨_, rfl, rfl, rfl, ?_⟩
      show List.drop symbol.text.length (c :: (body ++ tail)) = tail
      rw [← List.cons_append, ← text, List.drop_left]
    · next heq => rw [found] at heq; cases heq

/-! ## Whole texts -/

/-- The scanner takes a word off the front. -/
theorem scan_word {w : Lexeme} (writable : w.IsWritable) (ends : Ends tail)
    {pos : Position} {ts : List Token} (after : scan (pos.after w.spelling) tail = .ok ts) :
    scan pos (w.spelling ++ tail) = .ok (⟨w, pos⟩ :: ts) := by
  obtain ⟨c, body, text, blank, read⟩ := lex_spelling writable ends
  obtain ⟨word, lexed, rfl, taken, rest⟩ := read pos
  rw [text, List.cons_append, scan]
  simp only [blank, lexed, taken, rest, after, Bool.false_eq_true, if_false]

/-- The scanner skips a space. -/
theorem scan_space (pos : Position) (tail : Bytes) :
    scan pos (Byte.space :: tail) = scan (pos.step Byte.space) tail := by
  rw [scan, if_pos (by decide)]

/-- Each word with a space in front of it. -/
def led (ws : List Lexeme) : Bytes := ws.flatMap fun w => Byte.space :: w.spelling

theorem spaced_cons (w : Lexeme) (ws : List Lexeme) : spaced (w :: ws) = w.spelling ++ led ws := by
  induction ws generalizing w with
  | nil => exact (List.append_nil _).symm
  | cons v ws ih =>
    show w.spelling ++ " " ++ spaced (v :: ws) = _
    rw [ih v, List.append_assoc]
    rfl

theorem ends_led (ws : List Lexeme) (ends : Ends tail) : Ends (led ws ++ tail) := by
  cases ws with
  | nil => exact ends
  | cons w ws => exact ends_space _

/-- **Words behind spaces are read back**, in front of what the rest is read
as. -/
theorem scan_led {ws more : List Lexeme} (writable : ∀ w ∈ ws, w.IsWritable)
    (ends : Ends tail) (rest : ∀ pos, ∃ ts, scan pos tail = .ok ts ∧ ts.map Token.lexeme = more)
    (pos : Position) :
    ∃ ts, scan pos (led ws ++ tail) = .ok ts ∧ ts.map Token.lexeme = ws ++ more := by
  induction ws generalizing pos with
  | nil => exact rest pos
  | cons w ws ih =>
    obtain ⟨first, others⟩ := List.forall_mem_cons.1 writable
    obtain ⟨ts, after, lexemes⟩ := ih others ((pos.step Byte.space).after w.spelling)
    refine ⟨⟨w, pos.step Byte.space⟩ :: ts, ?_, by rw [List.map_cons, lexemes]; rfl⟩
    show scan pos ((Byte.space :: (w.spelling ++ led ws)) ++ tail) = _
    rw [List.cons_append, List.append_assoc, scan_space]
    exact scan_word first (ends_led ws ends) after

/-- **Text made of words and single spaces is cut into these words.** -/
theorem scan_spaced {ws : List Lexeme} (writable : ∀ w ∈ ws, w.IsWritable) (pos : Position) :
    ∃ ts, scan pos (spaced ws) = .ok ts ∧ ts.map Token.lexeme = ws := by
  have nothing (pos : Position) : scan pos [] = .ok [] := by rw [scan]
  cases ws with
  | nil => exact ⟨[], nothing pos, rfl⟩
  | cons w ws =>
    obtain ⟨first, rest⟩ := List.forall_mem_cons.1 writable
    obtain ⟨ts, after, lexemes⟩ :=
      scan_led rest ends_nil (fun pos => ⟨[], nothing pos, rfl⟩) (pos.after w.spelling)
    rw [List.append_nil] at after
    rw [List.map_nil, List.append_nil] at lexemes
    refine ⟨⟨w, pos⟩ :: ts, ?_, by rw [List.map_cons, lexemes]⟩
    rw [spaced_cons]
    have ends := ends_led ws ends_nil
    rw [List.append_nil] at ends
    exact scan_word first ends after

end Lexeme

end TemplateCompiler
