import TemplateCompiler.Proofs.Template.Includes
import TemplateCompiler.Proofs.Template.Writing

/-!
# Strings in templates

Tags are cut out of a template before their content is cut into words, and both
steps read strings. They agree (`Template.strings_agree`): no source is refused
for a string without an end, since a tag only ends where all its strings have,
and whatever bytes a string holds, delimiters among them, it is read back from a
tag.
-/

namespace TemplateCompiler

/-- A byte of a string, with a backslash in front of what would end the string
or escape what follows. -/
def Lexeme.guard (b : UInt8) : Bytes :=
  if b == Byte.quote || b == Byte.backslash then [Byte.backslash, b] else [b]

/-- A text in double quotes. All other bytes stand for themselves. -/
def Lexeme.inQuotes (value : Bytes) : Bytes :=
  Byte.quote :: (value.flatMap guard ++ [Byte.quote])

theorem Lexeme.spells_guard : Spells guard := by
  intro b text
  unfold guard
  split
  · next h =>
    rw [Bool.or_eq_true, beq_iff_eq, beq_iff_eq] at h
    obtain rfl | rfl := h <;> rfl
  · next h =>
    rw [Bool.or_eq_true, beq_iff_eq, beq_iff_eq, not_or] at h
    exact spanString_plain h.1 h.2 text

theorem Lexeme.spanString_inQuotes (value tail : Bytes) :
    Token.spanString Byte.quote (value.flatMap guard ++ [Byte.quote] ++ tail)
      = some (value, value.flatMap guard ++ [Byte.quote], tail) := by
  rw [List.append_assoc]
  exact spanString_quoted spells_guard value tail

/-- A string and a space behind it are one word. -/
theorem Token.scan_inQuotes (value : Bytes) (pos : Position) :
    scan pos (Byte.space :: (Lexeme.inQuotes value ++ [Byte.space]))
      = .ok [⟨.string value, pos.step Byte.space⟩] := by
  obtain ⟨word, lexed, lexeme, taken, rest⟩ :=
    Lexeme.lex_string (Lexeme.spanString_inQuotes value [Byte.space]) (pos.step Byte.space)
  have blank : Byte.isBlank Byte.quote = false := rfl
  rw [Lexeme.scan_space, Lexeme.inQuotes, List.cons_append, scan]
  simp only [blank, lexed, lexeme, taken, rest, Statement.scan_blank, Bool.false_eq_true, if_false]

namespace Piece

/-- A tag with words and, behind them, a string. -/
theorem spanTag_inQuotes {kind : Delimiter} (quoting : Quoting kind) {run : Bytes}
    (harmless : ∀ b ∈ run, isHarmless b = true) (value : Bytes) :
    spanTag kind none (run ++ (Lexeme.inQuotes value ++ Byte.space :: kind.closing))
      = some (run ++ (Lexeme.inQuotes value ++ [Byte.space]), false, []) := by
  have closing : spanTag kind none (Byte.space :: kind.closing) = some ([Byte.space], false, []) := by
    obtain rfl | rfl := quoting <;> rfl
  rw [spanTag_harmless quoting harmless, Lexeme.inQuotes, List.cons_append,
    spanTag_quote quoting (Lexeme.spanString_inQuotes value _), closing]
  rfl

end Piece

/-- A string between spaces is read as a literal. -/
theorem Expression.parse_inQuotes (value : Bytes) (pos : Position) :
    ∃ q, parse pos (Byte.space :: (Lexeme.inQuotes value ++ [Byte.space]))
      = .ok (.literal q (.string value)) := by
  have normal : (Node.literal .start (.string value)).Normal := .literal trivial
  have spells : Spells [⟨.string value, pos.step Byte.space⟩] (.literal .start (.string value)) :=
    rfl
  obtain ⟨t, read, alike⟩ := ofTokens_of_normal normal spells
    (pos.after (Byte.space :: (Lexeme.inQuotes value ++ [Byte.space])))
  cases t <;> cases alike
  rw [parse, Token.scan_inQuotes]
  exact ⟨_, read⟩

namespace Template

/-- A template that is one piece. -/
theorem parse_single {src : Bytes} {piece : Piece} {pos : Position} {a : Assembly}
    (pieces : Piece.scan .start src = piece :: Piece.scan pos [])
    (taken : Assembly.empty.step piece = .ok a) : parse src = a.finish := by
  rw [parse, pieces, Piece.scan, List.foldlM_cons, taken]
  rfl

/-- A string in an output is read as a literal. -/
theorem parse_output_string (value : Bytes) :
    ∃ p q, parse ("\x7b\x7b " ++ (Lexeme.inQuotes value ++ " \x7d\x7d"))
      = .ok (.list .start [.output p [.literal q (.string value)]]) := by
  have span := @Piece.spanTag_inQuotes .output (.inl rfl) [Byte.space] (by decide) value
  obtain ⟨q, read⟩ := Expression.parse_inQuotes value (Position.start.after "\x7b\x7b")
  have taken : Assembly.empty.step (.tag .output ⟨.start, false, _, _, false⟩)
      = .ok (Assembly.empty.add (.output .start [.literal q (.string value)])) :=
    congrArg (· >>= fun t => Except.ok (Assembly.empty.add (.output .start [t]))) read
  exact ⟨.start, q, parse_single (Piece.scan_tag (.inl rfl) rfl span .start) taken⟩

/-- A string that is assigned to a name is read as a literal. -/
theorem parse_set_string (value : Bytes) :
    ∃ p q r, parse ("\x7b% set x = " ++ (Lexeme.inQuotes value ++ " %\x7d"))
      = .ok (.list .start [.assign p [.symbol q "x"] (.literal r (.string value)) .missing]) := by
  have span := @Piece.spanTag_inQuotes .statement (.inr rfl) " set x = " (by decide) value
  let tag : Tag := ⟨.start, false, Position.start.after "\x7b%",
    " set x = " ++ (Lexeme.inQuotes value ++ [Byte.space]), false⟩
  have named : tag.statement.name = "set" := rfl
  have scanned : ∃ us, tag.statement.tokens = .ok us
      ∧ us.map Token.lexeme = [.name "x", .op .assign, .string value] :=
    Lexeme.scan_led (by decide : ∀ w ∈ [Lexeme.name "x", .op .assign], w.IsWritable)
      (Lexeme.ends_space _) (fun pos => ⟨_, Token.scan_inQuotes value pos, rfl⟩) tag.statement.argsPos
  obtain ⟨us, scanned, words⟩ := scanned
  have target : Statement.IsTarget (.symbol .start "x") :=
    ⟨.symbol ⟨by decide, by decide⟩, .inl ⟨_, _, rfl⟩⟩
  obtain ⟨ts, t, read, targets, alike⟩ := Statement.assignment_of_words .start
    (List.cons_ne_nil _ _) (List.forall_mem_singleton.2 target)
    (.literal trivial : (Node.literal .start (.string value)).Normal) scanned words
  obtain _ | ⟨n, _ | ⟨m, ns⟩⟩ := ts
  · cases targets
  · have taken : Assembly.empty.step (.tag .statement tag)
        = .ok (Assembly.empty.add (.assign .start [n] t .missing)) := by
      show Assembly.perform .empty .start tag.statement = _
      simp only [Assembly.perform, named, read]
      rfl
    have name := (List.cons.inj targets).1
    cases n <;> cases name
    cases t <;> cases alike
    exact ⟨.start, _, _, parse_single (Piece.scan_tag (.inr rfl) rfl span .start) taken⟩
  · cases (List.cons.inj targets).2

/-- **Cutting out tags and cutting them into words agree on strings.** No source
is refused for a string without an end: every quote in the content of a tag is
closed in it, and so is every quote in a statement's arguments. A string is read
back from an output and from an assignment, whatever it holds. -/
theorem strings_agree :
    (∀ src p, parse src ≠ .error ⟨p, .unterminatedString⟩)
      ∧ (∀ src kind t, .tag kind t ∈ Piece.scan .start src → kind ≠ .comment →
        QuotesClosed t.body
          ∧ ((∀ b ∈ t.statement.name, isQuote b = false) → QuotesClosed t.statement.args))
      ∧ ∀ value,
        (∃ p q, parse ("\x7b\x7b " ++ (Lexeme.inQuotes value ++ " \x7d\x7d"))
          = .ok (.list .start [.output p [.literal q (.string value)]]))
        ∧ ∃ p q r, parse ("\x7b% set x = " ++ (Lexeme.inQuotes value ++ " %\x7d"))
          = .ok (.list .start [.assign p [.symbol q "x"] (.literal r (.string value)) .missing]) := by
  refine ⟨fun src p failed => ?_, fun src kind t mem quoting => ?_,
    fun value => ⟨parse_output_string value, parse_set_string value⟩⟩
  · have reported := (assembles_isParsed src).parse_tells
    rw [failed] at reported
    exact reported.2 rfl
  · have closed := (Piece.scan_placed (.whole src) _ mem).closed quoting
    exact ⟨closed, Tag.closed_args closed⟩

end Template

end TemplateCompiler
