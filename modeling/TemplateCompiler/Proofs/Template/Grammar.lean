import TemplateCompiler.Proofs.Template.Levelling
import TemplateCompiler.Proofs.Template.Placing

/-!
# The expression reader and its grammar

The reader of expressions accepts the normal expressions as they are written,
and returns nothing else: the text of a normal expression is read as that
expression, and what is read from a text without fractions and dotted filters
is a normal expression, unless one of its names is a reserved word.
-/

open List

namespace TemplateCompiler

/-! ## The words of normal expressions can be written -/

theorem Literal.IsPlain.writable {v : Literal} (plain : v.IsPlain) :
    ∀ w ∈ v.lexemes, w.IsWritable := by
  cases v with
  | string s => exact forall_mem_singleton.2 trivial
  | bool b => cases b <;> exact forall_mem_singleton.2 (by decide)
  | null => exact forall_mem_singleton.2 (by decide)
  | int n =>
    have digits : (Lexeme.int (Bytes.decimal n.natAbs)).IsWritable :=
      ⟨Bytes.decimal_ne_nil _, fun _ mem => Bytes.isDigit_of_mem_decimal mem⟩
    rw [lexemes]
    split
    · exact forall_mem_cons.2 ⟨trivial, forall_mem_singleton.2 digits⟩
    · exact forall_mem_singleton.2 digits
  | float | plain | words => exact plain.elim

theorem syntaxWords_writable : ∀ w ∈ syntaxWords, w.IsWritable := by
  decide

theorem Node.Normal.writable {e : Node} (normal : e.Normal) : ∀ w ∈ e.words, w.IsWritable := by
  intro w mem
  obtain h | ⟨name, plain, rfl⟩ | ⟨v, plain, h⟩ := normal.mem_words mem
  · exact syntaxWords_writable w h
  · exact plain.1
  · exact plain.writable w h

namespace Node

/-! ## The names of a tree -/

variable {Word Other : Bytes → Prop} {Value : Literal → Prop}

/-- What is known of the names of an expression need be known only of those
that stand in it. -/
theorem Levelled.of_names {e : Node} (levelled : e.Levelled Word Value)
    (names : ∀ p name, .symbol p name ∈ e.preorder → Word name → Other name) :
    e.Levelled Other Value := by
  have below {m : Node} (part : m ∈ e.parts) (h : m.Levelled Word Value) :
      m.Levelled Other Value :=
    have := length_preorder_lt part
    h.of_names fun p name mem => names p name (mem_preorder_of_part part mem)
  cases levelled with
  | symbol word => exact .symbol (names _ _ mem_cons_self word)
  | literal value => exact .literal value
  | group all => exact .group fun n mem => below mem (all n mem)
  | array all => exact .array fun n mem => below mem (all n mem)
  | binary table onLeft tightLeft onRight tightRight =>
    exact .binary table (below (by simp [parts]) onLeft) tightLeft
      (below (by simp [parts]) onRight) tightRight
  | failedTest test table onLeft tightLeft onRight tightRight =>
    cases below mem_cons_self (.binary table onLeft tightLeft onRight tightRight) with
    | binary table onLeft tightLeft onRight tightRight =>
      exact .failedTest test table onLeft tightLeft onRight tightRight
  | _ =>
    simp only [parts, mem_cons, mem_map, mem_flatMap, not_mem_nil,
      or_false] at below
    constructor <;> grind
termination_by e.preorder.length

end Node

/-! ## What is read is in the grammar -/

namespace Expression

/-- A source has no number with a fraction. -/
def FractionFree (ts : List Token) : Prop := ∀ text, .float text ∉ ts.map Token.lexeme

/-- No filter has a dot in its name. -/
def DotFree (ts : List Token) : Prop :=
  ∀ filter part, ¬[.op .bar, .name filter, .op .dot, .name part] <:+: ts.map Token.lexeme

theorem dotted_plain {word : Bytes} {after : List Token}
    (plain : ∀ part, ¬[.op .dot, .name part] <+: after.map Token.lexeme) :
    dotted word after = (word, after) := by
  unfold dotted
  split
  · next p part q rest =>
    exact absurd (prefix_append [.op .dot, .name part] (rest.map Token.lexeme)) (plain part)
  · rfl

theorem vocabulary_of_scan {src : Bytes} {ts : List Token}
    (scanned : Token.scan .start src = .ok ts) (whole : FractionFree ts) (undotted : DotFree ts) :
    Vocabulary (fun name => Script.isIdentifier name = true ∧ .name name ∈ ts.map Token.lexeme)
      Literal.IsPlain ts := by
  have told := Token.scan_tells (.whole src)
  rw [scanned] at told
  have name (word : Bytes) (p : Position) (mem : ⟨.name word, p⟩ ∈ ts) :
      Script.isIdentifier word = true ∧ .name word ∈ ts.map Token.lexeme :=
    ⟨(Token.Placed.name (told _ mem) rfl).1, mem_map.2 ⟨_, mem, rfl⟩⟩
  refine ⟨name, ?_, ?_⟩
  · rintro before word p q after rfl
    have plain : ∀ part, ¬[.op .dot, .name part] <+: after.map Token.lexeme := by
      rintro part ⟨more, same⟩
      refine undotted word part ⟨before.map Token.lexeme, more, ?_⟩
      rw [map_append, map_cons, map_cons, ← same]
      simp
    rw [dotted_plain plain]
    exact name word q (by simp)
  · intro text p d mem
    exact absurd (mem_map.2 ⟨_, mem, rfl⟩) (whole text)

theorem values_plain : Values Literal.IsPlain where
  string _ := trivial
  bool _ := trivial
  null := trivial
  int n small := ⟨by omega, by omega⟩
  negInt n plain := ⟨by have := plain.1; have := plain.2; omega, by have := plain.1; omega⟩
  negFloat d plain := plain.elim

/-- A whole text that is read as an expression keeps to the table. -/
theorem levelled_of_parse {Word : Bytes → Prop} {Value : Literal → Prop} (values : Values Value)
    {pos : Position} {src : Bytes} {ts : List Token} {t : Node}
    (scanned : Token.scan pos src = .ok ts) (known : Vocabulary Word Value ts)
    (parsed : parse pos src = .ok t) : t.Levelled Word Value := by
  rw [parse, scanned] at parsed
  exact levelled_of_ofTokens values known parsed

end Expression

/-- **The reader of expressions implements its grammar.** The text of a normal
expression is read as that expression, up to positions. Conversely, what is
read from a source without fractions and dotted filters keeps to the table
and has only names of the source, and it is normal if none of these names is
a reserved word. -/
theorem parseExpression_grammar :
    (∀ e : Node, e.Normal →
      ∃ t, Template.parseExpression e.source = .ok t ∧ t.bare = e.bare) ∧
    ∀ (src : Bytes) (ts : List Token) (t : Node), Token.scan .start src = .ok ts →
      Expression.FractionFree ts → Expression.DotFree ts →
      Template.parseExpression src = .ok t →
      t.Levelled (fun name => .name name ∈ ts.map Token.lexeme) Literal.IsPlain
      ∧ ((∀ p name, .symbol p name ∈ t.preorder → name ∉ reservedWords) → t.Normal) := by
  constructor
  · intro e normal
    obtain ⟨ts, scanned, words⟩ := Lexeme.scan_spaced normal.writable .start
    obtain ⟨t, read, alike⟩ :=
      Expression.ofTokens_of_normal normal words (Position.start.after e.source)
    refine ⟨t, ?_, alike⟩
    rw [Template.parseExpression, Expression.parse, Node.source, scanned]
    exact read
  · intro src ts t scanned whole undotted parsed
    have levelled := Expression.levelled_of_parse Expression.values_plain scanned
      (Expression.vocabulary_of_scan scanned whole undotted) parsed
    refine ⟨levelled.of_names fun _ _ _ word => word.2, fun names => ?_⟩
    exact levelled.of_names fun p name mem word => ⟨word.1, names p name mem⟩

private def sample : Bytes := "f(a, k=1).b not in -x ** 2|g if c"

private def sampleWords : List Lexeme :=
  [.name "f", .op .openParen, .name "a", .op .comma, .name "k", .op .assign, .int "1",
    .op .closeParen, .op .dot, .name "b", .name "not", .name "in", .op .minus, .name "x",
    .op .power, .int "2", .op .bar, .name "g", .name "if", .name "c"]

private def sampleTree : Node :=
  .choice ⟨1, 1⟩ (.symbol ⟨1, 33⟩ "c")
    (.not ⟨1, 13⟩ (.binary ⟨1, 13⟩ .isIn
      (.lookup ⟨1, 10⟩ (.call ⟨1, 2⟩ (.symbol ⟨1, 1⟩ "f") [.symbol ⟨1, 3⟩ "a",
          .dict ⟨1, 6⟩ [(.symbol ⟨1, 6⟩ "k", .literal ⟨1, 8⟩ (.int 1))]])
        (.literal ⟨1, 11⟩ (.string "b")))
      (.binary ⟨1, 23⟩ .pow (.neg ⟨1, 20⟩ (.symbol ⟨1, 21⟩ "x"))
        (.call ⟨1, 28⟩ (.symbol ⟨1, 28⟩ "g") [.literal ⟨1, 26⟩ (.int 2)]))))
    .missing

private theorem sample_scanned :
    (Token.scan .start sample).toOption.map (List.map Token.lexeme) = some sampleWords := by
  cbv

private theorem sample_read : Template.parseExpression sample = .ok sampleTree := by
  cbv

private theorem sample_names : (sampleTree.preorder.all fun
    | .symbol _ name => decide (name ∉ reservedWords)
    | _ => true) = true := by
  cbv

private theorem sampleWords_dotFree (filter part : Bytes) :
    ¬[.op .bar, .name filter, .op .dot, .name part] <:+: sampleWords := by
  simp [sampleWords, infix_cons_iff]

/-- Both halves at an expression with a keyword argument, a member, a negated
test, a power of a negation, a filter and a condition. -/
theorem sample_grammar :
    ∃ ts, Token.scan .start sample = .ok ts ∧ ts.map Token.lexeme = sampleWords
      ∧ Template.parseExpression sample = .ok sampleTree ∧ sampleTree.Normal
      ∧ ∃ t, Template.parseExpression sampleTree.source = .ok t ∧ t.bare = sampleTree.bare := by
  have scanned := sample_scanned
  cases found : Token.scan .start sample with
  | error e => rw [found] at scanned; cases scanned
  | ok ts =>
    rw [found] at scanned
    have words : ts.map Token.lexeme = sampleWords := Option.some.inj scanned
    have normal : sampleTree.Normal := by
      refine (parseExpression_grammar.2 sample ts sampleTree found ?_ ?_ sample_read).2 ?_
      · intro text
        rw [words]
        simp [sampleWords]
      · intro filter part
        rw [words]
        exact sampleWords_dotFree filter part
      · intro p name mem
        exact of_decide_eq_true (List.all_eq_true.1 sample_names _ mem)
    exact ⟨ts, rfl, words, sample_read, normal, parseExpression_grammar.1 sampleTree normal⟩

end TemplateCompiler
