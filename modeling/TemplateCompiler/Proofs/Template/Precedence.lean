import TemplateCompiler.Proofs.Template.Tree

/-!
# The precedence grammar of expressions

Which trees are expressions, and how an expression is written. A tree says by
its shape how its operators group, so a text without brackets of its own can
stand for it only if every operand binds at least as tightly as its place
demands. `Node.rank` is how loosely a tree binds, `BinaryOp.ranks` is the
table of what the operators admit on their two sides, and `Node.Levelled`
says that a tree keeps to the table throughout.

`Node.words` writes such a tree as a list of words, with no brackets but
those that the tree itself has, and `Node.source` puts one space between
neighbours. `Node.bare` forgets positions, which no text can keep.

The names and the literal values of a tree are parameters of `Levelled`:
`Node.Normal` takes those that a text can spell and read back.
-/

open List

namespace TemplateCompiler

variable {op : BinaryOp} {p : Position}

namespace Node

/-! ## Positions left out -/

mutual

/-- The tree without its positions. -/
def bare : Node → Node
  | .missing => .missing
  | .list _ ns => .list .none (bareOf ns)
  | .output _ ns => .output .none (bareOf ns)
  | .text _ content => .text .none content
  | .ifElse _ c b a => .ifElse .none c.bare b.bare a.bare
  | .choice _ c b a => .choice .none c.bare b.bare a.bare
  | .forEach _ v i b a => .forEach .none v.bare i.bare b.bare a.bare
  | .assign _ ts v b => .assign .none (bareOf ts) v.bare b.bare
  | .embed _ t optional => .embed .none t.bare optional
  | .lookup _ t k => .lookup .none t.bare k.bare
  | .symbol _ name => .symbol .none name
  | .call _ c args => .call .none c.bare (bareOf args)
  | .literal _ v => .literal .none v
  | .named _ name => .named .none name
  | .compare _ first links => .compare .none first.bare (bareOfLinks links)
  | .not _ t => .not .none t.bare
  | .neg _ t => .neg .none t.bare
  | .binary _ op l r => .binary .none op l.bare r.bare
  | .array _ ns => .array .none (bareOf ns)
  | .dict _ pairs => .dict .none (bareOfPairs pairs)
  | .group _ ns => .group .none (bareOf ns)
  | .inherit _ t => .inherit .none t.bare
  | .block _ name b => .block .none name b.bare

/-- `bare` of each node. -/
def bareOf : List Node → List Node
  | [] => []
  | n :: ns => n.bare :: bareOf ns

/-- `bare` of the operands of a comparison. -/
def bareOfLinks : List (Bytes × Node) → List (Bytes × Node)
  | [] => []
  | (op, n) :: links => (op, n.bare) :: bareOfLinks links

/-- `bare` of keys and values. -/
def bareOfPairs : List (Node × Node) → List (Node × Node)
  | [] => []
  | (k, v) :: pairs => (k.bare, v.bare) :: bareOfPairs pairs

end

end Node

/-! ## The table -/

/-- How loosely an operator binds, and how loosely its left and its right
operand may. Operators of one rank group to the left, except that `is` does
not chain and that `**` groups to the right. -/
def BinaryOp.ranks : BinaryOp → Option (Nat × Nat × Nat)
  | .or => some (24, 24, 22)
  | .and => some (22, 22, 20)
  | .isIn => some (18, 18, 16)
  | .is => some (16, 14, 14)
  | .concat => some (12, 12, 10)
  | .add | .sub => some (10, 10, 8)
  | .mul | .div | .floorDiv | .mod => some (8, 8, 6)
  | .pow => some (6, 4, 6)
  | .other _ => none

/-- The tests `in` and `is`, whose negations are operators of their own. -/
def BinaryOp.isTest (op : BinaryOp) : Bool := op matches .isIn | .is

namespace Node

/-- A number. -/
def isNumber : Node → Bool
  | .literal _ (.int _) | .literal _ (.float _) => true
  | _ => false

/-- The application of a test. -/
def isTest : Node → Bool
  | .binary _ op _ _ => op.isTest
  | _ => false

/-- How loosely a binary operation binds. -/
def binaryRank (op : BinaryOp) : Nat := (op.ranks.map Prod.fst).getD 2

/-- **How loosely an expression binds**, from a conditional down to what may
be called or indexed. The negation of a test binds like the test. A negative
number binds like the sign that is written in front of it. -/
def rank : Node → Nat
  | .choice .. => 26
  | .not _ (.binary _ op _ _) => if op.isTest then binaryRank op else 20
  | .not .. => 20
  | .compare .. => 14
  | .binary _ op _ _ => binaryRank op
  | .neg .. => 4
  | .literal _ (.int n) => if n < 0 then 4 else 2
  | _ => 2

theorem binaryRank_le (op : BinaryOp) : binaryRank op ≤ 24 := by
  cases op <;> simp [binaryRank, BinaryOp.ranks]

/-- A conditional is the loosest expression. -/
theorem rank_le (n : Node) : n.rank ≤ 26 := by
  unfold rank
  split
  · decide
  · next op _ _ =>
    have := binaryRank_le op
    split <;> omega
  · decide
  · decide
  · next op _ _ =>
    have := binaryRank_le op
    omega
  · decide
  · split <;> decide
  · decide

/-- **Expressions that keep to the table**: every operand binds as tightly as
its place demands. Items, arguments, indices and the values of dictionaries
stand between brackets or commas and may be of any rank. The names in the
tree are in `Word` and its literal values in `Value`. -/
inductive Levelled (Word : Bytes → Prop) (Value : Literal → Prop) : Node → Prop where
  | symbol {p name} (word : Word name) : Levelled Word Value (.symbol p name)
  | literal {p v} (value : Value v) : Levelled Word Value (.literal p v)
  | group {p items} (all : ∀ n ∈ items, Levelled Word Value n) :
    Levelled Word Value (.group p items)
  | array {p items} (all : ∀ n ∈ items, Levelled Word Value n) :
    Levelled Word Value (.array p items)
  | dict {p pairs} (keys : ∀ e ∈ pairs, Levelled Word Value e.1)
    (tight : ∀ e ∈ pairs, e.1.rank ≤ 2) (values : ∀ e ∈ pairs, Levelled Word Value e.2) :
    Levelled Word Value (.dict p pairs)
  | call {p callee args} (head : Levelled Word Value callee) (tight : callee.rank ≤ 2)
    (all : ∀ n ∈ args, Levelled Word Value n) : Levelled Word Value (.call p callee args)
  | lookup {p target key} (head : Levelled Word Value target) (tight : target.rank ≤ 2)
    (index : Levelled Word Value key) : Levelled Word Value (.lookup p target key)
  | neg {p t} (operand : Levelled Word Value t) (tight : t.rank ≤ 4)
    (open_ : t.isNumber = false) : Levelled Word Value (.neg p t)
  | binary {p op l r whole left right} (table : op.ranks = some (whole, left, right))
    (onLeft : Levelled Word Value l) (tightLeft : l.rank ≤ left)
    (onRight : Levelled Word Value r) (tightRight : r.rank ≤ right) :
    Levelled Word Value (.binary p op l r)
  | failedTest {p q op l r whole left right} (test : op.isTest = true)
    (table : op.ranks = some (whole, left, right))
    (onLeft : Levelled Word Value l) (tightLeft : l.rank ≤ left)
    (onRight : Levelled Word Value r) (tightRight : r.rank ≤ right) :
    Levelled Word Value (.not p (.binary q op l r))
  | not {p t} (operand : Levelled Word Value t) (tight : t.rank ≤ 20)
    (other : t.isTest = false) : Levelled Word Value (.not p t)
  | compare {p first links} (head : Levelled Word Value first) (tight : first.rank ≤ 12)
    (some_ : links ≠ []) (signs : ∀ l ∈ links, ∃ op : Op, op.isComparison = true ∧ l.1 = op.text)
    (all : ∀ l ∈ links, Levelled Word Value l.2) (allTight : ∀ l ∈ links, l.2.rank ≤ 12) :
    Levelled Word Value (.compare p first links)
  | choice {p c b a} (condition : Levelled Word Value c) (tightCondition : c.rank ≤ 24)
    (body : Levelled Word Value b) (tightBody : b.rank ≤ 24)
    (alternative : a.isMissing = false → Levelled Word Value a)
    (tightAlternative : a.rank ≤ 24) :
    Levelled Word Value (.choice p c b a)

end Node

/-! ## Writing -/

/-- The words of an operator between its operands. -/
def BinaryOp.words : BinaryOp → List Lexeme
  | .or => [.name "or"]
  | .and => [.name "and"]
  | .isIn => [.name "in"]
  | .is => [.name "is"]
  | .concat => [.op .tilde]
  | .add => [.op .plus]
  | .sub => [.op .minus]
  | .mul => [.op .times]
  | .div => [.op .divide]
  | .floorDiv => [.op .floorDivide]
  | .mod => [.op .percent]
  | .pow => [.op .power]
  | .other name => [.name name]

/-- The words of a negated test between its operands. -/
def BinaryOp.negatedWords : BinaryOp → List Lexeme
  | .is => [.name "is", .name "not"]
  | op => .name "not" :: op.words

/-- The words of a literal value. -/
def Literal.lexemes : Literal → List Lexeme
  | .string s => [.string s]
  | .int n =>
    if n < 0 then [.op .minus, .int (Bytes.decimal n.natAbs)] else [.int (Bytes.decimal n.natAbs)]
  | .bool b => [.name (boolText b)]
  | .null => [.name "none"]
  | .float d => [.float d.text]
  | .plain n => [.int (Bytes.decimal n.natAbs)]
  | .words _ => []

/-- The operator with a spelling. -/
def Op.ofText (text : Bytes) : Op := (Op.all.find? fun op => op.text == text).getD .equal

namespace Node

mutual

/-- **The words of an expression.** Only the brackets of the tree itself are
written. A negated test is written with its two-word operator, a filter as
the call that it is, and every member as an index. -/
def words : Node → List Lexeme
  | .symbol _ name => [.name name]
  | .literal _ v => v.lexemes
  | .group _ items => .op .openParen :: (wordsOf [] items ++ [.op .closeParen])
  | .array _ items => .op .openBracket :: (wordsOf [] items ++ [.op .closeBracket])
  | .dict _ pairs => .op .openBrace :: (wordsOfPairs [] pairs ++ [.op .closeBrace])
  | .call _ callee args =>
    callee.words ++ .op .openParen :: (wordsOf [] args ++ [.op .closeParen])
  | .lookup _ target key =>
    target.words ++ .op .openBracket :: (key.words ++ [.op .closeBracket])
  | .neg _ t => .op .minus :: t.words
  | .binary _ op l r => l.words ++ (op.words ++ r.words)
  | .not _ (.binary _ op l r) =>
    if op.isTest then l.words ++ (op.negatedWords ++ r.words)
    else .name "not" :: (l.words ++ (op.words ++ r.words))
  | .not _ t => .name "not" :: t.words
  | .compare _ first links => first.words ++ wordsOfLinks links
  | .choice _ c b a =>
    b.words ++ .name "if" :: (c.words ++ if a.isMissing then [] else .name "else" :: a.words)
  | _ => []

/-- The words of a list of expressions with commas between them; `lead`
stands in front of the first. -/
def wordsOf (lead : List Lexeme) : List Node → List Lexeme
  | [] => []
  | n :: ns => lead ++ (n.words ++ wordsOf [.op .comma] ns)

/-- The words of the operators and operands that follow the first operand of
a comparison. -/
def wordsOfLinks : List (Bytes × Node) → List Lexeme
  | [] => []
  | (sign, n) :: links => .op (Op.ofText sign) :: (n.words ++ wordsOfLinks links)

/-- The words of keys with their values. -/
def wordsOfPairs (lead : List Lexeme) : List (Node × Node) → List Lexeme
  | [] => []
  | (k, v) :: pairs =>
    lead ++ (k.words ++ .op .colon :: (v.words ++ wordsOfPairs [.op .comma] pairs))

end

end Node

/-! ## The words of an expression -/

/-- The words that expressions have beside their names and values. -/
def syntaxWords : List Lexeme :=
  [.op .openParen, .op .closeParen, .op .openBracket, .op .closeBracket, .op .openBrace,
    .op .closeBrace, .op .comma, .op .colon, .op .equal, .op .identical, .op .notEqual,
    .op .notIdentical, .op .less, .op .greater, .op .atMost, .op .atLeast, .op .tilde, .op .plus,
    .op .minus, .op .times, .op .divide, .op .floorDivide, .op .percent, .op .power, .name "or",
    .name "and", .name "not", .name "in", .name "is", .name "if", .name "else"]

theorem Op.ofText_text (op : Op) : Op.ofText op.text = op := by
  cases op <;> rfl

/-- The words between operands and in front of them: those that are no
brackets, commas and colons. -/
def joints : List Lexeme := syntaxWords.drop 8

theorem BinaryOp.words_eq {ranks : Nat × Nat × Nat}
    (table : op.ranks = some ranks) : ∃ w ∈ joints, op.words = [w] := by
  cases op with
  | other name => cases table
  | _ => exact ⟨_, by decide, rfl⟩

theorem BinaryOp.negatedWords_eq (test : op.isTest = true) :
    ∃ v ∈ joints, ∃ w ∈ joints, op.negatedWords = [v, w] := by
  cases op with
  | isIn | is => exact ⟨_, by decide, _, by decide, rfl⟩
  | _ => cases test

/-- **Phrases** are words in the shape of expressions: operands with joints
between them and in front of them, and lists in brackets. Inside brackets
there may be no words, and there commas and colons stand between others. -/
inductive Phrase (Atom : List Lexeme → Prop) : Bool → List Lexeme → Prop where
  | atom {ws} (known : Atom ws) : Phrase Atom false ws
  | joint {b w vs} (before : b ≠ [] → Phrase Atom false b) (known : w ∈ joints)
    (after : Phrase Atom false vs) : Phrase Atom false (b ++ w :: vs)
  | brackets {b left right vs} (before : b ≠ [] → Phrase Atom false b)
    (opening : left.isOpening = true) (closing : right.isClosing = true)
    (inside : Phrase Atom true vs) :
    Phrase Atom false (b ++ .op left :: (vs ++ [.op right]))
  | none : Phrase Atom true []
  | item {ws} (only : Phrase Atom false ws) : Phrase Atom true ws
  | list {b o vs} (before : Phrase Atom true b) (known : o ∈ [Op.comma, .colon])
    (after : Phrase Atom true vs) : Phrase Atom true (b ++ .op o :: vs)

namespace Phrase

variable {Atom : List Lexeme → Prop} {ws : List Lexeme} {inside : Bool}

/-- The words of a phrase are those of the syntax and those of its operands. -/
theorem mem_syntaxWords (h : Phrase Atom inside ws) {w : Lexeme} (mem : w ∈ ws) :
    w ∈ syntaxWords ∨ ∃ us, Atom us ∧ w ∈ us := by
  induction h with
  | atom known => exact .inr ⟨_, known, mem⟩
  | joint _ known _ ihb iha =>
    rcases mem_append.1 mem with mem | mem
    · exact ihb (ne_nil_of_mem mem) mem
    · rcases mem_cons.1 mem with rfl | mem
      · exact .inl (mem_of_mem_drop known)
      · exact iha mem
  | @brackets _ left right _ _ opening closing _ ihb ihi =>
    have first : .op left ∈ syntaxWords := by cases left <;> first | decide | cases opening
    have last : .op right ∈ syntaxWords := by cases right <;> first | decide | cases closing
    simp only [mem_append, mem_cons, not_mem_nil, or_false] at mem
    obtain mem | rfl | mem | rfl := mem
    · exact ihb (ne_nil_of_mem mem) mem
    · exact .inl first
    · exact ihi mem
    · exact .inl last
  | none => cases mem
  | item _ ih => exact ih mem
  | @list _ op _ _ known _ ihb iha =>
    rcases mem_append.1 mem with mem | mem
    · exact ihb mem
    · rcases mem_cons.1 mem with rfl | mem
      · exact .inl (by clear * - known; revert op; decide)
      · exact iha mem

end Phrase

namespace Node

variable {Word : Bytes → Prop} {Value : Literal → Prop} {left right whole : Nat} {e l r t : Node}
  {p q : Position}

theorem words_not (other : t.isTest = false) :
    (Node.not p t).words = .name "not" :: t.words := by
  cases t with
  | binary q op l r =>
    have failed : ¬op.isTest = true := by simpa [isTest] using other
    exact if_neg failed
  | _ => rfl

theorem rank_not (other : t.isTest = false) :
    (Node.not p t).rank = 20 := by
  cases t with
  | binary q op l r => exact if_neg (by simpa [isTest] using other)
  | _ => rfl

theorem rank_binary (table : op.ranks = some (whole, left, right)) :
    (Node.binary p op l r).rank = whole := by
  rw [rank, binaryRank, table]
  rfl

theorem rank_failedTest (test : op.isTest = true) (table : op.ranks = some (whole, left, right)) :
    (Node.not p (.binary q op l r)).rank = whole := by
  rw [rank, if_pos test, binaryRank, table]
  rfl

theorem words_failedTest (test : op.isTest = true) :
    (Node.not p (.binary q op l r)).words = l.words ++ (op.negatedWords ++ r.words) := by
  rw [words, if_pos test]

theorem bareOf_eq (ns : List Node) : bareOf ns = ns.map bare := by
  induction ns with
  | nil => rfl
  | cons n ns ih => rw [bareOf, ih, map_cons]

theorem bareOfPairs_eq (pairs : List (Node × Node)) :
    bareOfPairs pairs = pairs.map fun e => (e.1.bare, e.2.bare) := by
  induction pairs with
  | nil => rfl
  | cons e pairs ih => rw [bareOfPairs, ih, map_cons]

/-- Words between commas. -/
def listed (lead : List Lexeme) : List (List Lexeme) → List Lexeme
  | [] => []
  | ws :: more => lead ++ (ws ++ listed [.op .comma] more)

theorem wordsOf_eq (lead : List Lexeme) (ns : List Node) :
    wordsOf lead ns = listed lead (ns.map words) := by
  induction ns generalizing lead with
  | nil => rfl
  | cons n ns ih => rw [wordsOf, ih, map_cons, listed]

theorem wordsOfPairs_eq (lead : List Lexeme) (pairs : List (Node × Node)) :
    wordsOfPairs lead pairs
      = listed lead (pairs.map fun e => e.1.words ++ .op .colon :: e.2.words) := by
  induction pairs generalizing lead with
  | nil => rfl
  | cons e pairs ih => simp [wordsOfPairs, ih, listed]

theorem forall_mem_wordsOf {P : Lexeme → Prop} {lead : List Lexeme} {ns : List Node}
    (front : ∀ w ∈ lead, P w) (comma : P (.op .comma)) (all : ∀ n ∈ ns, ∀ w ∈ n.words, P w) :
    ∀ w ∈ wordsOf lead ns, P w := by
  induction ns generalizing lead with
  | nil => exact forall_mem_nil _
  | cons n ns ih =>
    obtain ⟨first, others⟩ := forall_mem_cons.1 all
    rw [wordsOf, forall_mem_append, forall_mem_append]
    exact ⟨front, first, ih (forall_mem_singleton.2 comma) others⟩

section

variable {Atom : List Lexeme → Prop} {ws : List Lexeme}

theorem phrase_listed (lead : List Lexeme) {vss : List (List Lexeme)} (before : Phrase Atom true ws)
    (front : ∀ vs, Phrase Atom true vs → Phrase Atom true (ws ++ (lead ++ vs)))
    (all : ∀ vs ∈ vss, Phrase Atom true vs) : Phrase Atom true (ws ++ listed lead vss) := by
  induction vss generalizing ws lead with
  | nil => rwa [listed, append_nil]
  | cons vs vss ih =>
    obtain ⟨first, others⟩ := forall_mem_cons.1 all
    have here := front _ first
    have := ih [.op .comma] here (fun vs h => here.list (by decide) h) others
    simpa [listed] using this

theorem phrase_wordsOfLinks {links : List (Bytes × Node)} (before : Phrase Atom false ws)
    (signs : ∀ l ∈ links, ∃ op : Op, op.isComparison = true ∧ l.1 = op.text)
    (all : ∀ l ∈ links, Phrase Atom false l.2.words) :
    Phrase Atom false (ws ++ wordsOfLinks links) := by
  induction links generalizing ws with
  | nil => rwa [wordsOfLinks, append_nil]
  | cons link links ih =>
    obtain ⟨⟨op, comparison, text⟩, signs⟩ := forall_mem_cons.1 signs
    obtain ⟨first, others⟩ := forall_mem_cons.1 all
    have known : .op op ∈ joints := by cases op <;> first | decide | cases comparison
    rw [← Op.ofText_text op, ← text] at known
    have := ih (.joint (fun _ => before) known first) signs others
    rwa [append_assoc] at this

end

/-- The words of a name or of a value. -/
def IsAtom (Word : Bytes → Prop) (Value : Literal → Prop) (ws : List Lexeme) : Prop :=
  (∃ name, Word name ∧ ws = [.name name]) ∨ ∃ v, Value v ∧ ws = v.lexemes

/-- **The words of an expression** are a phrase of its names and its values. -/
theorem Levelled.phrase (levelled : e.Levelled Word Value) :
    Phrase (IsAtom Word Value) false e.words := by
  have front {ws : List Lexeme} (h : Phrase (IsAtom Word Value) false ws) {w : Lexeme}
      (known : w ∈ joints) : Phrase (IsAtom Word Value) false (w :: ws) :=
    .joint (b := []) (fun h => absurd rfl h) known h
  have list {vss : List (List Lexeme)} (all : ∀ vs ∈ vss, Phrase (IsAtom Word Value) true vs) :
      Phrase (IsAtom Word Value) true (listed [] vss) :=
    (phrase_listed [] Phrase.none (fun _ h => h) all :)
  induction levelled with
  | symbol word => exact .atom (.inl ⟨_, word, rfl⟩)
  | literal value => exact .atom (.inr ⟨_, value, rfl⟩)
  | group all ih | array all ih =>
    rw [words, wordsOf_eq]
    exact .brackets (b := []) (fun h => absurd rfl h) rfl rfl
      (list (forall_mem_map.2 fun n mem => .item (ih n mem)))
  | dict keys tight values ihk ihv =>
    rw [words, wordsOfPairs_eq]
    exact .brackets (b := []) (fun h => absurd rfl h) rfl rfl (list (forall_mem_map.2 fun e mem =>
      .list (.item (ihk e mem)) (by decide) (.item (ihv e mem))))
  | call head tight all ihc ih =>
    rw [words, wordsOf_eq]
    exact .brackets (fun _ => ihc) rfl rfl (list (forall_mem_map.2 fun n mem => .item (ih n mem)))
  | lookup head tight index iht ihk => exact .brackets (fun _ => iht) rfl rfl (.item ihk)
  | neg operand tight open_ ih => exact front ih (by decide)
  | binary table onLeft tightLeft onRight tightRight ihl ihr =>
    obtain ⟨w, known, single⟩ := BinaryOp.words_eq table
    rw [words, single]
    exact .joint (fun _ => ihl) known ihr
  | failedTest test table onLeft tightLeft onRight tightRight ihl ihr =>
    obtain ⟨v, first, w, second, both⟩ := BinaryOp.negatedWords_eq test
    rw [words_failedTest test, both]
    exact .joint (fun _ => ihl) first (front ihr second)
  | not operand tight other ih =>
    rw [words_not other]
    exact front ih (by decide)
  | compare head tight some_ signs all allTight ihf ih => exact phrase_wordsOfLinks ihf signs ih
  | @choice p c b a condition tightCondition body tightBody alternative tightAlternative ihc ihb
      iha =>
    refine .joint (fun _ => ihb) (by decide) ?_
    cases present : a.isMissing with
    | true => rwa [if_pos rfl, append_nil]
    | false => exact .joint (fun _ => ihc) (by decide) (iha present)

theorem Levelled.mem_words (levelled : e.Levelled Word Value) {w : Lexeme} (mem : w ∈ e.words) :
    w ∈ syntaxWords ∨ (∃ name, Word name ∧ w = .name name) ∨ ∃ v, Value v ∧ w ∈ v.lexemes := by
  obtain known | ⟨_, ⟨name, word, rfl⟩ | ⟨v, value, rfl⟩, mem⟩ :=
    levelled.phrase.mem_syntaxWords mem
  · exact .inl known
  · exact .inr (.inl ⟨name, word, mem_singleton.1 mem⟩)
  · exact .inr (.inr ⟨v, value, mem⟩)

end Node

/-! ## Spelling -/

namespace Lexeme

/-- How a byte of a string is written between double quotes. -/
def escape (b : UInt8) : Bytes :=
  if b == Byte.newline then "\\n"
  else if b == Byte.tab then "\\t"
  else if b == Byte.carriageReturn then "\\r"
  else if b == Byte.quote || b == Byte.backslash then [Byte.backslash, b]
  else [b]

/-- How a word is written. -/
def spelling : Lexeme → Bytes
  | .name text | .int text | .float text => text
  | .op symbol => symbol.text
  | .string value => Byte.quote :: (value.flatMap escape ++ [Byte.quote])

/-- Words with one space between neighbours. -/
def spaced (ws : List Lexeme) : Bytes := Bytes.join " " (ws.map spelling)

end Lexeme

/-! ## Normal expressions -/

/-- The words that are operators or constants and so no names. -/
def reservedWords : List Bytes :=
  ["and", "or", "not", "in", "is", "if", "else", "true", "True", "false", "False", "none", "None",
    "null"]

/-- A name that can be written where an operand is due. -/
def IsPlainName (name : Bytes) : Prop :=
  Script.isIdentifier name = true ∧ name ∉ reservedWords

instance (name : Bytes) : Decidable (IsPlainName name) := inferInstanceAs (Decidable (_ ∧ _))

/-- The values of literals other than fractions: strings, truth values,
nothing, and the integers of 64 bits without the least. -/
def Literal.IsPlain : Literal → Prop
  | .string _ | .bool _ | .null => True
  | .int n => -2 ^ 63 < n ∧ n < 2 ^ 63
  | .float _ | .plain _ | .words _ => False

instance : (v : Literal) → Decidable v.IsPlain
  | .string _ | .bool _ | .null => .isTrue trivial
  | .int _ => inferInstanceAs (Decidable (_ ∧ _))
  | .float _ | .plain _ | .words _ => .isFalse id

namespace Node

/-- **Normal expressions**: they keep to the table, and their names and
values can be written. -/
def Normal (e : Node) : Prop := e.Levelled IsPlainName Literal.IsPlain

/-- The text of an expression: its words, separated by single spaces. -/
def source (e : Node) : Bytes := Lexeme.spaced e.words

end Node

end TemplateCompiler
