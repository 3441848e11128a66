import TemplateCompiler.Proofs.Template.Grammar
import TemplateCompiler.Proofs.Text.Utf8

/-!
# The arguments of statements are read back

The arguments of loops, assignments and includes are cut at words that stand
outside all brackets: at the first `in`, at the first equals sign, at commas.
`Statement.nesting` follows the depth in brackets through a list of words and
stops at a word that would be a cut. The words of an expression leave the
depth as it was, and their commas stand inside brackets, so the cuts are
those between the expressions.

An include is told from one that ignores a missing template by its last two
words. No expression ends like that, since in an expression two names never
stand next to each other.
-/

open List

namespace TemplateCompiler

variable {ns : List Node}

namespace Statement

variable {w : Lexeme} {found : List (List Token)} {part : List Token} {n : Node}

open Expression (Spells)

/-! ## Words outside brackets -/

/-- The depth in brackets behind a word, none if the word is a cut. -/
def descend (isCut : Lexeme → Bool) (depth : Int) (w : Lexeme) : Option Int :=
  match depthChange? w with
  | some change => some (depth + change)
  | none => if depth == 0 && isCut w then none else some depth

/-- The depth in brackets behind some words, none if there is a cut among
them. -/
def nesting (isCut : Lexeme → Bool) (depth : Int) (ws : List Lexeme) : Option Int :=
  ws.foldlM (descend isCut) depth

variable {isCut : Lexeme → Bool} {depth below least : Int} {us : List Token}

/-- The search for a cut passes over words without one. -/
theorem cut?_append (nest : nesting isCut depth (us.map Token.lexeme) = some below)
    (rest : List Token) :
    cut? isCut depth (us ++ rest) = (cut? isCut below rest).map fun (before, found, after) =>
      (us ++ before, found, after) := by
  induction us generalizing depth with
  | nil =>
    cases nest
    exact Option.map_id'.symm
  | cons t us ih =>
    rw [map_cons, nesting, foldlM_cons] at nest
    obtain ⟨next, step, nest⟩ := Option.bind_eq_some_iff.1 nest
    rw [cons_append, cut?]
    unfold descend at step
    split at step
    · next change h =>
      cases step
      simp only [h, ih nest, Option.map_map]
      rfl
    · next h =>
      split at step
      · cases step
      · next plain =>
        cases step
        simp only [h, plain, Int.add_zero, Bool.false_eq_true, if_false, ih nest, Option.map_map]
        rfl

/-- Words without a comma of their own stay in one part. -/
theorem parts_append {rest : List Token} {more : List (List Token)}
    (nest : nesting (· == .op .comma) depth (us.map Token.lexeme) = some below)
    (cut : parts below rest = part :: more) : parts depth (us ++ rest) = (us ++ part) :: more := by
  induction us generalizing depth with
  | nil =>
    cases nest
    exact cut
  | cons t us ih =>
    rw [map_cons, nesting, foldlM_cons] at nest
    obtain ⟨next, step, nest⟩ := Option.bind_eq_some_iff.1 nest
    rw [cons_append, parts]
    unfold descend at step
    split at step
    · next change h =>
      cases step
      simp only [h, Option.isNone_some, Option.getD_some, Bool.false_and, Bool.false_eq_true,
        if_false, ih nest]
      rfl
    · next h =>
      split at step
      · cases step
      · next plain =>
        cases step
        simp only [h, Option.isNone_none, Option.getD_none, Int.add_zero, Bool.true_and, plain,
          Bool.false_eq_true, if_false, ih nest]
        rfl

/-! ## Words that leave the depth as it was -/

/-- Words without a cut that end at the depth they start at, if that is at
least `least`. -/
def Keeps (isCut : Lexeme → Bool) (least : Int) (ws : List Lexeme) : Prop :=
  ∀ depth, least ≤ depth → nesting isCut depth ws = some depth

variable {ws vs : List Lexeme}

theorem keeps_nil : Keeps isCut least [] := fun _ _ => rfl

theorem Keeps.append (first : Keeps isCut least ws) (second : Keeps isCut least vs) :
    Keeps isCut least (ws ++ vs) := by
  intro depth above
  rw [nesting, foldlM_append]
  exact Option.bind_eq_some_iff.2 ⟨depth, first depth above, second depth above⟩

theorem keeps_word (flat : depthChange? w = none) (free : least ≤ 0 → isCut w = false) :
    Keeps isCut least [w] := by
  intro depth above
  have step : descend isCut depth w = some depth := by
    rw [descend, flat]
    refine if_neg fun cut => ?_
    rw [Bool.and_eq_true, beq_iff_eq] at cut
    rw [free (cut.1 ▸ above)] at cut
    cases cut.2
  exact Option.bind_eq_some_iff.2 ⟨depth, step, rfl⟩

theorem Keeps.mono {isCut' : Lexeme → Bool} {least' : Int} (keeps : Keeps isCut least ws)
    (fewer : ∀ w, isCut' w = true → isCut w = true) (higher : least ≤ least') :
    Keeps isCut' least' ws := by
  intro depth above
  have nest := keeps depth (le_trans higher above)
  clear keeps above
  suffices ∀ below, nesting isCut depth ws = some below → nesting isCut' depth ws = some below from
    this depth nest
  intro below nest
  clear * - nest fewer
  induction ws generalizing depth with
  | nil => exact nest
  | cons w ws ih =>
    obtain ⟨next, step, nest⟩ := Option.bind_eq_some_iff.1 nest
    refine Option.bind_eq_some_iff.2 ⟨next, ?_, ih next nest⟩
    unfold descend at step ⊢
    split at step
    · exact step
    · split at step
      · cases step
      · next plain =>
        cases step
        refine if_neg fun cut => plain ?_
        rw [Bool.and_eq_true] at cut ⊢
        exact ⟨cut.1, fewer w cut.2⟩

/-- Between brackets the depth is one more. -/
theorem Keeps.enclosed {left right : Op} (inside : Keeps isCut (least + 1) ws)
    (opening : left.isOpening = true) (closing : right.isClosing = true) :
    Keeps isCut least (.op left :: (ws ++ [.op right])) := by
  intro depth above
  have down : descend isCut depth (.op left) = some (depth + 1) := by
    simp only [descend, depthChange?, opening, if_true]
  have up : descend isCut (depth + 1) (.op right) = some depth := by
    have : right.isOpening = false := by revert closing; cases right <;> decide
    simp only [descend, depthChange?, closing, this, Bool.false_eq_true, if_false, if_true]
    rw [Int.add_neg_cancel_right]
  refine Option.bind_eq_some_iff.2 ⟨_, down, ?_⟩
  rw [foldlM_append]
  refine Option.bind_eq_some_iff.2 ⟨_, inside (depth + 1) (by omega), ?_⟩
  exact Option.bind_eq_some_iff.2 ⟨_, up, rfl⟩

theorem keeps_wordsOf {lead : List Lexeme} (front : Keeps isCut least lead)
    (comma : Keeps isCut least [.op .comma]) (all : ∀ n ∈ ns, Keeps isCut least n.words) :
    Keeps isCut least (Node.wordsOf lead ns) := by
  induction ns generalizing lead with
  | nil => exact keeps_nil
  | cons n ns ih =>
    obtain ⟨first, others⟩ := forall_mem_cons.1 all
    exact front.append (first.append (ih comma others))

/-- The words at which assignments are cut. -/
def isSeparator (w : Lexeme) : Bool := w == .op .comma || w == .op .assign

/-- **A phrase leaves the depth as it was**, and no separator in it stands
outside brackets. -/
theorem keeps_of_phrase {Atom : List Lexeme → Prop} {inside : Bool} (h : Phrase Atom inside ws)
    (atoms : ∀ vs, Atom vs → Keeps isSeparator 0 vs) :
    Keeps isSeparator (if inside then 1 else 0) ws := by
  have joint : ∀ w ∈ joints, depthChange? w = none ∧ isSeparator w = false := by decide
  have flat : ∀ op ∈ [Op.comma, .colon], depthChange? (.op op) = none := by decide
  have earlier {vs : List Lexeme} (ih : vs ≠ [] → Keeps isSeparator 0 vs) :
      Keeps isSeparator 0 vs := by
    cases vs with
    | nil => exact keeps_nil
    | cons v vs => exact ih (cons_ne_nil v vs)
  induction h with
  | atom known => exact atoms _ known
  | joint _ known _ ihb iha =>
    obtain ⟨plain, free⟩ := joint _ known
    exact (earlier ihb).append ((keeps_word plain fun _ => free).append iha)
  | brackets _ opening closing _ ihb ihi =>
    exact (earlier ihb).append (Keeps.enclosed ihi opening closing)
  | none => exact keeps_nil
  | item _ ih => exact ih.mono (fun _ h => h) (by decide)
  | list _ known _ ihb iha =>
    exact ihb.append ((keeps_word (flat _ known) fun h => absurd h (by decide)).append iha)

/-- A value is one word, apart from the sign of a number. -/
theorem lexemes_of_isPlain {v : Literal} (plain : v.IsPlain) :
    ∃ w, depthChange? w = none ∧ isSeparator w = false
      ∧ (v.lexemes = [w] ∨ v.lexemes = [.op .minus, w]) := by
  cases v with
  | string | bool | null => exact ⟨_, rfl, rfl, .inl rfl⟩
  | int n =>
    rw [Literal.lexemes]
    split
    · exact ⟨_, rfl, rfl, .inr rfl⟩
    · exact ⟨_, rfl, rfl, .inl rfl⟩
  | float | plain | words => exact plain.elim

theorem keeps_of_normal {e : Node} (normal : e.Normal) : Keeps isSeparator 0 e.words := by
  refine keeps_of_phrase normal.phrase ?_
  rintro _ (⟨name, -, rfl⟩ | ⟨v, plain, rfl⟩)
  · exact keeps_word rfl fun _ => rfl
  · obtain ⟨w, flat, free, single | signed⟩ := lexemes_of_isPlain plain
    · rw [single]
      exact keeps_word flat fun _ => free
    · rw [signed]
      exact (keeps_word (w := .op .minus) rfl fun _ => rfl).append (keeps_word flat fun _ => free)

/-! ## Names next to each other -/

/-- A name that is no operator or constant. -/
def IsFree (w : Lexeme) : Prop := ∃ name, name ∉ reservedWords ∧ w = .name name

/-- Words among which no two such names stand next to each other. -/
def Apart (ws : List Lexeme) : Prop := ws.IsChain fun v w => ¬(IsFree v ∧ IsFree w)

theorem not_isFree_op (op : Op) : ¬IsFree (.op op) := fun ⟨_, _, h⟩ => nomatch h

theorem not_isFree_joint (known : w ∈ joints) : ¬IsFree w := by
  rintro ⟨name, free, rfl⟩
  have reserved : ∀ w ∈ joints, w ∈ reservedWords.map .name ∨ w ∈ Op.all.map .op := by decide
  rcases reserved _ known with word | op
  · obtain ⟨other, mem, same⟩ := mem_map.1 word
    cases same
    exact free mem
  · obtain ⟨op, -, same⟩ := mem_map.1 op
    cases same

/-- A word that is no such name keeps what stands before it apart from what
stands behind. -/
theorem Apart.joint (before : Apart ws) (joint : ¬IsFree w) (after : Apart vs) :
    Apart (ws ++ w :: vs) := by
  have behind : Apart (w :: vs) := by
    cases vs with
    | nil => exact isChain_singleton w
    | cons v vs => exact isChain_cons_cons.2 ⟨fun both => joint both.1, after⟩
  refine isChain_append.2 ⟨before, behind, fun v _ u found both => joint ?_⟩
  cases found
  exact both.2

/-- **In an expression no two names stand next to each other.** -/
theorem apart_of_normal {e : Node} (normal : e.Normal) : Apart e.words := by
  have empty : Apart [] := isChain_nil
  have earlier {vs : List Lexeme} (ih : vs ≠ [] → Apart vs) : Apart vs := by
    cases vs with
    | nil => exact empty
    | cons v vs => exact ih (cons_ne_nil v vs)
  have phrase := normal.phrase
  generalize e.words = ws, false = inside at phrase
  induction phrase with
  | atom known =>
    obtain ⟨name, -, rfl⟩ | ⟨v, plain, rfl⟩ := known
    · exact isChain_singleton _
    · obtain ⟨w, -, -, single | signed⟩ := lexemes_of_isPlain plain
      · rw [single]
        exact isChain_singleton w
      · rw [signed]
        exact Apart.joint empty (not_isFree_op .minus) (isChain_singleton w)
  | joint _ known _ ihb iha => exact (earlier ihb).joint (not_isFree_joint known) iha
  | brackets _ _ _ _ ihb ihi =>
    exact (earlier ihb).joint (not_isFree_op _) (ihi.joint (not_isFree_op _) empty)
  | none => exact empty
  | item _ ih => exact ih
  | list _ _ _ ihb iha => exact ihb.joint (not_isFree_op _) iha

/-! ## Written arguments -/

/-- The arguments of a statement are the given words, each behind a space. -/
def Carries (s : Statement) (ws : List Lexeme) : Prop := s.args = Lexeme.led ws ++ [Byte.space]

theorem scan_blank (pos : Position) : Token.scan pos [Byte.space] = .ok [] := by
  rw [Lexeme.scan_space, Token.scan]

variable {s : Statement} {e : Node}

theorem Carries.tokens (carries : s.Carries ws) (writable : ∀ w ∈ ws, w.IsWritable) :
    ∃ us, s.tokens = .ok us ∧ us.map Token.lexeme = ws := by
  obtain ⟨us, scanned, words⟩ := Lexeme.scan_led writable (Lexeme.ends_space [])
    (fun pos => ⟨[], scan_blank pos, rfl⟩) s.argsPos
  exact ⟨us, by rw [Statement.tokens, carries, scanned], by rw [words, map_nil, append_nil]⟩

/-- One expression as the arguments. -/
theorem Carries.expression (carries : s.Carries e.words) (normal : e.Normal) :
    ∃ t, s.expression = .ok t ∧ t.bare = e.bare := by
  obtain ⟨us, scanned, words⟩ := carries.tokens normal.writable
  obtain ⟨t, read, alike⟩ := Expression.ofTokens_of_normal normal words (s.argsPos.after s.args)
  refine ⟨t, ?_, alike⟩
  rw [Statement.tokens] at scanned
  rw [Statement.expression, Expression.parse, scanned]
  exact read

/-! ### Loops -/

/-- A name that a loop can bind. -/
def IsLoopName : Node → Prop
  | .symbol _ name => Script.isIdentifier name = true ∧ name ≠ "in"
  | _ => False

/-- What a loop can bind: one name, or an array of several. -/
def IsLoopVars : Node → Prop
  | .array _ items => 2 ≤ items.length ∧ ∀ n ∈ items, IsLoopName n
  | n => IsLoopName n

/-- The names of a loop with commas between them. -/
def loopWords : Node → List Lexeme
  | .array _ items => Node.wordsOf [] items
  | n => n.words

theorem IsLoopName.words (named : IsLoopName n) :
    ∃ p name, n = .symbol p name ∧ n.words = [.name name] ∧ Script.isIdentifier name = true
      ∧ name ≠ "in" := by
  cases n with
  | symbol p name => exact ⟨p, name, rfl, rfl, named⟩
  | _ => exact named.elim

theorem loopNames_of_names (loopIn : Token) {us : List Token} (named : ∀ m ∈ n :: ns, IsLoopName m)
    (words : us.map Token.lexeme = Node.wordsOf [] (n :: ns)) :
    ∃ found, loopNames loopIn us = .ok found ∧ Node.bareOf found = Node.bareOf (n :: ns) := by
  induction ns generalizing n us with
  | nil =>
    obtain ⟨p, name, rfl, single, -⟩ := (named n mem_cons_self).words
    obtain ⟨t, _, rfl, first, none⟩ := map_eq_cons_iff.1 words
    cases map_eq_nil_iff.1 none
    refine ⟨[.symbol t.pos name], ?_, rfl⟩
    simp only [loopNames, first]
  | cons m ns ih =>
    obtain ⟨p, name, rfl, single, -⟩ := (named n mem_cons_self).words
    obtain ⟨t, us, rfl, first, words⟩ := map_eq_cons_iff.1 words
    obtain ⟨comma, us, rfl, second, words⟩ := map_eq_cons_iff.1 words
    obtain ⟨found, read, alike⟩ := ih (fun k mem => named k (mem_cons_of_mem _ mem)) words
    refine ⟨.symbol t.pos name :: found, ?_, ?_⟩
    · simp only [loopNames, first, second, beq_self_eq_true, if_true, read, bind, Except.bind]
    · rw [Node.bareOf, alike]
      rfl

/-- The names of a loop hold no `in` and no brackets. -/
theorem keeps_names (named : ∀ n ∈ ns, IsLoopName n) :
    Keeps (· == .name "in") 0 (Node.wordsOf [] ns) := by
  refine keeps_wordsOf keeps_nil (keeps_word rfl fun _ => rfl) fun n mem => ?_
  obtain ⟨p, name, rfl, single, -, apart⟩ := (named n mem).words
  refine keeps_word rfl fun _ => ?_
  rw [beq_eq_false_iff_ne]
  rintro ⟨⟩
  exact apart rfl

theorem names_writable (named : ∀ n ∈ ns, IsLoopName n) :
    ∀ w ∈ Node.wordsOf [] ns, w.IsWritable := by
  refine Node.forall_mem_wordsOf (forall_mem_nil _) trivial fun n mem => ?_
  obtain ⟨p, name, rfl, single, identifier, -⟩ := (named n mem).words
  rw [single]
  exact forall_mem_singleton.2 identifier

/-- The arguments of a loop over some names. -/
theorem Carries.loopOver (pos : Position) (named : ∀ m ∈ n :: ns, IsLoopName m)
    (carries : s.Carries (Node.wordsOf [] (n :: ns) ++ .name "in" :: e.words)) (normal : e.Normal) :
    ∃ first found t, s.loop pos = .ok (match found with
        | [name] => name
        | names => .array first names, t)
      ∧ Node.bareOf found = Node.bareOf (n :: ns) ∧ t.bare = e.bare := by
  have writable : ∀ w ∈ Node.wordsOf [] (n :: ns) ++ .name "in" :: e.words, w.IsWritable := by
    rw [forall_mem_append, forall_mem_cons]
    exact ⟨names_writable named, by decide, normal.writable⟩
  obtain ⟨us, scanned, words⟩ := carries.tokens writable
  obtain ⟨before, _, rfl, front, words⟩ := map_eq_append_iff.1 words
  obtain ⟨loopIn, after, rfl, in_, words⟩ := map_eq_cons_iff.1 words
  have cut : cut? (· == .name "in") 0 (before ++ loopIn :: after)
      = some (before, loopIn, after) := by
    rw [cut?_append (front ▸ keeps_names named 0 (le_refl 0)) (loopIn :: after), cut?, in_]
    show some (before ++ [], loopIn, after) = _
    rw [append_nil]
  obtain ⟨found, names, alike⟩ := loopNames_of_names loopIn named front
  obtain ⟨t, read, same⟩ := Expression.ofTokens_of_normal normal words s.stop
  obtain ⟨first, more, rfl⟩ : ∃ first more, before = first :: more := by
    cases before with
    | nil =>
      obtain ⟨p, name, rfl, -⟩ := (named n mem_cons_self).words
      cases front
    | cons first more => exact ⟨first, more, rfl⟩
  refine ⟨first.pos, found, t, ?_, alike, same⟩
  simp only [Statement.loop, scanned, bind, Except.bind, cut, names, read] <;> rfl

/-- **The arguments of a loop are read back.** -/
theorem Carries.loop {vars : Node} (pos : Position) (bound : IsLoopVars vars)
    (carries : s.Carries (loopWords vars ++ .name "in" :: e.words)) (normal : e.Normal) :
    ∃ v t, s.loop pos = .ok (v, t) ∧ v.bare = vars.bare ∧ t.bare = e.bare := by
  by_cases several : ∃ p items, vars = .array p items
  · obtain ⟨p, items, rfl⟩ := several
    obtain ⟨many, named⟩ := bound
    obtain _ | ⟨n, _ | ⟨m, ns⟩⟩ := items
    · cases many
    · exact absurd many (Nat.not_succ_le_self 1)
    obtain ⟨first, found, t, read, alike, same⟩ := carries.loopOver pos named normal
    refine ⟨_, t, read, ?_, same⟩
    obtain _ | ⟨n', _ | ⟨m', ns'⟩⟩ := found
    · cases alike
    · cases (List.cons.inj alike).2
    · show Node.array .none (Node.bareOf (n' :: m' :: ns')) = _
      rw [alike]
      rfl
  · have single : IsLoopName vars ∧ loopWords vars = Node.wordsOf [] [vars] := by
      cases vars with
      | array p items => exact absurd ⟨p, items, rfl⟩ several
      | symbol p name => exact ⟨bound, rfl⟩
      | _ => exact bound.elim
    obtain ⟨named, words⟩ := single
    rw [words] at carries
    obtain ⟨first, found, t, read, alike, same⟩ :=
      carries.loopOver pos (forall_mem_singleton.2 named) normal
    refine ⟨_, t, read, ?_, same⟩
    obtain _ | ⟨n', _ | ⟨m', ns'⟩⟩ := found
    · cases alike
    · exact (List.cons.inj alike).1
    · cases (List.cons.inj alike).2

/-! ### Assignments -/

/-- What can be assigned to: a name or a member. -/
def IsTarget (n : Node) : Prop := n.Normal ∧ ((∃ p name, n = .symbol p name)
  ∨ ∃ p l k, n = .lookup p l k)

theorem target_of_words (pos : Position) (spells : Spells part e) (place : IsTarget e) :
    ∃ t, target pos part = .ok t ∧ t.bare = e.bare := by
  obtain ⟨first, more, rfl, -⟩ := spells.front (Expression.starts_of_normal place.1)
  obtain ⟨t, read, alike⟩ :=
    Expression.ofTokens_of_normal place.1 spells (more.getLastD first).pos
  refine ⟨t, ?_, alike⟩
  simp only [target, read, bind, Except.bind]
  obtain ⟨-, ⟨p, name, rfl⟩ | ⟨p, l, k, rfl⟩⟩ := place <;> cases t <;> first | rfl | cases alike

theorem parts_of_words {us : List Token} (normal : ∀ m ∈ n :: ns, m.Normal)
    (words : us.map Token.lexeme = Node.wordsOf [] (n :: ns)) :
    List.Forall₂ Spells (parts 0 us) (n :: ns) := by
  have keeps (m : Node) (h : m.Normal) : Keeps (· == .op .comma) 0 m.words :=
    (keeps_of_normal h).mono (fun w h => by rw [isSeparator, h, Bool.true_or]) (le_refl 0)
  induction ns generalizing n us with
  | nil =>
    have spells : Spells us n := by
      rw [Spells, words]
      exact append_nil _
    have nest := keeps n (normal n mem_cons_self) 0 (le_refl 0)
    have cut : parts 0 (us ++ []) = [us ++ []] := parts_append (spells.symm ▸ nest) rfl
    rw [append_nil] at cut
    rw [cut]
    exact .cons spells .nil
  | cons m ns ih =>
    rw [Node.wordsOf, nil_append] at words
    obtain ⟨first, _, rfl, spells, words⟩ := map_eq_append_iff.1 words
    obtain ⟨comma, rest, rfl, sep, words⟩ := map_eq_cons_iff.1 words
    have nest := keeps n (normal n mem_cons_self) 0 (le_refl 0)
    have behind := ih (fun k mem => normal k (mem_cons_of_mem _ mem)) words
    have apart : parts 0 (comma :: rest) = [] :: parts 0 rest := by
      rw [parts, sep]
      rfl
    rw [parts_append (spells.symm ▸ nest) apart, append_nil]
    exact .cons spells behind

theorem mapM_target (pos : Position) (spells : List.Forall₂ Spells found ns)
    (places : ∀ n ∈ ns, IsTarget n) :
    ∃ ts, found.mapM (target pos) = .ok ts ∧ Node.bareOf ts = Node.bareOf ns := by
  induction spells with
  | nil => exact ⟨[], rfl, rfl⟩
  | cons first _ ih =>
    obtain ⟨place, others⟩ := forall_mem_cons.1 places
    obtain ⟨t, read, alike⟩ := target_of_words pos first place
    obtain ⟨ts, reads, same⟩ := ih others
    refine ⟨t :: ts, ?_, by rw [Node.bareOf, Node.bareOf, alike, same]⟩
    rw [mapM_cons, read, reads]
    rfl

theorem ne_nil_of_spells (spells : List.Forall₂ Spells found ns) (normal : ∀ n ∈ ns, n.Normal) :
    ∀ part ∈ found, part ≠ [] := by
  induction spells with
  | nil => exact forall_mem_nil _
  | cons first _ ih =>
    obtain ⟨head, others⟩ := forall_mem_cons.1 normal
    obtain ⟨t, us, rfl, -⟩ := first.front (Expression.starts_of_normal head)
    exact forall_mem_cons.2 ⟨cons_ne_nil t us, ih others⟩

theorem targets_of_words {us : List Token} (pos : Position) (some_ : ns ≠ [])
    (places : ∀ n ∈ ns, IsTarget n) (words : us.map Token.lexeme = Node.wordsOf [] ns) :
    ∃ ts, targets pos us = .ok ts ∧ Node.bareOf ts = Node.bareOf ns := by
  obtain ⟨n, ns, rfl⟩ := exists_cons_of_ne_nil some_
  have normal : ∀ m ∈ n :: ns, m.Normal := fun m mem => (places m mem).1
  have spells := parts_of_words normal words
  have last : (parts 0 us).getLast? ≠ some [] := fun empty =>
    ne_nil_of_spells spells normal [] (mem_of_getLast? empty) rfl
  obtain ⟨ts, read, alike⟩ := mapM_target pos spells places
  refine ⟨ts, ?_, alike⟩
  obtain _ | ⟨t, us⟩ := us
  · obtain ⟨w, ws, starts, -⟩ := Expression.starts_of_normal (normal n mem_cons_self)
    rw [Node.wordsOf, starts] at words
    cases words
  · simp only [targets, beq_eq_false_iff_ne.2 last, Bool.false_eq_true, if_false, read]

theorem targets_writable (places : ∀ n ∈ ns, IsTarget n) :
    ∀ w ∈ Node.wordsOf [] ns, w.IsWritable :=
  Node.forall_mem_wordsOf (forall_mem_nil _) trivial fun n mem => (places n mem).1.writable

/-- The targets of an assignment hold no equals sign outside brackets. -/
theorem keeps_targets (places : ∀ n ∈ ns, IsTarget n) :
    Keeps (· == .op .assign) 0 (Node.wordsOf [] ns) :=
  keeps_wordsOf keeps_nil (keeps_word rfl fun _ => rfl) fun n mem =>
    (keeps_of_normal (places n mem).1).mono (fun w h => by rw [isSeparator, h, Bool.or_true])
      (le_refl 0)

/-- **The words of an assignment with a value are read back.** -/
theorem assignment_of_words (pos : Position) (some_ : ns ≠ [])
    (places : ∀ n ∈ ns, IsTarget n) (normal : e.Normal) {us : List Token}
    (scanned : s.tokens = .ok us)
    (words : us.map Token.lexeme = Node.wordsOf [] ns ++ .op .assign :: e.words) :
    ∃ ts t, s.assignment pos = .ok (ts, some t) ∧ Node.bareOf ts = Node.bareOf ns
      ∧ t.bare = e.bare := by
  obtain ⟨before, _, rfl, front, words⟩ := map_eq_append_iff.1 words
  obtain ⟨sign, after, rfl, assign, words⟩ := map_eq_cons_iff.1 words
  have cut : cut? (· == .op .assign) 0 (before ++ sign :: after) = some (before, sign, after) := by
    rw [cut?_append (front ▸ keeps_targets places 0 (le_refl 0)), cut?, assign]
    show some (before ++ [], sign, after) = _
    rw [append_nil]
  obtain ⟨ts, found, alike⟩ := targets_of_words pos some_ places front
  obtain ⟨t, read, same⟩ := Expression.ofTokens_of_normal normal words s.stop
  refine ⟨ts, t, ?_, alike, same⟩
  simp only [Statement.assignment, scanned, bind, Except.bind, cut, found, read]

theorem Carries.assignment (pos : Position) (some_ : ns ≠ [])
    (places : ∀ n ∈ ns, IsTarget n) (normal : e.Normal)
    (carries : s.Carries (Node.wordsOf [] ns ++ .op .assign :: e.words)) :
    ∃ ts t, s.assignment pos = .ok (ts, some t) ∧ Node.bareOf ts = Node.bareOf ns
      ∧ t.bare = e.bare := by
  have writable : ∀ w ∈ Node.wordsOf [] ns ++ .op .assign :: e.words, w.IsWritable := by
    rw [forall_mem_append, forall_mem_cons]
    exact ⟨targets_writable places, trivial, normal.writable⟩
  obtain ⟨us, scanned, words⟩ := carries.tokens writable
  exact assignment_of_words pos some_ places normal scanned words

/-- **The arguments of an assignment without a value are read back.** -/
theorem Carries.assignment_body (pos : Position) (some_ : ns ≠ [])
    (places : ∀ n ∈ ns, IsTarget n) (carries : s.Carries (Node.wordsOf [] ns)) :
    ∃ ts, s.assignment pos = .ok (ts, none) ∧ Node.bareOf ts = Node.bareOf ns := by
  obtain ⟨us, scanned, words⟩ := carries.tokens (targets_writable places)
  have cut := cut?_append (words ▸ keeps_targets places 0 (le_refl 0)) []
  rw [append_nil] at cut
  obtain ⟨ts, found, alike⟩ := targets_of_words pos some_ places words
  refine ⟨ts, ?_, alike⟩
  simp only [Statement.assignment, scanned, bind, Except.bind, cut, found]
  rfl

/-! ### Includes -/

/-- The words that let an include go without its template. -/
def toleration (ignoreMissing : Bool) : List Lexeme :=
  if ignoreMissing then [.name "ignore", .name "missing"] else []

/-- **The arguments of an include are read back.** -/
theorem Carries.embedding (ignoreMissing : Bool) (normal : e.Normal)
    (carries : s.Carries (e.words ++ toleration ignoreMissing)) :
    ∃ t, s.embedding = .ok (t, ignoreMissing) ∧ t.bare = e.bare := by
  have writable : ∀ w ∈ e.words ++ toleration ignoreMissing, w.IsWritable := by
    rw [forall_mem_append]
    exact ⟨normal.writable, by cases ignoreMissing <;> decide⟩
  obtain ⟨us, scanned, words⟩ := carries.tokens writable
  cases ignoreMissing with
  | true =>
    obtain ⟨us, _, rfl, front, words⟩ := map_eq_append_iff.1 words
    obtain ⟨ignore, _, rfl, first, words⟩ := map_eq_cons_iff.1 words
    obtain ⟨missing, _, rfl, second, words⟩ := map_eq_cons_iff.1 words
    cases map_eq_nil_iff.1 words
    obtain ⟨t, read, same⟩ := Expression.ofTokens_of_normal normal front s.stop
    refine ⟨t, ?_, same⟩
    simp only [Statement.embedding, scanned, bind, Except.bind, reverse_append,
      reverse_cons, reverse_nil, nil_append, cons_append, first, second,
      beq_self_eq_true, Bool.and_self, if_true, reverse_reverse, read]
  | false =>
    have spells : Spells us e := words.trans (append_nil _)
    obtain ⟨t, read, same⟩ := Expression.ofTokens_of_normal normal spells s.stop
    refine ⟨t, ?_, same⟩
    simp only [Statement.embedding, scanned, bind, Except.bind]
    split
    · next last before rest reversed =>
      -- Two names at the end would stand next to each other.
      have plain : ¬(last.lexeme == .name "missing" && before.lexeme == .name "ignore") = true := by
        intro both
        rw [Bool.and_eq_true, beq_iff_eq, beq_iff_eq] at both
        have apart := apart_of_normal normal
        rw [← spells, ← reverse_reverse us, reversed] at apart
        simp only [reverse_cons, append_assoc, cons_append, nil_append,
          map_append, map_cons, both, Apart, isChain_append,
          isChain_cons_cons] at apart
        exact apart.2.1.1 ⟨⟨_, by decide, rfl⟩, ⟨_, by decide, rfl⟩⟩
      rw [if_neg plain, read]
    · rw [read]

/-! ### Blocks -/

/-- The steps through plain text are its bytes. -/
theorem runes_ascii {bs : Bytes} (ascii : ∀ b ∈ bs, b < 0x80) :
    Utf8.runes bs = bs.map fun b => .point b.toNat := by
  induction bs with
  | nil => rw [Utf8.runes]; rfl
  | cons b bs ih =>
    obtain ⟨first, others⟩ := forall_mem_cons.1 ascii
    have point : Utf8.point? (b :: bs) = some (b.toNat, 0) := by
      rw [Utf8.point?.eq_def]
      exact if_pos first
    rw [Utf8.runes, point, map_cons]
    simp only [drop_zero, ih others]

theorem point_of_isNamePart {b : UInt8} (part : Byte.isNamePart b = true) :
    b < 0x80 ∧ isSpacePoint b.toNat = false := by
  have range : 0x24 ≤ b ∧ b ≤ 0x7a := by
    grind [Byte.isNamePart, Byte.isNameStart, Byte.isLower, Byte.isUpper, Byte.isDigit]
  have least : 0x24 ≤ b.toNat := UInt8.le_iff_toNat_le.1 range.1
  have most : b.toNat ≤ 0x7a := UInt8.le_iff_toNat_le.1 range.2
  refine ⟨UInt8.lt_iff_toNat_lt.2 (lt_of_le_of_lt most (by decide)), ?_⟩
  simp only [isSpacePoint, Bool.or_eq_false_iff, Bool.and_eq_false_iff, decide_eq_false_iff_not,
    beq_eq_false_iff_ne]
  omega

/-- **The name of a block is read back.** -/
theorem Carries.blockName {name : Bytes} (identifier : Script.isIdentifier name = true)
    (carries : s.Carries [.name name]) : trimSpace s.args = name := by
  have points := fun b mem => point_of_isNamePart (Lexeme.isNamePart_of_mem identifier b mem)
  have text : s.args = Byte.space :: (name ++ [Byte.space]) := by
    rw [carries]
    show Byte.space :: (name ++ []) ++ [Byte.space] = _
    rw [append_nil, cons_append]
  have ascii : ∀ b ∈ Byte.space :: (name ++ [Byte.space]), b < 0x80 := by
    rw [forall_mem_cons, forall_mem_append]
    exact ⟨by decide, fun b mem => (points b mem).1, forall_mem_singleton.2 (by decide)⟩
  have visible : ∀ r ∈ name.map fun b => Rune.point b.toNat, r.isSpace = false := by
    rw [forall_mem_map]
    exact fun b mem => (points b mem).2
  have some_ : (name.map fun b => Rune.point b.toNat) ≠ [] := by
    rw [Ne, map_eq_nil_iff]
    rintro rfl
    cases identifier
  have back : (name.map fun b => Rune.point b.toNat).flatMap Rune.bytes = name := by
    rw [flatMap_map]
    have single : ∀ b ∈ name, (Rune.point b.toNat).bytes = [b] := fun b mem =>
      Utf8.encode_one (UInt8.lt_iff_toNat_lt.1 (points b mem).1)
    rw [flatMap_congr single, flatMap_singleton']
  have reversed : (name.map fun b => Rune.point b.toNat).reverse.dropWhile Rune.isSpace
      = (name.map fun b => Rune.point b.toNat).reverse := by
    have := Lexeme.dropWhile_front (fun r mem => visible r (mem_reverse.1 mem))
      (reverse_ne_nil_iff.2 some_) []
    rwa [append_nil] at this
  rw [trimSpace, text, runes_ascii ascii, map_cons, map_append,
    dropWhile_cons_of_pos (by decide), Lexeme.dropWhile_front visible some_,
    reverse_append, map_singleton, reverse_singleton, singleton_append,
    dropWhile_cons_of_pos (by decide), reversed, reverse_reverse, back]

end Statement

end TemplateCompiler
