import TemplateCompiler.Proofs.Template.Placing

/-!
# What the parser builds

The parser makes a tree of the pieces of a template, one after the other.
`Assembles` collects what has to be known of a property of trees for it to
hold of every tree that is built so: every statement makes a node with it of
expressions and of the lists between its tags. A block that is still open holds nodes with it
(`Assembly.Holds`), and every piece keeps that. The main statement is
`Assembles.parse_tells`: whatever is parsed has the property, and errors stand
along the source.
-/

open List

namespace TemplateCompiler

variable {E : SyntaxError → Prop} {α β : Type}

/-- The names that a loop binds, as they stand in the source: one, or several
in an array. -/
inductive Node.Binds (src : Bytes) : Node → Prop where
  | name {p w} (word : Script.isIdentifier w = true ∧ Stands src w p) : Binds src (.symbol p w)
  | names {p ns} (pos : Stands src [] p)
    (all : ∀ n ∈ ns, ∃ q w, (Script.isIdentifier w = true ∧ Stands src w q) ∧ n = .symbol q w) :
    Binds src (.array p ns)

/-- Where a statement stands. -/
abbrev InTag (src : Bytes) : Position → Prop := Stands src Delimiter.statement.opening

/-- **A property of all trees that are parsed** from the source. Expressions
have `Expr`, and the nodes of lists and the lists between tags have `Tree`. -/
structure Assembles (src : Bytes) (Expr Tree : Node → Prop) : Prop where
  expression : ∀ {stop ts}, Stands src [] stop → (∀ t ∈ ts, t.Placed src) →
    Reports (Stands src []) Expr (Expression.ofTokens stop ts)
  list : ∀ {p ns}, InTag src p → (∀ n ∈ ns, Tree n) → Tree (.list p ns)
  text : ∀ {p content}, Stands src [] p → Tree (.output p [.text p content])
  trimmed : ∀ {p q content rest}, Tree (.output p [.text q content]) →
    Tree (.output p [.text q rest])
  output : ∀ {p n}, Stands src Delimiter.output.opening p → Expr n → Tree (.output p [n])
  ifElse : ∀ {p c b a}, InTag src p → Expr c → Tree b → a = .missing ∨ Tree a →
    Tree (.ifElse p c b a)
  forEach : ∀ {p v i b a}, InTag src p → v.Binds src → Expr i → Tree b → a = .missing ∨ Tree a →
    Tree (.forEach p v i b a)
  assign : ∀ {p ts v}, InTag src p → ts ≠ [] → (∀ t ∈ ts, t.isTarget = true ∧ Expr t) → Expr v →
    Tree (.assign p ts v .missing)
  capture : ∀ {p ts b}, InTag src p → ts ≠ [] → (∀ t ∈ ts, t.isTarget = true ∧ Expr t) → Tree b →
    Tree (.assign p ts .missing b)
  embed : ∀ {p t optional}, InTag src p → Expr t → Tree (.embed p t optional)
  inherit : ∀ {p t}, InTag src p → Expr t → Tree (.inherit p t)
  block : ∀ {p name b}, InTag src p → Tree b → Tree (.block p name b)

theorem Gives.foldlM {Q : α → Prop} {R : β → Prop} {f : α → β → Except SyntaxError α}
    (step : ∀ a b, Q a → R b → Gives E Q (f a b)) {a : α} {bs : List β} (start : Q a)
    (all : ∀ b ∈ bs, R b) : Gives E Q (bs.foldlM f a) := by
  induction bs generalizing a with
  | nil => exact start
  | cons b bs ih =>
    obtain ⟨first, others⟩ := forall_mem_cons.1 all
    rw [foldlM_cons]
    exact (step a b start first).bind fun a' next => ih next others

theorem Gives.mapM {Q : β → Prop} {R : α → Prop} {f : α → Except SyntaxError β}
    (step : ∀ a, R a → Gives E Q (f a)) {as : List α} (all : ∀ a ∈ as, R a) :
    Gives E (fun bs => bs.length = as.length ∧ ∀ b ∈ bs, Q b) (as.mapM f) := by
  induction as with
  | nil => exact ⟨rfl, forall_mem_nil _⟩
  | cons a as ih =>
    obtain ⟨first, others⟩ := forall_mem_cons.1 all
    rw [mapM_cons]
    exact (step a first).bind fun b head => (ih others).bind fun bs tail =>
      ⟨congrArg (· + 1) tail.1, forall_mem_cons.2 ⟨head, tail.2⟩⟩

/-! ## Statements -/

namespace Statement

theorem cut?_eq {p : Lexeme → Bool} {depth : Int} {ts before after : List Token} {found : Token}
    (h : cut? p depth ts = some (before, found, after)) : ts = before ++ found :: after := by
  induction ts generalizing depth before with
  | nil => cases h
  | cons t rest ih =>
    have skipped {depth : Int} {b a : List Token} {f : Token}
        (inner : cut? p depth rest = some (b, f, a))
        (same : (t :: b, f, a) = (before, found, after)) : t :: rest = before ++ found :: after := by
      cases same
      rw [ih inner]
      rfl
    unfold cut? at h
    dsimp only at h
    split at h
    · obtain ⟨_, inner, same⟩ := Option.map_eq_some_iff.1 h
      exact skipped inner same
    · split at h
      · cases h; rfl
      · obtain ⟨_, inner, same⟩ := Option.map_eq_some_iff.1 h
        exact skipped inner same

theorem mem_of_mem_parts {depth : Int} {ts : List Token} :
    ∀ part ∈ parts depth ts, ∀ t ∈ part, t ∈ ts := by
  induction ts generalizing depth with
  | nil => simp [parts]
  | cons t rest ih =>
    have inner := @ih (depth + (depthChange? t.lexeme).getD 0)
    rw [parts]
    revert inner
    generalize parts (depth + (depthChange? t.lexeme).getD 0) rest = more
    intro inner
    split
    · exact forall_mem_cons.2 ⟨forall_mem_nil _,
        fun part mem u inside => mem_cons_of_mem _ (inner part mem u inside)⟩
    · split
      · simp
      · obtain ⟨first, others⟩ := forall_mem_cons.1 inner
        refine forall_mem_cons.2 ⟨forall_mem_cons.2 ⟨mem_cons_self, ?_⟩, ?_⟩
        · exact fun u inside => mem_cons_of_mem _ (first u inside)
        · exact fun part mem u inside => mem_cons_of_mem _ (others part mem u inside)

/-- Words are at least one part, and if there are any words and only one part,
that part is not empty. -/
theorem parts_cons (depth : Int) (t : Token) (rest : List Token) :
    (∃ first second more, parts depth (t :: rest) = first :: second :: more)
      ∨ ∃ part, parts depth (t :: rest) = [t :: part] := by
  have some_ : ∀ depth ts, ∃ part more, parts depth ts = part :: more := by
    intro depth ts
    cases ts with
    | nil => exact ⟨[], [], rfl⟩
    | cons t rest =>
      rw [parts]
      split
      · exact ⟨_, _, rfl⟩
      · split <;> exact ⟨_, _, rfl⟩
  rw [parts]
  split
  · obtain ⟨part, more, same⟩ := some_ (depth + (depthChange? t.lexeme).getD 0) rest
    exact .inl ⟨[], part, more, by rw [same]⟩
  · split
    · exact .inr ⟨[], rfl⟩
    · next part more _ =>
      cases more with
      | nil => exact .inr ⟨part, rfl⟩
      | cons second more => exact .inl ⟨_, second, more, rfl⟩

end Statement

namespace Assembles

variable {text : Bytes} {ts : List Token}

variable {src : Bytes} {Expr Tree : Node → Prop} {pos : Position} {s : Statement}
  (keeps : Assembles src Expr Tree)

theorem loopNames_tells {loopIn : Token} (stop : Stands src [] loopIn.pos)
    (words : ∀ t ∈ ts, t.Placed src) :
    Reports (Stands src []) (fun ns => ∀ n ∈ ns, ∃ q w,
        (Script.isIdentifier w = true ∧ Stands src w q) ∧ n = .symbol q w)
      (Statement.loopNames loopIn ts) := by
  fun_induction Statement.loopNames loopIn ts with
  | case1 => exact ⟨stop, nofun⟩
  | case2 t name named =>
    exact forall_mem_singleton.2 ⟨_, _, (words t mem_cons_self).name named, rfl⟩
  | case3 t => exact ⟨(words t mem_cons_self).here, nofun⟩
  | case4 t comma rest name named sep ih =>
    have inner : ∀ t ∈ rest, t.Placed src := fun t mem =>
      words t (mem_cons_of_mem _ (mem_cons_of_mem _ mem))
    exact (ih inner).bind fun more all =>
      forall_mem_cons.2 ⟨⟨_, _, (words t mem_cons_self).name named, rfl⟩, all⟩
  | case5 t comma => exact ⟨(words comma (mem_cons_of_mem _ mem_cons_self)).here, nofun⟩
  | case6 t => exact ⟨(words t mem_cons_self).here, nofun⟩

theorem tokens_tells (stands : Stands src text pos) (closed : QuotesClosed text) :
    Reports (Stands src []) (fun ts => ∀ t ∈ ts, t.Placed src) (Token.scan pos text) :=
  (Token.scan_tells stands).reports (Token.scan_closed closed)

include keeps

theorem parseExpression_tells (stands : Stands src text pos) (closed : QuotesClosed text) :
    Reports (Stands src []) Expr (Expression.parse pos text) :=
  (tokens_tells stands closed).bind fun _ words => keeps.expression stands.stop words

theorem loop_tells (here : Stands src [] pos) (args : Stands src s.args s.argsPos)
    (closed : QuotesClosed s.args) :
    Reports (Stands src []) (fun r => r.1.Binds src ∧ Expr r.2) (s.loop pos) := by
  refine (tokens_tells args closed).bind fun ts words => ?_
  split
  · exact ⟨here, nofun⟩
  · exact ⟨here, nofun⟩
  · next first more loopIn after found =>
    rw [Statement.cut?_eq found, forall_mem_append] at words
    obtain ⟨names, others⟩ := words
    obtain ⟨stop, items⟩ := forall_mem_cons.1 others
    refine (loopNames_tells stop.here names).bind fun vars all => ?_
    refine (keeps.expression args.stop items).bind fun iterable read => ?_
    split
    · obtain ⟨q, w, placed, rfl⟩ := all _ mem_cons_self
      exact ⟨.name placed, read⟩
    · exact ⟨.names (names first mem_cons_self).here all, read⟩

theorem target_tells {part : List Token} (here : Stands src [] pos)
    (words : ∀ t ∈ part, t.Placed src) :
    Reports (Stands src []) (fun n => n.isTarget = true ∧ Expr n) (Statement.target pos part) := by
  unfold Statement.target
  split
  · exact ⟨here, nofun⟩
  · next first more =>
    have stop := (words _ getLastD_mem_cons : (more.getLastD first).Placed src).here
    refine (keeps.expression stop words).bind fun n read => ?_
    split
    · exact ⟨rfl, read⟩
    · exact ⟨rfl, read⟩
    · exact ⟨(words first mem_cons_self).here, nofun⟩

theorem targets_tells (here : Stands src [] pos) (words : ∀ t ∈ ts, t.Placed src) :
    Reports (Stands src []) (fun ns => ns ≠ [] ∧ ∀ n ∈ ns, n.isTarget = true ∧ Expr n)
      (Statement.targets pos ts) := by
  obtain _ | ⟨t, rest⟩ := ts
  · exact ⟨here, nofun⟩
  have cut {parts : List (List Token)} (some_ : parts ≠ [])
      (inside : ∀ part ∈ parts, ∀ u ∈ part, u ∈ t :: rest) :
      Reports (Stands src []) (fun ns => ns ≠ [] ∧ ∀ n ∈ ns, n.isTarget = true ∧ Expr n)
        (parts.mapM (Statement.target pos)) :=
    (Gives.mapM (fun part inside => keeps.target_tells here fun u mem => words u (inside u mem))
      inside).mono fun ns told => ⟨fun none => some_ (by simpa [none] using told.1.symm), told.2⟩
  have inside := @Statement.mem_of_mem_parts 0 (t :: rest)
  obtain ⟨first, second, more, same⟩ | ⟨part, same⟩ := Statement.parts_cons 0 t rest
  · unfold Statement.targets
    dsimp only
    split
    · refine cut ?_ fun part mem => inside part (dropLast_subset _ mem)
      rw [same, dropLast_cons_cons]
      exact cons_ne_nil _ _
    · exact cut (by rw [same]; exact cons_ne_nil _ _) inside
  · unfold Statement.targets
    rw [same] at inside ⊢
    exact cut (cons_ne_nil _ _) inside

theorem assignment_tells (here : Stands src [] pos) (args : Stands src s.args s.argsPos)
    (closed : QuotesClosed s.args) :
    Reports (Stands src [])
      (fun r => r.1 ≠ [] ∧ (∀ n ∈ r.1, n.isTarget = true ∧ Expr n) ∧ ∀ v ∈ r.2, Expr v)
      (s.assignment pos) := by
  refine (tokens_tells args closed).bind fun ts words => ?_
  split
  · exact (keeps.targets_tells here words).bind fun found all =>
      ⟨all.1, all.2, fun v none => nomatch none⟩
  · next before sign after found =>
    rw [Statement.cut?_eq found, forall_mem_append] at words
    obtain ⟨targets, others⟩ := words
    refine (keeps.targets_tells here targets).bind fun found all => ?_
    refine (keeps.expression args.stop (forall_mem_cons.1 others).2).bind
      fun value read => ?_
    exact ⟨all.1, all.2, fun v same => Option.mem_some_iff.1 same ▸ read⟩

theorem embedding_tells (args : Stands src s.args s.argsPos) (closed : QuotesClosed s.args) :
    Reports (Stands src []) (fun r => Expr r.1) s.embedding := by
  refine (tokens_tells args closed).bind fun ts words => ?_
  have whole := keeps.expression args.stop words
  split
  · next last before rest reversed =>
    split
    · refine (keeps.expression args.stop fun t mem => words t ?_).bind fun _ read => read
      rw [← mem_reverse, reversed]
      exact mem_cons_of_mem _ (mem_cons_of_mem _ (mem_reverse.1 mem))
    · exact whole.bind fun _ read => read
  · exact whole.bind fun _ read => read

end Assembles

/-! ## Trees -/

section

variable (src : Bytes) (Expr Tree : Node → Prop)

/-- A branch that was read. -/
structure Branch.Holds (b : Branch) : Prop where
  pos : InTag src b.pos
  cond : Expr b.cond
  body : Tree b.body

/-- An open block that was read so far. -/
def OpenBlock.Holds : OpenBlock → Prop
  | .branch earlier pos cond outer =>
    (∀ b ∈ earlier, b.Holds src Expr Tree) ∧ InTag src pos ∧ Expr cond ∧ ∀ n ∈ outer, Tree n
  | .alternative last earlier pos outer =>
    last.Holds src Expr Tree ∧ (∀ b ∈ earlier, b.Holds src Expr Tree) ∧ InTag src pos
      ∧ ∀ n ∈ outer, Tree n
  | .loop pos vars iterable outer =>
    InTag src pos ∧ vars.Binds src ∧ Expr iterable ∧ ∀ n ∈ outer, Tree n
  | .loopElse pos vars iterable body elsePos outer =>
    InTag src pos ∧ vars.Binds src ∧ Expr iterable ∧ Tree body ∧ InTag src elsePos
      ∧ ∀ n ∈ outer, Tree n
  | .assign pos targets outer =>
    InTag src pos ∧ targets ≠ [] ∧ (∀ t ∈ targets, t.isTarget = true ∧ Expr t) ∧ ∀ n ∈ outer, Tree n
  | .block pos _ outer => InTag src pos ∧ ∀ n ∈ outer, Tree n

/-- An assembly of what was read. -/
structure Assembly.Holds (a : Assembly) : Prop where
  nodes : ∀ n ∈ a.nodes, Tree n
  blocks : ∀ b ∈ a.blocks, b.Holds src Expr Tree

end

variable {src : Bytes} {Expr Tree : Node → Prop}

theorem OpenBlock.Holds.unclosed {b : OpenBlock} (h : b.Holds src Expr Tree) :
    InTag src b.unclosed.pos := by
  cases b with
  | branch => exact h.2.1
  | alternative => exact h.2.2.1
  | loop => exact h.1
  | loopElse => exact h.2.2.2.2.1
  | assign => exact h.1
  | block => exact h.1

theorem OpenBlock.unclosed_fault (b : OpenBlock) : b.unclosed.fault ≠ .unterminatedString := by
  cases b <;> exact nofun

namespace Assembly.Holds

variable {a : Assembly}

theorem add (h : a.Holds src Expr Tree) {n : Node} (added : Tree n) :
    (a.add n).Holds src Expr Tree :=
  ⟨forall_mem_cons.2 ⟨added, h.nodes⟩, h.blocks⟩

theorem enter (h : a.Holds src Expr Tree) {block : OpenBlock} (opened : block.Holds src Expr Tree) :
    (a.enter block).Holds src Expr Tree :=
  ⟨forall_mem_nil _, forall_mem_cons.2 ⟨opened, h.blocks⟩⟩

end Assembly.Holds

namespace Assembles

open Assembly

variable {a : Assembly} {pos : Position} {s : Statement} (keeps : Assembles src Expr Tree)
include keeps

theorem conditional {last : Branch} {earlier : List Branch} {alt : Node}
    (branch : last.Holds src Expr Tree) (others : ∀ b ∈ earlier, b.Holds src Expr Tree)
    (alternative : alt = .missing ∨ Tree alt) : Tree (conditional last earlier alt) := by
  unfold Assembly.conditional
  have start := keeps.ifElse branch.pos branch.cond branch.body alternative
  have tag : InTag src (Node.ifElse last.pos last.cond last.body alt).pos := branch.pos
  revert start tag
  generalize Node.ifElse last.pos last.cond last.body alt = inner
  intro start tag
  induction earlier generalizing inner with
  | nil => exact start
  | cons b earlier ih =>
    obtain ⟨first, rest⟩ := forall_mem_cons.1 others
    have inside := keeps.list tag (forall_mem_singleton.2 start)
    exact ih rest _ (keeps.ifElse first.pos first.cond first.body (.inr inside)) first.pos

theorem trim (h : a.Holds src Expr Tree) (t : Tag) : (a.trim t).Holds src Expr Tree := by
  have trimmed : ∀ n ∈ trimLast a.nodes, Tree n := by
    have nodes := h.nodes
    unfold trimLast
    split
    · next same =>
      rw [same] at nodes
      obtain ⟨first, others⟩ := forall_mem_cons.1 nodes
      split
      · exact others
      · exact forall_mem_cons.2 ⟨keeps.trimmed first, others⟩
    · exact nodes
  refine ⟨?_, h.blocks⟩
  show ∀ n ∈ if t.trimBefore then trimLast a.nodes else a.nodes, Tree n
  split
  · exact trimmed
  · exact h.nodes

theorem addText (h : a.Holds src Expr Tree) (here : Stands src [] pos) (content : Bytes) :
    (a.addText pos content).Holds src Expr Tree := by
  unfold Assembly.addText
  split
  · exact h
  · exact h.add (keeps.text here)

/-- Leaving a block gives what its parts give. -/
theorem leave?_tells (h : a.Holds src Expr Tree) {block : OpenBlock}
    (opened : block.Holds src Expr Tree) (here : InTag src pos) (args : Stands src s.args s.argsPos)
    (closed : (∀ b ∈ s.name, isQuote b = false) → QuotesClosed s.args)
    {result : Except SyntaxError Assembly} (left : leave? a block pos s = some result) :
    Reports (Stands src []) (·.Holds src Expr Tree) result := by
  have body {p : Position} (start : InTag src p) : Tree (.list p a.nodes.reverse) :=
    keeps.list start fun n mem => h.nodes n (mem_reverse.1 mem)
  have close {outer : List Node} {n : Node} (outside : ∀ n ∈ outer, Tree n) (added : Tree n) :
      Holds src Expr Tree { a with nodes := n :: outer } :=
    ⟨forall_mem_cons.2 ⟨added, outside⟩, h.blocks⟩
  cases block with
  | branch earlier branchPos cond outer =>
    obtain ⟨others, start, condition, outside⟩ := opened
    have last : Branch.Holds src Expr Tree ⟨branchPos, cond, .list branchPos a.nodes.reverse⟩ :=
      ⟨start, condition, body start⟩
    unfold leave? at left
    dsimp only at left
    split at left
    · next word =>
      have known : ∀ b ∈ s.name, isQuote b = false := by
        rw [Bool.or_eq_true, beq_iff_eq, beq_iff_eq] at word
        obtain word | word := word <;> rw [word] <;> decide
      cases left
      exact (keeps.parseExpression_tells args (closed known)).bind fun next read =>
        h.enter ⟨forall_mem_cons.2 ⟨last, others⟩, here, read, outside⟩
    split at left
    · cases left
      exact h.enter ⟨last, others, here, outside⟩
    split at left
    · cases left
      exact close outside (keeps.conditional last others (.inl rfl))
    · cases left
  | alternative last earlier elsePos outer =>
    obtain ⟨branch, others, start, outside⟩ := opened
    unfold leave? at left
    dsimp only at left
    split at left
    · cases left
      exact close outside (keeps.conditional branch others (.inr (body start)))
    · cases left
  | loop loopPos vars iterable outer =>
    obtain ⟨start, names, items, outside⟩ := opened
    unfold leave? at left
    dsimp only at left
    split at left
    · cases left
      exact h.enter ⟨start, names, items, body start, here, outside⟩
    split at left
    · cases left
      exact close outside (keeps.forEach start names items (body start) (.inl rfl))
    · cases left
  | loopElse loopPos vars iterable loopBody elsePos outer =>
    obtain ⟨start, names, items, inside, other, outside⟩ := opened
    unfold leave? at left
    dsimp only at left
    split at left
    · cases left
      exact close outside (keeps.forEach start names items inside (.inr (body other)))
    · cases left
  | assign setPos targets outer =>
    obtain ⟨start, some_, all, outside⟩ := opened
    unfold leave? at left
    dsimp only at left
    split at left
    · cases left
      exact close outside (keeps.capture start some_ all (body start))
    · cases left
  | block blockPos name outer =>
    obtain ⟨start, outside⟩ := opened
    unfold leave? at left
    dsimp only at left
    split at left
    · split at left
      · cases left
        exact close outside (keeps.block start (body start))
      · cases left
        exact ⟨here.here, nofun⟩
    · cases left

theorem perform_tells (h : a.Holds src Expr Tree) (here : InTag src pos)
    (args : Stands src s.args s.argsPos)
    (closed : (∀ b ∈ s.name, isQuote b = false) → QuotesClosed s.args) :
    Reports (Stands src []) (·.Holds src Expr Tree) (a.perform pos s) := by
  -- only words are names of statements
  have known {word : Bytes} (name : (s.name == word) = true)
      (plain : ∀ b ∈ word, isQuote b = false) : QuotesClosed s.args :=
    closed (by rwa [eq_of_beq name])
  unfold perform
  split
  · next name =>
    exact (keeps.parseExpression_tells args (known name (by decide))).bind fun cond read =>
      h.enter ⟨forall_mem_nil _, here, read, h.nodes⟩
  split
  · next name =>
    exact (keeps.loop_tells here.here args (known name (by decide))).bind fun _ read =>
      h.enter ⟨here, read.1, read.2, h.nodes⟩
  split
  · next name =>
    refine (keeps.assignment_tells here.here args (known name (by decide))).bind
      fun (targets, value) read => ?_
    obtain ⟨some_, all, values⟩ := read
    cases value with
    | some value => exact h.add (keeps.assign here some_ all (values value rfl))
    | none => exact h.enter ⟨here, some_, all, h.nodes⟩
  split
  · next name =>
    exact (keeps.embedding_tells args (known name (by decide))).bind fun _ read =>
      h.add (keeps.embed here read)
  split
  · next name =>
    exact (keeps.parseExpression_tells args (known name (by decide))).bind fun _ read =>
      h.add (keeps.inherit here read)
  split
  · split
    · exact ⟨here.here, nofun⟩
    · exact h.enter ⟨here, h.nodes⟩
  split
  · exact ⟨here.here, nofun⟩
  split
  · exact ⟨here.here, nofun⟩
  · exact ⟨here.here, nofun⟩

theorem statement_tells (h : a.Holds src Expr Tree) (here : InTag src pos)
    (args : Stands src s.args s.argsPos)
    (closed : (∀ b ∈ s.name, isQuote b = false) → QuotesClosed s.args) :
    Reports (Stands src []) (·.Holds src Expr Tree) (a.statement pos s) := by
  unfold statement
  split
  · exact keeps.perform_tells h here args closed
  · next block around same =>
    have blocks := h.blocks
    rw [same] at blocks
    obtain ⟨opened, others⟩ := forall_mem_cons.1 blocks
    have inside : Holds src Expr Tree { a with blocks := around } := ⟨h.nodes, others⟩
    split
    · next left => exact keeps.leave?_tells inside opened here args closed left
    · exact keeps.perform_tells h here args closed

/-- **Every piece keeps the property.** -/
theorem step_tells {x : Piece} (h : a.Holds src Expr Tree) (placed : x.Placed src) :
    Reports (Stands src []) (·.Holds src Expr Tree) (a.step x) := by
  cases x with
  | broken e => exact placed
  | text pos content =>
    exact keeps.addText (a := { a with trimNext := false }) ⟨h.nodes, h.blocks⟩ placed _
  | raw tag pos content => exact keeps.addText (keeps.trim h tag) placed content
  | tag kind tag =>
    have trimmed := keeps.trim h tag
    cases kind with
    | comment => exact trimmed
    | output =>
      exact (keeps.parseExpression_tells placed.body (placed.closed nofun)).bind fun value read =>
        trimmed.add (keeps.output placed.pos read)
    | statement =>
      exact keeps.statement_tells trimmed placed.pos placed.statement
        (Tag.closed_args (placed.closed nofun))

/-- **Whatever is parsed has the property**, and a syntax error stands along
the source. -/
theorem parse_tells :
    Reports (Stands src []) (fun n => ∃ ns, n = .list .start ns ∧ ∀ m ∈ ns, Tree m)
      (Template.parse src) := by
  have start : Assembly.empty.Holds src Expr Tree := ⟨forall_mem_nil _, forall_mem_nil _⟩
  refine (Gives.foldlM (fun _ _ => keeps.step_tells) start (Piece.scan_placed (.whole src))).bind
    fun whole h => ?_
  unfold Assembly.finish
  split
  · exact ⟨_, rfl, fun n mem => h.nodes n (mem_reverse.1 mem)⟩
  · next block around same =>
    exact ⟨(h.blocks block (by rw [same]; exact mem_cons_self)).unclosed.here,
      block.unclosed_fault⟩

end Assembles

end TemplateCompiler
