import TemplateCompiler.Proofs.Template.Arguments
import TemplateCompiler.Proofs.Template.Tags

/-!
# Written templates are read back

`Node.write` writes a template tree as source text: literal text in a raw
block, so that nothing in it is taken for a tag, an expression between the
delimiters of an output, a statement with its opening, else and end tags. An
alternative that is one conditional can be written in two ways, behind `else`
or as `elif`; the writer takes the choice as a parameter.

The text of a tree is read by the scanner and assembled piece by piece.
`Assembly.Reads` says what a text does to an assembly, whatever stands around
the text, so that the text of a block is put together from those of its
parts. `parse_write` is the whole way: the tree comes back, whichever way its
alternatives are written. A tree that is read has no positions of the writer's
and has an empty list where the writer's tree has no body; `Node.shape`
forgets both.
-/

open List

namespace TemplateCompiler

variable {p : Position} {name : Bytes} {around : List OpenBlock} {ns : List Node}
  {args : List Lexeme} {block : OpenBlock}

namespace Node

/-! ## Trees up to positions and empty lists -/

mutual

/-- The tree with no node in place of an empty list. -/
def pruned : Node → Node
  | .list p ns => if ns.isEmpty then .missing else .list p (prunedOf ns)
  | .ifElse p c b a => .ifElse p c b.pruned a.pruned
  | .forEach p v i b a => .forEach p v i b.pruned a.pruned
  | .assign p ts v b => .assign p ts v b.pruned
  | .block p name b => .block p name b.pruned
  | n => n

/-- `pruned` of each node. -/
def prunedOf : List Node → List Node
  | [] => []
  | n :: ns => n.pruned :: prunedOf ns

end

/-- **The shape of a tree**: positions are left out, and an empty list counts
as none. -/
def shape (n : Node) : Node := n.bare.pruned

/-- A body, an empty list where there is none. -/
def present : Node → Node
  | .missing => .list .none []
  | n => n

mutual

/-- The tree without its positions and with a list for every body. Reading
gives trees of this form. -/
def filled : Node → Node
  | .list _ ns => .list .none (filledOf ns)
  | .ifElse _ c b a => .ifElse .none c.bare b.filled.present a.filled
  | .forEach _ v i b a => .forEach .none v.bare i.bare b.filled.present a.filled
  | .assign _ ts v b =>
    .assign .none (bareOf ts) v.bare (if v.isMissing then b.filled.present else b.filled)
  | .block _ name b => .block .none name b.filled.present
  | n => n.bare

/-- `filled` of each node. -/
def filledOf : List Node → List Node
  | [] => []
  | n :: ns => n.filled :: filledOf ns

end

theorem pruned_present (n : Node) : n.present.pruned = n.pruned := by
  cases n <;> rfl

mutual

/-- The lists that are filled in are empty. -/
theorem pruned_filled : (n : Node) → n.filled.pruned = n.bare.pruned
  | .list _ ns => by
    have empty : (filledOf ns).isEmpty = (bareOf ns).isEmpty := by cases ns <;> rfl
    rw [filled, bare, pruned, pruned, empty, prunedOf_filledOf ns]
  | .ifElse _ c b a => by
    rw [filled, bare, pruned, pruned, pruned_present, pruned_filled b, pruned_filled a]
  | .forEach _ v i b a => by
    rw [filled, bare, pruned, pruned, pruned_present, pruned_filled b, pruned_filled a]
  | .assign _ ts v b => by
    rw [filled, bare, pruned, pruned]
    split
    · rw [pruned_present, pruned_filled b]
    · rw [pruned_filled b]
  | .block _ name b => by rw [filled, bare, pruned, pruned, pruned_present, pruned_filled b]
  | .missing | .output .. | .text .. | .choice .. | .embed .. | .lookup .. | .symbol .. | .call ..
  | .literal .. | .named .. | .compare .. | .not .. | .neg .. | .binary .. | .array .. | .dict ..
  | .group .. | .inherit .. => rfl

theorem prunedOf_filledOf : (ns : List Node) → prunedOf (filledOf ns) = prunedOf (bareOf ns)
  | [] => rfl
  | n :: ns => by
    rw [filledOf, bareOf, prunedOf, prunedOf, pruned_filled n, prunedOf_filledOf ns]

end

/-! ## Template trees -/

/-- Where a list of nodes can stand. -/
def isBody : Node → Bool
  | .missing | .list .. => true
  | _ => false

/-- The nodes of a body. -/
def items : Node → List Node
  | .list _ ns => ns
  | _ => []

/-- **Template trees**: literal text, outputs and statements over normal
expressions, with bodies of any depth. -/
inductive IsTemplate : Node → Prop where
  /-- Text that is not empty and has no end tag of a raw block in it. -/
  | text {p q content} (some_ : content ≠ []) (free : Piece.RawFree content) :
    IsTemplate (.output p [.text q content])
  | output {p e} (normal : e.Normal) : IsTemplate (.output p [e])
  | ifElse {p c b a} (normal : c.Normal) (body : b.isBody = true)
    (nodes : ∀ n ∈ b.items, IsTemplate n) (alternative : a.isBody = true)
    (others : ∀ n ∈ a.items, IsTemplate n) : IsTemplate (.ifElse p c b a)
  | forEach {p v i b a} (bound : Statement.IsLoopVars v) (normal : i.Normal)
    (body : b.isBody = true) (nodes : ∀ n ∈ b.items, IsTemplate n)
    (alternative : a.isBody = true) (others : ∀ n ∈ a.items, IsTemplate n) :
    IsTemplate (.forEach p v i b a)
  /-- An assignment of a value. -/
  | assign {p ts v} (some_ : ts ≠ []) (places : ∀ t ∈ ts, Statement.IsTarget t)
    (normal : v.Normal) : IsTemplate (.assign p ts v .missing)
  /-- An assignment of the text of a body. -/
  | capture {p ts b} (some_ : ts ≠ []) (places : ∀ t ∈ ts, Statement.IsTarget t)
    (body : b.isBody = true) (nodes : ∀ n ∈ b.items, IsTemplate n) :
    IsTemplate (.assign p ts .missing b)
  | embed {p e optional} (normal : e.Normal) : IsTemplate (.embed p e optional)
  | inherit {p e} (normal : e.Normal) : IsTemplate (.inherit p e)
  | block {p name b} (identifier : Script.isIdentifier name = true) (body : b.isBody = true)
    (nodes : ∀ n ∈ b.items, IsTemplate n) : IsTemplate (.block p name b)

/-! ## Writing -/

/-- A tag with a statement in it. -/
def tag (name : Bytes) (args : List Lexeme) : Bytes :=
  Piece.tagText .statement (.name name :: args)

/-- A conditional block. -/
def isConditional : Node → Bool
  | .ifElse .. => true
  | _ => false

mutual

/-- **The text of a node.** A conditional begins with the given word; an
alternative that is one conditional is written as `elif` where `short` says
so. -/
def write (short : Node → Bool) (word : Bytes) : Node → Bytes
  | .output _ [.text _ content] => tag "raw" [] ++ (content ++ tag "endraw" [])
  | .output _ [e] => Piece.tagText .output e.words
  | .ifElse _ c b a => tag word c.words ++ (b.writeBody short ++ a.writeAlternative short)
  | .forEach _ v i b a =>
    tag "for" (Statement.loopWords v ++ .name "in" :: i.words)
      ++ (b.writeBody short ++ a.writeLoopElse short)
  | .assign _ ts v b =>
    if v.isMissing then tag "set" (wordsOf [] ts) ++ (b.writeBody short ++ tag "endset" [])
    else tag "set" (wordsOf [] ts ++ .op .assign :: v.words)
  | .embed _ t optional => tag "include" (t.words ++ Statement.toleration optional)
  | .inherit _ t => tag "extends" t.words
  | .block _ name b => tag "block" [.name name] ++ (b.writeBody short ++ tag "endblock" [])
  | _ => []

/-- The text of a body. -/
def writeBody (short : Node → Bool) : Node → Bytes
  | .list _ ns => writeAll short ns
  | _ => []

/-- The text of the alternative of a conditional, with its end tag. -/
def writeAlternative (short : Node → Bool) : Node → Bytes
  | .list _ ns => writeElse short ns
  | _ => tag "endif" []

/-- The text of the alternative of a loop, with its end tag. -/
def writeLoopElse (short : Node → Bool) : Node → Bytes
  | .list _ ns => tag "else" [] ++ (writeAll short ns ++ tag "endfor" [])
  | _ => tag "endfor" []

/-- The text of nodes in turn. -/
def writeAll (short : Node → Bool) : List Node → Bytes
  | [] => []
  | n :: ns => n.write short "if" ++ writeAll short ns

/-- The text of the nodes of an alternative of a conditional, with its end
tag. -/
def writeElse (short : Node → Bool) : List Node → Bytes
  | [] => tag "else" [] ++ tag "endif" []
  | n :: ns =>
    if ns.isEmpty && n.isConditional && short n then n.write short "elif"
    else tag "else" [] ++ ((n.write short "if" ++ writeAll short ns) ++ tag "endif" [])

end

end Node

/-! ## Reading -/

namespace Assembly

variable {rest : Bytes} {ts : List Node} {b c e n v : Node} {p q : Position} {s : Statement}

/-- **What a text does to an assembly**: its pieces stand between those of
what is around it, and taking them gives an assembly that satisfies `goal`. -/
def Reads (text : Bytes) (a : Assembly) (goal : Assembly → Prop) : Prop :=
  ∀ pos rest, ∃ pieces pos', Piece.scan pos (text ++ rest) = pieces ++ Piece.scan pos' rest
    ∧ ∃ b, pieces.foldlM step a = .ok b ∧ goal b

variable {a : Assembly} {goal after : Assembly → Prop} {text more : Bytes}

theorem reads_nil (holds : goal a) : Reads [] a goal :=
  fun pos _ => ⟨[], pos, rfl, a, rfl, holds⟩

theorem Reads.append (first : Reads text a after) (second : ∀ b, after b → Reads more b goal) :
    Reads (text ++ more) a goal := by
  intro pos rest
  obtain ⟨pieces, pos₁, scan₁, b, taken₁, holds⟩ := first pos (more ++ rest)
  obtain ⟨others, pos₂, scan₂, c, taken₂, result⟩ := second b holds pos₁ rest
  refine ⟨pieces ++ others, pos₂, ?_, c, ?_, result⟩
  · rw [append_assoc, scan₁, scan₂, append_assoc]
  · rw [foldlM_append, taken₁]
    exact taken₂

theorem Reads.imp (h : Reads text a after) (imp : ∀ b, after b → goal b) : Reads text a goal :=
  append_nil text ▸ h.append fun b holds => reads_nil (imp b holds)

/-- A piece that is read on its own. -/
theorem reads_piece (found : ∀ pos rest, ∃ piece pos',
      Piece.scan pos (text ++ rest) = piece :: Piece.scan pos' rest
        ∧ ∃ b, step a piece = .ok b ∧ goal b) : Reads text a goal := by
  intro pos rest
  obtain ⟨piece, pos', scan, b, taken, holds⟩ := found pos rest
  refine ⟨[piece], pos', scan, b, ?_, holds⟩
  rw [foldlM_cons, taken]
  rfl

variable {nodes : List Node} {blocks : List OpenBlock}

/-- A written tag trims nothing. -/
theorem trim_tagOf (kind : Delimiter) (ws : List Lexeme) (pos : Position) :
    trim ⟨nodes, blocks, false⟩ (Piece.tagOf kind ws pos) = ⟨nodes, blocks, false⟩ := rfl

/-- A tag with a statement does what the statement does. -/
theorem reads_tag (identifier : Script.isIdentifier name = true)
    (cooked : RawWord.ofText? name = none) (writable : ∀ w ∈ args, w.IsWritable)
    (performed : ∀ pos s, s.name = name → s.Carries args →
      ∃ b, statement ⟨nodes, blocks, false⟩ pos s = .ok b ∧ goal b) :
    Reads (Node.tag name args) ⟨nodes, blocks, false⟩ goal := by
  have all : ∀ w ∈ .name name :: args, w.IsWritable :=
    forall_mem_cons.2 ⟨identifier, writable⟩
  refine reads_piece fun pos rest => ?_
  obtain ⟨argsPos, parsed⟩ := Piece.statement_tagOf identifier args pos
  refine ⟨.tag .statement (Piece.tagOf .statement (.name name :: args) pos),
    Piece.tagEnd .statement (Piece.tagOf .statement (.name name :: args) pos), ?_, ?_⟩
  · rw [Node.tag, Piece.scan_tagText (.inr rfl) all]
    simp only [Piece.piecesFrom, parsed, cooked]
  · rw [step, trim_tagOf, parsed]
    exact performed _ _ rfl rfl

/-- The names of statements that stand on their own or open a block. -/
def isOuter (name : Bytes) : Bool :=
  name == "if" || name == "for" || name == "set" || name == "include" || name == "extends"
    || name == "block"

theorem leave?_outer (outer : isOuter s.name = true) (block : OpenBlock) (pos : Position) :
    leave? a block pos s = none := by
  have apart : ∀ word : Bytes, isOuter word = false → (s.name == word) = false := by
    intro word inner
    rw [beq_eq_false_iff_ne]
    intro same
    rw [same, inner] at outer
    cases outer
  cases block <;>
    simp [leave?, apart "elif" (by decide), apart "elseif" (by decide), apart "else" (by decide),
      apart "endif" (by decide), apart "endfor" (by decide), apart "endset" (by decide),
      apart "endblock" (by decide)]

/-- Such a statement does the same inside every block. -/
theorem statement_outer (outer : isOuter s.name = true) (pos : Position) :
    statement a pos s = perform a pos s := by
  unfold statement
  split
  · rfl
  · rw [leave?_outer outer]

/-- The assembly with a node in place of the written one. -/
def Gains (nodes : List Node) (blocks : List OpenBlock) (n : Node) (b : Assembly) : Prop :=
  ∃ found, b = ⟨found :: nodes, blocks, false⟩ ∧ found.bare = n.filled

/-- The assembly with nodes in place of the written ones. -/
def GainsAll (nodes : List Node) (blocks : List OpenBlock) (ns : List Node) (b : Assembly) : Prop :=
  ∃ found, b = ⟨found.reverse ++ nodes, blocks, false⟩ ∧ Node.bareOf found = Node.filledOf ns

/-- A node is read back wherever it stands. -/
def Readable (short : Node → Bool) (n : Node) : Prop :=
  ∀ nodes blocks, Reads (n.write short "if") ⟨nodes, blocks, false⟩ (Gains nodes blocks n)

variable {short : Node → Bool}

theorem reads_all (all : ∀ n ∈ ns, Readable short n) (nodes : List Node) (blocks : List OpenBlock) :
    Reads (Node.writeAll short ns) ⟨nodes, blocks, false⟩ (GainsAll nodes blocks ns) := by
  induction ns generalizing nodes with
  | nil => exact reads_nil ⟨[], rfl, rfl⟩
  | cons n ns ih =>
    obtain ⟨first, others⟩ := forall_mem_cons.1 all
    refine (first nodes blocks).append ?_
    rintro _ ⟨found, rfl, alike⟩
    refine (ih others (found :: nodes)).imp ?_
    rintro _ ⟨founds, rfl, same⟩
    refine ⟨found :: founds, ?_, ?_⟩
    · rw [reverse_cons, append_assoc, singleton_append]
    · rw [Node.bareOf, Node.filledOf, alike, same]

theorem reads_body (body : b.isBody = true) (all : ∀ n ∈ b.items, Readable short n)
    (nodes : List Node) (blocks : List OpenBlock) :
    Reads (b.writeBody short) ⟨nodes, blocks, false⟩ (GainsAll nodes blocks b.items) := by
  cases b with
  | missing => exact reads_nil ⟨[], rfl, rfl⟩
  | list p ns => exact reads_all all nodes blocks
  | _ => cases body

/-- The nodes of a body, in a list. -/
theorem bare_body (body : b.isBody = true) (p : Position) {found : List Node}
    (alike : Node.bareOf found = Node.filledOf b.items) :
    (Node.list p (found.reverse ++ []).reverse).bare = b.filled.present := by
  rw [append_nil, reverse_reverse, Node.bare, alike]
  cases b with
  | missing => rfl
  | list p ns => rfl
  | _ => cases body

/-! ### Nodes without a body -/

theorem readable_text {content : Bytes} (some_ : content ≠ []) (free : Piece.RawFree content) :
    Readable short (.output p [.text q content]) := by
  intro nodes blocks
  refine reads_piece fun pos rest => ?_
  obtain ⟨pos₁, pos₂, scan⟩ := Piece.scan_raw free pos rest
  refine ⟨.raw (Piece.tagOf .statement [.name "raw"] pos) pos₁ content, pos₂, ?_,
    ⟨textNode pos₁ content :: nodes, blocks, false⟩, ?_, textNode pos₁ content, rfl, rfl⟩
  · rw [Node.write, append_assoc, append_assoc]
    exact scan
  · obtain ⟨b, content, rfl⟩ := exists_cons_of_ne_nil some_
    rfl

theorem readable_output (normal : e.Normal) :
    Readable short (.output p [e]) := by
  have written : (Node.output p [e]).write short "if" = Piece.tagText .output e.words := by
    cases e with
    | text => cases normal
    | _ => rfl
  intro nodes blocks
  rw [written]
  refine reads_piece fun pos rest => ?_
  have carries : Statement.Carries ⟨[], (Piece.tagOf .output e.words pos).bodyPos,
      (Piece.tagOf .output e.words pos).body⟩ e.words := rfl
  obtain ⟨t, read, alike⟩ := carries.expression normal
  refine ⟨.tag .output (Piece.tagOf .output e.words pos), Piece.tagEnd .output (Piece.tagOf .output e.words pos), ?_,
    ⟨.output pos [t] :: nodes, blocks, false⟩, ?_, .output pos [t], rfl, ?_⟩
  · rw [Piece.scan_tagText (.inl rfl) normal.writable]
    rfl
  · rw [Statement.expression] at read
    rw [step, read]
    rfl
  · rw [Node.bare, Node.bareOf, Node.bareOf, alike]
    rfl

/-- A statement that adds a node. -/
theorem readable_of_perform (written : n.write short "if" = Node.tag name args)
    (outer : isOuter name = true) (identifier : Script.isIdentifier name = true)
    (cooked : RawWord.ofText? name = none) (writable : ∀ w ∈ args, w.IsWritable)
    (performed : ∀ (a : Assembly) pos s, s.name = name → s.Carries args →
      ∃ found, perform a pos s = .ok (a.add found) ∧ found.bare = n.filled) :
    Readable short n := by
  intro nodes blocks
  rw [written]
  refine reads_tag identifier cooked writable fun pos s named carries => ?_
  obtain ⟨found, result, alike⟩ := performed ⟨nodes, blocks, false⟩ pos s named carries
  rw [statement_outer (named ▸ outer)]
  exact ⟨_, result, found, rfl, alike⟩

theorem readable_embed {optional : Bool} (normal : e.Normal) :
    Readable short (.embed p e optional) := by
  refine readable_of_perform rfl rfl rfl rfl ?_ fun a pos s named carries => ?_
  · rw [forall_mem_append]
    exact ⟨normal.writable, by cases optional <;> decide⟩
  · obtain ⟨t, read, alike⟩ := carries.embedding optional normal
    refine ⟨.embed pos t optional, ?_, by rw [Node.bare, alike]; rfl⟩
    simp only [perform, named, read]
    rfl

theorem readable_inherit (normal : e.Normal) :
    Readable short (.inherit p e) := by
  refine readable_of_perform rfl rfl rfl rfl normal.writable fun a pos s named carries => ?_
  obtain ⟨t, read, alike⟩ := carries.expression normal
  refine ⟨.inherit pos t, ?_, by rw [Node.bare, alike]; rfl⟩
  simp only [perform, named, read]
  rfl

theorem readable_assign (some_ : ts ≠ []) (places : ∀ t ∈ ts, Statement.IsTarget t)
    (normal : v.Normal) :
    Readable short (.assign p ts v .missing) := by
  have present : v.isMissing = false := by cases normal <;> rfl
  have written : (Node.assign p ts v .missing).write short "if"
      = Node.tag "set" (Node.wordsOf [] ts ++ .op .assign :: v.words) := by
    rw [Node.write, present]
    rfl
  refine readable_of_perform written rfl rfl rfl ?_ fun a pos s named carries => ?_
  · rw [forall_mem_append, forall_mem_cons]
    exact ⟨Statement.targets_writable places, trivial, normal.writable⟩
  · obtain ⟨found, t, read, alike, same⟩ := carries.assignment pos some_ places normal
    refine ⟨.assign pos found t .missing, ?_, ?_⟩
    · simp only [perform, named, read]
      rfl
    · rw [Node.bare, Node.filled, alike, same, present]
      rfl

/-! ### Blocks -/

/-- A tag without arguments that ends a block or goes on with it. -/
theorem reads_inner
    (identifier : Script.isIdentifier name = true) (cooked : RawWord.ofText? name = none)
    (left : ∀ pos s, s.name = name → s.Carries [] →
      ∃ b, leave? ⟨nodes, around, false⟩ block pos s = some (.ok b) ∧ goal b) :
    Reads (Node.tag name []) ⟨nodes, block :: around, false⟩ goal := by
  refine reads_tag identifier cooked (forall_mem_nil _) fun pos s named carries => ?_
  obtain ⟨b, result, holds⟩ := left pos s named carries
  refine ⟨b, ?_, holds⟩
  simp only [statement, result]

/-- A tag that ends a block and adds a node for it. -/
theorem reads_end {outer : List Node} (found : Node) (identifier : Script.isIdentifier name = true)
    (cooked : RawWord.ofText? name = none) (left : ∀ pos s, s.name = name → s.Carries [] →
      leave? ⟨nodes, around, false⟩ block pos s = some (.ok ⟨found :: outer, around, false⟩))
    (alike : found.bare = n.filled) :
    Reads (Node.tag name []) ⟨nodes, block :: around, false⟩ (Gains outer around n) :=
  reads_inner identifier cooked fun pos s named carries =>
    ⟨_, left pos s named carries, found, rfl, alike⟩

/-- **A tag that opens a block, the body of the block, and the rest of it.** -/
theorem Reads.enter (around : List OpenBlock) (body : b.isBody = true)
    (all : ∀ m ∈ b.items, Readable short m)
    (opened : Reads text a fun a => ∃ block, a = ⟨[], block :: around, false⟩ ∧
      ∀ found, Node.bareOf found = Node.filledOf b.items →
        Reads rest ⟨found.reverse ++ [], block :: around, false⟩ goal) :
    Reads (text ++ (b.writeBody short ++ rest)) a goal := by
  refine opened.append ?_
  rintro _ ⟨block, rfl, goesOn⟩
  refine (reads_body body all [] (block :: around)).append ?_
  rintro _ ⟨found, rfl, alike⟩
  exact goesOn found alike

/-- A statement that opens a block. -/
theorem readable_of_block
    (written : n.write short "if" = Node.tag name args ++ (b.writeBody short ++ rest))
    (body : b.isBody = true) (all : ∀ m ∈ b.items, Readable short m) (outer : isOuter name = true)
    (identifier : Script.isIdentifier name = true) (cooked : RawWord.ofText? name = none)
    (writable : ∀ w ∈ args, w.IsWritable)
    (performed : ∀ (a : Assembly) pos s, s.name = name → s.Carries args →
      ∃ block, perform a pos s = .ok (a.enter block)
        ∧ ∀ found, Node.bareOf found = Node.filledOf b.items →
          Reads rest ⟨found.reverse ++ [], block :: a.blocks, false⟩ (Gains a.nodes a.blocks n)) :
    Readable short n := by
  intro nodes blocks
  rw [written]
  refine .enter blocks body all (reads_tag identifier cooked writable fun pos s named carries => ?_)
  obtain ⟨block, entered, goesOn⟩ := performed ⟨nodes, blocks, false⟩ pos s named carries
  rw [statement_outer (named ▸ outer)]
  exact ⟨_, entered, block, rfl, goesOn⟩

theorem readable_capture (some_ : ts ≠ []) (places : ∀ t ∈ ts, Statement.IsTarget t)
    (body : b.isBody = true) (all : ∀ n ∈ b.items, Readable short n) :
    Readable short (.assign p ts .missing b) := by
  refine readable_of_block rfl body all rfl rfl rfl (Statement.targets_writable places)
    fun a pos s named carries => ?_
  obtain ⟨targets, read, alike⟩ := carries.assignment_body pos some_ places
  refine ⟨.assign pos targets a.nodes, ?_, fun found same => ?_⟩
  · simp only [perform, named, read]
    rfl
  · refine reads_end (.assign pos targets .missing (.list pos (found.reverse ++ []).reverse))
      rfl rfl (fun pos' s' named' _ => ?_) ?_
    · simp only [leave?, named']
      rfl
    · rw [Node.bare, alike, bare_body body pos same]
      rfl

theorem readable_block (identifier : Script.isIdentifier name = true) (body : b.isBody = true)
    (all : ∀ n ∈ b.items, Readable short n) : Readable short (.block p name b) := by
  refine readable_of_block rfl body all rfl rfl rfl (forall_mem_singleton.2 identifier)
    fun a pos s named carries => ?_
  have read := carries.blockName identifier
  refine ⟨.block pos name a.nodes, ?_, fun found same => ?_⟩
  · obtain _ | ⟨c, name⟩ := name
    · cases identifier
    · simp only [perform, named, read]
      rfl
  · refine reads_end (.block pos name (.list pos (found.reverse ++ []).reverse)) rfl rfl
      (fun pos' s' named' carries' => ?_) ?_
    · have empty : trimSpace s'.args = [] := by
        rw [carries']
        cbv
      simp only [leave?, named', empty]
      rfl
    · rw [Node.bare, bare_body body pos same]
      rfl

/-- The alternative of a block, up to what ends the block. -/
theorem reads_else (all : ∀ n ∈ ns, Readable short n)
    (left : ∀ pos (s : Statement), s.name = "else" → ∃ next,
      leave? ⟨nodes, around, false⟩ block pos s = some (.ok ⟨[], next :: around, false⟩)
        ∧ ∀ found, Node.bareOf found = Node.filledOf ns →
          Reads rest ⟨found.reverse ++ [], next :: around, false⟩ goal) :
    Reads (Node.tag "else" [] ++ (Node.writeAll short ns ++ rest)) ⟨nodes, block :: around, false⟩
      goal := by
  refine .enter around (b := .list .none ns) rfl all (reads_inner rfl rfl fun pos s named _ => ?_)
  obtain ⟨next, result, goesOn⟩ := left pos s named
  exact ⟨_, result, next, rfl, goesOn⟩

theorem loopWords_writable (bound : Statement.IsLoopVars v) :
    ∀ w ∈ Statement.loopWords v, w.IsWritable := by
  cases v with
  | array p items => exact Statement.names_writable bound.2
  | symbol p name => exact forall_mem_singleton.2 bound.1
  | _ => exact bound.elim

theorem readable_forEach {i : Node} (bound : Statement.IsLoopVars v) (normal : i.Normal)
    (body : b.isBody = true) (all : ∀ n ∈ b.items, Readable short n) (alternative : c.isBody = true)
    (others : ∀ n ∈ c.items, Readable short n) :
    Readable short (.forEach p v i b c) := by
  have writable : ∀ w ∈ Statement.loopWords v ++ .name "in" :: i.words, w.IsWritable := by
    rw [forall_mem_append, forall_mem_cons]
    exact ⟨loopWords_writable bound, by decide, normal.writable⟩
  refine readable_of_block rfl body all rfl rfl rfl writable fun a pos s named carries => ?_
  obtain ⟨vars, iterable, read, alike, same⟩ := carries.loop pos bound normal
  refine ⟨.loop pos vars iterable a.nodes, ?_, fun found inside => ?_⟩
  · simp only [perform, named, read]
    rfl
  have inner := bare_body body pos inside
  cases c with
  | missing =>
    refine reads_end (.forEach pos vars iterable (.list pos (found.reverse ++ []).reverse) .missing)
      rfl rfl (fun pos' s' named' _ => ?_) ?_
    · simp only [leave?, named']
      rfl
    · rw [Node.bare, alike, same, inner]
      rfl
  | list q ns =>
    refine reads_else others fun elsePos s' named' =>
      ⟨.loopElse pos vars iterable (.list pos (found.reverse ++ []).reverse) elsePos a.nodes, ?_,
        fun found' outside => ?_⟩
    · simp only [leave?, named']
      rfl
    refine reads_end (.forEach pos vars iterable (.list pos (found.reverse ++ []).reverse)
      (.list elsePos (found'.reverse ++ []).reverse)) rfl rfl (fun pos' s' named' _ => ?_) ?_
    · simp only [leave?, named']
      rfl
    · rw [Node.bare, alike, same, inner, bare_body (b := .list q ns) rfl elsePos outside]
      rfl
  | _ => cases alternative

/-! ### Conditionals -/

/-- A text that ends a conditional gives it its alternative: read inside a
branch, it leaves the chain of branches with that alternative. -/
def Concludes (text : Bytes) (alt : Node) : Prop :=
  ∀ nodes earlier pos cond outer around,
    Reads text ⟨nodes, .branch earlier pos cond outer :: around, false⟩ fun b =>
      ∃ found, b = ⟨conditional ⟨pos, cond, .list pos nodes.reverse⟩ earlier found :: outer, around,
        false⟩ ∧ found.bare = alt.filled

/-- No alternative. -/
theorem concludes_missing : Concludes (Node.tag "endif" []) .missing := by
  intro nodes earlier pos cond outer around
  refine reads_inner rfl rfl fun pos' s named _ =>
    ⟨⟨conditional ⟨pos, cond, .list pos nodes.reverse⟩ earlier .missing :: outer, around, false⟩,
      ?_, .missing, rfl, rfl⟩
  simp only [leave?, named]
  rfl

/-- An alternative behind `else`. -/
theorem concludes_else (all : ∀ n ∈ ns, Readable short n) :
    Concludes (Node.tag "else" [] ++ (Node.writeAll short ns ++ Node.tag "endif" []))
      (.list q ns) := by
  intro nodes earlier pos cond outer around
  refine reads_else all fun elsePos s named =>
    ⟨.alternative ⟨pos, cond, .list pos nodes.reverse⟩ earlier elsePos outer, ?_,
      fun found same => ?_⟩
  · simp only [leave?, named]
    rfl
  refine reads_inner rfl rfl fun pos' s' named' _ =>
    ⟨⟨conditional ⟨pos, cond, .list pos nodes.reverse⟩ earlier
        (.list elsePos (found.reverse ++ []).reverse) :: outer, around, false⟩,
      ?_, .list elsePos (found.reverse ++ []).reverse, rfl, ?_⟩
  · simp only [leave?, named']
    rfl
  · exact bare_body (b := .list q ns) rfl elsePos same

theorem readable_ifElse (normal : e.Normal) (body : b.isBody = true)
    (all : ∀ n ∈ b.items, Readable short n) (concludes : Concludes (c.writeAlternative short) c) :
    Readable short (.ifElse p e b c) := by
  refine readable_of_block rfl body all rfl rfl rfl normal.writable fun a pos s named carries => ?_
  obtain ⟨cond, read, alike⟩ := carries.expression normal
  refine ⟨.branch [] pos cond a.nodes, ?_, fun found same => ?_⟩
  · simp only [perform, named, read]
    rfl
  · refine (concludes (found.reverse ++ []) [] pos cond a.nodes a.blocks).imp ?_
    rintro _ ⟨other, rfl, behind⟩
    refine ⟨.ifElse pos cond (.list pos (found.reverse ++ []).reverse) other, rfl, ?_⟩
    rw [Node.bare, Node.filled, alike, bare_body body pos same, behind]

/-- **An alternative that is one conditional, written as a further branch.** -/
theorem concludes_elif (normal : e.Normal) (body : b.isBody = true)
    (all : ∀ n ∈ b.items, Readable short n) (concludes : Concludes (c.writeAlternative short) c) :
    Concludes ((Node.ifElse p e b c).write short "elif") (.list q [.ifElse p e b c]) := by
  intro nodes earlier pos cond outer around
  refine .enter around body all (reads_tag rfl rfl normal.writable fun pos' s named carries => ?_)
  obtain ⟨cond', read, alike⟩ := carries.expression normal
  let earlier' : List Branch := ⟨pos, cond, .list pos nodes.reverse⟩ :: earlier
  refine ⟨⟨[], .branch earlier' pos' cond' outer :: around, false⟩, ?_, _, rfl, fun found same => ?_⟩
  · simp only [statement, leave?, named, read]
    rfl
  · refine (concludes (found.reverse ++ []) earlier' pos' cond' outer around).imp ?_
    rintro _ ⟨other, rfl, behind⟩
    refine ⟨.list pos' [.ifElse pos' cond' (.list pos' (found.reverse ++ []).reverse) other], rfl, ?_⟩
    rw [Node.bare, Node.bareOf, Node.bareOf, Node.bare, Node.filled, Node.filledOf, Node.filledOf,
      Node.filled, alike, bare_body body pos' same, behind]

/-- Both ways of writing the alternative of a conditional. -/
theorem concludes_alternative (alternative : c.isBody = true)
    (all : ∀ n ∈ c.items, Readable short n) (further : ∀ n ∈ c.items, n.isConditional = true → ∀ q,
      Concludes (n.write short "elif") (.list q [n])) :
    Concludes (c.writeAlternative short) c := by
  cases c with
  | missing => exact concludes_missing
  | list q ns =>
    show Concludes (Node.writeElse short ns) (.list q ns)
    cases ns with
    | nil => exact concludes_else all
    | cons n ns =>
      rw [Node.writeElse]
      split
      · next chosen =>
        rw [Bool.and_eq_true, Bool.and_eq_true, List.isEmpty_iff] at chosen
        obtain ⟨⟨rfl, conditional⟩, -⟩ := chosen
        exact further n mem_cons_self conditional q
      · exact concludes_else all
  | _ => cases alternative

/-! ### Whole templates -/

/-- **Every node of a template is read back wherever it stands**, and a
conditional also as a further branch of another one. -/
theorem readable_of_isTemplate (short : Node → Bool) (template : n.IsTemplate) :
    Readable short n ∧ (n.isConditional = true → ∀ q,
      Concludes (n.write short "elif") (.list q [n])) := by
  induction template with
  | text some_ free => exact ⟨readable_text some_ free, fun h => nomatch h⟩
  | output normal => exact ⟨readable_output normal, fun h => nomatch h⟩
  | ifElse normal body nodes alternative others inside outside =>
    have all := fun n mem => (inside n mem).1
    have concludes := concludes_alternative alternative (fun n mem => (outside n mem).1)
      fun n mem => (outside n mem).2
    exact ⟨readable_ifElse normal body all concludes,
      fun _ q => concludes_elif normal body all concludes⟩
  | forEach bound normal body nodes alternative others inside outside =>
    exact ⟨readable_forEach bound normal body (fun n mem => (inside n mem).1) alternative
      fun n mem => (outside n mem).1, fun h => nomatch h⟩
  | assign some_ places normal =>
    exact ⟨readable_assign some_ places normal, fun h => nomatch h⟩
  | capture some_ places body nodes inside =>
    exact ⟨readable_capture some_ places body fun n mem => (inside n mem).1, fun h => nomatch h⟩
  | embed normal => exact ⟨readable_embed normal, fun h => nomatch h⟩
  | inherit normal => exact ⟨readable_inherit normal, fun h => nomatch h⟩
  | block identifier body nodes inside =>
    exact ⟨readable_block identifier body fun n mem => (inside n mem).1, fun h => nomatch h⟩

end Assembly

/-- The tree that the text of a template is read as. -/
theorem parse_filled (short : Node → Bool) (template : ∀ n ∈ ns, n.IsTemplate) :
    ∃ t, Template.parse (Node.writeBody short (.list p ns)) = .ok t
      ∧ t.bare = (Node.list p ns).filled := by
  have readable := fun n mem => (Assembly.readable_of_isTemplate short (template n mem)).1
  obtain ⟨pieces, pos, scan, _, taken, found, rfl, alike⟩ :=
    Assembly.reads_all readable [] [] .start []
  have ended : Piece.scan pos [] = [] := by rw [Piece.scan]
  rw [append_nil, ended, append_nil] at scan
  refine ⟨.list .start found, ?_, ?_⟩
  · show (Piece.scan .start (Node.writeAll short ns)).foldlM Assembly.step ⟨[], [], false⟩ >>= _ = _
    rw [scan, taken, append_nil]
    show Except.ok (Node.list .start found.reverse.reverse) = _
    rw [reverse_reverse]
  · rw [Node.bare, Node.filled, alike]

/-- **Templates are read back from their text.** For every template tree, the
text that `Node.write` gives is parsed, and the result is the tree up to
positions and to empty bodies. It does not matter which alternatives that are
one conditional are written as `elif`: the results differ in positions
only. -/
theorem parse_write {p : Position} {ns : List Node} (template : ∀ n ∈ ns, n.IsTemplate) :
    (∀ short, ∃ t, Template.parse (Node.writeBody short (.list p ns)) = .ok t
      ∧ t.shape = (Node.list p ns).shape)
    ∧ ∀ short₁ short₂ t₁ t₂, Template.parse (Node.writeBody short₁ (.list p ns)) = .ok t₁ →
      Template.parse (Node.writeBody short₂ (.list p ns)) = .ok t₂ → t₁.bare = t₂.bare := by
  refine ⟨fun short => ?_, fun short₁ short₂ t₁ t₂ parsed₁ parsed₂ => ?_⟩
  · obtain ⟨t, parsed, alike⟩ := parse_filled short template
    exact ⟨t, parsed, by rw [Node.shape, alike, Node.pruned_filled, Node.shape]⟩
  · obtain ⟨s₁, found₁, alike₁⟩ := parse_filled short₁ template
    obtain ⟨s₂, found₂, alike₂⟩ := parse_filled short₂ template
    cases parsed₁.symm.trans found₁
    cases parsed₂.symm.trans found₂
    rw [alike₁, alike₂]

/-- A page with every kind of node. -/
private def page : List Node :=
  [.inherit .none (.literal .none (.string "base")),
    .output .none [.text .none "\x7b\x7b not a tag %\x7d"],
    .assign .none [.symbol .none "a", .lookup .none (.symbol .none "b") (.literal .none .null)]
      (.array .none [.symbol .none "x", .symbol .none "y"]) .missing,
    .forEach .none (.array .none [.symbol .none "k", .symbol .none "v"]) (.symbol .none "items")
      (.list .none [.block .none "row" (.list .none [.output .none [.symbol .none "v"]])])
      (.list .none [.assign .none [.symbol .none "empty"] .missing .missing]),
    .ifElse .none (.symbol .none "a") .missing (.list .none
      [.ifElse .none (.symbol .none "b")
        (.list .none [.embed .none (.literal .none (.string "part")) true]) .missing])]

private theorem page_isTemplate : ∀ n ∈ page, n.IsTemplate := by
  have symbol (name : Bytes) (plain : IsPlainName name) : (Node.symbol .none name).Normal :=
    .symbol plain
  have a := symbol "a" (by decide)
  have b := symbol "b" (by decide)
  have string (text : Bytes) : (Node.literal .none (.string text)).Normal := .literal trivial
  have member : Statement.IsTarget
      (.lookup .none (.symbol .none "b") (.literal .none .null)) :=
    ⟨.lookup b (le_refl 2) (.literal trivial), .inr ⟨_, _, _, rfl⟩⟩
  have target (name : Bytes) (plain : IsPlainName name) :
      Statement.IsTarget (.symbol .none name) := ⟨.symbol plain, .inl ⟨_, _, rfl⟩⟩
  have pair : (Node.array .none [.symbol .none "x", .symbol .none "y"]).Normal := by
    refine .array ?_
    simp only [forall_mem_cons, not_mem_nil, IsEmpty.forall_iff, implies_true, and_true]
    exact ⟨symbol "x" (by decide), symbol "y" (by decide)⟩
  simp only [page, forall_mem_cons, not_mem_nil, IsEmpty.forall_iff, implies_true,
    and_true]
  refine ⟨.inherit (string _), .text (by decide) (by decide), .assign (by simp) ?_ pair,
    .forEach ⟨le_refl 2, ?_⟩ (symbol "items" (by decide)) rfl ?_ rfl ?_,
    .ifElse a rfl ?_ rfl ?_⟩
  · simp only [forall_mem_cons, not_mem_nil, IsEmpty.forall_iff, implies_true, and_true]
    exact ⟨target "a" (by decide), member⟩
  · simp only [forall_mem_cons, not_mem_nil, IsEmpty.forall_iff, implies_true, and_true]
    exact ⟨⟨by decide, by decide⟩, by decide, by decide⟩
  · refine forall_mem_singleton.2 (.block (by decide) rfl ?_)
    exact forall_mem_singleton.2 (.output (symbol "v" (by decide)))
  · refine forall_mem_singleton.2 (.capture (by simp) ?_ rfl (forall_mem_nil _))
    exact forall_mem_singleton.2 (target "empty" (by decide))
  · exact forall_mem_nil _
  · refine forall_mem_singleton.2 (.ifElse b rfl ?_ rfl (forall_mem_nil _))
    exact forall_mem_singleton.2 (.embed (string _))

/-- The page comes back, with its inner conditional written as `elif` and
without. -/
theorem page_parse_write : (∀ n ∈ page, n.IsTemplate)
    ∧ (∀ short, ∃ t, Template.parse (Node.writeBody short (.list .none page)) = .ok t
      ∧ t.shape = (Node.list .none page).shape)
    ∧ Node.writeBody (fun _ => true) (.list .none page)
      ≠ Node.writeBody (fun _ => false) (.list .none page) :=
  ⟨page_isTemplate, (parse_write page_isTemplate).1, by decide +kernel⟩

end TemplateCompiler
