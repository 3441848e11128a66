import TemplateCompiler.Proofs.Template.Includes

/-!
# Literal text

What becomes of the text between tags. `Node.texts` lists the literal texts of a
tree in source order, and `Piece.kept` says what every piece of a source leaves.
-/

open List

namespace TemplateCompiler

namespace Node

def text? : Node → Option Bytes
  | .text _ content => some content
  | _ => none

/-- **The literal texts of a tree**, in the order of the walk. -/
def texts (n : Node) : List Bytes := n.preorder.filterMap text?

/-- The literal texts of nodes in turn. -/
def textsOf (ns : List Node) : List Bytes := ns.flatMap texts

theorem texts_eq (n : Node) : n.texts = n.text?.toList ++ textsOf n.parts :=
  filterMap_preorder rfl n

/-- No literal text stands in an expression. -/
theorem IsExpression.texts {e : Node} (expression : e.IsExpression) : e.texts = [] :=
  expression.filterMap_preorder fun m operand => by
    cases m with
    | text => cases operand
    | _ => rfl

theorem Binds.texts {src : Bytes} {n : Node} (binds : n.Binds src) : n.texts = [] := by
  cases binds with
  | name => rfl
  | names _ all =>
    refine (texts_eq _).trans (flatMap_eq_nil_iff.2 fun n mem => ?_)
    obtain ⟨q, w, -, rfl⟩ := all n mem
    rfl

@[simp] theorem textsOf_nil : textsOf [] = [] := rfl

@[simp] theorem textsOf_cons (n : Node) (ns : List Node) :
    textsOf (n :: ns) = n.texts ++ textsOf ns := rfl

@[simp] theorem textsOf_append (ns ms : List Node) :
    textsOf (ns ++ ms) = textsOf ns ++ textsOf ms := flatMap_append

section

variable {p : Position}

@[simp] theorem texts_missing : texts .missing = [] := rfl

@[simp] theorem texts_list (ns : List Node) : (list p ns).texts = textsOf ns := texts_eq _

@[simp] theorem texts_output (ns : List Node) : (output p ns).texts = textsOf ns := texts_eq _

@[simp] theorem texts_ifElse (c b a : Node) : (ifElse p c b a).texts = textsOf [c, b, a] :=
  texts_eq _

@[simp] theorem texts_forEach (v i b a : Node) :
    (forEach p v i b a).texts = textsOf [v, i, b, a] := texts_eq _

@[simp] theorem texts_assign (ts : List Node) (v b : Node) :
    (assign p ts v b).texts = textsOf (ts ++ [v, b]) := texts_eq _

@[simp] theorem texts_embed (t : Node) (optional : Bool) :
    (embed p t optional).texts = textsOf [t] := texts_eq _

@[simp] theorem texts_inherit (t : Node) : (inherit p t).texts = textsOf [t] := texts_eq _

@[simp] theorem texts_block (name : Bytes) (b : Node) : (block p name b).texts = textsOf [b] :=
  texts_eq _

end

end Node

open Node

/-- What was read of an open block and in front of it, in source order. -/
def OpenBlock.read : OpenBlock → List Node
  | .branch earlier _ cond outer =>
    outer.reverse ++ earlier.reverse.flatMap (fun b => [b.cond, b.body]) ++ [cond]
  | .alternative last earlier _ outer =>
    outer.reverse ++ (last :: earlier).reverse.flatMap fun b => [b.cond, b.body]
  | .loop _ vars iterable outer => outer.reverse ++ [vars, iterable]
  | .loopElse _ vars iterable body _ outer => outer.reverse ++ [vars, iterable, body]
  | .assign _ targets outer => outer.reverse ++ targets
  | .block _ _ outer => outer.reverse

namespace Assembly

variable {a b : Assembly} {pos : Position} {s : Statement}

/-- **The literal texts read so far**, in source order. -/
def texts (a : Assembly) : List Bytes :=
  textsOf (a.blocks.reverse.flatMap OpenBlock.read ++ a.nodes.reverse)

theorem texts_conditional (last : Branch) (earlier : List Branch) (alt : Node) :
    (conditional last earlier alt).texts
      = textsOf ((last :: earlier).reverse.flatMap fun b => [b.cond, b.body]) ++ alt.texts := by
  have around (inner : Node) :
      (earlier.foldl (fun inner b => .ifElse b.pos b.cond b.body (.list inner.pos [inner])) inner).texts
        = textsOf (earlier.reverse.flatMap fun b => [b.cond, b.body]) ++ inner.texts := by
    induction earlier generalizing inner with
    | nil => rfl
    | cons b earlier ih => simp [ih]
  simp [conditional, around]

theorem trimLast_conditional (last : Branch) (earlier : List Branch) (alt : Node)
    (nodes : List Node) :
    trimLast (conditional last earlier alt :: nodes) = conditional last earlier alt :: nodes := by
  have chain : ∃ p c body other, conditional last earlier alt = .ifElse p c body other := by
    unfold conditional
    induction earlier using List.reverseRecOn with
    | nil => exact ⟨_, _, _, _, rfl⟩
    | append_singleton => rw [foldl_append]; exact ⟨_, _, _, _, rfl⟩
  obtain ⟨p, c, body, other, same⟩ := chain
  rw [same]
  rfl

/-- What a statement leaves of an assembly: the texts, none of them at the end. -/
structure Leaves (a b : Assembly) : Prop where
  texts : b.texts = a.texts
  settled : trimLast b.nodes = b.nodes
  trimNext : b.trimNext = a.trimNext

theorem enter_leaves {block : OpenBlock} {ns : List Node}
    (inside : block.read = a.nodes.reverse ++ ns) (quiet : textsOf ns = []) :
    Leaves a (a.enter block) :=
  ⟨by simp [texts, enter, inside, quiet], rfl, rfl⟩

theorem add_leaves {n : Node} (quiet : n.texts = [])
    (settled : trimLast (n :: a.nodes) = n :: a.nodes) : Leaves a (a.add n) :=
  ⟨by simp [texts, add, quiet], settled, rfl⟩

variable {src : Bytes} (here : InTag src pos) (args : Stands src s.args s.argsPos)
  (closed : (∀ b ∈ s.name, isQuote b = false) → QuotesClosed s.args)
include here args closed

theorem leave?_leaves {block : OpenBlock} {result : Except SyntaxError Assembly}
    (left : leave? a block pos s = some result) :
    Reports (Stands src []) (Leaves { a with blocks := block :: a.blocks }) result := by
  unfold leave? at left
  dsimp only at left
  split at left
  · split at left
    · next word =>
      have known : ∀ b ∈ s.name, isQuote b = false := by
        rw [Bool.or_eq_true, beq_iff_eq, beq_iff_eq] at word
        obtain word | word := word <;> rw [word] <;> decide
      cases left
      refine ((assembles_isParsed src).parseExpression_tells args (closed known)).bind
        fun next read => ?_
      exact ⟨by simp [texts, enter, OpenBlock.read, read.texts], rfl, rfl⟩
    split at left
    · cases left
      exact ⟨by simp [texts, enter, OpenBlock.read], rfl, rfl⟩
    split at left
    · cases left
      exact ⟨by simp [texts, OpenBlock.read, texts_conditional], trimLast_conditional .., rfl⟩
    · cases left
  · split at left
    · cases left
      exact ⟨by simp [texts, OpenBlock.read, texts_conditional], trimLast_conditional .., rfl⟩
    · cases left
  · split at left
    · cases left
      exact ⟨by simp [texts, enter, OpenBlock.read], rfl, rfl⟩
    split at left
    · cases left
      exact ⟨by simp [texts, OpenBlock.read], rfl, rfl⟩
    · cases left
  · split at left
    · cases left
      exact ⟨by simp [texts, OpenBlock.read], rfl, rfl⟩
    · cases left
  · split at left
    · cases left
      exact ⟨by simp [texts, OpenBlock.read], rfl, rfl⟩
    · cases left
  · split at left
    · split at left
      · cases left
        exact ⟨by simp [texts, OpenBlock.read], rfl, rfl⟩
      · cases left
        exact ⟨here.here, by rintro ⟨⟩⟩
    · cases left

theorem perform_leaves : Reports (Stands src []) (Leaves a) (a.perform pos s) := by
  have keeps := assembles_isParsed src
  have known {word : Bytes} (name : (s.name == word) = true)
      (plain : ∀ b ∈ word, isQuote b = false) : QuotesClosed s.args :=
    closed (by rwa [eq_of_beq name])
  unfold perform
  split
  · next name =>
    exact (keeps.parseExpression_tells args (known name (by decide))).bind fun cond read =>
      enter_leaves (append_assoc ..) (by simp [read.texts])
  split
  · next name =>
    exact (keeps.loop_tells here.here args (known name (by decide))).bind fun _ read =>
      enter_leaves rfl (by simp [read.1.texts, read.2.texts])
  split
  · next name =>
    refine (keeps.assignment_tells here.here args (known name (by decide))).bind
      fun (targets, value) read => ?_
    obtain ⟨-, all, values⟩ := read
    have quiet : textsOf targets = [] :=
      flatMap_eq_nil_iff.2 fun t mem => (all t mem).2.texts
    cases value with
    | some value => exact add_leaves (by simp [quiet, (values value rfl).texts]) rfl
    | none => exact enter_leaves rfl quiet
  split
  · next name =>
    exact (keeps.embedding_tells args (known name (by decide))).bind fun _ read =>
      add_leaves (by simp [read.texts]) rfl
  split
  · next name =>
    exact (keeps.parseExpression_tells args (known name (by decide))).bind fun _ read =>
      add_leaves (by simp [read.texts]) rfl
  split
  · split
    · exact ⟨here.here, nofun⟩
    · exact enter_leaves (append_nil _).symm rfl
  split
  · exact ⟨here.here, nofun⟩
  split
  · exact ⟨here.here, nofun⟩
  · exact ⟨here.here, nofun⟩

theorem statement_leaves : Reports (Stands src []) (Leaves a) (a.statement pos s) := by
  unfold statement
  split
  · exact perform_leaves here args closed
  · next block around same =>
    split
    · next left =>
      have told := leave?_leaves here args closed left
      rwa [show Assembly.mk a.nodes (block :: around) a.trimNext = a by rw [← same]] at told
    · exact perform_leaves here args closed

end Assembly

/-! ## Trimming -/

namespace Piece

/-- Text that is left, unless it is empty. -/
def left (content : Bytes) : List Bytes := if content.isEmpty then [] else [content]

/-- Whether a tag comes next that trims what stands in front of it. -/
def trims : List Piece → Bool
  | .tag _ t :: _ | .raw t _ _ :: _ => t.trimBefore
  | _ => false

/-- **The texts that pieces leave.** Text loses the blanks at its start if the
tag in front of it trims (`before`), and the blanks at its end if the tag behind
it does. -/
def kept (before : Bool) : List Piece → List Bytes
  | [] => []
  | .text _ content :: rest =>
    let content := if before then Bytes.trimStart Byte.isBlank content else content
    left (if trims rest then Bytes.trimEnd Byte.isBlank content else content) ++ kept false rest
  | .raw _ _ content :: rest => left content ++ kept false rest
  | .tag _ t :: rest => kept t.trimAfter rest
  | .broken _ :: rest => kept false rest

/-- Pieces without blank text in front. -/
def dropBlank : List Piece → List Piece
  | .text pos content :: rest =>
    if content.all Byte.isBlank then rest else .text pos content :: rest
  | rest => rest

/-- **No comment and no raw block stands in front of a tag that trims**, be it
with blanks between them, and no raw block begins with a tag that trims what
stands behind it. -/
def apart : List Piece → Bool
  | [] => true
  | .tag .comment _ :: rest => !trims (dropBlank rest) && apart rest
  | .raw t _ _ :: rest => !t.trimAfter && !trims (dropBlank rest) && apart rest
  | _ :: rest => apart rest

theorem trims_of_dropBlank {rest : List Piece} (quiet : trims (dropBlank rest) = false) :
    trims rest = false := by
  unfold dropBlank at quiet
  split at quiet
  · rfl
  · exact quiet

end Piece

namespace Assembly

variable {a b : Assembly}

/-- The assembly with the trimming that the next piece asks for. -/
def upTo (a : Assembly) (next : List Piece) : Assembly :=
  { a with nodes := if Piece.trims next then trimLast a.nodes else a.nodes }

theorem upTo_of_quiet {next : List Piece} (quiet : Piece.trims next = false) : a.upTo next = a := by
  rw [upTo, quiet]
  rfl

theorem upTo_of_settled (settled : trimLast a.nodes = a.nodes) (next : List Piece) :
    a.upTo next = a := by
  rw [upTo, settled, ite_self]

theorem trimNext_addText (a : Assembly) (pos : Position) (content : Bytes) :
    (a.addText pos content).trimNext = a.trimNext := by
  cases content <;> rfl

theorem texts_addText (a : Assembly) (pos : Position) (content : Bytes) :
    (a.addText pos content).texts = a.texts ++ Piece.left content := by
  cases content with
  | nil => exact (append_nil _).symm
  | cons => simp [texts, addText, add, textNode, Piece.left, texts_eq (.text ..), text?, parts]

/-- Text that was just added is trimmed. -/
theorem texts_upTo_addText (a : Assembly) (pos : Position) {content : Bytes} (filled : content ≠ [])
    (next : List Piece) :
    ((a.addText pos content).upTo next).texts = a.texts ++
      Piece.left (if Piece.trims next then Bytes.trimEnd Byte.isBlank content else content) := by
  rw [← texts_addText a pos, upTo]
  obtain _ | ⟨c, content⟩ := content
  · exact (filled rfl).elim
  cases Piece.trims next with
  | false => rfl
  | true =>
    cases trimmed : Bytes.trimEnd Byte.isBlank (c :: content) <;>
      simp [addText, add, textNode, trimLast, trimmed]

/-- An output or a statement leaves the texts as they are. -/
theorem step_leaves {src : Bytes} {kind : Delimiter} {t : Tag} (plain : kind ≠ .comment)
    (placed : t.Placed src kind) :
    Reports (Stands src []) (Leaves (a.trim t)) (a.step (.tag kind t)) := by
  have closed := placed.closed plain
  cases kind with
  | comment => exact (plain rfl).elim
  | output =>
    refine ((assembles_isParsed src).parseExpression_tells placed.body closed).bind
      fun value read => add_leaves (by simp [read.texts]) ?_
    cases read <;> rfl
  | statement => exact statement_leaves placed.pos placed.statement (Tag.closed_args closed)

theorem texts_of_run {src : Bytes} {pieces : List Piece} (placed : ∀ x ∈ pieces, x.Placed src)
    (filled : ∀ p, .text p [] ∉ pieces) (apart : Piece.apart pieces = true)
    (safe : (a.trimNext = true → trimLast a.nodes = a.nodes)
      ∨ Piece.trims (Piece.dropBlank pieces) = false)
    (run : pieces.foldlM step a = .ok b) :
    b.texts = (a.upTo pieces).texts ++ Piece.kept a.trimNext pieces := by
  induction pieces generalizing a with
  | nil =>
    cases run
    exact (append_nil _).symm
  | cons x rest ih =>
    obtain ⟨here, others⟩ := forall_mem_cons.1 placed
    have filled' : ∀ p, .text p [] ∉ rest := fun p mem => filled p (mem_cons_of_mem _ mem)
    replace ih := fun a => @ih a others filled'
    rw [foldlM_cons] at run
    cases x with
    | broken => cases run
    | text pos content =>
      have plain := trimNext_addText { a with trimNext := false } pos
      have after := ih _ apart (.inl fun trim => nomatch (plain _).symm.trans trim) run
      rw [after, plain, @upTo_of_quiet a (.text pos content :: rest) rfl, Piece.kept, ← append_assoc]
      congr 1
      by_cases vanishes : (if a.trimNext then Bytes.trimStart Byte.isBlank content else content) = []
      · rw [vanishes, show Bytes.trimEnd Byte.isBlank [] = [] from rfl, ite_self]
        have trim : a.trimNext = true := by
          by_contra other
          rw [if_neg other] at vanishes
          exact filled pos (vanishes ▸ mem_cons_self)
        rw [if_pos trim, Bytes.trimStart, dropWhile_eq_nil_iff] at vanishes
        have still : trimLast a.nodes = a.nodes ∨ Piece.trims rest = false := by
          refine safe.imp (· trim) fun quiet => ?_
          rwa [Piece.dropBlank, if_pos (all_eq_true.2 vanishes)] at quiet
        have same : a.upTo rest = a :=
          still.elim (upTo_of_settled · rest) upTo_of_quiet
        exact (congrArg texts same).trans (append_nil _).symm
      · exact texts_upTo_addText _ pos vanishes rest
    | raw tag pos content =>
      rw [Piece.apart, Bool.and_eq_true, Bool.and_eq_true, Bool.not_eq_true', Bool.not_eq_true'] at apart
      obtain ⟨⟨plain, quiet⟩, apart⟩ := apart
      have after := ih _ apart (.inr quiet) run
      rw [after, upTo_of_quiet (Piece.trims_of_dropBlank quiet), texts_addText, trimNext_addText,
        append_assoc]
      rw [show (a.trim tag).trimNext = false from plain]
      rfl
    | tag kind tag =>
      by_cases comment : kind = .comment
      · subst comment
        rw [Piece.apart, Bool.and_eq_true, Bool.not_eq_true'] at apart
        obtain ⟨quiet, apart⟩ := apart
        have after := ih _ apart (.inr quiet) run
        rw [after, upTo_of_quiet (Piece.trims_of_dropBlank quiet)]
        rfl
      · have told := @step_leaves a _ _ _ comment here
        cases taken : a.step (.tag kind tag) with
        | error e => rw [taken] at run; cases run
        | ok c =>
          rw [taken] at told run
          have apart : Piece.apart rest = true := by cases kind <;> first | exact apart | exact (comment rfl).elim
          have after := ih _ apart (.inl fun _ => told.settled) run
          rw [after, upTo_of_settled told.settled, told.texts, told.trimNext]
          rfl

end Assembly

/-- Text between tags is not empty. -/
theorem Piece.scan_filled (pos : Position) (src : Bytes) (p : Position) :
    .text p [] ∉ scan pos src := by
  fun_induction scan pos src with
  | case1 | case3 | case4 => simp
  | case2 pos c rest opened _ content ih =>
    have some_ : content ≠ [] := by simp [content, spanText, opened]
    simpa [some_.symm] using ih
  | case5 => simpa
  | case6 => simpa

theorem Template.run_of_parse {src : Bytes} {t : Node} (parsed : parse src = .ok t) :
    ∃ b, (Piece.scan .start src).foldlM Assembly.step .empty = .ok b ∧ t.texts = b.texts := by
  unfold parse at parsed
  cases run : (Piece.scan .start src).foldlM Assembly.step .empty with
  | error e => rw [run] at parsed; cases parsed
  | ok b =>
    rw [run] at parsed
    obtain ⟨nodes, _ | ⟨block, around⟩, trimNext⟩ := b <;> cases parsed
    exact ⟨_, rfl, texts_list _⟩

theorem Assembly.texts_of_scan {src : Bytes} {b : Assembly}
    (run : (Piece.scan .start src).foldlM step .empty = .ok b)
    (apart : Piece.apart (Piece.scan .start src) = true) :
    b.texts = Piece.kept false (Piece.scan .start src) := by
  rw [texts_of_run (Piece.scan_placed (.whole src)) (Piece.scan_filled _ _) apart
    (.inl fun _ => rfl) run, upTo_of_settled rfl]
  rfl

namespace Piece

/-- The piece has all its delimiters, and none carries a minus sign. -/
def isPlain : Piece → Bool
  | .text .. => true
  | .tag _ t | .raw t _ _ => !t.trimBefore && !t.trimAfter
  | .broken _ => false

/-- The literal text of a piece. -/
def content : Piece → Bytes
  | .text _ content | .raw _ _ content => content
  | _ => []

variable {pieces : List Piece}

theorem trims_of_isPlain (plain : ∀ x ∈ pieces, x.isPlain = true) : trims pieces = false := by
  unfold trims
  split
  · exact (by simpa [isPlain] using (forall_mem_cons.1 plain).1 : _ ∧ _).1
  · exact (by simpa [isPlain] using (forall_mem_cons.1 plain).1 : _ ∧ _).1
  · rfl

theorem kept_of_isPlain (plain : ∀ x ∈ pieces, x.isPlain = true) :
    apart pieces = true ∧ kept false pieces = (pieces.map content).filter (!·.isEmpty) := by
  induction pieces with
  | nil => exact ⟨rfl, rfl⟩
  | cons x rest ih =>
    obtain ⟨first, others⟩ := forall_mem_cons.1 plain
    obtain ⟨far, same⟩ := ih others
    have quiet := trims_of_isPlain others
    have blank : trims (dropBlank rest) = false := by
      unfold dropBlank
      split
      · split
        · exact trims_of_isPlain (forall_mem_cons.1 others).2
        · rfl
      · exact quiet
    cases x with
    | text p c => cases c <;> simp_all [apart, kept, content, left]
    | raw t p c => cases c <;> simp_all [apart, kept, content, left, isPlain]
    | broken => cases first
    | tag kind => cases kind <;> simp_all [apart, kept, content, isPlain]

/-- **What remains of a source** without its tags, none of which trims: a byte
stays where no tag opens, and a raw block leaves its content. -/
inductive Remains : Bytes → Bytes → Prop where
  | nil : Remains [] []
  | byte {c rest left} (plain : opening? (c :: rest) = none) (after : Remains rest left) :
    Remains (c :: rest) (c :: left)
  | tag {src kind rest left} (t : Tag) (opens : opening? src = some kind)
    (spans : spanTag kind none (src.drop 2) = some (t.body, false, rest))
    (cooked : kind = .statement → RawWord.ofText? t.statement.name = none)
    (after : Remains rest left) : Remains src left
  | raw {src word inner content ending rest left} (t : Tag) (opens : opening? src = some .statement)
    (spans : spanTag .statement none (src.drop 2) = some (t.body, false, inner))
    (verbatim : RawWord.ofText? t.statement.name = some word)
    (block : spanRaw word inner = some (content, ending, rest)) (after : Remains rest left) :
    Remains src (content ++ left)

theorem remains_spanText {src left : Bytes} (after : Remains (spanText src).2 left) :
    Remains src ((spanText src).1 ++ left) := by
  fun_induction spanText src with
  | case1 | case2 => exact after
  | case3 c rest plain ih => exact .byte plain (ih after)

theorem scan_remains {pos : Position} {src : Bytes}
    (plain : ∀ x ∈ scan pos src, x.isPlain = true) :
    Remains src ((scan pos src).flatMap content) := by
  fun_induction scan pos src with
  | case1 => exact .nil
  | case2 pos c rest opened _ content ih =>
    exact remains_spanText (ih (forall_mem_cons.1 plain).2)
  | case3 | case4 => cases plain _ mem_cons_self
  | case5 =>
    rename_i raw _ opened opener found _ tag tagEnd _ verbatim ih
    obtain ⟨first, others⟩ := forall_mem_cons.1 plain
    simp only [isPlain, Bool.and_eq_true, Bool.not_eq_true', tag] at first
    simp only [first, opener] at found
    exact .raw tag opened found verbatim raw (ih others)
  | case6 =>
    rename_i opened opener found _ tag tagEnd spans cooked ih
    obtain ⟨first, others⟩ := forall_mem_cons.1 plain
    simp only [isPlain, Bool.and_eq_true, Bool.not_eq_true', tag] at first
    simp only [first, opener] at found
    refine .tag tag opened found (fun statement => ?_) (ih others)
    subst statement
    cases raw : RawWord.ofText? tag.statement.name with
    | none => rfl
    | some word => exact (cooked word opened spans rfl raw HEq.rfl HEq.rfl).elim

end Piece

namespace Template

theorem exists_of_texts {src : Bytes} {texts : List Bytes}
    (read : (parse src).toOption.map Node.texts = some texts) :
    ∃ t, parse src = .ok t ∧ t.texts = texts := by
  cases parsed : parse src <;> rw [parsed] at read
  · cases read
  · exact ⟨_, rfl, Option.some.inj read⟩

/-- **Literal text is neither lost nor repeated nor moved.** Where no delimiter
carries a minus sign, the literal texts of a tree are together what remains of
the source without its tags, in the same order, and none of them is empty. -/
theorem texts_complete {src : Bytes} {t : Node} (parsed : parse src = .ok t)
    (plain : ∀ x ∈ Piece.scan .start src, x.isPlain = true) :
    Piece.Remains src t.texts.flatten ∧ ∀ text ∈ t.texts, text ≠ [] := by
  obtain ⟨b, run, same⟩ := run_of_parse parsed
  obtain ⟨apart, kept⟩ := Piece.kept_of_isPlain plain
  rw [same, Assembly.texts_of_scan run apart, kept, List.flatten_filter_not_isEmpty]
  exact ⟨Piece.scan_remains plain, by simp⟩

/-- A page with a lone brace, a delimiter in a string, a quote in a comment and a
tag in a raw block. -/
def plainPage : Bytes :=
  "a \x7b \x7b\x7b '\x7d\x7d' \x7d\x7d\x7b% if x %\x7d b\x7b# it's #\x7d\x7b% raw %\x7d\x7b\x7b c\x7b% endraw %\x7d\x7b% endif %\x7d"

theorem plainPage_texts : ∃ t, parse plainPage = .ok t ∧ Piece.Remains plainPage t.texts.flatten
    ∧ t.texts.flatten = "a \x7b  b\x7b\x7b c" := by
  obtain ⟨t, parsed, texts⟩ := exists_of_texts (show (parse plainPage).toOption.map Node.texts
    = some ([("a \x7b " : Bytes), " b", "\x7b\x7b c"]) by cbv)
  have plain : (Piece.scan .start plainPage).all Piece.isPlain = true := by cbv
  exact ⟨t, parsed, (texts_complete parsed (List.all_eq_true.1 plain)).1, by rw [texts]; rfl⟩

end Template

end TemplateCompiler
