import TemplateCompiler.Template.Statement
import TemplateCompiler.Text.Space

/-!
# Building template trees

The pieces of a template become a tree in one pass from left to right. An
`Assembly` holds the nodes of the innermost block so far and the blocks that
are open around it; a tag adds a node, opens a block or ends one.
`Template.parse` is the whole way from source to tree.

Trimming happens here: a delimiter that trims to its right takes the blanks
off the text that follows, one that trims to its left off the literal text
that was added last.
-/

namespace TemplateCompiler

/-- A branch of a conditional: its tag, its condition and its body. -/
structure Branch where
  pos : Position
  cond : Node
  body : Node

/-- A block whose end has not come yet. `outer` holds the nodes before it in
the block around it, last first. -/
inductive OpenBlock where
  /-- The branch of a conditional, behind earlier ones, last first. -/
  | branch (earlier : List Branch) (pos : Position) (cond : Node) (outer : List Node)
  /-- The alternative of a conditional. -/
  | alternative (last : Branch) (earlier : List Branch) (pos : Position) (outer : List Node)
  /-- The body of a loop. -/
  | loop (pos : Position) (vars iterable : Node) (outer : List Node)
  /-- The alternative of a loop. -/
  | loopElse (pos : Position) (vars iterable body : Node) (elsePos : Position)
      (outer : List Node)
  /-- The body of an assignment. -/
  | assign (pos : Position) (targets : List Node) (outer : List Node)
  /-- A named block. -/
  | block (pos : Position) (name : Bytes) (outer : List Node)

namespace OpenBlock

/-- The error of a source that ends inside a block. -/
def unclosed : OpenBlock → SyntaxError
  | .branch _ pos _ _ => ⟨pos, .noEndif⟩
  | .alternative _ _ pos _ => ⟨pos, .noEndifAfterElse⟩
  | .loop pos _ _ _ => ⟨pos, .noEndfor⟩
  | .loopElse _ _ _ _ pos _ => ⟨pos, .noEndforAfterElse⟩
  | .assign pos _ _ => ⟨pos, .noEndset⟩
  | .block pos name _ => ⟨pos, .noEndblock name⟩

end OpenBlock

/-- A tree being built. -/
structure Assembly where
  /-- The nodes of the innermost block, last first. -/
  nodes : List Node
  /-- The blocks around them, innermost first. -/
  blocks : List OpenBlock
  /-- Whether text that comes next loses its leading blanks. -/
  trimNext : Bool

namespace Assembly

def empty : Assembly := ⟨[], [], false⟩

/-- The conditional of a chain of branches, the last first: each is the
alternative of the one before it. -/
def conditional (last : Branch) (earlier : List Branch) (alt : Node) : Node :=
  earlier.foldl
    (fun inner b => .ifElse b.pos b.cond b.body (.list inner.pos [inner]))
    (.ifElse last.pos last.cond last.body alt)

def textNode (pos : Position) (content : Bytes) : Node := .output pos [.text pos content]

/-- The nodes with the blanks at the end of the last taken off, if it is
literal text; it goes if nothing is left of it. -/
def trimLast : List Node → List Node
  | .output pos [.text textPos content] :: nodes =>
    match Bytes.trimEnd Byte.isBlank content with
    | [] => nodes
    | text => .output pos [.text textPos text] :: nodes
  | nodes => nodes

def add (a : Assembly) (n : Node) : Assembly := { a with nodes := n :: a.nodes }

/-- The assembly with literal text added, unless it is empty. -/
def addText (a : Assembly) (pos : Position) (content : Bytes) : Assembly :=
  match content with
  | [] => a
  | content => a.add (textNode pos content)

def enter (a : Assembly) (block : OpenBlock) : Assembly :=
  { a with nodes := [], blocks := block :: a.blocks }

/-- The trimming that a tag asks for on both sides. -/
def trim (a : Assembly) (t : Tag) : Assembly :=
  { a with
    nodes := if t.trimBefore then trimLast a.nodes else a.nodes
    trimNext := t.trimAfter }

/-- What a statement does to the block it stands in: it ends it, or goes on
with the next part of it. `a` has the nodes of that block and the blocks
around it; the result is `none` if the statement does neither. -/
def leave? (a : Assembly) (block : OpenBlock) (pos : Position) (s : Statement) :
    Option (Except SyntaxError Assembly) :=
  let body (at_ : Position) : Node := .list at_ a.nodes.reverse
  let close (outer : List Node) (n : Node) : Assembly := { a with nodes := n :: outer }
  match block with
  | .branch earlier branchPos cond outer =>
    let last : Branch := ⟨branchPos, cond, body branchPos⟩
    if s.name == "elif" || s.name == "elseif" then
      some (do
        let next ← s.expression
        .ok (a.enter (.branch (last :: earlier) pos next outer)))
    else if s.name == "else" then some (.ok (a.enter (.alternative last earlier pos outer)))
    else if s.name == "endif" then some (.ok (close outer (conditional last earlier .missing)))
    else none
  | .alternative last earlier elsePos outer =>
    if s.name == "endif" then some (.ok (close outer (conditional last earlier (body elsePos))))
    else none
  | .loop loopPos vars iterable outer =>
    if s.name == "else" then
      some (.ok (a.enter (.loopElse loopPos vars iterable (body loopPos) pos outer)))
    else if s.name == "endfor" then
      some (.ok (close outer (.forEach loopPos vars iterable (body loopPos) .missing)))
    else none
  | .loopElse loopPos vars iterable loopBody elsePos outer =>
    if s.name == "endfor" then
      some (.ok (close outer (.forEach loopPos vars iterable loopBody (body elsePos))))
    else none
  | .assign setPos targets outer =>
    if s.name == "endset" then
      some (.ok (close outer (.assign setPos targets .missing (body setPos))))
    else none
  | .block blockPos name outer =>
    if s.name == "endblock" then
      let found := trimSpace s.args
      if found.isEmpty || found == name then
        some (.ok (close outer (.block blockPos name (body blockPos))))
      else some (.error ⟨pos, .endblockName found name⟩)
    else none

/-- Statements that only end or continue a block. -/
def isInner (name : Bytes) : Bool :=
  name == "elif" || name == "else" || name == "endif" || name == "endfor" || name == "endset"
    || name == "endblock" || name == "endraw"

/-- What a statement adds or opens. -/
def perform (a : Assembly) (pos : Position) (s : Statement) : Except SyntaxError Assembly :=
  if s.name == "if" then do
    let cond ← s.expression
    .ok (a.enter (.branch [] pos cond a.nodes))
  else if s.name == "for" then do
    let (vars, iterable) ← s.loop pos
    .ok (a.enter (.loop pos vars iterable a.nodes))
  else if s.name == "set" then do
    let (targets, value) ← s.assignment pos
    match value with
    | some value => .ok (a.add (.assign pos targets value .missing))
    | none => .ok (a.enter (.assign pos targets a.nodes))
  else if s.name == "include" then do
    let (template, ignoreMissing) ← s.embedding
    .ok (a.add (.embed pos template ignoreMissing))
  else if s.name == "extends" then do
    let template ← s.expression
    .ok (a.add (.inherit pos template))
  else if s.name == "block" then
    match trimSpace s.args with
    | [] => .error ⟨pos, .noBlockName⟩
    | name => .ok (a.enter (.block pos name a.nodes))
  else if s.name.isEmpty then .error ⟨pos, .emptyTag⟩
  else if isInner s.name then .error ⟨pos, .unexpectedTag s.name⟩
  else .error ⟨pos, .unknownTag s.name⟩

/-- A statement: it ends or continues the innermost block, or does something
of its own. -/
def statement (a : Assembly) (pos : Position) (s : Statement) : Except SyntaxError Assembly :=
  match a.blocks with
  | [] => a.perform pos s
  | block :: around =>
    match leave? { a with blocks := around } block pos s with
    | some result => result
    | none => a.perform pos s

def step (a : Assembly) : Piece → Except SyntaxError Assembly
  | .broken e => .error e
  | .text pos content =>
    let text := if a.trimNext then Bytes.trimStart Byte.isBlank content else content
    .ok ({ a with trimNext := false }.addText pos text)
  | .raw tag pos content => .ok ((a.trim tag).addText pos content)
  | .tag .comment tag => .ok (a.trim tag)
  | .tag .output tag => do
    let value ← Expression.parse tag.bodyPos tag.body
    .ok ((a.trim tag).add (.output tag.pos [value]))
  | .tag .statement tag => (a.trim tag).statement tag.pos tag.statement

/-- The tree, when all pieces have come. -/
def finish (a : Assembly) : Except SyntaxError Node :=
  match a.blocks with
  | [] => .ok (.list .start a.nodes.reverse)
  | block :: _ => .error block.unclosed

end Assembly

namespace Template

def parse (src : Bytes) : Except SyntaxError Node := do
  let whole ← (Piece.scan .start src).foldlM Assembly.step Assembly.empty
  whole.finish

/-- The tree of a single expression. -/
def parseExpression (src : Bytes) : Except SyntaxError Node := Expression.parse .start src

end Template

end TemplateCompiler
