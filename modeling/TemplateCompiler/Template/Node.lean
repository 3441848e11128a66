import TemplateCompiler.Template.Literal
import TemplateCompiler.Template.Position

/-!
# Template trees

A template is a tree of nodes. Literal text and expressions stand in
`output` nodes; statements hold the lists of nodes between their tags;
expressions are nodes of the same type, since an output, a condition and a
filter argument are all expressions. Every node has the position of the token
that introduces it. `Node.missing` stands where a tree has no node, such as
the absent alternative of a conditional.
-/

namespace TemplateCompiler

/-- The binary operators of expressions. `other` holds a name that is none of
them; no source text gives one. -/
inductive BinaryOp where
  | or | and | isIn | is | add | concat | sub | mul | div | floorDiv | mod | pow
  | other (name : Bytes)
deriving DecidableEq, Repr, Inhabited

namespace BinaryOp

/-- The operators with a name of their own. -/
def named : List BinaryOp :=
  [.or, .and, .isIn, .is, .add, .concat, .sub, .mul, .div, .floorDiv, .mod, .pow]

def name : BinaryOp → Bytes
  | .or => "Or"
  | .and => "And"
  | .isIn => "In"
  | .is => "Is"
  | .add => "Add"
  | .concat => "Concat"
  | .sub => "Sub"
  | .mul => "Mul"
  | .div => "Div"
  | .floorDiv => "FloorDiv"
  | .mod => "Mod"
  | .pow => "Pow"
  | .other n => n

def ofName (n : Bytes) : BinaryOp :=
  (named.find? fun op => op.name == n).getD (.other n)

end BinaryOp

/-- A node of a template tree. -/
inductive Node where
  /-- No node. -/
  | missing
  /-- A sequence of nodes: a whole template or the body of a block. -/
  | list (pos : Position) (nodes : List Node)
  /-- What a template writes: literal text or an expression. -/
  | output (pos : Position) (parts : List Node)
  /-- Literal text between tags. -/
  | text (pos : Position) (content : Bytes)
  /-- A conditional block; a chain of alternatives nests in `alt`. -/
  | ifElse (pos : Position) (cond body alt : Node)
  /-- A conditional expression. -/
  | choice (pos : Position) (cond body alt : Node)
  /-- A loop over `iterable`, binding one name or an array of names. -/
  | forEach (pos : Position) (vars iterable body alt : Node)
  /-- An assignment of `value` or, without one, of the text of `body`. -/
  | assign (pos : Position) (targets : List Node) (value body : Node)
  /-- The place of another template. -/
  | embed (pos : Position) (template : Node) (ignoreMissing : Bool)
  /-- A member of a value, by name or by index. -/
  | lookup (pos : Position) (target key : Node)
  /-- A name. -/
  | symbol (pos : Position) (name : Bytes)
  /-- A call, or a filter applied to its first argument. -/
  | call (pos : Position) (callee : Node) (args : List Node)
  /-- A literal value. -/
  | literal (pos : Position) (value : Literal)
  /-- A reference by name that is no plain symbol. -/
  | named (pos : Position) (name : Bytes)
  /-- A comparison chain: an operand, then operators with their operands. -/
  | compare (pos : Position) (first : Node) (links : List (Bytes × Node))
  /-- Logical negation. -/
  | not (pos : Position) (target : Node)
  /-- Arithmetic negation. -/
  | neg (pos : Position) (target : Node)
  /-- A binary operation. -/
  | binary (pos : Position) (op : BinaryOp) (left right : Node)
  /-- A list of values, or the names a loop binds together. -/
  | array (pos : Position) (items : List Node)
  /-- Keys with their values. -/
  | dict (pos : Position) (pairs : List (Node × Node))
  /-- A parenthesised list of expressions. -/
  | group (pos : Position) (items : List Node)
  /-- The parent of a template. -/
  | inherit (pos : Position) (template : Node)
  /-- A named block that a child template may replace. -/
  | block (pos : Position) (name : Bytes) (body : Node)
deriving Repr, Inhabited

namespace Node

/-- The word for a node's kind in outlines and messages. -/
def kind : Node → Bytes
  | .missing => "nil"
  | .list .. => "NodeList"
  | .output .. => "Output"
  | .text .. => "TemplateData"
  | .ifElse .. => "If"
  | .choice .. => "InlineIf"
  | .forEach .. => "For"
  | .assign .. => "Set"
  | .embed .. => "Include"
  | .lookup .. => "LookupVal"
  | .symbol .. => "Symbol"
  | .call .. => "FunCall"
  | .literal .. => "Literal"
  | .named .. => "Value"
  | .compare .. => "Compare"
  | .not .. => "Not"
  | .neg .. => "Neg"
  | .binary .. => "BinOp"
  | .array .. => "Array"
  | .dict .. => "Dict"
  | .group .. => "Group"
  | .inherit .. => "Extends"
  | .block .. => "Block"

/-- Where a node stands; a missing one stands nowhere. -/
def pos : Node → Position
  | .missing => .none
  | .list p .. | .output p .. | .text p .. | .ifElse p .. | .choice p .. | .forEach p ..
  | .assign p .. | .embed p .. | .lookup p .. | .symbol p .. | .call p .. | .literal p ..
  | .named p .. | .compare p .. | .not p .. | .neg p .. | .binary p .. | .array p ..
  | .dict p .. | .group p .. | .inherit p .. | .block p .. => p

def isMissing : Node → Bool
  | .missing => true
  | _ => false

mutual

/-- A node and its descendants, each before its children and with its depth
below the root, which stands at `depth`. -/
def levels (depth : Nat) (n : Node) : List (Nat × Node) :=
  match n with
  | .missing => []
  | .text .. | .symbol .. | .literal .. | .named .. => [(depth, n)]
  | .list _ ns | .output _ ns | .array _ ns | .group _ ns =>
    (depth, n) :: levelsOf (depth + 1) ns
  | .ifElse _ c b a | .choice _ c b a =>
    (depth, n) :: (c.levels (depth + 1) ++ b.levels (depth + 1) ++ a.levels (depth + 1))
  | .forEach _ v i b a =>
    (depth, n) :: (v.levels (depth + 1) ++ i.levels (depth + 1) ++ b.levels (depth + 1)
      ++ a.levels (depth + 1))
  | .assign _ ts v b =>
    (depth, n) :: (levelsOf (depth + 1) ts ++ v.levels (depth + 1) ++ b.levels (depth + 1))
  | .embed _ t _ | .inherit _ t | .not _ t | .neg _ t | .block _ _ t =>
    (depth, n) :: t.levels (depth + 1)
  | .lookup _ l r | .binary _ _ l r =>
    (depth, n) :: (l.levels (depth + 1) ++ r.levels (depth + 1))
  | .call _ c args => (depth, n) :: (c.levels (depth + 1) ++ levelsOf (depth + 1) args)
  | .compare _ first links =>
    (depth, n) :: (first.levels (depth + 1) ++ levelsOfLinks (depth + 1) links)
  | .dict _ pairs => (depth, n) :: levelsOfPairs (depth + 1) pairs

def levelsOf (depth : Nat) : List Node → List (Nat × Node)
  | [] => []
  | n :: ns => n.levels depth ++ levelsOf depth ns

/-- `levels` of the operands of a comparison. -/
def levelsOfLinks (depth : Nat) : List (Bytes × Node) → List (Nat × Node)
  | [] => []
  | (_, n) :: links => n.levels depth ++ levelsOfLinks depth links

/-- `levels` of keys and values in turn. -/
def levelsOfPairs (depth : Nat) : List (Node × Node) → List (Nat × Node)
  | [] => []
  | (k, v) :: pairs => k.levels depth ++ v.levels depth ++ levelsOfPairs depth pairs

end

/-- A node and its descendants in source order, each before its children. -/
def preorder (n : Node) : List Node := (n.levels 0).map Prod.snd

/-- Visits a node and its descendants in that order, until a visit fails. -/
def walk {m : Type → Type} [Monad m] (visit : Node → m PUnit) (n : Node) : m PUnit :=
  n.preorder.forM visit

end Node

end TemplateCompiler
