import TemplateCompiler.Template.Node
import TemplateCompiler.Text.Quoted

/-!
# Outlines of template trees

`Node.outline` shows a tree with one line per node, children indented by two
spaces below their parent.
-/

namespace TemplateCompiler.Node

/-- A literal as it stands in an outline: strings are quoted. -/
def literalLabel : Literal → Bytes
  | .string s => quoted s
  | value => value.text

/-- The line of a node: its kind, with what tells it from others of the
kind. -/
def label (n : Node) : Bytes :=
  match n with
  | .text _ content => "TemplateData(" ++ quoted content ++ ")"
  | .symbol _ name => "Symbol(" ++ name ++ ")"
  | .named _ name => "Value(" ++ name ++ ")"
  | .literal _ value => "Literal(" ++ literalLabel value ++ ")"
  | .binary _ op _ _ => "BinOp(" ++ op.name ++ ")"
  | .compare _ _ links => "Compare(" ++ Bytes.join " " (links.map Prod.fst) ++ ")"
  | .embed _ _ true => "Include(ignore missing)"
  | .block _ name _ => "Block(" ++ name ++ ")"
  | _ => n.kind

/-- The lines of a tree, each node below its parent. -/
def outline (n : Node) : Bytes :=
  (n.levels 0).flatMap fun (depth, m) =>
    List.replicate (2 * depth) Byte.space ++ m.label ++ "\n"

end TemplateCompiler.Node
