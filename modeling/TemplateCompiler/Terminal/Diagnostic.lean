import TemplateCompiler.Build.Basic
import TemplateCompiler.Terminal.Caret

/-!
# Diagnostics

How a failed template is reported: where it failed and why, and below that, if
the place is known, the line at fault and a caret.
-/

namespace TemplateCompiler

namespace Diagnostic

def headline (place message : Bytes) : Bytes := place ++ ": error: " ++ message ++ "\n"

/-- The line at fault with a caret below it. -/
def excerpt (line : Bytes) (column : Nat) : Bytes :=
  "  " ++ line ++ "\n  " ++ caretPadding line column ++ "^\n"

def place (file : Bytes) (pos : Position) : Bytes :=
  file ++ ":" ++ Bytes.decimal pos.line ++ ":" ++ Bytes.decimal pos.column

/-- The report of a failure in the root template `root`, with the sources of
files at hand. -/
def report (root : Bytes) (source? : Bytes → Option Bytes) (e : TemplateFailure) : Bytes :=
  match e.locate? root with
  | none => headline root e.message
  | some (file, pos) =>
    let line? := (source? file).bind (sourceLine? · pos.line)
    headline (place file pos) e.message ++ (line?.map (excerpt · pos.column)).getD []

end Diagnostic

end TemplateCompiler
