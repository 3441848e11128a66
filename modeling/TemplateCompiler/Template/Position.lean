import TemplateCompiler.Text.Bytes

/-!
# Positions in template source

A position is a line and a column, both counted from one; a column counts
bytes. `Position.after` is the position that follows a stretch of source, so
the position of any place is `Position.start.after` the bytes before it.
-/

namespace TemplateCompiler

/-- A place in template source. -/
structure Position where
  line : Nat
  column : Nat
deriving DecidableEq, Repr, Inhabited

namespace Position

def start : Position := ⟨1, 1⟩

/-- The position of a node that comes from no source. -/
def none : Position := ⟨0, 0⟩

def step (p : Position) (b : UInt8) : Position :=
  if b == Byte.newline then ⟨p.line + 1, 1⟩ else ⟨p.line, p.column + 1⟩

/-- The position behind `bs`, which starts at `p`. -/
def after (p : Position) (bs : Bytes) : Position := bs.foldl step p

/-- Two stretches one after the other. -/
theorem after_append (p : Position) (as bs : Bytes) :
    p.after (as ++ bs) = (p.after as).after bs :=
  List.foldl_append

/-- The wording of a position in messages. -/
def describe (p : Position) : Bytes :=
  "line " ++ Bytes.decimal p.line ++ ", column " ++ Bytes.decimal p.column

end Position

end TemplateCompiler
