import TemplateCompiler.Text.Bytes

/-!
# Edit distance

How many bytes have to be put in, taken out or replaced to turn one text into
another. The table of the distances between all beginnings of the two texts is
built row by row.
-/

namespace TemplateCompiler

namespace EditDistance

/-- The rest of a row for the byte `a`. `left` is the distance in front of it,
and `above` is the row above from that place on. -/
def rowFrom (a : UInt8) (left : Nat) (above : List Nat) : Bytes → List Nat
  | [] => []
  | b :: target =>
    match above with
    | corner :: up :: above =>
      let here := if a == b then corner else min up (min left corner) + 1
      here :: rowFrom a here (up :: above) target
    | _ => []

def row (target : Bytes) (above : List Nat) (a : UInt8) : List Nat :=
  let left := above.headD 0 + 1
  left :: rowFrom a left above target

end EditDistance

def editDistance (source target : Bytes) : Nat :=
  (source.foldl (EditDistance.row target) (List.range (target.length + 1))).getLastD 0

end TemplateCompiler
