import TemplateCompiler.Text.Bytes

/-!
# Fresh names

A name that is taken gets a number behind it: `item`, `item_2`, `item_3` and
so on. Among one more candidates than there are taken names one is free, so
the search ends.
-/

namespace TemplateCompiler.Script

/-- A name with a number behind it. -/
def numbered (base : Bytes) (n : Nat) : Bytes := base ++ "_" ++ Bytes.decimal n

/-- The name itself and the next `n` numbered forms of it, from two on. -/
def candidates (base : Bytes) (n : Nat) : List Bytes :=
  base :: (List.range n).map fun i => numbered base (i + 2)

/-- The first form of a name that is not taken. -/
def fresh (taken : List Bytes) (base : Bytes) : Bytes :=
  ((candidates base taken.length).find? (!taken.contains ·)).getD base

end TemplateCompiler.Script
