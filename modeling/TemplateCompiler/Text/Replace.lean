import TemplateCompiler.Text.Space

/-!
# Replacing parts of a text

`Bytes.replaceAll` puts one text in the place of every occurrence of another,
from left to right and without overlap. The empty text occurs in front of every
character and at the end.
-/

namespace TemplateCompiler

namespace Bytes

/-- Replaces the occurrences of a text that is not empty. `taken` bytes belong
to an occurrence that was replaced before. -/
def replaceFrom (old new : Bytes) (taken : Nat) : Bytes → Bytes
  | [] => []
  | b :: rest =>
    match taken with
    | n + 1 => replaceFrom old new n rest
    | 0 =>
      if old.isPrefixOf (b :: rest) then new ++ replaceFrom old new (old.length - 1) rest
      else b :: replaceFrom old new 0 rest

/-- `bs` with `new` for every occurrence of `old`. -/
def replaceAll (bs old new : Bytes) : Bytes :=
  if old.isEmpty then new ++ (Utf8.runes bs).flatMap fun r => r.bytes ++ new
  else replaceFrom old new 0 bs

end Bytes

end TemplateCompiler
