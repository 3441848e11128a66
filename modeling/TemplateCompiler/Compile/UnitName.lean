import TemplateCompiler.Script.Fresh
import TemplateCompiler.Script.Names
import TemplateCompiler.Text.CaseFold
import TemplateCompiler.Text.Compose
import TemplateCompiler.Text.Letter
import TemplateCompiler.Text.Utf8

/-!
# Names of units

The function of a partial is named after the partial: `Header-Nav` gives
`partial_header_nav`. Names that look alike or differ in case only give one
name, so names are handed out by `UnitName.allocate`, which numbers those that
are taken, whatever naming function is used.
-/

namespace TemplateCompiler.UnitName

/-- What the name of a function may hold: an underscore, a dollar sign, a
letter or a decimal digit. -/
def isPart (code : Nat) : Bool :=
  code == 0x5f || code == 0x24 || isLetter code || isDecimalDigit code

def runs (codes : List Nat) : List (List Nat) :=
  (codes.splitBy fun a b => isPart a == isPart b).filter fun run => run.all isPart

/-- A name with an underscore for every gap between parts, and none at its
ends. A name without parts is an underscore, and a name does not start with a
digit. -/
def sanitize (name : Bytes) : Bytes :=
  match [0x5f].intercalate (runs (Utf8.points name)) with
  | [] => "_"
  | c :: cs => Utf8.ofPoints (if isDecimalDigit c then 0x5f :: c :: cs else c :: cs)

/-- The name of the function of a partial, unless another naming is asked
for: the partial's name in one spelling and case. -/
def ofPartial (name : Bytes) : Bytes :=
  Script.partialMark ++ sanitize (Utf8.ofPoints (caseFold (composed (Utf8.points name))))

/-- A name that a naming function gave, made fit for a function. -/
def base (given : Bytes) : Bytes :=
  let name := sanitize given
  if Script.isKeyword name || Script.isBuiltin name then "_" ++ name else name

/-- The name of the next function, given the names that are taken. -/
def allocate (taken : List Bytes) (given : Bytes) : Bytes := Script.fresh taken (base given)

end TemplateCompiler.UnitName
