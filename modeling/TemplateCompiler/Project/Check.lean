import TemplateCompiler.Script.Names
import TemplateCompiler.Text.Quoted
import TemplateCompiler.Text.Space

/-!
# Checks of settings

A check looks at one value and names what is wrong with it, if anything is. It
is told what the value is called. Several checks are reported together, so
that all the problems of a project's settings show at once.
-/

namespace TemplateCompiler

/-- What is wrong with a value. -/
inductive Complaint where
  | blank (what : Bytes)
  | repeated (what : Bytes) (index first : Nat) (item : Bytes)
  | notAllowed (what : Bytes) (choices : List Bytes) (given : Bytes)
  | negative (what : Bytes) (given : Int)
  | notIdentifier (what given : Bytes)
  | notExtension (what given : Bytes)
  | templateTags (what : Bytes)
deriving DecidableEq, Repr, Inhabited

namespace Complaint

def item (what : Bytes) (index : Nat) : Bytes := what ++ "[" ++ Bytes.decimal index ++ "]"

def message : Complaint → Bytes
  | .blank what => what ++ " must not be empty"
  | .repeated what index first given =>
    item what index ++ " repeats " ++ item what first ++ " (" ++ given ++ ")"
  | .notAllowed what choices given =>
    what ++ " must be one of " ++ Bytes.join ", " choices ++ ", got " ++ given
  | .negative what given => what ++ " must not be negative, got " ++ Bytes.integer given
  | .notIdentifier what given =>
    what ++ " must be a JavaScript identifier, got " ++ quoted given
  | .notExtension what given => what ++ " must look like \".ext\", got " ++ quoted given
  | .templateTags what => what ++ " must not contain template tags"

/-- The wording of several complaints, one on a line. -/
def messages (complaints : List Complaint) : Bytes :=
  Bytes.join [Byte.newline] (complaints.map message)

end Complaint

namespace Check

def notEmpty (what field : Bytes) : Option Complaint :=
  if (trimSpace field).isEmpty then some (.blank what) else none

/-- The first item from `index` on that is among the items before it. -/
def firstRepeat? (what : Bytes) (index : Nat) (before : List Bytes) :
    List Bytes → Option Complaint
  | [] => none
  | item :: items =>
    match before.idxOf? item with
    | some first => some (.repeated what index first item)
    | none => firstRepeat? what (index + 1) (before ++ [item]) items

def noDuplicates (what : Bytes) (items : List Bytes) : Option Complaint :=
  firstRepeat? what 0 [] items

def oneOf (what : Bytes) (choices : List Bytes) (field : Bytes) : Option Complaint :=
  if choices.contains field then none else some (.notAllowed what choices field)

def nonNegative (what : Bytes) (n : Int) : Option Complaint :=
  if n < 0 then some (.negative what n) else none

def identifier (what field : Bytes) : Option Complaint :=
  if Script.isIdentifier field && !Script.isKeyword field then none
  else some (.notIdentifier what field)

/-- Whether a byte separates the components of a path. -/
def isSeparator (b : UInt8) : Bool := b == Byte.slash || b == Byte.backslash

/-- The text is a file extension with its dot. -/
def extension (what field : Bytes) : Option Complaint :=
  match field with
  | Byte.dot :: rest =>
    if rest.isEmpty || rest.any isSeparator then some (.notExtension what field) else none
  | _ => some (.notExtension what field)

/-- The text holds no opening of a template tag. -/
def noTemplate (what field : Bytes) : Option Complaint :=
  if Bytes.contains [Byte.openBrace, Byte.openBrace] field
      || Bytes.contains [Byte.openBrace, Byte.percent] field then
    some (.templateTags what)
  else none

/-- Applies a check to every item. The first complaint counts. -/
def each (check : Bytes → Bytes → Option Complaint) (what : Bytes) (items : List Bytes) :
    Option Complaint :=
  items.zipIdx.findSome? fun (field, index) => check (Complaint.item what index) field

def all (checks : List (Option Complaint)) : List Complaint := checks.filterMap id

end Check

end TemplateCompiler
