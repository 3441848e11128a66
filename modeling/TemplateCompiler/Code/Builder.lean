import TemplateCompiler.Code.Basic

/-!
# Assembling units

A unit is assembled step by step from an empty one. Each step gives a new
unit, so one that is half made can be shared. `CodeUnit.build` hands out a unit
once it has a name and a body.
-/

namespace TemplateCompiler

/-- Why a unit cannot be handed out. -/
inductive BuildError where
  | noName
  | noBody (name : Bytes)
deriving DecidableEq, Repr

def BuildError.message : BuildError → Bytes
  | .noName => "function unit has no name"
  | .noBody name => "function unit " ++ name ++ " has no body"

namespace CodeUnit

def empty (name source : Bytes) : CodeUnit := { name, source, body := .missing }

def addStatement (u : CodeUnit) (c : Code) : CodeUnit :=
  { u with statements := u.statements ++ [c] }

/-- One more import, unless the unit is imported already. -/
def addImport (u : CodeUnit) (r : ImportRef) : CodeUnit :=
  if u.imports.any (·.unit == r.unit) then u else { u with imports := u.imports ++ [r] }

def build (u : CodeUnit) : Except BuildError CodeUnit :=
  if u.name.isEmpty then .error .noName
  else if u.body.isMissing then .error (.noBody u.name)
  else .ok u

end CodeUnit

end TemplateCompiler
