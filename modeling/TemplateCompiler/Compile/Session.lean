import TemplateCompiler.Code.Stamp
import TemplateCompiler.Compile.Error
import TemplateCompiler.Compile.UnitName
import TemplateCompiler.Log
import TemplateCompiler.Template.Assembly

/-!
# Compile sessions

One compilation is one session. It counts the locations it hands out, and it
keeps the registry of the partials that are units of their own. A compile step
may fail, and what it has changed in the session by then, its log included,
stays.
-/

namespace TemplateCompiler

/-- The partials that includes can name, with their sources. -/
structure Library where
  partials : List (Bytes × Bytes) := []
deriving DecidableEq, Repr, Inhabited

namespace Library

def source? (lib : Library) (name : Bytes) : Option Bytes := lib.partials.lookup name

def names (lib : Library) : List Bytes := lib.partials.map Prod.fst

end Library

/-- Names for the functions of partials. Finding a name may be reported in the
log. -/
abbrev Naming := Bytes → Bytes × List LogRecord

/-- How templates are compiled. -/
structure CompileOptions where
  /-- Whether each partial becomes a unit of its own. Otherwise partials are
  compiled in place. -/
  moduleMode : Bool := false
  /-- Names that are never inputs. -/
  reserved : List Bytes := []
  /-- The names of the functions of partials, before they are made fit. -/
  naming : Naming := fun name => (UnitName.ofPartial name, [])
  /-- The name of the root function. -/
  rootName : Bytes := []
  /-- The file of the root template. -/
  fileName : Bytes := []
  /-- How sources are read. -/
  parse : Bytes → Except SyntaxError Node := Template.parse

namespace CompileOptions

/-- The name of the root function in force. -/
def root (o : CompileOptions) : Bytes :=
  if o.rootName.isEmpty then Script.rootName else o.rootName

/-- The file of the root template in force: by default it is called like the
root function. -/
def file (o : CompileOptions) : Bytes := if o.fileName.isEmpty then o.root else o.fileName

end CompileOptions

/-- A partial in the registry. It has no code while it is being compiled. -/
structure RegistryEntry where
  partialName : Bytes
  unit : Bytes
  references : Nat := 0
  code : Option CodeUnit := none
deriving Repr, Inhabited

/-- The state of a compilation. -/
structure Session where
  /-- The partials met so far. -/
  registry : List RegistryEntry := []
  /-- The unit names that are taken. -/
  taken : List Bytes
  /-- The finished units of partials. -/
  units : List CodeUnit := []
  /-- How many locations were handed out. -/
  located : Nat := 0
  log : List LogRecord := []
deriving Repr, Inhabited

abbrev Compile := ExceptT CompileError (StateM Session)

namespace Session

/-- A new session. The root's name and the helpers' are taken. -/
def start (o : CompileOptions) : Session := { taken := o.root :: Script.helpers }

def find? (s : Session) (name : Bytes) : Option RegistryEntry :=
  s.registry.find? (·.partialName == name)

def entryOfUnit? (s : Session) (unit : Bytes) : Option RegistryEntry :=
  s.registry.find? (·.unit == unit)

/-- Changes the entry of a partial. -/
def updateEntry (s : Session) (name : Bytes) (f : RegistryEntry → RegistryEntry) : Session :=
  { s with registry := s.registry.map fun e => if e.partialName == name then f e else e }

end Session

namespace Compile

def debug (message : Bytes) (fields : List (Bytes × Bytes)) : Compile Unit :=
  modify fun s => { s with log := s.log ++ [⟨.debug, message, fields⟩] }

/-- Runs a step that hands out locations. -/
def locating {α : Type} (step : StateM Nat α) : Compile α :=
  modifyGet fun s =>
    let (a, located) := step.run s.located
    (a, { s with located })

/-- Registers a partial under a unit name of its own. -/
def register (o : CompileOptions) (name : Bytes) : Compile Bytes := do
  let unit ← modifyGet fun s =>
    let (given, log) := o.naming name
    let unit := UnitName.allocate s.taken given
    (unit, { s with taken := unit :: s.taken, registry := s.registry ++ [⟨name, unit, 0, none⟩],
                    log := s.log ++ log })
  debug "registered partial" [("partial", name), ("unit", unit)]
  pure unit

/-- Records the finished unit of a partial. -/
def finish (name : Bytes) (u : CodeUnit) : Compile Unit :=
  modify fun s =>
    { s.updateEntry name fun e => { e with code := some u } with units := s.units ++ [u] }

/-- Counts a use of a partial's unit. -/
def countReference (name : Bytes) : Compile Unit := do
  modify fun s => s.updateEntry name fun e => { e with references := e.references + 1 }
  match (← get).find? name with
  | some e =>
    if e.references > 1 then
      debug "partial cache hit"
        [("partial", name), ("unit", e.unit), ("refs", Bytes.decimal e.references)]
  | none => pure ()

/-- Runs `step` inside the partial `name`. -/
def inside {α : Type} (name : Bytes) (step : Compile α) : Compile α :=
  ExceptT.adapt (CompileError.leaving name) step

end Compile

end TemplateCompiler
