import TemplateCompiler.Build.Write
import TemplateCompiler.CommandLine.Command
import TemplateCompiler.CommandLine.Console
import TemplateCompiler.Terminal.Diagnostic

/-!
# Running commands

What each command does with the files of a project and the console. Flags win
over the settings file. A template that fails is reported after all templates
are done, and then the command fails too; anything else that goes wrong ends
the command at once.
-/

namespace TemplateCompiler

/-- Why a command fails. -/
inductive CommandError where
  | usage (cause : UsageError)
  /-- There are no settings. -/
  | settings (cause : SettingsError)
  /-- The flags make the settings, or are themselves, unacceptable. -/
  | invalid (complaints : List Complaint)
  /-- The partials to list cannot be loaded. -/
  | partials (cause : LoadError)
  /-- The partials to compile with cannot be loaded. -/
  | library (cause : LoadError)
  /-- A generated file cannot be written. -/
  | output (cause : FileError)
  | failedTemplates (failed total : Nat)
deriving DecidableEq, Repr, Inhabited

def CommandError.message : CommandError → Bytes
  | .usage cause => cause.message
  | .settings cause => cause.message
  | .invalid complaints => Complaint.messages complaints
  | .partials cause => cause.message
  | .library cause => "loading partials: " ++ cause.message
  | .output cause => cause.message
  | .failedTemplates failed total =>
    Bytes.decimal failed ++ " of " ++ Bytes.decimal total ++ " templates failed to compile"

/-- A command at work: it may fail, and it prints and reaches files on the
way. What it printed stays when it fails. -/
abbrev Work (m : Type → Type) := ExceptT CommandError (StateT Console m)

namespace Work

variable {m : Type → Type} [Monad m]

def files {α : Type} (action : m α) : Work m α := ExceptT.lift (StateT.lift action)

def console (change : Console → Console) : Work m Unit := ExceptT.lift (modify change)

def print (text : Bytes) : Work m Unit := console (·.print text)

def report (text : Bytes) : Work m Unit := console (·.report text)

def log (records : List LogRecord) : Work m Unit := console (·.log records)

end Work

namespace Invocation

/-- The settings with the flags of a command applied. An output folder on the
command line is taken as it is, and one in the settings starts from their
folder. -/
def override (a : Arguments) (s : Settings) : Settings :=
  let split := a.switch? .split
  { s with
    moduleMode := split == some true || (a.switch? .moduleMode).getD s.moduleMode
    splitModules := split.getD s.splitModules
    outFolder := (a.text? .out).getD (s.path s.outFolder)
    sourceMaps := (a.switch? .sourceMap).getD s.sourceMaps
    jobs := (a.count? .jobs).orElse fun _ => s.jobs }

def emit (a : Arguments) : Except CommandError Emit :=
  match a.text? .emit with
  | none => .ok .script
  | some word =>
    match Emit.ofText? word with
    | some emit => .ok emit
    | none => .error (.invalid [.notAllowed "emit" (Emit.all.map Emit.text) word])

variable {m : Type → Type} [Monad m] [FileAccess m]

/-- The settings file with its log, before flags are applied. -/
def fileSettings (a : Arguments) : Work m Settings := do
  let path := (a.text? .config).getD Settings.defaultFile
  let (result, log) ← Work.files (Settings.load path (a.text? .config).isSome)
  Work.log log
  match result with
  | .ok s => return s
  | .error e => throw (.settings e)

def settings (a : Arguments) : Work m Settings := do
  let s := override a (← fileSettings a)
  match s.complaints with
  | [] => return s
  | complaints => throw (.invalid complaints)

/-- The cache to compile with. It is left out if nothing of it is asked for or
if it cannot be reached. -/
def cache (a : Arguments) (s : Settings) (emit : Emit) : Work m (Option Cache) := do
  if emit == .outline || a.isOn .noCache then return none
  match ← Work.files (Cache.start (s.path s.cacheFolder)) with
  | .ok cache => return some cache
  | .error reason =>
    Work.log [⟨.warn, "build cache disabled", [("error", reason)]⟩]
    return none

def start (s : Settings) (cache : Option Cache) (emit : Emit) : Work m Build := do
  let (result, log) ← Work.files (Build.start s cache emit)
  Work.log log
  match result with
  | .ok b => return b
  | .error e => throw (.library e)

def build (b : Build) (paths : List Bytes) : Work m (List Outcome) := do
  let (outcomes, log) ← Work.files (b.templates paths)
  Work.log log
  return outcomes

/-- Reports the templates that failed. The command fails if there are any. -/
def conclude (b : Build) (outcomes : List Outcome) : Work m Unit := do
  let failures := outcomes.filterMap fun o => o.failure?.map ((o, ·))
  Work.report (failures.flatMap fun (o, e) => Diagnostic.report o.path (b.sourceOf? o) e)
  if !failures.isEmpty then throw (.failedTemplates failures.length outcomes.length)

/-- What is printed instead of a generated file. -/
def listing (path : Bytes) (f : CachedFile) : Bytes := "# " ++ path ++ "\n" ++ f.code

/-- The log of a template whose files are written. -/
def compiledRecord (path : Bytes) (built : Built) : LogRecord :=
  ⟨.info, "compiled", [("template", path), ("files", Bytes.decimal built.files.length),
    ("cached", if built.cached then Bytes.ofString "true" else Bytes.ofString "false")]⟩

/-- Writes what was built of a template, or prints it if it is no script. -/
def deliver (b : Build) (o : Outcome) : Work m Unit := do
  match o.built? with
  | none => return
  | some built =>
    if b.emit != .script then Work.print (built.files.flatMap (listing o.path))
    else match ← Work.files (b.write o.name built.files) with
      | .error e => throw (.output e)
      | .ok () => Work.log [compiledRecord o.path built]

/-- Compiles templates and writes the files. -/
def compile (a : Arguments) : Work m Unit := do
  let emit ← emit a
  let s ← settings a
  let cache ← cache a s emit
  let b ← start s cache emit
  let outcomes ← build b a.rest
  outcomes.forM (deliver b)
  conclude b outcomes

def unitLine (u : UnitSummary) : Bytes :=
  "  " ++ u.name ++ " inputs=[" ++ Bytes.join ", " u.inputs ++ "] locals=["
    ++ Bytes.join ", " u.locals ++ "]\n"

/-- The lines of a template that compiles. -/
def checked (o : Outcome) : Bytes :=
  match o.built? with
  | none => []
  | some built => o.path ++ ": ok\n" ++ built.units.flatMap unitLine

/-- Compiles templates and lists what they need. -/
def check (a : Arguments) : Work m Unit := do
  let b ← start (← settings a) none .script
  let outcomes ← build b a.rest
  Work.print (outcomes.flatMap checked)
  conclude b outcomes

def partials (a : Arguments) : Work m Unit := do
  let s ← fileSettings a
  match ← Work.files (Library.load s.loadOptions (s.path s.views)) with
  | .error e => throw (.partials e)
  | .ok (library, log) =>
    Work.log log
    Work.print ((Bytes.sorted library.names).flatMap (· ++ "\n"))

def usageLines : List Bytes := [
  "Compile Liquid/Jinja templates into JavaScript render functions",
  "",
  "Usage:",
  "  tmplc [command]",
  "",
  "Available Commands:",
  "  check       Compile templates without writing output and list unit inputs",
  "  compile     Compile templates to JavaScript",
  "  partials    List the partials found in the views directory"]

def usage : Bytes := usageLines.flatMap (· ++ "\n")

def run (i : Invocation) : Work m Unit :=
  match i.command with
  | .compile => compile i.arguments
  | .check => check i.arguments
  | .partials => partials i.arguments
  | .help => Work.print usage

end Invocation

/-- Runs a command line. The answer is what was printed, and the error if the
command failed. -/
def runCommandLine {m : Type → Type} [Monad m] [FileAccess m] (words : List Bytes) :
    m (Except CommandError Unit × Console) :=
  match Invocation.read words with
  | .error e => pure (.error (.usage e), {})
  | .ok i => (Invocation.run i).run.run { verbose := i.arguments.isOn .verbose }

end TemplateCompiler
