import TemplateCompiler.Build.Outcome
import TemplateCompiler.Cache.Key
import TemplateCompiler.Cache.Store
import TemplateCompiler.Code.Dump
import TemplateCompiler.Compile.Basic
import TemplateCompiler.Project.SettingsFile
import TemplateCompiler.Template.Outline

/-!
# Builds

A build compiles root templates under the settings of a project. What it
generates depends on the source, the partials, the settings, what is asked for
and the template's name, and the cache key covers just these; with a cache a
template is compiled only if there is no entry under its key.
-/

namespace TemplateCompiler

/-- What the templates of a project are built with. -/
structure Build where
  settings : Settings
  library : Library
  options : CompileOptions
  /-- The text of the naming script, as the key of a template has it. -/
  script : Bytes
  cache : Option Cache
  emit : Emit

namespace Build

/-- What generated code depends on besides source and partials. -/
def packed (b : Build) (name : Bytes) : Packed :=
  b.settings.packed b.script [("emit", .text b.emit.text), ("file", .text name)]

/-- The key of a template's files in the cache. -/
def key (b : Build) (name source : Bytes) : Bytes := cacheKey source b.library (b.packed name)

/-- What a unit needs and assigns. -/
def summary (reserved : List Bytes) (u : CodeUnit) : UnitSummary :=
  ⟨u.name, (Scope.ofUnit reserved u).free.map Script.templateName, u.locals⟩

/-- A generated file in the form that the cache keeps. -/
def kept (f : OutputFile) : CachedFile := ⟨f.name, f.code, f.sourceMap.map SourceMap.json⟩

def files (b : Build) (name : Bytes) (p : Program) : Except TemplateFailure (List CachedFile) :=
  match b.emit with
  | .code => .ok [{ name := name ++ ".ir.yaml", code := p.dump }]
  | _ =>
    match p.print (b.settings.printOptions (name ++ ".js")) with
    | .ok files => .ok (files.map kept)
    | .error e => .error (.unprintable e)

/-- Compiles a template without looking at the cache. -/
def compiled (b : Build) (path name source : Bytes) :
    Except TemplateFailure Built × List LogRecord :=
  let (result, log) := compile { b.options with fileName := path } b.library source
  let built : Except TemplateFailure Built := do
    let p ← result.mapError .uncompiled
    let files ← b.files name p
    pure { files, units := p.allUnits.map (summary (b.settings.reserved.getD [])) }
  (built, log)

def outlined (name source : Bytes) : Except TemplateFailure Built :=
  match Template.parse source with
  | .error e => .error (.malformed e)
  | .ok tree => .ok { files := [{ name := name ++ ".ast", code := tree.outline }] }

/-- What the cache keeps of a result: its files, and the inputs and locals of
the root. -/
def entryOf (built : Built) : CacheEntry :=
  let root := built.units.getLast?
  { files := built.files, inputs := root.map (·.inputs), locals := root.map (·.locals) }

/-- A result from the cache. Only the root's summary is kept there. -/
def ofEntry (b : Build) (e : CacheEntry) : Built :=
  { files := e.files, cached := true
    units := [⟨b.settings.rootName, e.inputs.getD [], e.locals.getD []⟩] }

def templateField (path : Bytes) : Bytes × Bytes := ("template", path)

variable {m : Type → Type} [Monad m] [FileAccess m]

/-- What the cache, if there is one, has for a key, with the log. -/
def lookup (b : Build) (path key : Bytes) : m (Option Built × List LogRecord) := do
  match b.cache with
  | none => return (none, [])
  | some cache =>
    match ← cache.get key with
    | .hit e =>
      return (some (b.ofEntry e),
        [⟨.debug, "cache hit", [templateField path, ("key", key.take 12)]⟩])
    | .miss => return (none, [])
    | .stale schema =>
      return (none,
        [⟨.debug, "stale cache entry", [("key", key), ("schema", Bytes.decimal schema)]⟩])
    | .failed cause =>
      return (none,
        [⟨.warn, "cache read failed", [templateField path, ("error", cause.message)]⟩])

/-- Keeps a result in the cache, if there is one, and gives the log. -/
def keep (b : Build) (path key : Bytes) (built : Built) : m (List LogRecord) := do
  match b.cache with
  | none => return []
  | some cache =>
    match ← cache.put key (entryOf built) with
    | .ok () => return []
    | .error cause =>
      return [⟨.warn, "cache write failed", [templateField path, ("error", cause.message)]⟩]

def throughCache (b : Build) (path name source : Bytes) :
    m (Except TemplateFailure Built × List LogRecord) := do
  let key := b.key name source
  let (found, log) ← b.lookup path key
  match found with
  | some built => return (.ok built, log)
  | none =>
    let (result, more) := b.compiled path name source
    match result with
    | .error e => return (.error e, log ++ more)
    | .ok built => return (.ok built, log ++ more ++ (← b.keep path key built))

def template (b : Build) (path : Bytes) : m (Outcome × List LogRecord) := do
  match ← FileAccess.read path with
  | .error e => return ({ path, result := .error (.unreadable e) }, [])
  | .ok content =>
    let source := b.settings.loadOptions.preprocess content
    let name := Path.stem path
    if b.emit == .outline then return ({ path, source, result := outlined name source }, [])
    -- The script has run already; its text is read again for the key.
    let script ← b.settings.scriptText
    let (result, log) ← { b with script }.throughCache path name source
    return ({ path, source, result }, log)

/-- Builds the templates in some files, one after the other. -/
def templates (b : Build) : List Bytes → m (List Outcome × List LogRecord)
  | [] => pure ([], [])
  | path :: paths => do
    let (outcome, log) ← b.template path
    let (outcomes, more) ← templates b paths
    pure (outcome :: outcomes, log ++ more)

/-- A build under settings. The partials are loaded and the naming script is
run here. -/
def start (settings : Settings) (cache : Option Cache) (emit : Emit) :
    m (Except LoadError Build × List LogRecord) := do
  match ← Library.load settings.loadOptions (settings.path settings.views) with
  | .error e => return (.error e, [])
  | .ok (library, log) =>
    let found : LogRecord := ⟨.debug, "discovered partials", [("views", settings.views),
      ("count", Bytes.decimal library.partials.length)]⟩
    let (naming, more) ← settings.naming
    let script ← settings.scriptText
    return (.ok { settings, library, options := settings.compileOptions naming, script, cache, emit },
      log ++ found :: more)

/-- The source of a file that an error in a template may name: the template's
own, or that of a partial. -/
def sourceOf? (b : Build) (o : Outcome) (file : Bytes) : Option Bytes :=
  if file == o.path then some o.source else b.library.source? file

end Build

end TemplateCompiler
