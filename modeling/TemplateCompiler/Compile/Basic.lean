import TemplateCompiler.Compile.Unit

/-!
# Compilation

`compile` turns a root template and a library of partials into a program. An
include is compiled where it stands, or, in module mode, becomes a call of the
partial's unit, which is compiled when the partial is first met. An include of
a partial that is being compiled is a cycle and fails, so the include path
never holds a partial twice, and compilation ends.
-/

namespace TemplateCompiler

/-- The files that are being compiled: the root's, and the partials on the way
from it, the outermost first. -/
structure IncludePath where
  root : Bytes
  partials : List Bytes := []
deriving DecidableEq, Repr, Inhabited

/-- A partial with a source has a name of the library. -/
theorem Library.mem_names_of_source? {lib : Library} {name src : Bytes}
    (found : lib.source? name = some src) : name ∈ lib.names := by
  obtain ⟨before, after, same, -⟩ := List.lookup_eq_some_iff.1 found
  simp [names, same]

namespace IncludePath

/-- The file that is being compiled. -/
def file (path : IncludePath) : Bytes := path.partials.getLastD path.root

def push (path : IncludePath) (name : Bytes) : IncludePath :=
  { path with partials := path.partials ++ [name] }

/-- The files from the first of this name on, and the name again. -/
def cycle (path : IncludePath) (name : Bytes) : List Bytes :=
  (path.root :: path.partials).dropWhile (· != name) ++ [name]

/-- How many partials of a library are not on the path. -/
def room (path : IncludePath) (lib : Library) : Nat :=
  lib.names.countP (!path.partials.contains ·)

/-- A partial that is not on the path takes room when it is entered. -/
theorem room_push_lt {path : IncludePath} {lib : Library} {name src : Bytes}
    (found : lib.source? name = some src) (fresh : name ∉ path.partials) :
    (path.push name).room lib < path.room lib := by
  have known := Library.mem_names_of_source? found
  unfold room push
  generalize lib.names = names at known
  induction names with
  | nil => simp at known
  | cons n names ih =>
    have le : names.countP (!(path.partials ++ [name]).contains ·)
        ≤ names.countP (!path.partials.contains ·) :=
      List.countP_mono_left fun x _ h => by simp_all
    by_cases same : n = name
    · subst same
      have here : (!(path.partials ++ [n]).contains n) = false := by simp
      have there : (!path.partials.contains n) = true := by simpa using fresh
      rw [List.countP_cons, List.countP_cons, here, there]
      simpa using Nat.lt_succ_of_le le
    · have rest := ih (by simpa [Ne.symm same] using known)
      by_cases old : n ∈ path.partials <;> simp_all

end IncludePath

namespace Compile

def parsePartial (o : CompileOptions) (name src : Bytes) : Compile Node :=
  match o.parse src with
  | .ok tree => pure tree
  | .error e => throw (.inPartial name (.malformed e))

/-- What is passed for a parameter. -/
def passed : Code → List (Bytes × Code)
  | .destructure d => d.bindings.map fun (key, id) => (key, Code.ident id.name)
  | _ => []

/-- A call of a unit. It passes the unit's inputs by name. -/
def reference (u : CodeUnit) (unit : Bytes) : Code :=
  .call none (.identifier { name := unit, builtin := true })
    [.object none (u.params.flatMap passed), .ident Script.filterNamespace]

/-- A call of the unit of a partial, which is compiled if it is new. -/
def call (o : CompileOptions) (path : IncludePath) (site : Site) (name src : Bytes) :
    Compile Code := do
  match (← get).find? name with
  | none => do
    let tree ← parsePartial o name src
    let id ← register o name
    let u ← inside name (unit o site id tree)
    finish name u
    countReference name
    pure (reference u id)
  | some ⟨_, _, _, none⟩ => throw (.includeCycle (path.cycle name))
  | some ⟨_, id, _, some u⟩ => do
    countReference name
    pure (reference u id)

/-- The code of a partial in place. -/
def inline (o : CompileOptions) (site : Site) (name src : Bytes) : Compile Code := do
  let tree ← parsePartial o name src
  inside name (tree.lower site)

/-- What an include in the file at the end of `path` stands for. -/
def expand (o : CompileOptions) (lib : Library) (path : IncludePath) (i : Inclusion) :
    Compile Code :=
  match h : lib.source? i.name with
  | none =>
    if i.optional then do
      debug "ignoring missing partial" [("partial", i.name), ("from", path.file)]
      pure Code.null
    else throw (.missingPartial i.name path.file i.pos)
  | some src =>
    if fresh : i.name ∈ path.partials then throw (.includeCycle (path.cycle i.name))
    else
      have := IncludePath.room_push_lt h fresh
      let site : Site := ⟨i.name, fun j => expand o lib (path.push i.name) j⟩
      if o.moduleMode then call o path site i.name src else inline o site i.name src
termination_by path.room lib

/-- The imports of a program: each unit that some unit imports, once. -/
def programImports (units : List CodeUnit) : List ImportRef :=
  (units.flatMap UnitOf.imports).foldl
    (fun refs r => if refs.any (·.unit == r.unit) then refs else refs ++ [r]) []

/-- The program of a root template. -/
def program (o : CompileOptions) (lib : Library) (src : Bytes) : Compile Program := do
  let tree ← match o.parse src with
    | .ok tree => pure tree
    | .error e => throw (.inFile o.file (.malformed e))
  let path : IncludePath := { root := o.file }
  let root ← unit o ⟨o.file, expand o lib path⟩ o.root tree
  let s ← get
  debug "compiled template" [("file", o.file), ("units", Bytes.decimal (s.units.length + 1)),
    ("nodes", Bytes.decimal s.located)]
  pure { root := some root, units := s.units, imports := programImports (s.units ++ [root]) }

end Compile

/-- Compiles a root template against a library of partials. The log comes with
the result, whether it is a program or an error. -/
def compile (o : CompileOptions) (lib : Library) (src : Bytes) :
    Except CompileError Program × List LogRecord :=
  let (result, s) := (Compile.program o lib src).run.run (Session.start o)
  (result, s.log)

end TemplateCompiler
