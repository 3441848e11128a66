import TemplateCompiler.Proofs.Code.Locations
import TemplateCompiler.Proofs.Compile.Refiling
import TemplateCompiler.Proofs.Compile.Scopes
import TemplateCompiler.Proofs.NamingScript.Logging

/-!
# What a program depends on

A compilation depends on its template, on the sources of its partials, and on
its options, but not on what is logged on the way, and on the names of files
only where it writes them down: options that are alike (`CompileOptions.Alike`)
make programs that are the same up to the names of files
(`compile_alike`).
-/

open List

namespace TemplateCompiler

/-! ## Walks -/

namespace Code

variable {g : Option Location → Option Location}

/-- What code mentions does not depend on its locations. -/
theorem occurrences_of_relocate {c d : Code} (same : c.relocate g = d.relocate g) (bound : List Bytes) :
    c.occurrences bound = d.occurrences bound := by
  rw [← occurrences_erase, erase_eq_of_relocate same, occurrences_erase]

theorem occurrencesAll_of_relocate {cs ds : List Code}
    (same : cs.map (relocate g) = ds.map (relocate g)) (bound : List Bytes) :
    occurrencesAll bound cs = occurrencesAll bound ds := by
  induction cs generalizing ds with
  | nil => rw [map_eq_nil_iff.1 same.symm]
  | cons c cs ih =>
    cases ds with
    | nil => cases same
    | cons d ds =>
      rw [map_cons, map_cons, List.cons.injEq] at same
      rw [occurrencesAll, occurrencesAll, occurrences_of_relocate same.1, ih same.2]

end Code

namespace Session

variable {ρ : Bytes → Bytes} {s t : Session}

theorem find?_refile (s : Session) (name : Bytes) :
    (s.refile ρ).find? name = (s.find? name).map (RegistryEntry.refile ρ) := by
  unfold find? refile
  rw [find?_map]
  rfl

/-- The entries of one partial in sessions that are alike. -/
theorem find?_alike (sessions : s.refile ρ = t.refile ρ) (name : Bytes) :
    (s.find? name).map (RegistryEntry.refile ρ) = (t.find? name).map (RegistryEntry.refile ρ) := by
  rw [← find?_refile, ← find?_refile, sessions]

theorem entryOfUnit?_refile (s : Session) (unit : Bytes) :
    (s.refile ρ).entryOfUnit? unit = (s.entryOfUnit? unit).map (RegistryEntry.refile ρ) := by
  unfold entryOfUnit? refile
  rw [find?_map]
  rfl

theorem updateEntry_refile {f f' : RegistryEntry → RegistryEntry} (s : Session) (name : Bytes)
    (commute : ∀ e, (f e).refile ρ = f' (e.refile ρ)) :
    (s.updateEntry name f).refile ρ = (s.refile ρ).updateEntry name f' := by
  unfold updateEntry refile
  simp only [map_map]
  congr 1
  refine map_congr_left fun e _ => ?_
  show RegistryEntry.refile ρ (if e.partialName == name then f e else e)
    = if e.partialName == name then f' (e.refile ρ) else e.refile ρ
  split
  · exact commute e
  · rfl

end Session

/-! ## Units -/

namespace CodeUnit

variable {ρ : Bytes → Bytes} {s t : Session} {u v : CodeUnit}

/-- The import that a piece of code asks for. -/
def callee? (s : Session) : Code → Option ImportRef
  | .identifier id =>
    if id.builtin then (s.entryOfUnit? id.name).map fun e => ⟨id.loc, e.unit, e.partialName⟩ else none
  | _ => none

theorem callees_eq (s : Session) (u : CodeUnit) :
    u.callees s = ((u.params ++ (u.statements ++ [u.body])).flatMap Code.preorder).filterMap
      (callee? s) := by
  have asked : u.callees s = (Code.function u).preorder.filterMap (callee? s) := by
    unfold callees callee?
    congr 1
  rw [asked, Code.preorder_eq _ rfl, filterMap_cons]
  rfl

theorem callee?_refile (s : Session) (c : Code) :
    callee? (s.refile ρ) (c.refile ρ) = (callee? s c).map (ImportRef.refile ρ) := by
  cases c with
  | identifier id =>
    show (if id.builtin then ((s.refile ρ).entryOfUnit? id.name).map _ else none)
      = (if id.builtin then (s.entryOfUnit? id.name).map _ else none).map _
    cases id.builtin with
    | false => rfl
    | true =>
      rw [if_pos rfl, if_pos rfl, Session.entryOfUnit?_refile, Option.map_map, Option.map_map]
      rfl
  | _ => rfl

/-- **The units that a unit calls**, under other file names. -/
theorem callees_refile (s : Session) (u : CodeUnit) :
    (u.callees s).map (ImportRef.refile ρ) = (u.refile ρ).callees (s.refile ρ) := by
  have parts : (u.refile ρ).params ++ ((u.refile ρ).statements ++ [(u.refile ρ).body])
      = (u.params ++ (u.statements ++ [u.body])).map (Code.refile ρ) := by
    simp [refile, Code.relocateAll_eq_map]
  rw [callees_eq, callees_eq, parts, map_filterMap, flatMap_map]
  generalize u.params ++ (u.statements ++ [u.body]) = cs
  have walk : cs.flatMap (fun c => (c.refile ρ).preorder)
      = (cs.flatMap Code.preorder).map (Code.refile ρ) := by
    rw [map_flatMap]
    exact flatMap_congr fun c _ => Code.preorder_relocate c
  rw [walk, filterMap_map]
  exact filterMap_congr fun c _ => (callee?_refile s c).symm

/-- **A closed draft**, under other file names. -/
theorem close_alike {o o' : CompileOptions} {refs refs' : List ImportRef}
    (reserved : o.reserved = o'.reserved) (drafts : u.refile ρ = v.refile ρ)
    (same : refs.map (ImportRef.refile ρ) = refs'.map (ImportRef.refile ρ)) :
    (u.close o refs).refile ρ = (v.close o' refs').refile ρ := by
  have statements : u.statements.map (Code.refile ρ)
      = v.statements.map (Code.refile ρ) := by
    rw [← Code.relocateAll_eq_map, ← Code.relocateAll_eq_map]
    exact congrArg UnitOf.statements drafts
  have scopes : Scope.ofUnit o.reserved u = Scope.ofUnit o'.reserved v := by
    unfold Scope.ofUnit
    rw [reserved, Code.occurrencesAll_of_relocate statements,
      Code.occurrences_of_relocate (congrArg UnitOf.body drafts)]
  have imports : (refs.foldl ImportRef.addTo u.imports).map (ImportRef.refile ρ)
      = (refs'.foldl ImportRef.addTo v.imports).map (ImportRef.refile ρ) := by
    have units (r : ImportRef) : (r.refile ρ).unit = r.unit := rfl
    rw [ImportRef.map_foldl_addTo units, ImportRef.map_foldl_addTo units, same]
    exact congrArg (List.foldl _ · _) (congrArg UnitOf.imports drafts)
  unfold close
  rw [foldl_addImport, foldl_addImport, scopes]
  simp only [refile, UnitOf.mk.injEq] at drafts ⊢
  obtain ⟨loc, name, source, -, -, statements, body, -⟩ := drafts
  exact ⟨loc, name, source, trivial, trivial, statements, body, imports⟩

end CodeUnit

namespace Compile

variable {ρ : Bytes → Bytes} {site site' : Site} {o o' : CompileOptions}

theorem Alike.get {α γ : Type} {view : α → γ} {f g : Session → Compile α}
    (next : ∀ s t, s.refile ρ = t.refile ρ → Alike ρ view (f s) (g t)) :
    Alike ρ view (MonadState.get >>= f) (MonadState.get >>= g) :=
  fun s t same => next s t same s t same

theorem lowerAssignment_alike (sites : site.Alike ρ site') (n : Node) :
    Alike ρ (List.map (Code.refile ρ)) (n.lowerAssignment site)
      (n.lowerAssignment site') := by
  cases n with
  | assign pos targets value body =>
    exact Node.assignments_alike sites
      (Node.assignedValue_alike (fun _ => Node.lower_alike sites value)
        fun _ => Node.lower_alike sites body)
      (Node.targets_alike sites targets)
  | _ => exact .pure rfl

/-- What of a draft does not depend on the names of files. -/
def draftView (ρ : Bytes → Bytes) (d : List Code × Code) : List Code × Code :=
  (d.1.map (Code.refile ρ), d.2.refile ρ)

theorem draft_alike (sites : site.Alike ρ site') (tree : Node) :
    Alike ρ (draftView ρ) (draft site tree) (draft site' tree) := by
  rcases hoisted : Node.hoist (Node.flatten tree.children) with ⟨sets, rest⟩
  rw [draft_eq site hoisted, draft_eq site' hoisted]
  refine (Alike.mapM fun n _ => lowerAssignment_alike sites n).bind fun css dss statements => ?_
  refine (Node.lowerParts_alike sites rest).bind fun parts parts' same => ?_
  refine (BodyPart.assemble_alike sites same).bind fun body body' bodies => .pure ?_
  have flat : css.flatten.map (Code.refile ρ)
      = dss.flatten.map (Code.refile ρ) := by
    rw [map_flatten, map_flatten]
    exact congrArg List.flatten statements
  exact Prod.ext flat bodies

/-- **Closing a draft.** -/
theorem close_alike (reserved : o.reserved = o'.reserved) {file file' : Bytes}
    (files : ρ file = ρ file') (name : Bytes) (pos : Position) {d d' : List Code × Code}
    (drafts : draftView ρ d = draftView ρ d') :
    Alike ρ (CodeUnit.refile ρ) (close o file name pos d) (close o' file' name pos d') := by
  have units : CodeUnit.refile ρ { name, source := file, statements := d.1, body := d.2 }
      = CodeUnit.refile ρ { name, source := file', statements := d'.1, body := d'.2 } := by
    have statements : Code.relocateAll (Location.refiled ρ) d.1
        = Code.relocateAll (Location.refiled ρ) d'.1 :=
      Code.relocateAll_alike (congrArg Prod.fst drafts)
    have bodies : d.2.refile ρ = d'.2.refile ρ :=
      congrArg Prod.snd drafts
    simp only [CodeUnit.refile, files, statements, bodies]
  refine .get fun s t sessions => ?_
  refine (Alike.locating fun n => CodeUnit.stamp_alike files pos
    (CodeUnit.close_alike reserved units ?_) n).bind fun u v made => ?_
  · rw [CodeUnit.callees_refile, CodeUnit.callees_refile, units, sessions]
  · exact (Alike.debug _ _ _ _).bind fun _ _ _ => .pure made

theorem unit_alike (reserved : o.reserved = o'.reserved) (sites : site.Alike ρ site') (name : Bytes)
    (tree : Node) :
    Alike ρ (CodeUnit.refile ρ) (unit o site name tree) (unit o' site' name tree) := by
  rw [unit_eq, unit_eq]
  exact (draft_alike sites tree).bind fun d d' drafts =>
    close_alike reserved sites.file name tree.pos drafts

end Compile

/-! ## Includes -/

/-- **Options of the same effect**, but for the log and for the name of the
root's file, which ρ takes for one. -/
structure CompileOptions.Alike (ρ : Bytes → Bytes) (o o' : CompileOptions) : Prop where
  moduleMode : o.moduleMode = o'.moduleMode
  reserved : o.reserved = o'.reserved
  naming : Naming.Same o.naming o'.naming
  rootName : o.rootName = o'.rootName
  parse : o.parse = o'.parse
  file : ρ o.file = ρ o'.file

namespace Compile

variable {ρ : Bytes → Bytes} {site site' : Site} {o o' : CompileOptions}

theorem Alike.modify {f g : Session → Session}
    (same : ∀ s t, s.refile ρ = t.refile ρ → (f s).refile ρ = (g t).refile ρ) :
    Alike ρ (id : Unit → Unit) (MonadState.modifyGet fun s => ((), f s))
      (MonadState.modifyGet fun s => ((), g s)) :=
  fun s t sessions => ⟨rfl, same s t sessions⟩

theorem parsePartial_alike (parse : o.parse = o'.parse) (name src : Bytes) :
    Alike ρ (fun tree : Node => tree) (parsePartial o name src) (parsePartial o' name src) := by
  unfold parsePartial
  rw [parse]
  cases o'.parse src with
  | error e => exact .throw _ _
  | ok tree => exact .pure rfl

theorem register_alike (naming : Naming.Same o.naming o'.naming) (name : Bytes) :
    Alike ρ (fun unit : Bytes => unit) (register o name) (register o' name) := by
  have step : Alike ρ (fun unit : Bytes => unit)
      (modifyGet fun s => (UnitName.allocate s.taken (o.naming name).1,
        { s with taken := UnitName.allocate s.taken (o.naming name).1 :: s.taken,
                 registry := s.registry ++ [⟨name, UnitName.allocate s.taken (o.naming name).1, 0, none⟩],
                 log := s.log ++ (o.naming name).2 }))
      (modifyGet fun s => (UnitName.allocate s.taken (o'.naming name).1,
        { s with taken := UnitName.allocate s.taken (o'.naming name).1 :: s.taken,
                 registry := s.registry ++ [⟨name, UnitName.allocate s.taken (o'.naming name).1, 0, none⟩],
                 log := s.log ++ (o'.naming name).2 })) := by
    rintro ⟨registry, taken, units, located, log⟩ ⟨registry', taken', units', located', log'⟩ sessions
    simp only [Session.refile, Session.mk.injEq, and_true] at sessions
    obtain ⟨entries, rfl, finished, rfl⟩ := sessions
    rw [naming name]
    refine ⟨rfl, ?_⟩
    simp only [Session.refile, map_append, entries, finished]
  exact step.bind fun unit unit' same => (Alike.debug _ _ _ _).bind fun _ _ _ => .pure same

theorem finish_alike (name : Bytes) {u v : CodeUnit} (same : u.refile ρ = v.refile ρ) :
    Alike ρ (id : Unit → Unit) (finish name u) (finish name v) := by
  refine .modify fun s t sessions => ?_
  have entries : ∀ (s : Session) (u : CodeUnit),
      (s.updateEntry name fun e => { e with code := some u }).refile ρ
        = (s.refile ρ).updateEntry name fun e => { e with code := some (u.refile ρ) } :=
    fun s u => s.updateEntry_refile name fun e => rfl
  have units : ∀ (s : Session) (u : CodeUnit),
      Session.refile ρ { s.updateEntry name fun e => { e with code := some u } with
        units := s.units ++ [u] }
      = { (s.updateEntry name fun e => { e with code := some u }).refile ρ with
        units := (s.refile ρ).units ++ [u.refile ρ] } :=
    fun s u => by simp only [Session.refile, map_append, map_cons, map_nil]
  rw [units, units, entries, entries, sessions, same]

theorem countReference_alike (name : Bytes) :
    Alike ρ (id : Unit → Unit) (countReference name) (countReference name) := by
  refine (Alike.modify fun s t sessions => ?_).bind fun _ _ _ => .get fun s t sessions => ?_
  · have counted : ∀ s : Session,
        (s.updateEntry name fun e => { e with references := e.references + 1 }).refile ρ
          = (s.refile ρ).updateEntry name fun e => { e with references := e.references + 1 } :=
      fun s => s.updateEntry_refile name fun _ => rfl
    rw [counted, counted, sessions]
  · -- Whatever is found is at most logged.
    have entries := Session.find?_alike sessions name
    rcases left : s.find? name with _ | e <;> rcases right : t.find? name with _ | e' <;>
      rw [left, right] at entries
    · exact .pure rfl
    · cases entries
    · cases entries
    · have counts : (e.refile ρ).references = (e'.refile ρ).references :=
        congrArg RegistryEntry.references (Option.some.inj entries)
      change e.references = e'.references at counts
      show Alike ρ _ (if e.references > 1 then _ else _) (if e'.references > 1 then _ else _)
      rw [counts]
      split
      · exact .debug _ _ _ _
      · exact .pure rfl

theorem reference_alike {u v : CodeUnit} (same : u.refile ρ = v.refile ρ) (unit : Bytes) :
    reference u unit = reference v unit := by
  have erased : ∀ u : CodeUnit, u.params.flatMap Code.passes
      = (Code.eraseAll (Code.relocateAll (Location.refiled ρ) u.params)).flatMap Code.passes := by
    intro u
    rw [Code.eraseAll_relocateAll, Code.eraseAll_eq_map, flatMap_map]
    exact congrArg (List.flatMap · _) (funext fun c => (Code.passes_erase c).symm)
  have params : Code.relocateAll (Location.refiled ρ) u.params
      = Code.relocateAll (Location.refiled ρ) v.params := congrArg UnitOf.params same
  rw [reference_eq, reference_eq, erased u, erased v, params]

theorem call_alike (options : o.Alike ρ o') (sites : site.Alike ρ site') (path path' : IncludePath)
    (name src : Bytes) :
    Alike ρ (Code.refile ρ) (call o path site name src)
      (call o' path' site' name src) := by
  refine .get fun s t sessions => ?_
  have entries := Session.find?_alike sessions name
  rcases left : s.find? name with _ | ⟨_, id, _, code⟩ <;>
    rcases right : t.find? name with _ | ⟨_, id', _, code'⟩ <;> rw [left, right] at entries
  · refine (parsePartial_alike options.parse name src).bind fun tree _ parsed => ?_
    cases parsed
    refine (register_alike options.naming name).bind fun id _ registered => ?_
    cases registered
    refine ((unit_alike options.reserved sites id tree).inside name name).bind fun u v made => ?_
    refine (finish_alike name made).bind fun _ _ _ => ?_
    refine (countReference_alike name).bind fun _ _ _ => .pure ?_
    rw [reference_alike made]
  · cases entries
  · cases entries
  · rw [Option.map_some, Option.map_some, Option.some.injEq] at entries
    simp only [RegistryEntry.refile, RegistryEntry.mk.injEq] at entries
    obtain ⟨-, rfl, -, codes⟩ := entries
    rcases code with _ | u <;> rcases code' with _ | v
    · exact .throw _ _
    · cases codes
    · cases codes
    · refine (countReference_alike name).bind fun _ _ _ => .pure ?_
      rw [reference_alike (Option.some.inj codes)]

theorem inline_alike (options : o.Alike ρ o') (sites : site.Alike ρ site') (name src : Bytes) :
    Alike ρ (Code.refile ρ) (inline o site name src)
      (inline o' site' name src) := by
  refine (parsePartial_alike options.parse name src).bind fun tree _ parsed => ?_
  cases parsed
  exact (Node.lower_alike sites tree).inside name name

/-- **Includes** of partials of the same sources. -/
theorem expand_alike (options : o.Alike ρ o') {lib lib' : Library}
    (sources : ∀ name, lib.source? name = lib'.source? name) {path path' : IncludePath}
    (paths : path.partials = path'.partials) (i : Inclusion) :
    Alike ρ (Code.refile ρ) (expand o lib path i) (expand o' lib' path' i) := by
  cases found : lib.source? i.name with
  | none =>
    rw [expand_missing found, expand_missing (sources i.name ▸ found)]
    cases i.optional with
    | false => exact .throw _ _
    | true => exact (Alike.debug _ _ _ _).bind fun _ _ _ => .pure rfl
  | some src =>
    have found' : lib'.source? i.name = some src := sources i.name ▸ found
    by_cases cycle : i.name ∈ path.partials
    · rw [expand_cycle found cycle, expand_cycle found' (paths ▸ cycle)]
      exact .throw _ _
    · have room := IncludePath.room_push_lt found cycle
      have deeper : (path.push i.name).partials = (path'.push i.name).partials :=
        congrArg (· ++ [i.name]) paths
      have sites : Site.Alike ρ ⟨i.name, expand o lib (path.push i.name)⟩
          ⟨i.name, expand o' lib' (path'.push i.name)⟩ :=
        ⟨rfl, fun j => expand_alike options sources deeper j⟩
      rw [expand_fresh found cycle, expand_fresh found' (paths ▸ cycle), options.moduleMode]
      split
      · exact call_alike options sites path path' i.name src
      · exact inline_alike options sites i.name src
termination_by path.room lib

/-! ## Programs -/

theorem programImports_refile (units : List CodeUnit) :
    (programImports units).map (ImportRef.refile ρ) = programImports (units.map (CodeUnit.refile ρ)) := by
  have flat : (units.map (CodeUnit.refile ρ)).flatMap UnitOf.imports
      = (units.flatMap UnitOf.imports).map (ImportRef.refile ρ) := by
    rw [flatMap_map, map_flatMap]
    rfl
  unfold programImports
  rw [flat]
  have keeps : ∀ r : ImportRef, (r.refile ρ).unit = r.unit := fun _ => rfl
  exact ImportRef.map_foldl_addTo keeps _ []

theorem program_alike (options : o.Alike ρ o') {lib lib' : Library}
    (sources : ∀ name, lib.source? name = lib'.source? name) (src : Bytes) :
    Alike ρ (Program.refile ρ) (program o lib src) (program o' lib' src) := by
  cases parsed : o.parse src with
  | error e =>
    rw [program_malformed parsed, program_malformed (options.parse ▸ parsed)]
    exact .throw _ _
  | ok tree =>
    have roots : o.root = o'.root := by
      unfold CompileOptions.root
      rw [options.rootName]
    have paths : ({ root := o.file } : IncludePath).partials
        = ({ root := o'.file } : IncludePath).partials := rfl
    have sites : (rootSite o lib).Alike ρ (rootSite o' lib') :=
      ⟨options.file, fun i => expand_alike options sources paths i⟩
    rw [program_eq parsed, program_eq (options.parse ▸ parsed), roots]
    refine (draft_alike sites tree).bind fun d d' drafts => ?_
    refine (close_alike options.reserved options.file o'.root tree.pos drafts).bind
      fun root root' made => .get fun s t sessions => ?_
    refine (Alike.debug _ _ _ _).bind fun _ _ _ => .pure ?_
    have units : s.units.map (CodeUnit.refile ρ) = t.units.map (CodeUnit.refile ρ) :=
      congrArg Session.units sessions
    simp only [Program.refile, Option.map_some, programImports_refile, map_append, units,
      map_cons, made, map_nil]

end Compile

/-- **A program depends on the template, the sources of the partials and the
options**: compilations that are alike fail together, or make programs that are
the same up to the names of files. -/
theorem compile_alike {ρ : Bytes → Bytes} {o o' : CompileOptions} (options : o.Alike ρ o')
    {lib lib' : Library} (sources : ∀ name, lib.source? name = lib'.source? name) (src : Bytes) :
    Option.map (Program.refile ρ) (compile o lib src).1.toOption
      = Option.map (Program.refile ρ) (compile o' lib' src).1.toOption := by
  have roots : o.root = o'.root := by
    unfold CompileOptions.root
    rw [options.rootName]
  have starts : (Session.start o).refile ρ = (Session.start o').refile ρ := by
    unfold Session.start
    rw [roots]
  have ends := Compile.program_alike options sources src _ _ starts
  rw [compile_fst, compile_fst]
  rcases left : (Compile.program o lib src).outcome (Session.start o) with ⟨e | p, s⟩ <;>
    rcases right : (Compile.program o' lib' src).outcome (Session.start o') with ⟨e' | q, t⟩ <;>
    rw [left, right] at ends
  · rfl
  · exact ends.elim
  · exact ends.elim
  · exact congrArg some ends.1

end TemplateCompiler
