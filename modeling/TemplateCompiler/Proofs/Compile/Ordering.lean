import TemplateCompiler.Proofs.Compile.Programs
import TemplateCompiler.Proofs.Compile.Tracing

/-!
# The order of units

A program with units for partials lists them in the order in which they are
finished. `PostOrder` describes that order from the templates alone: the
partials are walked depth first, along the includes of each source, and a
partial comes after those it includes. `Compile.expand_walks` follows a
compilation with it, one include at a time, and `compile_inOrder` says of whole
programs that their units come in this order and that each imports what its
source includes.
-/

open List

namespace TemplateCompiler

variable {refs : List ImportRef} {name : Bytes} {w : List Finished} {r : ImportRef}
  {s t : Session} {i : Inclusion} {tree : Node}

/-! ## Walking partials -/

/-- The partials that includes name, of those that the library has. -/
def partialsOf (lib : Library) (is : List Inclusion) : List Bytes :=
  (is.map Inclusion.name).filter fun name => (lib.source? name).isSome

/-- **The partials that a template includes**, in the order of its source. -/
def Node.partials (lib : Library) (n : Node) : List Bytes := partialsOf lib n.includes

theorem partialsOf_append (lib : Library) (is js : List Inclusion) :
    partialsOf lib (is ++ js) = partialsOf lib is ++ partialsOf lib js := by
  rw [partialsOf, map_append, filter_append]
  rfl

/-- The tree of a partial. -/
def Library.Reads (lib : Library) (name : Bytes) (tree : Node) : Prop :=
  ∃ src, lib.source? name = some src ∧ Template.parse src = .ok tree

theorem Library.Reads.unique {lib : Library} {tree tree' : Node}
    (reads : lib.Reads name tree) (reads' : lib.Reads name tree') : tree = tree' := by
  obtain ⟨src, found, parsed⟩ := reads
  obtain ⟨src', found', parsed'⟩ := reads'
  cases found.symm.trans found'
  exact Except.ok.inj (parsed.symm.trans parsed')

/-- **Depth-first post-order.** `PostOrder lib done names done'` says that the
walk over the partials `names`, begun when those of `done` have been listed,
ends with the list `done'`. A partial that is new is listed when the partials
it includes have been. -/
inductive PostOrder (lib : Library) : List Bytes → List Bytes → List Bytes → Prop where
  | nil {done : List Bytes} : PostOrder lib done [] done
  | skip {name : Bytes} {done names done' : List Bytes} (old : name ∈ done)
    (rest : PostOrder lib done names done') : PostOrder lib done (name :: names) done'
  | visit {name : Bytes} {tree : Node} {done mid names done' : List Bytes} (new : name ∉ done)
    (reads : lib.Reads name tree) (inner : PostOrder lib done (tree.partials lib) mid)
    (rest : PostOrder lib (mid ++ [name]) names done') : PostOrder lib done (name :: names) done'

/-- **The partials that can be reached** from a template through includes. -/
inductive Reaches (lib : Library) (root : Node) : Bytes → Prop where
  | direct {name : Bytes} (included : name ∈ root.partials lib) : Reaches lib root name
  | through {via name : Bytes} {tree : Node} (reached : Reaches lib root via)
    (reads : lib.Reads via tree) (included : name ∈ tree.partials lib) : Reaches lib root name

namespace PostOrder

variable {lib : Library} {done done' done'' names more : List Bytes}

theorem append (first : PostOrder lib done names done') (second : PostOrder lib done' more done'') :
    PostOrder lib done (names ++ more) done'' := by
  induction first with
  | nil => exact second
  | skip old _ ih => exact .skip old (ih second)
  | visit new reads inner _ _ ih => exact .visit new reads inner (ih second)

/-- The walk has one end. -/
theorem unique (walk : PostOrder lib done names done') (walk' : PostOrder lib done names done'') :
    done' = done'' := by
  induction walk generalizing done'' with
  | nil =>
    cases walk'
    rfl
  | skip old _ ih =>
    cases walk' with
    | skip _ rest => exact ih rest
    | visit new => exact absurd old new
  | visit new reads _ _ ihInner ihRest =>
    cases walk' with
    | skip old => exact absurd old new
    | visit _ reads' inner rest =>
      cases reads.unique reads'
      cases ihInner inner
      exact ihRest rest

/-- What has been listed stays listed. -/
theorem subset (walk : PostOrder lib done names done') : done ⊆ done' := by
  induction walk with
  | nil => exact List.Subset.refl _
  | skip _ _ ih => exact ih
  | visit _ _ _ _ ihInner ihRest =>
    exact fun name mem => ihRest (mem_append_left _ (ihInner mem))

/-- The walk lists nothing that it does not reach. -/
theorem reaches {root : Node} (walk : PostOrder lib done names done')
    (listed : ∀ name ∈ done, Reaches lib root name)
    (asked : ∀ name ∈ names, Reaches lib root name) : ∀ name ∈ done', Reaches lib root name := by
  induction walk with
  | nil => exact listed
  | skip _ _ ih => exact ih listed (forall_mem_cons.1 asked).2
  | visit new reads _ _ ihInner ihRest =>
    obtain ⟨here, others⟩ := forall_mem_cons.1 asked
    refine ihRest (forall_mem_append.2 ⟨?_, forall_mem_singleton.2 here⟩) others
    exact ihInner listed fun name mem => .through here reads mem

/-- A list of partials that includes do not lead out of. -/
def Complete (lib : Library) (done : List Bytes) : Prop :=
  ∀ name ∈ done, ∀ tree, lib.Reads name tree → tree.partials lib ⊆ done

/-- The walk lists what it is asked for and everything that this includes. -/
theorem complete (walk : PostOrder lib done names done') (whole : Complete lib done) :
    names ⊆ done' ∧ Complete lib done' := by
  induction walk with
  | nil => exact ⟨nil_subset _, whole⟩
  | skip old rest ih =>
    obtain ⟨asked, whole'⟩ := ih whole
    exact ⟨cons_subset.2 ⟨rest.subset old, asked⟩, whole'⟩
  | @visit name tree done mid names done' new reads inner rest ihInner ihRest =>
    obtain ⟨included, wholeInner⟩ := ihInner whole
    have closed : Complete lib (mid ++ [name]) := by
      intro other mem tree' reads' child inside
      refine mem_append_left _ ?_
      rcases mem_append.1 mem with old | here
      · exact wholeInner other old tree' reads' inside
      · cases mem_singleton.1 here
        cases reads.unique reads'
        exact included inside
    obtain ⟨asked, whole'⟩ := ihRest closed
    have listed : name ∈ done' := rest.subset (mem_append_right _ (mem_singleton_self _))
    exact ⟨cons_subset.2 ⟨listed, asked⟩, whole'⟩

/-- **A walk from the root lists exactly what can be reached.** -/
theorem mem_iff {root : Node} (walk : PostOrder lib [] (root.partials lib) done) :
    name ∈ done ↔ Reaches lib root name := by
  constructor
  · exact walk.reaches (forall_mem_nil _) (fun _ mem => .direct mem) name
  · intro reached
    obtain ⟨asked, whole⟩ := walk.complete fun _ mem => nomatch mem
    induction reached with
    | direct included => exact asked included
    | through _ reads included ih => exact whole _ ih _ reads included

end PostOrder

/-! ## Imports -/

namespace ImportRef

theorem addTo_of_mem (old : r.unit ∈ refs.map unit) :
    addTo refs r = refs := by
  rw [addTo, if_pos]
  simpa using old

theorem addTo_of_not_mem (new : r.unit ∉ refs.map unit) :
    addTo refs r = refs ++ [r] := by
  rw [addTo, if_neg]
  simpa using new

/-- Only what is called is imported. -/
theorem called_of_imported (mem : r ∈ refs.foldl addTo []) : r ∈ refs :=
  (mem_of_mem_foldl mem).resolve_left not_mem_nil

/-- Every unit that is called is imported. -/
theorem imported_iff_called :
    name ∈ (refs.foldl addTo []).map unit ↔ name ∈ refs.map unit :=
  (units_foldl refs [] name).trans (or_iff_right not_mem_nil)

/-- No unit is imported twice. -/
theorem nodup_foldl (refs : List ImportRef) : ((refs.foldl addTo []).map unit).Nodup := by
  induction refs using List.reverseRecOn with
  | nil => exact nodup_nil
  | append_singleton refs last ih =>
    rw [foldl_append, foldl_cons, foldl_nil]
    by_cases old : last.unit ∈ (refs.foldl addTo []).map unit
    · rw [addTo_of_mem old]
      exact ih
    · rw [addTo_of_not_mem old, map_append, nodup_append_comm]
      exact nodup_cons.2 ⟨old, ih⟩

/-- **Imports come in the order of the first calls**, once each. -/
theorem map_source_foldl
    (agree : ∀ r ∈ refs, ∀ r' ∈ refs, r.unit = r'.unit ↔ r.source = r'.source) :
    (refs.foldl addTo []).map source = (refs.map source).eraseDups := by
  induction refs using List.reverseRecOn with
  | nil => rfl
  | append_singleton refs last ih =>
    have before := ih fun r mem r' mem' =>
      agree r (mem_append_left _ mem) r' (mem_append_left _ mem')
    have same : last.unit ∈ refs.map unit ↔ last.source ∈ refs.map source := by
      simp only [mem_map]
      refine exists_congr fun r => and_congr_right fun mem => ?_
      exact agree r (mem_append_left _ mem) last (by simp)
    rw [foldl_append, foldl_cons, foldl_nil, map_append, map_singleton, eraseDups_concat, ← before]
    by_cases old : last.source ∈ refs.map source
    · rw [addTo_of_mem (imported_iff_called.2 (same.2 old)), if_pos (by simpa using old)]
    · rw [addTo_of_not_mem fun mem => old (same.1 (imported_iff_called.1 mem)), map_append,
        if_neg (by simpa using old)]
      rfl

end ImportRef

/-! ## A compilation as a walk -/

/-- The finished units, the first one first. -/
def unitsOf (w : List Finished) : List CodeUnit := (w.map Finished.unit).reverse

/-- The finished partials, the first one first. -/
def sources (w : List Finished) : List Bytes := (unitsOf w).map (·.source)

theorem mem_unitsOf {u : CodeUnit} :
    u ∈ unitsOf w ↔ ∃ f ∈ w, f.unit = u := by
  rw [unitsOf, mem_reverse, mem_map]

theorem mem_sources :
    name ∈ sources w ↔ ∃ f ∈ w, f.unit.source = name := by
  simp [sources, mem_unitsOf]

/-- **The finished partials that code calls**: `names` are the units of the
partials that the includes `is` name. -/
def Called (lib : Library) (w : List Finished) (is : List Inclusion) (names : List Bytes) : Prop :=
  ∃ fs, fs ⊆ w ∧ fs.map (·.unit.source) = partialsOf lib is ∧ fs.map (·.unit.name) = names

/-- **A unit imports what its template includes**, each partial once and in
the order of the first includes. The imports are units of `earlier`. -/
structure CodeUnit.Imports (lib : Library) (earlier : List CodeUnit) (tree : Node)
    (u : CodeUnit) : Prop where
  sources : u.imports.map (·.source) = (tree.partials lib).eraseDups
  units : ∀ r ∈ u.imports, ∃ v ∈ earlier, v.name = r.unit ∧ v.source = r.source

/-- Finished partials, each with its imports before it. -/
inductive Imported (lib : Library) : List Finished → Prop where
  | nil : Imported lib []
  | cons {f : Finished} {w : List Finished} (earlier : Imported lib w)
    (reads : lib.Reads f.unit.source f.tree) (imports : f.unit.Imports lib (unitsOf w) f.tree) :
    Imported lib (f :: w)

/-- Each unit imports units that come before it. -/
theorem Imported.imports {lib : Library} (imported : Imported lib w)
    (before : List CodeUnit) (u : CodeUnit) (after : List CodeUnit)
    (split : unitsOf w = before ++ u :: after) :
    ∃ tree, lib.Reads u.source tree ∧ u.Imports lib before tree := by
  have reversed : w.map Finished.unit = after.reverse ++ u :: before.reverse := by
    rw [← reverse_reverse (w.map _), ← unitsOf, split]
    simp
  clear split
  generalize after.reverse = later at reversed
  induction imported generalizing later with
  | nil => simp at reversed
  | @cons f w _ reads imports ih =>
    cases later with
    | nil =>
      obtain ⟨rfl, same⟩ := List.cons.inj reversed
      refine ⟨f.tree, reads, ?_⟩
      rw [unitsOf, same, reverse_reverse] at imports
      exact imports
    | cons last later => exact ih later (List.cons.inj reversed).2

section

variable {o : CompileOptions} {lib : Library} {compiling : List (Bytes × Bytes)}
  {v w : List Finished} {is js : List Inclusion} {t : Session}

namespace Called

theorem mono {names : List Bytes} (called : Called lib v is names) (later : v <:+ w) :
    Called lib w is names := by
  obtain ⟨fs, inside, rest⟩ := called
  exact ⟨fs, fun f mem => later.mem (inside mem), rest⟩

theorem nil : Called lib w [] [] := ⟨[], nil_subset _, rfl, rfl⟩

theorem append {names more : List Bytes} (first : Called lib w is names)
    (second : Called lib w js more) : Called lib w (is ++ js) (names ++ more) := by
  obtain ⟨fs, inside, sources, rfl⟩ := first
  obtain ⟨gs, inside', sources', rfl⟩ := second
  refine ⟨fs ++ gs, append_subset.2 ⟨inside, inside'⟩, ?_, map_append⟩
  rw [map_append, sources, sources', partialsOf_append]

end Called

/-- Code that calls finished units knows nothing else but globals. -/
theorem Called.knows {names : List Identifier}
    (called : Called lib w is (names.filterMap Identifier.unit?)) :
    ∀ id ∈ names, id.builtin = true → KnownName w id.name := by
  intro id mem builtin
  obtain ⟨fs, inside, -, same⟩ := called
  cases known : Script.isBuiltin id.name with
  | true => exact .inl known
  | false =>
    have unit : id.unit? = some id.name := by simp [Identifier.unit?, builtin, known]
    have named : id.name ∈ fs.map (·.unit.name) := same ▸ mem_filterMap.2 ⟨id, mem, unit⟩
    obtain ⟨f, here, same⟩ := mem_map.1 named
    exact .inr ⟨f, inside here, same⟩

/-- A finished unit is found by its name. -/
theorem Session.Tracks.find?_unit (tracks : t.Tracks o compiling w) {f : Finished} (mem : f ∈ w) :
    w.find? (·.unit.name == f.unit.name) = some f := by
  have distinct := (nodup_append.1 tracks.names).1
  cases found : w.find? (·.unit.name == f.unit.name) with
  | none => exact absurd (find?_eq_none.1 found f mem) (by simp)
  | some g =>
    have same : g.unit.name = f.unit.name := by simpa using find?_some found
    rw [inj_on_of_nodup_map distinct (mem_of_find?_eq_some found) mem same]

/-- No global of the script is a unit. -/
theorem Session.Tracks.find?_builtin (tracks : t.Tracks o compiling w)
    (builtin : Script.isBuiltin name = true) : w.find? (·.unit.name == name) = none := by
  refine find?_eq_none.2 fun f mem => ?_
  have fit := (tracks.taken f.unit.name
    (mem_append_left _ (mem_map.2 ⟨f, mem, rfl⟩))).2.1
  rw [beq_iff_eq]
  rintro rfl
  rw [builtin] at fit
  cases fit

/-- **The units that a draft calls**, found by their names. -/
theorem Session.Tracks.called_eq (tracks : t.Tracks o compiling w) {u : CodeUnit}
    {fs : List Finished} (inside : fs ⊆ w)
    (calls : fs.map (·.unit.name) = Code.callsAll u.statements ++ u.body.calls) :
    u.called w = fs.map Finished.ref := by
  have named : u.called w = (Code.callsAll u.statements ++ u.body.calls).filterMap fun name =>
      (w.find? (·.unit.name == name)).map Finished.ref := by
    rw [CodeUnit.called, Code.callsAll_eq, Code.calls, ← filterMap_append,
      filterMap_filterMap]
    refine filterMap_congr fun id _ => ?_
    cases builtin : id.builtin with
    | false => simp [Identifier.unit?, builtin]
    | true =>
      cases known : Script.isBuiltin id.name with
      | true => simp [Identifier.unit?, builtin, known, tracks.find?_builtin known]
      | false => simp [Identifier.unit?, builtin, known]
  rw [named, ← calls, filterMap_map, ← filterMap_eq_map]
  refine filterMap_congr fun f mem => ?_
  show (w.find? (·.unit.name == f.unit.name)).map Finished.ref = _
  rw [tracks.find?_unit (inside mem)]
  rfl

/-- **Closing a draft** imports the partials that its template includes. -/
theorem CodeUnit.Imports.of_close {u draft : CodeUnit}
    (tracks : t.Tracks o compiling w) (closed : u.Closes o (draft.callees t) draft)
    (params : draft.params = []) (imports : draft.imports = [])
    (called : Called lib w tree.includes (Code.callsAll draft.statements ++ draft.body.calls)) :
    u.Imports lib (unitsOf w) tree := by
  have units : Called lib w tree.includes
      ((Code.namesAll draft.statements ++ draft.body.names).filterMap Identifier.unit?) := by
    rw [filterMap_append, ← Code.callsAll_eq]
    exact called
  have knows := units.knows
  have refs := tracks.callees_eq params
    (Code.knows_all.1 fun id mem => knows id (mem_append_left _ mem))
    fun id mem => knows id (mem_append_right _ mem)
  obtain ⟨fs, inside, sources, calls⟩ := called
  have made : u.imports.map ImportRef.erase = (fs.map Finished.ref).foldl ImportRef.addTo [] := by
    rw [closed.imports, refs, imports, tracks.called_eq inside calls]
    rfl
  constructor
  · have agree : ∀ r ∈ fs.map Finished.ref, ∀ r' ∈ fs.map Finished.ref,
        r.unit = r'.unit ↔ r.source = r'.source := by
      intro r mem r' mem'
      obtain ⟨f, here, rfl⟩ := mem_map.1 mem
      obtain ⟨g, there, rfl⟩ := mem_map.1 mem'
      have names := (nodup_append.1 tracks.names).1
      have partials := (nodup_append.1 tracks.partials).1
      constructor
      · exact fun same => congrArg (·.unit.source)
          (inj_on_of_nodup_map names (inside here) (inside there) same)
      · exact fun same => congrArg (·.unit.name)
          (inj_on_of_nodup_map partials (inside here) (inside there) same)
    calc u.imports.map (·.source)
        = (u.imports.map ImportRef.erase).map (·.source) := by rw [map_map]; rfl
      _ = ((fs.map Finished.ref).map (·.source)).eraseDups := by
          rw [made, ImportRef.map_source_foldl agree]
      _ = (tree.partials lib).eraseDups := by rw [map_map, Node.partials, ← sources]; rfl
  · intro r mem
    have erased : r.erase ∈ (fs.map Finished.ref).foldl ImportRef.addTo [] :=
      made ▸ mem_map_of_mem mem
    obtain ⟨f, here, same⟩ := mem_map.1 (ImportRef.called_of_imported erased)
    exact ⟨f.unit, mem_unitsOf.2 ⟨f, inside here, rfl⟩, congrArg ImportRef.unit same,
      congrArg ImportRef.source same⟩

/-- A call of a unit calls that unit and nothing else. -/
theorem Compile.calls_reference (u : CodeUnit) {unit : Bytes}
    (other : Script.isBuiltin unit = false) : (reference u unit).calls = [unit] := by
  have called : Identifier.unit? { name := unit, builtin := true } = some unit := by
    simp [Identifier.unit?, other]
  have inputs {props : List (Bytes × Code)} (plain : ∀ p ∈ props, p.2.calls = []) :
      Code.callsAll [.object none props, .ident Script.filterNamespace] = [] := by
    have object : (Code.object none props).calls = [] := by
      rw [Code.calls, Code.names_object, ← Code.callsAll_eq]
      exact flatMap_eq_nil_iff.2 (forall_mem_map.2 plain)
    rw [Code.callsAll, flatMap_cons, object]
    rfl
  rw [reference, Code.calls, Code.names_call, filterMap_append, ← Code.callsAll_eq, inputs]
  · simp [called]
  · intro p mem
    obtain ⟨param, -, mem⟩ := mem_flatMap.1 mem
    cases param with
    | destructure d =>
      obtain ⟨b, -, rfl⟩ := mem_map.1 mem
      rfl
    | _ => cases mem

/-- **How far a compilation has come** when it has run the includes `is`: from
the finished partials `v` it got to those of `w`. -/
structure Advances (o : CompileOptions) (lib : Library) (compiling : List (Bytes × Bytes))
    (is : List Inclusion) (v w : List Finished) (t : Session) : Prop where
  later : v <:+ w
  imported : Imported lib w
  tracks : t.Tracks o compiling w
  order : PostOrder lib (sources v) (partialsOf lib is) (sources w)

/-- What is known of the includes at a site: each is a step of the walk. -/
def Site.Walks (o : CompileOptions) (lib : Library) (compiling : List (Bytes × Bytes))
    (site : Site) : Prop :=
  ∀ i v s c t, Imported lib v → s.Tracks o compiling v →
    (site.expand i).outcome s = (.ok c, t) →
      ∃ w, Advances o lib compiling [i] v w t ∧ Called lib w [i] c.calls

/-- **Includes one after the other** are a walk. -/
theorem Site.Walks.runs {site : Site} (walks : site.Walks o lib compiling)
    {l : List (Inclusion × Code)} (runs : site.Runs s l t) (v : List Finished)
    (imported : Imported lib v) (tracks : s.Tracks o compiling v) :
    ∃ w, Advances o lib compiling (l.map Prod.fst) v w t
      ∧ Called lib w (l.map Prod.fst) (l.flatMap fun e => e.2.calls) := by
  induction runs generalizing v with
  | done same => exact ⟨v, ⟨suffix_rfl, imported, tracks.of_same same, .nil⟩, .nil⟩
  | next same run _ ih =>
    obtain ⟨v', first, called⟩ := walks _ v _ _ _ imported (tracks.of_same same) run
    obtain ⟨w, rest, others⟩ := ih v' first.imported first.tracks
    refine ⟨w, ⟨first.later.trans rest.later, rest.imported, rest.tracks, ?_⟩, ?_⟩
    · rw [map_cons, ← singleton_append, partialsOf_append]
      exact first.order.append rest.order
    · rw [map_cons, ← singleton_append, flatMap_cons]
      exact (called.mono rest.later).append others

/-- **Drafting a template** walks over the partials it includes. -/
theorem Site.Walks.draft {site : Site} (walks : site.Walks o lib compiling)
    (parsed : tree.IsParsed) {v : List Finished} (imported : Imported lib v)
    (tracks : s.Tracks o compiling v) {d : List Code × Code}
    (run : (Compile.draft site tree).outcome s = (.ok d, t)) :
    ∃ w, Advances o lib compiling tree.includes v w t
      ∧ Called lib w tree.includes (Code.callsAll d.1 ++ d.2.calls) := by
  obtain ⟨l, runs, same, calls⟩ := Node.draft_traces parsed s d t run
  rw [calls, ← same]
  exact walks.runs runs v imported tracks

theorem partialsOf_of_missing (missing : lib.source? i.name = none) :
    partialsOf lib [i] = [] := by
  simp [partialsOf, missing]

theorem partialsOf_of_found {src : Bytes} (found : lib.source? i.name = some src) :
    partialsOf lib [i] = [i.name] := by
  simp [partialsOf, found]

/-- **A partial that is met for the first time** is listed after those that it
includes. -/
theorem Compile.new_advances {path : IncludePath} {src : Bytes}
    (found : lib.source? i.name = some src) (parsed : Template.parse src = .ok tree)
    {v : List Finished} {c : Code} (imported : Imported lib v)
    (tracks : s.Tracks o compiling v) (unknown : s.find? i.name = none)
    (walks : ∀ id, Site.Walks o lib (compiling ++ [(i.name, id)])
      ⟨i.name, expand o lib (path.push i.name)⟩)
    (run : (enroll o ⟨i.name, expand o lib (path.push i.name)⟩ tree).outcome s = (.ok c, t)) :
    ∃ w, Advances o lib compiling [i] v w t ∧ Called lib w [i] c.calls := by
  have new : i.name ∉ sources v := fun mem =>
    tracks.new_of_find? unknown (mem_append_left _ (mem_map.2 (mem_sources.1 mem)))
  have reads : lib.Reads i.name tree := ⟨src, found, parsed⟩
  obtain ⟨id, s₁, tracks₁, fails, succeeds⟩ :=
    tracks.enroll ⟨i.name, expand o lib (path.push i.name)⟩ unknown tree
  rcases drafted : (draft ⟨i.name, expand o lib (path.push i.name)⟩ tree).outcome s₁
    with ⟨e | d, s₂⟩
  · cases (fails _ _ drafted).symm.trans run
  · obtain ⟨w, inner, called⟩ := (walks id).draft (isParsed_of_parse parsed) imported tracks₁
      drafted
    -- The code of the partial in place plays no part here.
    obtain ⟨u, s₃, made, closed, tracks₃⟩ := succeeds d s₂ w .missing drafted inner.tracks
    cases made.symm.trans run
    have imports : u.Imports lib (unitsOf w) tree := .of_close inner.tracks closed rfl rfl called
    have name : u.name = id := closed.name
    have source : u.source = i.name := closed.source
    refine ⟨⟨tree, u, .missing⟩ :: w, ⟨inner.later.trans (suffix_cons _ _),
      .cons inner.imported (source ▸ reads) imports, tracks₃, ?_⟩, ?_⟩
    · rw [partialsOf_of_found found]
      refine .visit new reads inner.order ?_
      rw [show sources (⟨tree, u, .missing⟩ :: w) = sources w ++ [i.name] by
        simp [sources, unitsOf, source]]
      exact .nil
    · refine ⟨[⟨tree, u, .missing⟩], by simp, ?_, ?_⟩
      · rw [partialsOf_of_found found, ← source]
        rfl
      · rw [calls_reference, ← name]
        · rfl
        · exact (inner.tracks.taken id (by simp)).2.1

/-- **Every include of a compilation is a step of the walk.** -/
theorem Compile.expand_walks (modules : o.moduleMode = true) (reader : o.parse = Template.parse)
    {compiling : List (Bytes × Bytes)} {path : IncludePath}
    (on : path.partials = compiling.map Prod.fst) (file : Bytes) :
    Site.Walks o lib compiling ⟨file, expand o lib path⟩ := by
  intro i v s c t imported tracks run
  change (expand o lib path i).outcome s = (.ok c, t) at run
  cases found : lib.source? i.name with
  | none =>
    rw [expand_missing found] at run
    cases optional : i.optional with
    | false =>
      rw [optional] at run
      cases run
    | true =>
      rw [optional] at run
      cases run
      refine ⟨v, ⟨suffix_rfl, imported, tracks.of_same ⟨rfl, rfl, rfl⟩, ?_⟩, [], ?_⟩
      · rw [partialsOf_of_missing found]
        exact .nil
      · exact ⟨nil_subset _, (partialsOf_of_missing found).symm, rfl⟩
  | some src =>
    by_cases cycle : i.name ∈ path.partials
    · rw [expand_cycle found cycle] at run
      cases run
    · rw [expand_fresh found cycle, if_pos modules] at run
      cases met : s.find? i.name with
      | none =>
        rw [outcome_call_new met, parsePartial, reader] at run
        cases parsed : Template.parse src with
        | error e =>
          rw [parsed] at run
          cases run
        | ok tree =>
          rw [parsed] at run
          refine new_advances found parsed imported tracks met (fun id => ?_) run
          have room := IncludePath.room_push_lt found cycle
          exact expand_walks modules reader (by simp [IncludePath.push, on]) i.name
      | some e =>
        obtain ⟨f, mem, source, code, named⟩ := tracks.finished_of_find? met (on ▸ cycle)
        obtain ⟨s', counted, tracks'⟩ := tracks.countReference i.name
        rw [outcome_call_known met code, named, outcome_bind_ok counted] at run
        cases run
        refine ⟨v, ⟨suffix_rfl, imported, tracks', ?_⟩, [f], by simpa using mem, ?_, ?_⟩
        · rw [partialsOf_of_found found]
          exact .skip (mem_sources.2 ⟨f, mem, source⟩) .nil
        · rw [partialsOf_of_found found, ← source]
          rfl
        · rw [calls_reference]
          · rfl
          · exact (tracks.taken _ (mem_append_left _ (mem_map.2 ⟨f, mem, rfl⟩))).2.1
termination_by path.room lib

end

/-! ## Programs -/

/-- **A program in dependency order.** The template `tree` of its root reaches
some partials, and their units come in post-order. Each unit imports what its
template includes, from among the units before it. -/
structure Program.InOrder (lib : Library) (tree : Node) (root : CodeUnit) (p : Program) :
    Prop where
  order : ∀ names, PostOrder lib [] (tree.partials lib) names ↔ names = p.units.map (·.source)
  once : (p.units.map (·.source)).Nodup
  names : (p.units.map (·.name)).Nodup
  reached : ∀ name, name ∈ p.units.map (·.source) ↔ Reaches lib tree name
  imports : ∀ before u after, p.units = before ++ u :: after →
    ∃ t, lib.Reads u.source t ∧ u.Imports lib before t
  root : root.Imports lib p.units tree
  whole : (p.imports.map fun r => (r.unit, r.source)).Perm
    (p.units.map fun u => (u.name, u.source))

section

variable {lib : Library} {tree : Node} {root : CodeUnit} {units : List CodeUnit}

/-- **A program imports each of its units once**, if they can all be reached
and each imports what its template includes. -/
theorem perm_programImports (once : (units.map (·.source)).Nodup)
    (names : (units.map (·.name)).Nodup)
    (reached : ∀ name, name ∈ units.map (·.source) ↔ Reaches lib tree name)
    (imports : ∀ before u after, units = before ++ u :: after →
      ∃ t, lib.Reads u.source t ∧ u.Imports lib before t)
    (rootImports : root.Imports lib units tree) :
    ((Compile.programImports (units ++ [root])).map fun r => (r.unit, r.source)).Perm
      (units.map fun u => (u.name, u.source)) := by
  have every : Compile.programImports (units ++ [root])
      = ((units ++ [root]).flatMap UnitOf.imports).foldl ImportRef.addTo [] := rfl
  -- Every import is that of a unit, and every unit has an import.
  have known : ∀ r ∈ (units ++ [root]).flatMap UnitOf.imports,
      ∃ v ∈ units, v.name = r.unit ∧ v.source = r.source := by
    intro r mem
    obtain ⟨u, inside, mem⟩ := mem_flatMap.1 mem
    rcases mem_append.1 inside with inside | here
    · obtain ⟨before, after, split⟩ := append_of_mem inside
      obtain ⟨t, -, imported⟩ := imports before u after split
      obtain ⟨v, earlier, same⟩ := imported.units r mem
      exact ⟨v, split ▸ mem_append_left _ earlier, same⟩
    · cases mem_singleton.1 here
      exact rootImports.units r mem
  have used : ∀ u ∈ units,
      u.source ∈ ((units ++ [root]).flatMap UnitOf.imports).map (·.source) := by
    intro u mem
    have taken {v : CodeUnit} {t : Node} {earlier : List CodeUnit} (here : v ∈ units ++ [root])
        (imported : v.Imports lib earlier t) (included : u.source ∈ t.partials lib) :
        u.source ∈ ((units ++ [root]).flatMap UnitOf.imports).map (·.source) := by
      rw [← mem_eraseDups, ← imported.sources] at included
      obtain ⟨r, inside, same⟩ := mem_map.1 included
      exact mem_map.2 ⟨r, mem_flatMap.2 ⟨v, here, inside⟩, same⟩
    cases (reached u.source).1 (mem_map.2 ⟨u, mem, rfl⟩) with
    | direct included =>
      exact taken (mem_append_right _ (mem_singleton_self root)) rootImports included
    | @through via _ t from_ reads included =>
      obtain ⟨v, inside, rfl⟩ := mem_map.1 ((reached via).2 from_)
      obtain ⟨before, after, split⟩ := append_of_mem inside
      obtain ⟨t', reads', imported⟩ := imports before v after split
      cases reads.unique reads'
      exact taken (mem_append_left _ inside) imported included
  have byName {u v : CodeUnit} (here : u ∈ units) (there : v ∈ units)
      (same : u.name = v.name) : u = v := inj_on_of_nodup_map names here there same
  have bySource {u v : CodeUnit} (here : u ∈ units) (there : v ∈ units)
      (same : u.source = v.source) : u = v := inj_on_of_nodup_map once here there same
  rw [every, perm_ext_iff_of_nodup]
  · rintro ⟨name, source⟩
    simp only [mem_map, Prod.mk.injEq]
    constructor
    · rintro ⟨r, mem, rfl, rfl⟩
      exact known r (ImportRef.called_of_imported mem)
    · rintro ⟨u, mem, rfl, rfl⟩
      obtain ⟨r, inside, same⟩ := mem_map.1 (used u mem)
      obtain ⟨v, here, unit, source⟩ := known r inside
      cases bySource here mem (source.trans same)
      have imported : u.name ∈ (((units ++ [root]).flatMap UnitOf.imports).foldl
          ImportRef.addTo []).map ImportRef.unit :=
        ImportRef.imported_iff_called.2 (mem_map.2 ⟨r, inside, unit.symm⟩)
      obtain ⟨r', mem', unit'⟩ := mem_map.1 imported
      obtain ⟨v, here, name, source'⟩ := known r' (ImportRef.called_of_imported mem')
      cases byName here mem (name.trans unit')
      exact ⟨r', mem', unit', source'.symm⟩
  · refine List.Nodup.of_map Prod.fst ?_
    rw [map_map]
    exact ImportRef.nodup_foldl _
  · refine List.Nodup.of_map Prod.fst ?_
    rw [map_map]
    exact names

end

/-- **Programs with units for partials are in dependency order**, with exact
imports. -/
theorem compile_inOrder {o : CompileOptions} {lib : Library} {src : Bytes} {p : Program}
    (compiles : (compile { o with moduleMode := true, parse := Template.parse } lib src).1
      = .ok p) :
    ∃ tree root, Template.parse src = .ok tree ∧ p.root = some root ∧ p.InOrder lib tree root := by
  generalize same : { o with moduleMode := true, parse := Template.parse } = o' at compiles
  have modules : o'.moduleMode = true := by rw [← same]
  have reader : o'.parse = Template.parse := by rw [← same]
  obtain ⟨tree, d, t, root, parsed, run, rfl, closed⟩ := Compile.closes_of_compile compiles
  rw [reader] at parsed
  have walks : Site.Walks o' lib [] (Compile.rootSite o' lib) :=
    Compile.expand_walks modules reader rfl o'.file
  obtain ⟨w, advances, called⟩ := walks.draft (isParsed_of_parse parsed) .nil (.start o') run
  have units : t.units = unitsOf w := advances.tracks.units
  have walk : PostOrder lib [] (tree.partials lib) (sources w) := advances.order
  have once : (sources w).Nodup := by
    rw [sources, unitsOf, List.map_reverse, List.nodup_reverse, List.map_map]
    exact (List.nodup_append.1 advances.tracks.partials).1
  have names : ((unitsOf w).map (·.name)).Nodup := by
    rw [unitsOf, List.map_reverse, List.nodup_reverse, List.map_map]
    exact (List.nodup_append.1 advances.tracks.names).1
  have rootImports : root.Imports lib (unitsOf w) tree :=
    .of_close advances.tracks closed rfl rfl called
  have imports := advances.imported.imports
  refine ⟨tree, root, parsed, rfl, ?_⟩
  rw [units]
  refine ⟨fun names => ⟨fun other => other.unique walk, fun same => same ▸ walk⟩, once, names,
    fun _ => walk.mem_iff, imports, rootImports, ?_⟩
  exact perm_programImports once names (fun _ => walk.mem_iff) imports rootImports

section

/-- A library whose partials share one. -/
private def menus : Library :=
  ⟨[("layout", "\x7b% include \"head\" %\x7d\x7b% include \"nav\" %\x7d"),
    ("nav", "\x7b% for a in b %\x7d\x7b% include \"link\" %\x7d\x7b% endfor %\x7d"),
    ("link", "\x7b\x7b a \x7d\x7d"), ("head", "h")]⟩

/-- A template that includes one partial twice, and a missing one. -/
private def menu : Bytes :=
  "\x7b% include \"nav\" %\x7d\x7b% include \"gone\" ignore missing %\x7d"
    ++ "\x7b% include \"layout\" %\x7d\x7b% include \"nav\" %\x7d"

/-- Its partials in order, with what they import. -/
private def menuOrder : List (Bytes × List Bytes) :=
  [("link", []), ("nav", ["link"]), ("head", []), ("layout", ["head", "nav"])]

private theorem menu_units : ((compile { moduleMode := true } menus menu).1.toOption.map fun p =>
    p.units.map fun u => (u.source, u.imports.map (·.source))) = some menuOrder := by
  cbv

/-- The units of a template whose partials share one. -/
theorem menu_inOrder :
    ∃ p, (compile { moduleMode := true } menus menu).1 = .ok p
      ∧ p.units.map (fun u => (u.source, u.imports.map (·.source))) = menuOrder
      ∧ ∃ tree root, Template.parse menu = .ok tree ∧ p.root = some root
        ∧ p.InOrder menus tree root := by
  have ends := menu_units
  cases compiled : (compile { moduleMode := true } menus menu).1 with
  | error e => rw [compiled] at ends; cases ends
  | ok p =>
    rw [compiled] at ends
    exact ⟨p, rfl, Option.some.inj ends, compile_inOrder (o := {}) compiled⟩

end

end TemplateCompiler
