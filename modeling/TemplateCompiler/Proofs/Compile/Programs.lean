import TemplateCompiler.Proofs.Compile.Linking

/-!
# Compiled programs

What is known of a program when its compilation succeeds. `compile_made` says
how its units are made, in either mode: the units of partials come from a
linked list of finished partials, and the root was made when all of them were
finished. `compile_related` compares the two modes: they fail alike, or both
succeed with roots that match.
-/

namespace TemplateCompiler

namespace Compile

/-! ## Partials in place

A compilation in place is compared with itself. This says that its code has
no calls of units in it, and that it leaves the registry alone. -/

theorem expand_besides {o : CompileOptions} (inPlace : o.moduleMode = false) {lib : Library}
    (s₀ : Session) (path : IncludePath) (i : Inclusion) :
    (besides s₀).Related () ((besides s₀).Lowers True [i]) (expand o lib path i)
      (expand o lib path i) := by
  have done : (besides s₀).Done () [i] := fun _ _ => trivial
  cases found : lib.source? i.name with
  | none =>
    rw [expand_missing found]
    cases optional : i.optional with
    | false => exact Correspondence.Related.throw _
    | true =>
      refine Correspondence.Related.quiet_left (Quiet.debug _ _) fun _ _ => ?_
      refine Correspondence.Related.quiet_right (Quiet.debug _ _) fun _ _ => ?_
      exact Correspondence.Related.pure ⟨.literal .null rfl, done⟩
  | some src =>
    by_cases cycle : i.name ∈ path.partials
    · rw [expand_cycle found cycle]
      exact Correspondence.Related.throw _
    · rw [expand_fresh found cycle, if_neg (by simp [inPlace]), inline, parsePartial]
      cases o.parse src with
      | error e => exact fun _ _ _ => rfl
      | ok tree =>
        have room := IncludePath.room_push_lt found cycle
        have expands : (besides s₀).Expands True ⟨i.name, expand o lib (path.push i.name)⟩
            ⟨i.name, expand o lib (path.push i.name)⟩ tree.inclusions :=
          fun j _ _ => expand_besides inPlace s₀ (path.push i.name) j
        refine (Node.lower_related tree (.inl trivial) expands ()).inside i.name |>.imp ?_
        exact fun _ _ _ _ h => ⟨h.1, done⟩
termination_by path.room lib

/-! ## The root -/

/-- The file of the root, and what its includes stand for. -/
def rootSite (o : CompileOptions) (lib : Library) : Site :=
  ⟨o.file, expand o lib { root := o.file }⟩

section

variable {s t : Session}

variable {o : CompileOptions} {lib : Library} {src : Bytes} {tree : Node}

theorem program_malformed {e : SyntaxError} (parsed : o.parse src = .error e) :
    program o lib src = throw (.inFile o.file (.malformed e)) := by
  rw [program, parsed]
  rfl

theorem program_eq (parsed : o.parse src = .ok tree) :
    program o lib src = (do
      let d ← draft (rootSite o lib) tree
      let root ← close o o.file o.root tree.pos d
      let s ← get
      debug "compiled template" [("file", o.file), ("units", Bytes.decimal (s.units.length + 1)),
        ("nodes", Bytes.decimal s.located)]
      pure { root := some root, units := s.units, imports := programImports (s.units ++ [root]) }) := by
  rw [program, parsed]
  simp [unit_eq, rootSite]

/-- A compilation fails where its root does. -/
theorem outcome_program_error (parsed : o.parse src = .ok tree) {e : CompileError}
    (run : (draft (rootSite o lib) tree).outcome s = (.error e, t)) :
    (program o lib src).outcome s = (.error e, t) := by
  rw [program_eq parsed, outcome_bind_error run]

/-- **A program is its root**, closed, with the units finished by then. -/
theorem outcome_program_ok (parsed : o.parse src = .ok tree) {d : List Code × Code}
    (run : (draft (rootSite o lib) tree).outcome s = (.ok d, t)) :
    ∃ root t', (program o lib src).outcome s
        = (.ok { root := some root, units := t.units, imports := programImports (t.units ++ [root]) }, t')
      ∧ root.Closes o
        (CodeUnit.callees t { name := o.root, source := o.file, statements := d.1, body := d.2 })
        { name := o.root, source := o.file, statements := d.1, body := d.2 } := by
  obtain ⟨root, t₁, closing, same, closed⟩ := outcome_close o o.file o.root tree.pos d t
  rw [program_eq parsed, outcome_bind_ok run, outcome_bind_ok closing, ← same.units]
  exact ⟨root, _, rfl, closed⟩

end

end Compile

/-- A session's outcome is that of the compilation. -/
theorem compile_fst (o : CompileOptions) (lib : Library) (src : Bytes) :
    (compile o lib src).1 = ((Compile.program o lib src).outcome (Session.start o)).1 := rfl

section

variable {reached : Bytes → Prop} {tree : Node} {p : Program}

variable {o : CompileOptions} {lib : Library} {src : Bytes}

/-- A program comes out of a run on a tree. -/
theorem Compile.outcome_of_compile (compiles : (compile o lib src).1 = .ok p) :
    ∃ tree t, o.parse src = .ok tree
      ∧ (program o lib src).outcome (Session.start o) = (.ok p, t) := by
  rw [compile_fst] at compiles
  cases parsed : o.parse src with
  | error e =>
    rw [program_malformed parsed] at compiles
    cases compiles
  | ok tree => exact ⟨tree, _, rfl, Prod.ext compiles rfl⟩

/-- **A program was drafted and closed.** -/
theorem Compile.closes_of_compile (compiles : (compile o lib src).1 = .ok p) :
    ∃ tree d t root, o.parse src = .ok tree
      ∧ (draft (rootSite o lib) tree).outcome (Session.start o) = (.ok d, t)
      ∧ p = { root := some root, units := t.units, imports := programImports (t.units ++ [root]) }
      ∧ root.Closes o
        (CodeUnit.callees t { name := o.root, source := o.file, statements := d.1, body := d.2 })
        { name := o.root, source := o.file, statements := d.1, body := d.2 } := by
  obtain ⟨tree, s, parsed, made⟩ := outcome_of_compile compiles
  rcases run : (draft (rootSite o lib) tree).outcome (Session.start o) with ⟨e | d, t⟩
  · cases made.symm.trans (outcome_program_error parsed run)
  · obtain ⟨root, t', out, closed⟩ := outcome_program_ok parsed run
    cases made.symm.trans out
    exact ⟨tree, d, t, root, parsed, run, rfl, closed⟩

/-- **The roots of the two modes** side by side. -/
theorem Compile.root_related (modules : o.moduleMode = true) (closed : Closed o lib reached)
    (hr : ∀ i ∈ tree.inclusions, reached i.name) :
    (linking o lib reached []).Related [] (Node.DraftsMatch (linking o lib reached []) True
        tree.inclusions)
      (draft (rootSite o.inPlace lib) tree) (draft (rootSite o lib) tree) := by
  have expands : (linking o lib reached []).Expands True (rootSite o.inPlace lib) (rootSite o lib)
      tree.inclusions :=
    fun i mem w => (expand_related modules closed rfl i (hr i mem) w).imp
      fun _ _ _ _ => Lowers.of_false
  exact Node.draft_related (.inl trivial) expands _

/-- The draft of a root, and what was finished with it. -/
theorem Compile.root_made {t : Session} {d : List Code × Code}
    (run : (draft (rootSite o lib) tree).outcome (Session.start o) = (.ok d, t)) :
    ∃ (w : List Finished) (d' : List Code × Code), Linked o lib (fun _ => True) w
      ∧ t.Tracks o [] w ∧ List.Forall₂ (Lowered True (Calls w)) d'.1 (Code.eraseAll d.1)
      ∧ Lowered True (Calls w) d'.2 d.2.erase := by
  cases modules : o.moduleMode with
  | true =>
    have closed : Closed o lib fun _ => True := fun _ _ _ _ _ _ _ _ => trivial
    have roots : ∀ i ∈ tree.inclusions, True := fun _ _ => trivial
    have ends := root_related modules closed roots (Session.start o.inPlace) (Session.start o)
      ⟨.nil, .start o⟩
    rw [run] at ends
    revert ends
    generalize (draft (rootSite o.inPlace lib) tree).outcome (Session.start o.inPlace) = x
    obtain ⟨_ | d', s'⟩ := x
    · exact False.elim
    · rintro ⟨w, -, ⟨linked, tracks⟩, drafts⟩
      exact ⟨w, (Code.eraseAll d'.1, d'.2.erase), linked, tracks, drafts.erased, drafts.body⟩
  | false =>
    have expands : (besides (Session.start o)).Expands True (rootSite o lib) (rootSite o lib)
        tree.inclusions :=
      fun i _ _ => expand_besides modules _ _ i
    have ends := Node.draft_related (.inl trivial) expands () (Session.start o) (Session.start o)
      (.refl _)
    rw [run] at ends
    obtain ⟨_, _, same, drafts⟩ := ends
    have none : ∀ c d, False → Calls [] c d := fun _ _ => False.elim
    exact ⟨[], (Code.eraseAll d.1, d.2.erase), .nil, (Session.Tracks.start o).of_same same,
      drafts.erased.imp fun _ _ h => h.mono id none, drafts.body.mono id none⟩

/-- **How a program is made**, in either mode. -/
theorem compile_made (h : (compile o lib src).1 = .ok p) :
    ∃ w root d, Linked o lib (fun _ => True) w ∧ p.root = some root
      ∧ p.units = (w.map Finished.unit).reverse ∧ root.Made o True w d := by
  obtain ⟨tree, d, t, root, -, run, rfl, closed⟩ := Compile.closes_of_compile h
  obtain ⟨w, d', linked, tracks, statements, body⟩ := Compile.root_made run
  exact ⟨w, root, d', linked, rfl, tracks.units, .of_close tracks closed rfl rfl statements body⟩

/-- **How each unit was made**: from the partials that were finished by
then. -/
theorem compile_made_unit (h : (compile o lib src).1 = .ok p) {u : CodeUnit} (mem : u ∈ p.allUnits)
    :
    ∃ v w sets d, Linked o lib (fun _ => True) w ∧ v <:+ w
      ∧ p.units = (w.map Finished.unit).reverse ∧ u.Made o sets v d := by
  obtain ⟨w, root, d, linked, hroot, units, made⟩ := compile_made h
  rw [Program.allUnits, units, hroot] at mem
  rcases List.mem_append.mp mem with inside | inside
  · obtain ⟨f, finished, rfl⟩ := List.mem_map.mp (List.mem_reverse.mp inside)
    obtain ⟨v, later, sound⟩ := linked.sound_of_mem finished
    obtain ⟨d, made, -⟩ := sound.made
    exact ⟨v, w, _, d, linked, (List.suffix_cons f v).trans later, units, made⟩
  · cases List.mem_singleton.mp inside
    exact ⟨w, w, True, d, linked, List.suffix_rfl, units, made⟩

/-- Programs of the two modes that match: the root in place is made of `d`,
and the other root of code that matches it, with the units of `w`. -/
structure ProgramsMatch (o : CompileOptions) (lib : Library) (reached : Bytes → Prop)
    (w : List Finished) (r r' : CodeUnit) (p q : Program) : Prop where
  linked : Linked o lib reached w
  root : p.root = some r
  root' : q.root = some r'
  units : q.units = (w.map Finished.unit).reverse
  scopes : r.Scoped o
  made : r'.Made o True w (Code.eraseAll r.statements, r.body.erase)

/-- How the two modes end. -/
def ModesMatch (o : CompileOptions) (lib : Library) (reached : Bytes → Prop) :
    Except CompileError Program → Except CompileError Program → Prop
  | .ok p, .ok q => ∃ w r r', ProgramsMatch o lib reached w r r' p q
  | .error e, .error e' => e = e'
  | _, _ => False

theorem ModesMatch.fails_iff {x y : Except CompileError Program} (h : ModesMatch o lib reached x y)
    (e : CompileError) : x = .error e ↔ y = .error e := by
  match x, y, h with
  | .error _, .error _, same => rw [show _ = _ from same]
  | .ok _, .ok _, _ => exact ⟨nofun, nofun⟩

/-- **The two modes side by side**: they fail alike, or they give programs
that match. -/
theorem compile_related (modules : o.moduleMode = true) (closed : Closed o lib reached)
    (hr : ∀ tree, o.parse src = .ok tree → ∀ i ∈ tree.inclusions, reached i.name) :
    ModesMatch o lib reached (compile o.inPlace lib src).1 (compile o lib src).1 := by
  rw [compile_fst, compile_fst]
  cases parsed : o.parse src with
  | error e =>
    have parsed' : o.inPlace.parse src = .error e := parsed
    rw [Compile.program_malformed parsed, Compile.program_malformed parsed']
    rfl
  | ok tree =>
    have parsed' : o.inPlace.parse src = .ok tree := parsed
    have ends := Compile.root_related modules closed (hr tree parsed) (Session.start o.inPlace)
      (Session.start o) ⟨.nil, .start o⟩
    rcases left : (Compile.draft (Compile.rootSite o.inPlace lib) tree).outcome
      (Session.start o.inPlace) with ⟨e | d, s⟩ <;>
    rcases right : (Compile.draft (Compile.rootSite o lib) tree).outcome (Session.start o)
      with ⟨e' | d', t⟩ <;> rw [left, right] at ends
    · rw [Compile.outcome_program_error parsed' left, Compile.outcome_program_error parsed right]
      exact ends
    · exact ends.elim
    · exact ends.elim
    · obtain ⟨w, -, ⟨linked, tracks⟩, drafts⟩ := ends
      obtain ⟨r, s', out, closed⟩ := Compile.outcome_program_ok parsed' left
      obtain ⟨r', t', out', closed'⟩ := Compile.outcome_program_ok parsed right
      rw [out, out']
      have made : r'.Made o True w (Code.eraseAll d.1, d.2.erase) :=
        .of_close tracks closed' rfl rfl drafts.erased drafts.body
      refine ⟨w, r, r', linked, rfl, rfl, tracks.units, ⟨closed.scopes.params, closed.scopes.locals⟩, ?_⟩
      rw [closed.statements, closed.body]
      exact made

end

/-- **Both modes fail alike**: with units for partials a template fails exactly
if it fails with its partials in place, and then with the same error, so with
the same wrapping and the same wording. -/
theorem modes_fail_alike (o : CompileOptions) (lib : Library) (src : Bytes) (e : CompileError) :
    (compile { o with moduleMode := true } lib src).1 = .error e
      ↔ (compile { o with moduleMode := false } lib src).1 = .error e := by
  have related : ModesMatch { o with moduleMode := true } lib (fun _ => True)
      (compile { o with moduleMode := false } lib src).1
      (compile { o with moduleMode := true } lib src).1 :=
    compile_related rfl (fun _ _ _ _ _ _ _ _ => trivial) fun _ _ _ _ => trivial
  exact (related.fails_iff e).symm

end TemplateCompiler
