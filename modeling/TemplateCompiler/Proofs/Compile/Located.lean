import TemplateCompiler.Proofs.Compile.Locating
import TemplateCompiler.Proofs.Template.Includes

/-!
# Where a program comes from

Every piece of code of a program says where it comes from. Here the account of
lowering is carried on to units, to includes in either mode and to whole
programs. `compile_located` puts together what that gives: all code is located,
at a node of the file that it names; that file is the one whose source was
compiled there; and the numbers of the pieces are those up to the count of
locations, each held once.
-/

open List

namespace TemplateCompiler

variable {tree : Node} {p : Program} {u : CodeUnit}

/-! ## Names of located code -/

namespace Code

variable {A : Location → Prop}

theorem Placed.part {c d : Code} (h : c.Placed A) (part : d ∈ c.parts) : d.Placed A :=
  fun e below => h e (mem_preorder_of_part part below)

theorem Placed.isIdentifier {id : Identifier} (h : (Code.identifier id).Placed A)
    (own : id.builtin = false) : Script.isIdentifier id.name = true :=
  ((placed_iff rfl).1 h).2.1.2 own

/-- **A name that occurs in located code** is an identifier. -/
theorem Placed.isIdentifier_of_occurs {c : Code} (h : c.Placed A) {bound : List Bytes}
    {p : Occurrence} (occurs : p ∈ c.occurrences bound) : Script.isIdentifier p.name = true := by
  rw [occurrences_eq] at occurs
  rcases mem_append.1 occurs with here | below
  · unfold occurrence at here
    split at here
    · next id =>
      rw [reference] at here
      split at here
      · cases here
      · next unbound =>
        rw [Bool.or_eq_true, not_or, Bool.not_eq_true] at unbound
        cases mem_singleton.1 here
        exact h.isIdentifier unbound.1
    · next loc id v =>
      rw [assignment] at here
      split at here
      · cases here
      · cases mem_singleton.1 here
        -- No name that the script knows is assigned to.
        have own : (Code.identifier id).callee? = none := ((placed_iff rfl).1 h).2.1.2
        have unknown : id.builtin = false := by
          obtain ⟨loc, name, builtin⟩ := id
          cases builtin
          · rfl
          · cases own
        exact (h.part (by simp [parts])).isIdentifier unknown
    · cases here
  · obtain ⟨q, visited, inside⟩ := mem_flatMap.1 below
    have part := mem_parts_of_visited visited
    have smaller := sizeOf_lt_of_mem_parts part
    exact (h.part part).isIdentifier_of_occurs inside
termination_by sizeOf c

end Code

namespace Node

/-! ## Drafts -/

open Compile (Yields)

variable {good : CodeUnit → Prop} {A : Location → Prop} {site : Site}

theorem Within.children (h : tree.Within A site) :
    ∀ n ∈ flatten tree.children, n.Within A site := by
  have nodes : ∀ n ∈ tree.children, n.Within A site := by
    cases tree with
    | list pos ns => exact fun n mem => h.part mem
    | _ => exact fun n mem => mem_singleton.1 mem ▸ h
  intro n mem
  obtain ⟨outer, inside, mem⟩ := mem_flatMap.1 mem
  have within := nodes outer inside
  cases outer with
  | output pos inner => exact within.part mem
  | _ => exact mem_singleton.1 mem ▸ within

/-- **The account of a draft.** -/
theorem draft_yields (lays : site.Lays good A) (within : tree.Within A site) :
    Yields good 0 (Compile.draft site tree) (fun d => Code.indicesAll d.1 + d.2.indices)
      fun d => ((∀ c ∈ d.1, c.Ready A) ∧ d.2.Ready A) ∧ tree.isMissing = false := by
  have hoisted : ∀ n ∈ (hoist (flatten tree.children)).1,
      Yields good 0 (lowerAssignment site n) Code.indicesAll fun cs => ∀ c ∈ cs, c.Ready A := by
    intro n mem
    obtain ⟨inside, assigns⟩ := mem_hoist.1 mem
    have here := within.children n inside
    cases n with
    | assign pos targets value body =>
      exact lowerAssignment_yields here (fun _ => lower_yields value lays (here.part (by simp [operands, parts])))
        (fun _ => lower_yields body lays (here.part (by simp [operands, parts])))
        (targets_yields targets lays fun t mem => here.part (by simp [operands, parts, mem]))
    | _ => cases assigns
  cases present : tree.isMissing with
  | true =>
    -- A tree that is not there has no draft.
    cases tree with
    | missing =>
      intro s d t run
      cases run
    | _ => cases present
  | false =>
    rw [Compile.draft_eq site rfl]
    refine (Yields.mapM hoisted).seq fun css ready => ?_
    refine (lowerParts_yields _ lays fun n mem => within.children n (mem_hoist.2 mem)).seq
      fun ps fits => ?_
    refine (BodyPart.assemble_yields (within.pos present) fits).bind fun body hb =>
      .pure ⟨⟨fun c mem => ?_, hb⟩, rfl⟩ ?_
    · obtain ⟨cs, inside, mem⟩ := mem_flatten.1 mem
      exact ready cs inside c mem
    · rw [Code.indicesAll_flatten, add_zero, add_comm]

end Node

/-! ## Units -/

/-- A position of a template: the file that a location names is the root's or a
partial's, and its tree has a node there. -/
def Location.AtNode (o : CompileOptions) (lib : Library) (src : Bytes) (l : Location) : Prop :=
  ∃ text tree, (l.file = o.file ∧ text = src ∨ lib.source? l.file = some text)
    ∧ o.parse text = .ok tree ∧ ∃ n ∈ tree.preorder, l.line = n.pos.line ∧ l.column = n.pos.column

/-- Where code of a file may be located. With units for partials it has to be
in the file itself. -/
def Location.Stands (o : CompileOptions) (lib : Library) (src file : Bytes) (l : Location) : Prop :=
  l.AtNode o lib src ∧ (o.moduleMode = true → l.file = file)

namespace CodeUnit

variable {free : List Bytes}

/-- **Locating a unit** locates its code. -/
theorem function_stamp (file : Bytes) (pos : Position) (u : CodeUnit) (n : Nat) :
    (Code.function u).stamp file pos n
      = (.function (u.stamp file pos n).1, (u.stamp file pos n).2) := by
  obtain ⟨loc, _⟩ := u
  cases loc <;> rfl

/-- What code of a unit its imports were found in. -/
def Names (u : CodeUnit) : Prop :=
  ∀ r ∈ u.imports, ∃ id, Code.identifier id ∈ (Code.function u).preorder ∧ id.loc = r.loc

theorem names_inputs (free : List Bytes) : (inputs free).names = free.map fun name => { name } :=
  (Destructure.names_foldl_add Script.templateName (fun name => { name }) free _).trans
    (nil_append _)

/-- The parameters of a unit bind its inputs and the filters. -/
theorem binders_params {params : List Code}
    (same : Code.eraseAll params = [.destructure (inputs free), .ident Script.filterNamespace]) :
    params.flatMap Code.binders = free ++ [Script.filterNamespace] := by
  have bound : params.flatMap Code.binders = (Code.eraseAll params).flatMap Code.binders := by
    simp only [Code.eraseAll_eq_map, flatMap_map, Code.binders_erase]
  rw [bound, same]
  simp [Code.binders, Code.ident, names_inputs, Function.comp_def]

theorem over_inputs {A : Location → Prop} (words : ∀ name ∈ free, Script.isIdentifier name = true) :
    (Code.destructure (inputs free)).Over A ∧ (Code.destructure (inputs free)).indices = 0 := by
  have names := names_inputs free
  have bare : (inputs free).loc = none :=
    congrArg Destructure.loc (erase_inputs free).symm
  refine Code.over_of_parts (c := .destructure _) bare rfl rfl (fun c mem => ?_) ?_
  · obtain ⟨id, inside, rfl⟩ := mem_map.1 mem
    rw [names] at inside
    obtain ⟨name, free, rfl⟩ := mem_map.1 inside
    exact (Code.draft_ident (words name free)).1.covers
  · rw [Code.parts, names]
    clear names bare words
    induction free with
    | nil => rfl
    | cons name free ih =>
      rw [map_cons, map_cons, Code.indicesAll_cons, ih]
      exact Code.indices_ident name

/-- **A unit that was closed**: it has the statements and the body of its
draft, which are located already, and the rest of it was located with it. -/
structure ClosedFrom (A : Location → Prop) (file name : Bytes) (d : List Code × Code)
    (u : CodeUnit) : Prop where
  name : u.name = name
  source : u.source = file
  statements : u.statements = d.1
  body : u.body = d.2
  placed : (Code.function u).Placed A
  names : u.Names
  words : ∀ name ∈ u.params.flatMap Code.binders, Script.isIdentifier name = true
  seen : ∀ g, Code.Hides g file → (Code.function u).relocate g
    = (Code.function { u with loc := none, params := Code.eraseAll u.params }).relocate g

end CodeUnit

open Compile (Yields)

section

variable {draft : CodeUnit} {s : Session}

variable {good : CodeUnit → Prop} {A : Location → Prop} {o : CompileOptions} {file name : Bytes}
  {pos : Position} {d : List Code × Code}

/-- A draft that is to be closed, and the unit that it becomes. -/
theorem CodeUnit.close_eq (o : CompileOptions) (refs : List ImportRef) (draft : CodeUnit) :
    draft.close o refs = { draft with
      params := [.destructure (inputs (Scope.ofUnit o.reserved draft).free),
        .ident Script.filterNamespace]
      locals := (Scope.ofUnit o.reserved draft).declared
      imports := refs.foldl ImportRef.addTo draft.imports } := by
  rw [close, foldl_addImport]

/-- The imports of a draft were found in its statements and its body. -/
theorem CodeUnit.mem_callees (params : draft.params = []) {r : ImportRef}
    (mem : r ∈ draft.callees s) :
    ∃ id, Code.identifier id ∈ draft.statements.flatMap Code.preorder ++ draft.body.preorder
      ∧ id.loc = r.loc := by
  obtain ⟨c, inside, found⟩ := mem_filterMap.1 mem
  cases c with
  | identifier id =>
    refine ⟨id, ?_, ?_⟩
    · rw [Code.preorder_eq _ rfl] at inside
      simpa [Code.parts, params] using inside
    · change (if id.builtin then (s.entryOfUnit? id.name).map _ else none) = some r at found
      cases builtin : id.builtin with
      | false => rw [builtin] at found; cases found
      | true =>
        rw [builtin] at found
        obtain ⟨e, -, rfl⟩ := Option.map_eq_some_iff.1 found
        rfl
  | _ => cases found

/-- **Locating a closed draft** leaves its statements and its body alone. -/
theorem CodeUnit.closedFrom_stamp
    (drafted : draft = { name, source := file, statements := d.1, body := d.2 })
    (allowed : ∀ n, A ⟨file, pos.line, pos.column, n⟩)
    (covers : (Code.function (draft.close o (draft.callees s))).Over A)
    (words : ∀ name ∈ (Scope.ofUnit o.reserved draft).free, Script.isIdentifier name = true)
    (statements : ∀ c ∈ d.1, c.Ready A) (body : d.2.Ready A) (n : Nat) :
    ((draft.close o (draft.callees s)).stamp file pos n).1.ClosedFrom A file name d := by
  have placed := covers.stamp allowed n
  have alike : ∀ g, Code.Hides g file → _ = _ := fun g hides =>
    Code.relocate_stamp hides pos (.function (draft.close o (draft.callees s))) n
  have erased := erase_stamp file pos (draft.close o (draft.callees s)) n
  rw [function_stamp] at placed alike
  have shape : ∃ loc params, ((draft.close o (draft.callees s)).stamp file pos n).1
      = ⟨some loc, name, file, params, (Scope.ofUnit o.reserved draft).declared, d.1, d.2,
        (draft.callees s).foldl ImportRef.addTo []⟩ := by
    have left (m : Nat) : Code.stampAll file pos d.1 m = (d.1, m) :=
      Code.stampAll_done (fun c mem => (statements c mem).placed) m
    have right (m : Nat) : d.2.stamp file pos m = (d.2, m) := Code.stamp_done body.placed.done m
    refine ⟨⟨file, pos.line, pos.column, n⟩, (Code.stampAll file pos
      [.destructure (inputs (Scope.ofUnit o.reserved draft).free), .ident Script.filterNamespace]
      (n + 1)).1, ?_⟩
    rw [close_eq, drafted]
    show (⟨_, _, _, _, _, (Code.stampAll file pos d.1 _).1, (d.2.stamp file pos _).1, _⟩ : CodeUnit)
      = _
    rw [left, right]
    rfl
  obtain ⟨loc, params, same⟩ := shape
  have spare : Code.eraseAll params
      = [.destructure (inputs (Scope.ofUnit o.reserved draft).free),
        .ident Script.filterNamespace] := by
    rw [same, close_eq] at erased
    refine (congrArg UnitOf.params erased).trans ?_
    show Code.eraseAll [Code.destructure (inputs _), Code.ident _] = _
    simp only [Code.eraseAll, Code.erase, erase_inputs, Code.erase_ident]
  rw [same] at placed alike ⊢
  refine ⟨rfl, rfl, rfl, rfl, placed, ?_, ?_, ?_⟩
  · intro r mem
    rcases ImportRef.mem_of_mem_foldl mem with none | found
    · cases none
    · obtain ⟨id, inside, located⟩ := mem_callees (by rw [drafted]) found
      refine ⟨id, ?_, located⟩
      rw [drafted] at inside
      rw [Code.preorder_eq _ rfl]
      refine mem_cons_of_mem _ ?_
      rw [Code.parts, flatMap_append, flatMap_append]
      exact mem_append_right _ (by simpa using inside)
  · rw [binders_params spare]
    exact forall_mem_append.2 ⟨words, forall_mem_singleton.2 (by decide)⟩
  · intro g hides
    rw [alike g hides, close_eq]
    simp only [spare]
    rw [drafted]

/-- **The account of closing a draft.** -/
theorem Compile.close_yields (allowed : ∀ n, A ⟨file, pos.line, pos.column, n⟩)
    (statements : ∀ c ∈ d.1, c.Ready A) (body : d.2.Ready A) :
    Yields good (Code.indicesAll d.1 + d.2.indices) (Compile.close o file name pos d)
      CodeUnit.indices (CodeUnit.ClosedFrom A file name d) := by
  let draft : CodeUnit := { name, source := file, statements := d.1, body := d.2 }
  rw [Compile.close]
  refine Yields.get.seq fun s _ => ?_
  rw [zero_add]
  have words : ∀ name ∈ (Scope.ofUnit o.reserved draft).free, Script.isIdentifier name = true := by
    intro name mem
    obtain ⟨read, -, -⟩ := Scope.mem_free.1 mem
    rw [Code.occurrencesAll_eq_flatMap, mem_append] at read
    rcases read with statement | value
    · obtain ⟨c, inside, read⟩ := mem_flatMap.1 statement
      exact (statements c inside).placed.isIdentifier_of_occurs read
    · exact body.placed.isIdentifier_of_occurs value
  obtain ⟨overInputs, noInputs⟩ := CodeUnit.over_inputs (A := A) words
  obtain ⟨covers, count⟩ : (Code.function (draft.close o (draft.callees s))).Over A
      ∧ (Code.function (draft.close o (draft.callees s))).indices
        = Code.indicesAll d.1 + d.2.indices := by
    rw [CodeUnit.close_eq]
    refine Code.over_of_parts rfl rfl rfl ?_ (by simp [Code.parts, noInputs, Code.indices_ident, draft])
    simp only [Code.parts, forall_mem_append, forall_mem_singleton]
    refine ⟨?_, fun c mem => (statements c mem).covers, body.covers⟩
    exact forall_mem_cons.2
      ⟨overInputs, forall_mem_singleton.2 (Code.draft_ident (by decide)).1.covers⟩
  have located : Yields good (Code.indicesAll d.1 + d.2.indices)
      (Compile.locating ((draft.close o (draft.callees s)).stamp file pos)) CodeUnit.indices
      (CodeUnit.ClosedFrom A file name d) := by
    refine .locating (CodeUnit.closedFrom_stamp rfl allowed covers words statements body) fun n => ?_
    have step : ((Code.function (draft.close o (draft.callees s))).stamp file pos n).1.indices + _
        = _ + Multiset.range ((Code.function (draft.close o (draft.callees s))).stamp file pos n).2
      := covers.indices_stamp n
    rw [CodeUnit.function_stamp] at step
    rw [← count]
    exact step
  rw [← add_zero (Code.indicesAll d.1 + d.2.indices)]
  refine located.bind fun u closed => ?_
  exact (Yields.debug _ _).seq fun _ _ => .pure closed (by rw [zero_add, add_zero])

/-- **The account of a unit.** -/
theorem Compile.unit_yields {site : Site} (lays : site.Lays good A) (within : tree.Within A site) :
    Yields good 0 (Compile.unit o site name tree) CodeUnit.indices
      fun u => ∃ d, u.ClosedFrom A site.file name d := by
  rw [Compile.unit_eq]
  refine (Node.draft_yields lays within).seq fun d ⟨⟨statements, body⟩, present⟩ => ?_
  rw [add_zero]
  exact (close_yields (within.pos present) statements body).imp fun u closed => ⟨d, closed⟩

end

/-! ## Includes -/

/-- A unit that was compiled from a source. -/
def CodeUnit.MadeFrom (o : CompileOptions) (lib : Library) (text : Bytes) (u : CodeUnit) : Prop :=
  ∃ tree path s t, o.parse text = .ok tree
    ∧ (Compile.unit o ⟨u.source, Compile.expand o lib path⟩ u.name tree).outcome s = (.ok u, t)

/-- **The unit of a partial that is located.** -/
structure CodeUnit.Located (o : CompileOptions) (lib : Library) (src : Bytes) (u : CodeUnit) :
    Prop where
  placed : (Code.function u).Placed (Location.Stands o lib src u.source)
  names : u.Names
  words : ∀ name ∈ u.params.flatMap Code.binders, Script.isIdentifier name = true
  origin : ∃ text, lib.source? u.source = some text ∧ u.MadeFrom o lib text

namespace Compile

section

variable {A : Location → Prop} {good : CodeUnit → Prop}

/-- A call of a unit has no locations. -/
theorem reference_draft (id : Bytes)
    (words : ∀ name ∈ u.params.flatMap Code.binders, Script.isIdentifier name = true) :
    (reference u id).Draft A ∧ (reference u id).indices = 0 := by
  have values : ∀ p ∈ u.params.flatMap passed,
      ∃ name, p.2 = Code.ident name ∧ Script.isIdentifier name = true := by
    intro p mem
    obtain ⟨param, bound, inside⟩ := mem_flatMap.1 mem
    cases param with
    | destructure pattern =>
      obtain ⟨b, binding, rfl⟩ := mem_map.1 inside
      refine ⟨_, rfl, words _ (mem_flatMap.2 ⟨_, bound, mem_map.2 ⟨b.2, ?_, rfl⟩⟩)⟩
      exact pattern.names_bindings ▸ mem_map_of_mem binding
    | _ => cases inside
  rw [reference]
  generalize u.params.flatMap _ = props at values
  have inputs : (Code.object none props).Over A ∧ (Code.object none props).indices = 0 := by
    refine Code.over_of_parts rfl rfl rfl (fun c mem => ?_) ?_
    · obtain ⟨p, inside, rfl⟩ := mem_map.1 mem
      obtain ⟨name, same, word⟩ := values p inside
      rw [same]
      exact (Code.draft_ident word).1.covers
    · rw [Code.parts]
      induction props with
      | nil => rfl
      | cons p props ih =>
        obtain ⟨⟨name, same, -⟩, others⟩ := forall_mem_cons.1 values
        rw [map_cons, Code.indicesAll_cons, same, Code.indices_ident, ih others]
        rfl
  have callee : (Code.identifier { name := id, builtin := true }).Over A ∧ _ :=
    Code.over_of_parts rfl rfl rfl (forall_mem_nil _) rfl (by rintro ⟨⟩)
  refine (Code.draft_call callee.1 rfl (forall_mem_cons.2 ⟨inputs.1, forall_mem_singleton.2
    (Code.draft_ident (by decide)).1.covers⟩)).imp_right fun h => h.trans ?_
  simp only [Code.indicesAll_cons, callee.2, inputs.2, Code.indices_ident]
  rfl

/-- The results of a step are those of its runs. -/
theorem Yields.run {α : Type} {m : Compile α} {used : Multiset Nat} {marks : α → Multiset Nat}
    {P : α → Prop} (h : Yields good used m marks P) :
    Yields good used m marks fun a => P a ∧ ∃ s t, m.outcome s = (.ok a, t) := by
  intro s a t run units
  obtain ⟨has, rest⟩ := h s a t run units
  exact ⟨⟨has, s, t, run⟩, rest⟩

theorem parsePartial_yields (o : CompileOptions) (name text : Bytes) :
    Yields good 0 (parsePartial o name text) (fun _ => 0) fun tree => o.parse text = .ok tree := by
  rw [parsePartial]
  cases o.parse text with
  | ok tree => exact .pure rfl rfl
  | error e => exact .throw _

theorem register_yields (o : CompileOptions) (name : Bytes) :
    Yields good 0 (register o name) (fun _ => 0) fun _ => True := by
  refine .idle fun s a t run => ?_
  cases run
  refine ⟨trivial, rfl, ?_, rfl⟩
  simp [Session.holds]

/-- The units of a session after a change of its entries. -/
theorem holds_updateEntry (s : Session) (name : Bytes) (f : RegistryEntry → RegistryEntry)
    (more : List CodeUnit) (codes : ∀ e, ∀ u ∈ (f e).code, u ∈ e.code ∨ u ∈ more) :
    (s.updateEntry name f).holds ⊆ s.holds ++ more := by
  intro u mem
  rw [Session.holds, mem_append] at mem
  simp only [Session.holds, mem_append, mem_filterMap]
  rcases mem with unit | known
  · exact .inl (.inl unit)
  · obtain ⟨e, entry, code⟩ := mem_filterMap.1 known
    obtain ⟨e, known, rfl⟩ := mem_map.1 entry
    split at code
    · exact (codes e u code).imp (fun old => .inr ⟨e, known, old⟩) id
    · exact .inl (.inr ⟨e, known, code⟩)

theorem countReference_yields (name : Bytes) :
    Yields good 0 (countReference name) (fun _ => 0) fun _ => True := by
  have counts : Yields good 0 (modify fun s => s.updateEntry name fun e =>
      { e with references := e.references + 1 } : Compile Unit) (fun _ => 0) fun _ => True :=
    .idle fun s a t run => by
      cases run
      refine ⟨trivial, rfl, ?_, rfl⟩
      have left := holds_updateEntry s name (fun e => { e with references := e.references + 1 }) []
        fun e u code => .inl code
      rwa [append_nil] at left
  rw [countReference]
  refine counts.seq fun _ _ => Yields.get.seq fun s _ => ?_
  rw [zero_add]
  split
  · split
    · exact .debug _ _
    · exact .pure trivial rfl
  · exact .pure trivial rfl

/-- Finishing a unit lays it aside. -/
theorem finish_yields {name : Bytes} (h : good u) :
    Yields good u.indices (finish name u) (fun _ => 0) fun _ => True := by
  intro s a t run units
  cases run
  refine ⟨trivial, fun v mem => ?_, fun rest given => ?_⟩
  · have all : ∀ v ∈ s.holds ++ [u], good v :=
      forall_mem_append.2 ⟨units, forall_mem_singleton.2 h⟩
    have left := holds_updateEntry s name (fun e => { e with code := some u }) [u]
      fun e w code => .inr (mem_singleton.2 (Option.some.inj code).symm)
    rcases mem_append.1 mem with unit | known
    · exact all v ((mem_append.1 unit).elim
        (fun old => mem_append_left _ (mem_append_left _ old)) (mem_append_right _))
    · exact all v (left (mem_append_right _ known))
  · show 0 + rest + ((s.units ++ [u]).map CodeUnit.indices).sum = Multiset.range s.located
    rw [← show _ = Multiset.range s.located from given, map_append, sum_append,
      map_singleton, sum_singleton]
    ac_rfl

end

section

variable {o : CompileOptions} {lib : Library} {src : Bytes}

/-- Positions in the tree of a source are positions of the file with it. -/
theorem within_of_parse (site : Site) {text : Bytes} (reader : o.parse = Template.parse)
    (named : site.file = o.file ∧ text = src ∨ lib.source? site.file = some text)
    (parsed : o.parse text = .ok tree) :
    tree.Within (Location.Stands o lib src site.file) site where
  allowed m mem _ := ⟨⟨text, tree, named, parsed, m, mem, rfl, rfl⟩, fun _ => rfl⟩
  worded := Template.worded_of_parse (reader ▸ parsed)

/-- **The account of an include**, in either mode. With units for partials the
names that a finished unit binds matter, since they are written where it is
called. -/
theorem expand_yields {good : CodeUnit → Prop} (reader : o.parse = Template.parse)
    (lib : Library) (src : Bytes) (keeps : ∀ u, u.Located o lib src → good u)
    (calls : o.moduleMode = true → ∀ u, good u → u.Located o lib src)
    (path : IncludePath) (i : Inclusion) :
    Yields good 0 (expand o lib path i) Code.indices
      (Code.Draft (Location.Stands o lib src path.file)) := by
  cases found : lib.source? i.name with
  | none =>
    rw [expand_missing found]
    cases i.optional with
    | false => exact .throw _
    | true =>
      obtain ⟨draft, count⟩ := Code.draft_literal _ _
      exact (Yields.debug _ _).seq fun _ _ => .pure draft (by rw [add_zero]; exact count)
  | some text =>
    by_cases cycle : i.name ∈ path.partials
    · rw [expand_cycle found cycle]
      exact .throw _
    · have room := IncludePath.room_push_lt found cycle
      let site : Site := ⟨i.name, expand o lib (path.push i.name)⟩
      have lays : site.Lays good (Location.Stands o lib src i.name) := fun j =>
        path.file_push i.name ▸ expand_yields reader lib src keeps calls (path.push i.name) j
      have within {tree : Node} (parsed : o.parse text = .ok tree) :
          tree.Within (Location.Stands o lib src i.name) site :=
        within_of_parse site reader (.inr found) parsed
      rw [expand_fresh found cycle]
      split
      · next modules =>
        refine Yields.get.seq fun s known => ?_
        rw [zero_add]
        have called {u : CodeUnit} (id : Bytes) (located : u.Located o lib src) : Yields good 0
            (countReference i.name >>= fun _ => pure (reference u id)) Code.indices
            (Code.Draft (Location.Stands o lib src path.file)) := by
          obtain ⟨draft, count⟩ :=
            reference_draft (A := Location.Stands o lib src path.file) id located.words
          exact (countReference_yields i.name).seq fun _ _ => .pure draft (by rw [count]; rfl)
        split
        · refine (parsePartial_yields o i.name text).seq fun tree parsed => ?_
          refine (register_yields o i.name).seq fun id _ => ?_
          have made : Yields _ 0 (unit o site id tree) _ _ := unit_yields lays (within parsed)
          refine (made.run.inside i.name).seq fun u drafted => ?_
          obtain ⟨⟨d, closed⟩, s, t, run⟩ := drafted
          have located : u.Located o lib src := by
            refine ⟨closed.source ▸ closed.placed, closed.names, closed.words, text, ?_, tree,
              path.push i.name, s, t, parsed, ?_⟩
            · rw [closed.source]
              exact found
            · rw [closed.source, closed.name]
              exact run
          exact (finish_yields (keeps u located)).bind fun _ _ => called id located
        · exact .throw _
        · next id _ u found =>
          refine called id (calls modules u (known u ?_))
          exact mem_append_right _ (mem_filterMap.2 ⟨_, mem_of_find?_eq_some found, rfl⟩)
      · next inPlace =>
        rw [inline]
        refine (parsePartial_yields o i.name text).seq fun tree parsed => ?_
        refine ((Node.lower_yields tree lays (within parsed)).inside i.name).imp fun c ready => ?_
        exact (ready.mono fun l h => ⟨h.1, fun modules => absurd modules inPlace⟩).draft
termination_by path.room lib

/-- What is left of a location if only its file is kept. Where there is none,
`file` is taken. -/
def keepFile (file : Bytes) (loc : Option Location) : Option Location :=
  some ⟨(loc.map Location.file).getD file, 0, 0, 0⟩

/-- The code of a partial in place shows the files of its pieces, whoever looks
at it. -/
theorem shows_keepFile (reader : o.parse = Template.parse) (inPlace : o.moduleMode = false) :
    Shows keepFile o lib := by
  intro path name text tree s c t found parsed run file
  let site : Site := ⟨name, expand o lib (path.push name)⟩
  have lays : site.Lays (fun _ => True) (Location.Stands o lib text name) := fun j =>
    path.file_push name ▸ expand_yields reader lib text (fun _ _ => True.intro)
      (fun modules => absurd (inPlace.symm.trans modules) Bool.false_ne_true) (path.push name) j
  have within : tree.Within (Location.Stands o lib text name) site :=
    within_of_parse site reader (.inr found) parsed
  obtain ⟨ready, -⟩ := Node.lower_yields tree lays within s c t run fun _ _ => trivial
  rw [Code.relocate_relocate]
  refine Code.relocate_congr c fun d mem => ?_
  obtain ⟨⟨l, located, -⟩, -⟩ := ready.placed d mem
  rw [located]
  rfl

/-- **How a program comes about**: its root is drafted and closed. -/
theorem outcome_program {s t : Session}
    (parsed : o.parse src = .ok tree) (run : (program o lib src).outcome s = (.ok p, t)) :
    ∃ d s₁ root s₂, (draft (rootSite o lib) tree).outcome s = (.ok d, s₁)
      ∧ (close o o.file o.root tree.pos d).outcome s₁ = (.ok root, s₂)
      ∧ p = { root := some root, units := s₂.units, imports := programImports (s₂.units ++ [root]) }
      ∧ t.located = s₂.located := by
  rw [program_eq parsed] at run
  obtain ⟨d, s₁, drafted, run⟩ := ok_of_outcome_bind run
  obtain ⟨root, s₂, closed, run⟩ := ok_of_outcome_bind run
  cases run
  exact ⟨d, s₁, root, s₂, drafted, closed, rfl, rfl⟩

end

end Compile

/-! ## Programs -/

/-- The code of a piece with nothing but the files of its locations. Pieces
without a location count as pieces of `file`. -/
def Code.inFile (file : Bytes) (c : Code) : Code := c.relocate (Compile.keepFile file)

/-- **A program that says where it comes from**, in a compilation that handed
out `count` locations. -/
structure Program.Located (o : CompileOptions) (lib : Library) (src : Bytes) (count : Nat)
    (p : Program) : Prop where
  /-- Every piece of code is located at a node of the file it names. -/
  nodes : ∀ u ∈ p.allUnits, ∀ c ∈ (Code.function u).preorder,
    ∃ l, c.loc = some l ∧ l.AtNode o lib src
  /-- Every import is located, at a piece of code that names it. -/
  imports : ∀ r ∈ p.imports ++ p.allUnits.flatMap UnitOf.imports, ∃ l, r.loc = some l
    ∧ ∃ u ∈ p.allUnits, ∃ c ∈ (Code.function u).preorder, c.loc = some l
  /-- The root was compiled from the root's source, and every other unit from
  the partial it is called after. -/
  sources : ∃ root, p.root = some root ∧ root.source = o.file ∧ root.MadeFrom o lib src
    ∧ ∀ u ∈ p.units, ∃ text, lib.source? u.source = some text ∧ u.MadeFrom o lib text
  /-- With units for partials, all code of a unit names the unit's source. -/
  modules : o.moduleMode = true → ∀ u ∈ p.allUnits, ∀ c ∈ (Code.function u).preorder,
    c.loc.map Location.file = some u.source
  /-- With partials in place, the code of the root names the root's file, up to
  the code of a partial, which names the partial. -/
  inPlace : o.moduleMode = false → ∀ root ∈ p.root, ∃ tree, o.parse src = .ok tree
    ∧ (Code.function root).inFile o.file = (Code.function { root with
        loc := none
        params := Code.eraseAll root.params
        statements := (tree.draftCode
          (includedCode Compile.keepFile o lib { root := o.file })).1
        body := (tree.draftCode
          (includedCode Compile.keepFile o lib { root := o.file })).2 }).inFile o.file
  /-- Each number up to the count is held once; the items of a loop count
  once. -/
  numbers : (p.allUnits.map CodeUnit.indices).sum = Multiset.range count
  /-- All mentions of the items of a loop are the same piece of code. -/
  copies : ∀ u ∈ p.allUnits, ∀ c ∈ (Code.function u).preorder, ∀ x ys,
    c.shared? = some (x, ys) → ∀ y ∈ ys, y = x

section

variable {root : CodeUnit} {count : Nat} {t : Session}

variable {o : CompileOptions} {lib : Library} {src : Bytes}

/-- A root with the code that its template gives. -/
def CodeUnit.drafted (o : CompileOptions) (lib : Library) (tree : Node) (root : CodeUnit) :
    CodeUnit :=
  let d := tree.draftCode (includedCode Compile.keepFile o lib { root := o.file })
  { root with loc := none, params := Code.eraseAll root.params, statements := d.1, body := d.2 }

/-- A program whose units are located. -/
theorem Program.Located.of_units (hroot : p.root = some root) (source : root.source = o.file)
    (made : root.MadeFrom o lib src)
    (placed : (Code.function root).Placed (Location.Stands o lib src root.source))
    (names : root.Names) (units : ∀ u ∈ p.units, u.Located o lib src)
    (imported : ∀ r ∈ p.imports, r ∈ p.allUnits.flatMap UnitOf.imports)
    (inPlace : o.moduleMode = false → ∃ tree, o.parse src = .ok tree
      ∧ (Code.function root).inFile o.file
        = (Code.function (root.drafted o lib tree)).inFile o.file)
    (numbers : (p.allUnits.map CodeUnit.indices).sum = Multiset.range count) :
    p.Located o lib src count := by
  have all : ∀ u ∈ p.allUnits, (Code.function u).Placed (Location.Stands o lib src u.source)
      ∧ u.Names := by
    intro u mem
    rw [Program.allUnits, hroot] at mem
    rcases mem_append.1 mem with inside | inside
    · exact ⟨(units u inside).placed, (units u inside).names⟩
    · cases mem_singleton.1 inside
      exact ⟨placed, names⟩
  refine ⟨?_, ?_, ⟨root, hroot, source, made, fun u mem => (units u mem).origin⟩, ?_, ?_, numbers, ?_⟩
  · intro u mem c inside
    obtain ⟨⟨l, located, node, -⟩, -⟩ := (all u mem).1 c inside
    exact ⟨l, located, node⟩
  · intro r mem
    have listed : r ∈ p.allUnits.flatMap UnitOf.imports :=
      (mem_append.1 mem).elim (imported r) id
    obtain ⟨u, unit, mem⟩ := mem_flatMap.1 listed
    obtain ⟨id, inside, same⟩ := (all u unit).2 r mem
    obtain ⟨⟨l, located, -⟩, -⟩ := (all u unit).1 _ inside
    exact ⟨l, same ▸ located, u, unit, _, inside, located⟩
  · intro modules u mem c inside
    obtain ⟨⟨l, located, -, file⟩, -⟩ := (all u mem).1 c inside
    rw [located, Option.map_some, file modules]
  · intro mode root' same
    cases hroot.symm.trans same
    exact inPlace mode
  · intro u mem c inside
    exact ((all u mem).1 c inside).2.1

/-- The files that the root of a program names, with partials in place. -/
theorem Compile.root_inFile {s : Session} {d : List Code × Code} {A : Location → Prop}
    (reader : o.parse = Template.parse) (inPlace : o.moduleMode = false)
    (drafted : (draft (rootSite o lib) tree).outcome s = (.ok d, t))
    (closed : root.ClosedFrom A o.file o.root d) :
    (Code.function root).inFile o.file
      = (Code.function (root.drafted o lib tree)).inFile o.file := by
  have hides (file : Bytes) : Code.Hides (keepFile file) file := fun _ _ _ => rfl
  have expands : Node.Expands (rootSite o lib) (keepFile o.file)
      (includedFaults o lib { root := o.file }) (includedCode keepFile o lib { root := o.file })
      tree.inclusions := fun i _ =>
    (expand_comesTo hides inPlace (shows_keepFile reader inPlace) _ i).imp fun c h => h o.file
  obtain ⟨-, statements, body⟩ := (Node.draft_comesTo (hides o.file) expands).of_ok drafted
  rw [← Code.relocateAll_eq_map, ← Code.relocateAll_eq_map] at statements
  rw [Code.inFile, closed.seen _ (hides o.file)]
  simp only [Code.relocate, Code.inFile, CodeUnit.drafted, closed.statements, closed.body,
    statements, body]

/-- **The account of a program.** -/
theorem Compile.program_closed (reader : o.parse = Template.parse) (parsed : o.parse src = .ok tree)
    (run : (program o lib src).outcome (Session.start o) = (.ok p, t)) :
    ∃ d s₁ root s₂, (draft (rootSite o lib) tree).outcome (Session.start o) = (.ok d, s₁)
      ∧ (close o o.file o.root tree.pos d).outcome s₁ = (.ok root, s₂)
      ∧ p = { root := some root, units := s₂.units, imports := programImports (s₂.units ++ [root]) }
      ∧ root.ClosedFrom (Location.Stands o lib src o.file) o.file o.root d
      ∧ (∀ u ∈ s₂.units, u.Located o lib src)
      ∧ root.indices + (s₂.units.map CodeUnit.indices).sum = Multiset.range t.located := by
  obtain ⟨d, s₁, root, s₂, drafted, closing, same, located⟩ := outcome_program parsed run
  have lays : (rootSite o lib).Lays (CodeUnit.Located o lib src) (Location.Stands o lib src o.file) :=
    expand_yields reader lib src (fun _ h => h) (fun _ _ h => h) { root := o.file }
  have within : tree.Within (Location.Stands o lib src o.file) (rootSite o lib) :=
    within_of_parse (rootSite o lib) reader (.inl ⟨rfl, rfl⟩) parsed
  obtain ⟨⟨⟨statements, body⟩, present⟩, units, account⟩ :=
    Node.draft_yields lays within (Session.start o) d s₁ drafted (forall_mem_nil _)
  obtain ⟨closed, units', account'⟩ :=
    close_yields (within.pos present) statements body s₁ root s₂ closing units
  refine ⟨d, s₁, root, s₂, drafted, closing, same, closed,
    fun u mem => units' u (mem_append_left _ mem), ?_⟩
  rw [located, ← show _ = Multiset.range s₂.located from account' 0 (account 0 rfl), add_zero]

/-- All units of a program are located. -/
theorem compile_placed (reader : o.parse = Template.parse)
    (compiles : (compile o lib src).1 = .ok p) (mem : u ∈ p.allUnits) :
    (Code.function u).Placed (Location.Stands o lib src u.source) := by
  obtain ⟨tree, t, parsed, run⟩ := Compile.outcome_of_compile compiles
  obtain ⟨d, s₁, root, s₂, -, -, rfl, closed, units, -⟩ := Compile.program_closed reader parsed run
  rcases mem_append.1 mem with unit | isRoot
  · exact (units u unit).placed
  · cases mem_singleton.1 isRoot
    exact closed.source ▸ closed.placed

/-- **Where a program comes from.** If a compilation succeeds, its program is
located throughout, as `Program.Located` says, with as many numbers as there
were locations handed out. -/
theorem compile_located {p : Program} (reader : o.parse = Template.parse)
    (compiles : (compile o lib src).1 = .ok p) :
    p.Located o lib src ((Compile.program o lib src).outcome (Session.start o)).2.located := by
  obtain ⟨tree, t, parsed, run⟩ := Compile.outcome_of_compile compiles
  obtain ⟨d, s₁, root, s₂, drafted, closing, rfl, closed, units, count⟩ :=
    Compile.program_closed reader parsed run
  have made : root.MadeFrom o lib src := by
    refine ⟨tree, { root := o.file }, Session.start o, s₂, parsed, ?_⟩
    rw [closed.source, closed.name, Compile.unit_eq]
    exact (Compile.outcome_bind_ok drafted).trans closing
  rw [run]
  refine .of_units rfl closed.source made (closed.source ▸ closed.placed) closed.names units
    ?_ (fun inPlace => ⟨tree, parsed, Compile.root_inFile reader inPlace drafted closed⟩) ?_
  · intro r mem
    exact (ImportRef.mem_of_mem_foldl mem).resolve_left List.not_mem_nil
  · show ((s₂.units ++ [root]).map CodeUnit.indices).sum = Multiset.range t.located
    rw [← count, List.map_append, List.sum_append, List.map_singleton, List.sum_singleton, add_comm]

private def shelf : Library := ⟨[("b", "\x7b\x7bt|up\x7d\x7d")]⟩

private def listing : Bytes :=
  "\x7b%set z=0%\x7d\x7b%for t in ts%\x7d\x7b%include \"b\"%\x7d\x7b%else%\x7d\x7b\x7bz\x7d\x7d\x7b%endfor%\x7d"

/-- Whether a compilation succeeds with `count` locations. -/
private def locates (o : CompileOptions) (lib : Library) (src : Bytes) (count : Nat) : Bool :=
  match (Compile.program o lib src).outcome (Session.start o) with
  | (.ok _, t) => t.located == count
  | (.error _, _) => false

private theorem ok_of_locates {o : CompileOptions} {lib : Library} {src : Bytes}
    (h : locates o lib src count = true) :
    ((Compile.program o lib src).outcome (Session.start o)).2.located = count
      ∧ ∃ p, (compile o lib src).1 = .ok p := by
  rw [compile_fst]
  unfold locates at h
  split at h
  · next p t run => exact ⟨run ▸ beq_iff_eq.1 h, p, congrArg Prod.fst run⟩
  · cases h

/-- A loop over an included page, in place and as a unit. -/
theorem listing_located :
    (∃ p, (compile {} shelf listing).1 = .ok p ∧ p.Located {} shelf listing 28)
      ∧ ∃ p, (compile { moduleMode := true } shelf listing).1 = .ok p
        ∧ p.Located { moduleMode := true } shelf listing 37 := by
  obtain ⟨count, p, compiles⟩ :=
    ok_of_locates (show locates {} shelf listing 28 = true by cbv)
  obtain ⟨count', p', compiles'⟩ :=
    ok_of_locates (show locates { moduleMode := true } shelf listing 37 = true by cbv)
  exact ⟨⟨p, compiles, count ▸ compile_located rfl compiles⟩,
    p', compiles', count' ▸ compile_located rfl compiles'⟩

end

end TemplateCompiler
