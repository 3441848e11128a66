import TemplateCompiler.Proofs.Compile.Closedness

/-!
# Names that templates can hide

Generated code refers to names that no template wrote: the tag of text, the
filters, `Array` in the guard of a loop, and the units of partials. A unit is
hygienic if none of them is hidden by a name of the template, and if no counter
of a loop hides a name that the template reads.

Compilation does not always give hygienic units. The tag and the filters are
never inputs or locals, but a loop variable may have their names; `Array` and
the names of units are protected from neither; and a loop that has a variable
`index` numbers its items under a name that its body may read.
`compile_hygienic_iff` says exactly which units are hygienic, and
`counter_hides_input` gives a template for which the unit is not.
-/

open List

namespace TemplateCompiler

namespace Code

/-- Whether a callee is reached through the filters. -/
def isFilter : Code → Bool
  | .member _ (.identifier id) _ false => !id.builtin && id.name == Script.filterNamespace
  | .member _ o _ false => o.isFilter
  | _ => false

/-- **The names that are supplied** at a piece of code: names known to the
script, the filters where a filter or a unit is called, and the tag of text. -/
def supplied : Code → List Bytes
  | .identifier id => if id.builtin then [id.name] else []
  | .call _ f _ => if f.callee?.isSome || f.isFilter then [Script.filterNamespace] else []
  | .interpolation _ tag _ _ => [tag]
  | _ => []

/-- The variables of the loops around a piece of code. -/
def loopVariables (around : List (List Code)) : List Bytes :=
  around.flatMap fun params => (params.take 1).flatMap binders

end Code

/-- **A hygienic unit**: no name of the template hides a name that is supplied,
and no counter but `index` hides a name that is read. -/
structure CodeUnit.Hygienic (u : CodeUnit) : Prop where
  loops : ∀ c ∈ u.code, ∀ around e, c.Contains around e →
    ∀ name ∈ e.supplied, name ∉ Code.loopVariables around
  inputs : ∀ c ∈ u.code, ∀ around e, c.Contains around e →
    ∀ name ∈ e.supplied, name ∉ u.inputNames ++ u.locals
  counters : ∀ c ∈ u.code, ∀ around loc param counter body block,
    c.Contains around (.lambda loc [param, counter] body block) →
    ∀ name ∈ counter.binders, name ≠ "index" → .read name ∉ body.occurrences []

/-- **A unit without clashes**: what a template has to avoid. -/
structure CodeUnit.Clashless (u : CodeUnit) : Prop where
  /-- No loop variable is named like something supplied inside the loop. -/
  loops : ∀ c ∈ u.code, ∀ around e, c.Contains around e →
    ∀ name ∈ e.supplied, name ∉ Code.loopVariables around
  /-- In a unit with a loop, no input or local is named `Array`. -/
  array : ∀ c ∈ u.code, ∀ around loc, c.Contains around (.identifier ⟨loc, "Array", true⟩) →
    ("Array" : Bytes) ∉ u.inputNames ++ u.locals
  /-- No input or local is named like a unit that is imported. -/
  imports : ∀ r ∈ u.imports, r.unit ∉ u.inputNames ++ u.locals
  /-- A loop with a variable `index` does not read the name of its counter. -/
  counters : ∀ c ∈ u.code, ∀ around loc param counter body block,
    c.Contains around (.lambda loc [param, counter] body block) → ("index" : Bytes) ∈ param.binders →
    .read (Node.loopCounter param.binders) ∉ body.occurrences []

section

variable {name : Bytes} {c e : Code} {id : Identifier} {around : List (List Code)}

variable {o : CompileOptions} {lib : Library} {reached : Bytes → Prop} {w : List Finished}
  {sets : Prop} {d : List Code × Code} {u : CodeUnit}

/-! ## Where known names stand -/

/-- Identifiers that refer to nothing are not known to the script. -/
theorem Code.Regular.margin_plain {calls : Code → Code → Prop} (regular : e.erase.Regular calls)
    (mem : id ∈ e.margin) :
    id.builtin = false := by
  have erased : e.margin.map Identifier.erase = e.erase.margin := by
    cases e with
    | member loc o p computed => cases computed <;> simp [erase, margin, names_erase]
    | lambda => exact (namesAll_erase _).symm
    | function u => exact regular.elim
    | _ => rfl
  have mem' : id.erase ∈ e.erase.margin := erased ▸ mem_map_of_mem mem
  rw [← Identifier.erase_builtin]
  generalize e.erase = e at regular mem'
  cases e with
  | member loc o p computed =>
    cases computed with
    | true => exact absurd mem' not_mem_nil
    | false =>
      obtain ⟨key, rfl⟩ := regular rfl
      rw [mem_singleton.mp mem']
  | lambda loc params body block =>
    rcases regular with rfl | ⟨param, binds, rfl⟩
    · exact absurd mem' not_mem_nil
    · rcases mem_append.mp mem' with loopVariable | counter
      · by_contra known
        have nothing : param.Knows fun _ => False := Lowered.knows_loopParam binds
        exact nothing _ loopVariable (by simpa using known)
      · rw [mem_singleton.mp counter]
  | function u => exact regular.elim
  | _ => exact absurd mem' not_mem_nil

/-- **A name known to the script** stands where it refers to something. -/
theorem CodeUnit.Made.contains_known (made : u.Made o sets w d)
    (inside : id ∈ Code.namesAll u.statements ++ u.body.names) (known : id.builtin = true) :
    ∃ c ∈ u.code, ∃ around, c.Contains around (.identifier id) := by
  have found : ∃ c ∈ u.code, id ∈ c.names := by
    rcases mem_append.mp inside with inside | inside
    · obtain ⟨c, mem, here⟩ := mem_flatMap.mp inside
      exact ⟨c, mem_append_left _ mem, here⟩
    · exact ⟨u.body, mem_append_right _ mem_cons_self, inside⟩
  obtain ⟨c, mem, here⟩ := found
  rcases Code.contains_of_mem_names c here with ⟨around, found⟩ | ⟨around, e, found, margin⟩
  · exact ⟨c, mem, around, found⟩
  · rw [(made.regular mem found).margin_plain margin] at known
    cases known

/-! ## What can be hidden -/

/-- **What is supplied** is the tag, the filters, or a name known to the
script. -/
theorem CodeUnit.Made.supplied_cases (made : u.Made o sets w d) (mem : c ∈ u.code)
    (inside : c.Contains around e) (supplied : name ∈ e.supplied) :
    name ∈ Script.helpers ∨ ∃ id, e = .identifier id ∧ id.builtin = true ∧ id.name = name := by
  have regular := made.regular mem inside
  cases e with
  | identifier id =>
    rw [Code.supplied] at supplied
    split at supplied
    · next known => exact .inr ⟨id, rfl, known, (mem_singleton.mp supplied).symm⟩
    · exact absurd supplied not_mem_nil
  | call loc f args =>
    rw [Code.supplied] at supplied
    split at supplied
    · rw [mem_singleton.mp supplied]
      exact .inl (by decide)
    · exact absurd supplied not_mem_nil
  | interpolation loc tag runs holes =>
    have tagged : tag = Script.htmlTag := regular.1
    rw [mem_singleton.mp supplied, tagged]
    exact .inl (by decide)
  | _ => exact absurd supplied not_mem_nil

/-- The helpers are no inputs and no locals. -/
theorem CodeUnit.Scoped.helpers_apart (h : u.Scoped o) (helper : name ∈ Script.helpers) :
    name ∉ u.inputNames ++ u.locals := by
  have reserved : name ∈ Scope.reservedNames o.reserved := mem_append_left _ helper
  rw [h.inputNames_eq, h.locals]
  intro mem
  rcases mem_append.mp mem with free | declared
  · exact (Scope.mem_free.mp free).2.1 reserved
  · exact (Scope.mem_declared.mp declared).2 reserved

/-- **The counter of a loop** is called `index`, unless a variable is. -/
theorem CodeUnit.Made.counter (made : u.Made o sets w d) {param counter body : Code}
    {block : List Code} {loc : Option Location} (mem : c ∈ u.code)
    (inside : c.Contains around (.lambda loc [param, counter] body block)) :
    counter.binders = [Node.loopCounter param.binders] := by
  rcases made.regular mem inside with none | ⟨first, -, same⟩
  · cases none
  · simp only [Code.eraseAll, List.cons.injEq] at same
    obtain ⟨param', counter', -⟩ := same
    rw [← Code.binders_erase counter, counter', ← Code.binders_erase param, param']
    rfl

/-- **Which units are hygienic**, among those that were made. -/
theorem CodeUnit.Made.hygienic_iff (made : u.Made o sets w d) :
    u.Hygienic ↔ u.Clashless := by
  constructor
  · rintro ⟨loops, inputs, counters⟩
    refine ⟨loops, ?_, ?_, ?_⟩
    · intro c mem around loc inside
      exact inputs c mem around _ inside _ mem_cons_self
    · intro r imported
      obtain ⟨f, -, -, -, id, inside, known, named⟩ := made.imported imported
      obtain ⟨c, mem, around, found⟩ := made.contains_known inside known
      refine inputs c mem around _ found _ ?_
      rw [Code.supplied, if_pos known, named]
      exact mem_cons_self
    · intro c mem around loc param counter body block inside index
      have counted := made.counter mem inside
      refine counters c mem around loc param counter body block inside _ ?_ ?_
      · rw [counted]
        exact mem_cons_self
      · intro same
        exact (Script.fresh_eq_base _ _).mp same index
  · rintro ⟨loops, array, imports, counters⟩
    refine ⟨loops, ?_, ?_⟩
    · intro c mem around e inside name supplied
      rcases made.supplied_cases mem inside supplied with helper | ⟨id, rfl, known, rfl⟩
      · exact made.scopes.helpers_apart helper
      · have here : id ∈ c.names := inside.mem_names mem_cons_self
        have names : id ∈ Code.namesAll u.statements ++ u.body.names := by
          rcases mem_append.mp mem with mem | mem
          · exact mem_append_left _ (mem_flatMap.mpr ⟨c, mem, here⟩)
          · rw [mem_singleton.mp mem] at here
            exact mem_append_right _ here
        rcases made.knows names known with isArray | unit
        · obtain ⟨loc, name, builtin⟩ := id
          cases isArray
          cases known
          exact array c mem around loc inside
        · obtain ⟨r, imported, named⟩ := made.imports_of_known names known unit
          rw [← named]
          exact imports r imported
    · intro c mem around loc param counter body block inside name binds other
      rw [made.counter mem inside, mem_singleton] at binds
      rw [binds] at other ⊢
      refine counters c mem around loc param counter body block inside ?_
      by_contra free
      exact other ((Script.fresh_eq_base _ _).mpr free)

end

/-- **Exactly the units without clashes are hygienic**, in every compiled
program. -/
theorem compile_hygienic_iff {o : CompileOptions} {lib : Library} {src : Bytes} {p : Program}
    (h : (compile o lib src).1 = .ok p) : ∀ u ∈ p.allUnits, u.Hygienic ↔ u.Clashless := by
  intro u mem
  obtain ⟨v, w, sets, d, -, -, -, made⟩ := compile_made_unit h mem
  exact made.hygienic_iff

section

private def numberedRows : Bytes :=
  "\x7b% for index in xs %\x7d\x7b\x7b index_2 \x7d\x7d\x7b% endfor %\x7d"

/-- The counter and the body of code that is one loop. -/
private def loopOf? : Code → Option (Code × Code)
  | .conditional _ _ (.call _ _ [.lambda _ [_, counter] body _]) _ => some (counter, body)
  | _ => none

private theorem contains_of_loopOf? {c counter body : Code} (h : loopOf? c = some (counter, body)) :
    ∃ loc param block, c.Contains [] (.lambda loc [param, counter] body block) := by
  unfold loopOf? at h
  split at h
  · next place test called callee loc param counter body block alternate =>
    cases h
    refine ⟨loc, param, block, ?_⟩
    have inside : (Code.call called callee [.lambda loc [param, counter] body block]).Contains
        ([] ++ []) (.lambda loc [param, counter] body block) :=
      .part (by simp [Code.operands]) (.self _)
    have whole : (Code.conditional place test
        (.call called callee [.lambda loc [param, counter] body block]) alternate).Contains
        ([] ++ []) (.lambda loc [param, counter] body block) :=
      .part (by simp [Code.operands]) inside
    exact whole
  · cases h

private theorem numberedRows_loop :
    ((compile {} {} numberedRows).1.toOption.bind fun p => p.root.bind fun u =>
      (loopOf? u.body).map fun l => (l.1.binders, l.2.occurrences []))
      = some ([Bytes.ofString "index_2"], [.read "index_2"]) := by cbv

/-- The two conditions at one template. -/
theorem numberedRows_hygienic_iff :
    ∃ p, (compile {} {} numberedRows).1 = .ok p ∧ ∀ u ∈ p.allUnits, u.Hygienic ↔ u.Clashless := by
  have compiled := numberedRows_loop
  cases ends : (compile {} {} numberedRows).1 with
  | error e => rw [ends] at compiled; cases compiled
  | ok p => exact ⟨p, rfl, compile_hygienic_iff ends⟩

/-- **A counter hides an input.** The loop has a variable `index`, so its
counter is `index_2`, and this is what the body reads. -/
theorem counter_hides_input :
    ∃ p, (compile {} {} numberedRows).1 = .ok p ∧ ∃ u ∈ p.allUnits, ¬ u.Hygienic := by
  have compiled := numberedRows_loop
  cases ends : (compile {} {} numberedRows).1 with
  | error e => rw [ends] at compiled; cases compiled
  | ok p =>
    rw [ends] at compiled
    obtain ⟨q, same, found⟩ := Option.bind_eq_some_iff.mp compiled
    cases same
    obtain ⟨u, root, found⟩ := Option.bind_eq_some_iff.mp found
    obtain ⟨⟨counter, body⟩, loop, parts⟩ := Option.map_eq_some_iff.mp found
    obtain ⟨binders, reads⟩ := Prod.mk.inj parts
    obtain ⟨loc, param, block, inside⟩ := contains_of_loopOf? loop
    refine ⟨p, rfl, u, List.mem_append_right _ (by rw [root]; exact List.mem_cons_self), ?_⟩
    intro hygienic
    have body_mem : u.body ∈ u.code := List.mem_append_right _ List.mem_cons_self
    have hidden := hygienic.counters _ body_mem _ _ _ _ _ _ inside "index_2"
    rw [binders, reads] at hidden
    exact hidden List.mem_cons_self (by decide) List.mem_cons_self

end

end TemplateCompiler
