import TemplateCompiler.Proofs.Code.Contexts
import TemplateCompiler.Proofs.Compile.Scopes

/-!
# Closed and linked programs

A program that was compiled can run on its own. Every name in a unit is bound:
by a function around it, as an input or a local of the unit, or outside as a
helper or a reserved name. Every name that is known to the script is `Array` or
that of a unit that is imported, and a call of a unit passes the inputs that
this unit has (`compile_closed`).

What a unit binds is what the resolver finds in it, so names are bound for any
code (`CodeUnit.Scoped.references`). What a unit knows and calls depends on the
code that templates give: `Lowered.regular` says of each piece what it can be.
-/

open List

namespace TemplateCompiler

variable {c d : Code} {calls : Code → Code → Prop}

variable {id : Identifier} {sets : Prop}

/-! ## What stands in generated code -/

/-- **What a piece of generated code can be**: of one of the forms, or a call of
a unit from `calls`, and with it any name. -/
def Code.Regular (calls : Code → Code → Prop) : Code → Prop
  | .identifier _ => True
  | .call loc f args => f.callee? ≠ none → ∃ c, calls c (.call loc f args)
  | e => e.Form

/-- **Generated code is regular**, piece by piece. -/
theorem Lowered.regular (h : Lowered sets calls c d)
    (hc : ∀ c d, calls c d → d.callee? = none ∧ d.Consists (·.Regular calls)) :
    ∀ e ∈ d.preorder, e.Regular calls := by
  refine (h.consists hc fun e form _ => ?_).2
  cases e with
  | identifier => trivial
  | call loc f args => exact fun names => absurd form names
  | _ => exact form

/-! ## Inputs and locals -/

/-- The code that a unit runs. -/
def CodeUnit.code (u : CodeUnit) : List Code := u.statements ++ [u.body]

/-- **The inputs of a unit**: what its first parameter takes apart, each key
with the name that is bound. -/
def CodeUnit.inputBindings (u : CodeUnit) : List (Bytes × Bytes) :=
  match u.params with
  | .destructure d :: _ => d.bindings.map fun b => (b.1, b.2.name)
  | _ => []

/-- The names of the inputs. -/
def CodeUnit.inputNames (u : CodeUnit) : List Bytes := u.inputBindings.map Prod.snd

section

variable {c : Code} {p : Occurrence}

variable {o : CompileOptions} {u : CodeUnit}

/-- **The inputs are the free names**, under the template's spelling. -/
theorem CodeUnit.Scoped.inputBindings_eq (h : u.Scoped o) :
    u.inputBindings
      = (Scope.ofUnit o.reserved u).free.map fun name => (Script.templateName name, name) := by
  have params := h.params
  rw [inputBindings]
  cases first : u.params with
  | nil => rw [first] at params; cases params
  | cons c cs =>
    rw [first, Code.eraseAll, List.cons.injEq] at params
    cases c with
    | destructure d =>
      have erased : d.erase = inputs (Scope.ofUnit o.reserved u).free :=
        Code.destructure.inj params.1
      have bindings := congrArg Destructure.bindings erased
      rw [bindings_erase, bindings_inputs] at bindings
      have named := congrArg (List.map fun b : Bytes × Identifier => (b.1, b.2.name)) bindings
      rw [map_map, map_map] at named
      exact named
    | _ => simp [Code.erase] at params

theorem CodeUnit.Scoped.inputNames_eq (h : u.Scoped o) :
    u.inputNames = (Scope.ofUnit o.reserved u).free := by
  rw [inputNames, h.inputBindings_eq, map_map]
  exact map_id _

/-- What makes up the scope of a unit occurs in its code. -/
theorem Scope.exists_of_mem (mem : p ∈ Code.occurrencesAll [] u.statements ++ u.body.occurrences [])
    :
    ∃ c ∈ u.code, p ∈ c.occurrences [] := by
  rw [Code.occurrencesAll_eq_flatMap] at mem
  rcases mem_append.mp mem with statement | body
  · obtain ⟨c, here, occurs⟩ := mem_flatMap.mp statement
    exact ⟨c, mem_append_left _ here, occurs⟩
  · exact ⟨u.body, mem_append_right _ (mem_singleton_self _), body⟩

/-- What occurs in a unit is known outside, or it is an input or a local. -/
theorem Scope.mem_of_occurs {reserved : List Bytes} (mem : c ∈ u.code)
    (occurs : p ∈ c.occurrences []) :
    p.name ∈ reservedNames reserved ∨ p.name ∈ (ofUnit reserved u).free
      ∨ p.name ∈ (ofUnit reserved u).declared := by
  have inside : p ∈ Code.occurrencesAll [] u.statements ++ u.body.occurrences [] := by
    rcases mem_append.mp mem with mem | mem
    · rw [Code.occurrencesAll_eq_flatMap]
      exact mem_append_left _ (mem_flatMap.mpr ⟨c, mem, occurs⟩)
    · rw [mem_singleton.mp mem] at occurs
      exact mem_append_right _ occurs
  by_cases known : p.name ∈ reservedNames reserved
  · exact .inl known
  by_cases declared : p.name ∈ (ofUnit reserved u).declared
  · exact .inr (.inr declared)
  cases p with
  | read name => exact .inr (.inl (mem_free.mpr ⟨inside, known, declared⟩))
  | assigned name => exact .inr (.inr (mem_declared.mpr ⟨inside, known⟩))

/-- **Every name is bound**: by a function around it, by the unit, or
outside. -/
theorem CodeUnit.Scoped.references (h : u.Scoped o) (mem : c ∈ u.code) {around : List (List Code)}
    (inside : c.Contains around (.identifier id)) (plain : id.builtin = false) :
    id.name ∈ Code.boundBy around ∨ id.name ∈ u.inputNames ∨ id.name ∈ u.locals
      ∨ id.name ∈ Scope.reservedNames o.reserved := by
  by_cases bound : id.name ∈ Code.boundBy around
  · exact .inl bound
  · obtain ⟨p, occurs, same⟩ := inside.occurs [] plain (by simpa using bound)
    rw [h.inputNames_eq, h.locals, ← same]
    rcases Scope.mem_of_occurs mem occurs with known | free | declared
    · exact .inr (.inr (.inr known))
    · exact .inr (.inl free)
    · exact .inr (.inr (.inl declared))

/-- **Inputs and locals are all different.** -/
theorem CodeUnit.Scoped.distinct (h : u.Scoped o) : (u.inputNames ++ u.locals).Nodup := by
  rw [h.inputNames_eq, h.locals, nodup_append]
  refine ⟨Scope.nodup_free _ _, Scope.nodup_declared _ _, ?_⟩
  rintro name free _ declared rfl
  exact (Scope.mem_free.mp free).2.2 declared

end

/-! ## Spelling -/

/-- A name that is spelled as generated code spells the template's name. -/
def Script.Spelled (name : Bytes) : Prop := bindingName (templateName name) = name

theorem Script.spelled_bindingName {n : Bytes} (plain : templateName n = n) :
    Spelled (bindingName n) := by
  rw [Spelled, templateName_bindingName plain]

theorem Script.spelled_filterNamespace : Spelled filterNamespace := by
  rw [Spelled]
  decide

/-- Names that occur in generated code are spelled, if those of calls are. -/
theorem Lowered.spelled (h : Lowered sets calls c d)
    (hc : ∀ c d, calls c d → ∀ bound, ∀ p ∈ d.occurrences bound, Script.Spelled p.name)
    (bound : List Bytes) : ∀ p ∈ d.occurrences bound, Script.Spelled p.name := by
  have one (p : Occurrence) (spelled : Script.Spelled p.name) :
      ∀ q ∈ [p], Script.Spelled q.name := by
    intro q mem
    rwa [mem_singleton.mp mem]
  refine occurrences_rec (R := fun _ qs => ∀ p ∈ qs, Script.Spelled p.name) nofun ?_ ?_ ?_ ?_ hc h
    bound
  · intro _ _ _ _ front back p mem
    exact (mem_append.mp mem).elim (front p) (back p)
  · exact fun n plain => one _ (Script.spelled_bindingName plain)
  · exact one _ Script.spelled_filterNamespace
  · exact fun _ n plain => one _ (Script.spelled_bindingName plain)

section

variable {o : CompileOptions} {lib : Library} {reached : Bytes → Prop} {w : List Finished}

/-- The names in a unit are spelled, if the inputs of the units it calls are. -/
theorem CodeUnit.Made.spelled {d : List Code × Code} {u : CodeUnit}
    (made : u.Made o sets w d) (scopes : ∀ f ∈ w, f.unit.Scoped o)
    (calls : ∀ f ∈ w, ∀ name ∈ (Scope.ofUnit o.reserved f.unit).free, Script.Spelled name) :
    ∀ c ∈ u.code, ∀ bound, ∀ p ∈ c.occurrences bound, Script.Spelled p.name := by
  have called : ∀ c d, Calls w c d → ∀ bound, ∀ p ∈ d.occurrences bound,
      Script.Spelled p.name := by
    rintro _ _ ⟨f, mem, rfl, rfl⟩ bound p occurs
    rw [Finished.occurrences_call (scopes f mem)] at occurs
    obtain ⟨name, passed, rfl⟩ := mem_map.mp (mem_of_mem_filter occurs)
    rcases mem_append.mp passed with input | filters
    · exact calls f mem name input
    · rw [mem_singleton.mp filters]
      exact Script.spelled_filterNamespace
  intro c mem bound p occurs
  rw [← Code.occurrences_erase] at occurs
  rcases mem_append.mp mem with statement | body
  · obtain ⟨x, lowered⟩ := Lowered.of_mem made.statements statement
    exact lowered.spelled called bound p occurs
  · rw [mem_singleton.mp body] at occurs
    exact made.body.spelled called bound p occurs

/-- **The inputs of every unit are spelled.** -/
theorem Linked.spelled (linked : Linked o lib reached w) :
    ∀ f ∈ w, ∀ name ∈ (Scope.ofUnit o.reserved f.unit).free, Script.Spelled name := by
  induction linked with
  | nil => exact fun f mem => absurd mem not_mem_nil
  | @cons f w earlier sound ih =>
    obtain ⟨d, made, -⟩ := sound.made
    intro g mem
    rcases mem_cons.mp mem with rfl | mem
    · intro name free
      obtain ⟨c, here, occurs⟩ := Scope.exists_of_mem (Scope.mem_free.mp free).1
      exact made.spelled (fun f mem => earlier.scopes mem) ih c here [] _ occurs
    · exact ih g mem

end

/-! ## Imports -/

section

variable {c e : Code}

variable {o : CompileOptions} {lib : Library} {reached : Bytes → Prop} {w : List Finished}
  {sets : Prop} {d : List Code × Code} {u : CodeUnit}

/-- The names known to the script in what a unit runs. -/
theorem CodeUnit.Made.knows (made : u.Made o sets w d)
    (inside : id ∈ Code.namesAll u.statements ++ u.body.names) (known : id.builtin = true) :
    id.name = "Array" ∨ ∃ f ∈ w, f.unit.name = id.name := by
  have knows {x c : Code} (lowered : Lowered sets (Calls w) x c.erase) :
      c.Knows fun name => name = "Array" ∨ ∃ f ∈ w, f.unit.name = name :=
    Code.knows_erase.mp (lowered.knows (.inl rfl) fun _ _ call =>
      call.knows fun f mem => .inr ⟨f, mem, rfl⟩)
  rcases mem_append.mp inside with inside | inside
  · obtain ⟨c, mem, inside⟩ := mem_flatMap.mp inside
    obtain ⟨x, lowered⟩ := Lowered.of_mem made.statements mem
    exact knows lowered id inside known
  · exact knows made.body id inside known

/-- **Every import** is of a finished unit, and the unit is known here. -/
theorem CodeUnit.Made.imported (made : u.Made o sets w d) {r : ImportRef} (mem : r ∈ u.imports) :
    ∃ f ∈ w, f.unit.name = r.unit ∧ f.unit.source = r.source
      ∧ ∃ id ∈ Code.namesAll u.statements ++ u.body.names,
        id.builtin = true ∧ id.name = r.unit := by
  have erased : r.erase ∈ u.imports.map ImportRef.erase := mem_map_of_mem mem
  rw [made.imports] at erased
  rcases ImportRef.mem_of_mem_foldl erased with none | called
  · exact absurd none not_mem_nil
  · obtain ⟨id, inside, found⟩ := mem_filterMap.mp called
    split at found
    · next known =>
      obtain ⟨f, here, same⟩ := Option.map_eq_some_iff.mp found
      have name : f.unit.name = r.unit := congrArg ImportRef.unit same
      have first := find?_some here
      exact ⟨f, mem_of_find?_eq_some here, name, congrArg ImportRef.source same, id, inside,
        known, (beq_iff_eq.mp first).symm.trans name⟩
    · cases found

/-- **Every unit that is known is imported.** -/
theorem CodeUnit.Made.imports_of_known (made : u.Made o sets w d)
    (inside : id ∈ Code.namesAll u.statements ++ u.body.names) (known : id.builtin = true)
    (unit : ∃ f ∈ w, f.unit.name = id.name) : ∃ r ∈ u.imports, r.unit = id.name := by
  obtain ⟨f, mem, same⟩ := unit
  have found : (w.find? (·.unit.name == id.name)).isSome :=
    find?_isSome.mpr ⟨f, mem, beq_iff_eq.mpr same⟩
  obtain ⟨g, first⟩ := Option.isSome_iff_exists.mp found
  have called : g.ref ∈ u.called w := by
    refine mem_filterMap.mpr ⟨id, inside, ?_⟩
    rw [known, if_pos rfl, first]
    rfl
  have names := (ImportRef.units_foldl (u.called w) [] g.unit.name).mpr
    (.inr (mem_map_of_mem called))
  rw [← made.imports, map_map] at names
  obtain ⟨r, here, named⟩ := mem_map.mp names
  have last := find?_some first
  exact ⟨r, here, named.trans (beq_iff_eq.mp last)⟩

/-! ## Calls -/

/-- Calls of units stand in regular code. -/
theorem Calls.regular (c d : Code) (h : Calls w c d) :
    d.callee? = none ∧ d.Consists (·.Regular (Calls w)) := by
  obtain ⟨f, mem, rfl, rfl⟩ := h
  refine ⟨rfl, rfl, fun e piece => ?_⟩
  obtain rfl | ⟨id, rfl, -⟩ | ⟨props, rfl, -⟩ := f.mem_call e piece
  · exact fun _ => ⟨_, f, mem, rfl, rfl⟩
  · trivial
  · trivial

/-- **The pieces of a unit are regular**, up to locations. -/
theorem CodeUnit.Made.regular_of_mem (made : u.Made o sets w d) (mem : c ∈ u.code)
    (inside : e ∈ c.preorder) : e.erase.Regular (Calls w) := by
  have piece : e.erase ∈ c.erase.preorder := Code.preorder_erase c ▸ mem_map_of_mem inside
  rcases mem_append.mp mem with mem | mem
  · obtain ⟨x, lowered⟩ := Lowered.of_mem made.statements mem
    exact lowered.regular Calls.regular _ piece
  · rw [mem_singleton.mp mem] at piece
    exact made.body.regular Calls.regular _ piece

/-- **What stands in a unit is regular**, up to locations. -/
theorem CodeUnit.Made.regular (made : u.Made o sets w d) (mem : c ∈ u.code)
    {around : List (List Code)} (inside : c.Contains around e) :
    e.erase.Regular (Calls w) := by
  cases present : e.isMissing with
  | true =>
    cases e with
    | missing => trivial
    | _ => cases present
  | false => exact made.regular_of_mem mem (inside.mem_preorder present)

/-- Units of different partials have different names. -/
theorem Linked.eq_of_name (linked : Linked o lib reached w) {f g : Finished} (hf : f ∈ w)
    (hg : g ∈ w) (same : f.unit.name = g.unit.name) : f = g := by
  induction linked with
  | nil => exact absurd hf not_mem_nil
  | @cons k w _ sound ih =>
    rcases mem_cons.mp hf with rfl | before <;> rcases mem_cons.mp hg with rfl | before'
    · rfl
    · exact absurd same.symm (sound.distinct g before').1
    · exact absurd same (sound.distinct f before).1
    · exact ih before before'

/-- **A call of a unit** passes each input under its key, and the filters. -/
theorem Linked.args_of_call (linked : Linked o lib reached w) {args : List Code}
    (call : Calls w c (.call none (.identifier id) args)) :
    ∃ f ∈ w, id.name = f.unit.name
      ∧ args = [.object none (f.unit.inputBindings.map fun b =>
          (b.1, .ident (Script.bindingName b.1))), .ident Script.filterNamespace] := by
  obtain ⟨f, mem, -, same⟩ := call
  rw [Finished.call_eq (linked.scopes mem), Code.call.injEq, Code.identifier.injEq] at same
  obtain ⟨-, named, passed⟩ := same
  refine ⟨f, mem, congrArg Identifier.name named, ?_⟩
  rw [passed, (linked.scopes mem).inputBindings_eq, map_map]
  congr 2
  refine map_congr_left fun name free => ?_
  have spelled : Script.bindingName (Script.templateName name) = name :=
    linked.spelled f mem name free
  rw [Function.comp_apply, spelled]

end

/-! ## Programs -/

/-- **A unit that is closed and linked** in its program. -/
structure CodeUnit.Closed (o : CompileOptions) (p : Program) (u : CodeUnit) : Prop where
  /-- Every name that refers to something is bound by a function around it, is
  an input or a local, or is known outside. -/
  references : ∀ c ∈ u.code, ∀ around (id : Identifier), c.Contains around (.identifier id) →
    id.builtin = false → id.name ∈ Code.boundBy around ∨ id.name ∈ u.inputNames
      ∨ id.name ∈ u.locals ∨ id.name = "html" ∨ id.name = "repeat" ∨ id.name = "_F"
      ∨ ∃ r ∈ o.reserved, id.name = Script.bindingName r
  /-- Inputs and locals are all different. -/
  distinct : (u.inputNames ++ u.locals).Nodup
  /-- Resolving the finished unit again finds its inputs and its locals. -/
  resolved : Scope.ofUnit o.reserved u = ⟨u.locals, u.inputNames⟩
  /-- Every name known to the script is `Array`, or it is imported and names a
  unit of the program. -/
  known : ∀ id : Identifier, .identifier id ∈ (Code.function u).preorder → id.builtin = true →
    id.name = "Array" ∨ ∃ r ∈ u.imports, r.unit = id.name
      ∧ ∃ v ∈ p.units, v.name = r.unit ∧ v.source = r.source
  /-- A call of a unit passes its inputs, by key and in order, and the
  filters. -/
  calls : ∀ c ∈ u.code, ∀ around loc (id : Identifier) args,
    c.Contains around (.call loc (.identifier id) args) → id.builtin = true →
    ∀ v ∈ p.units, v.name = id.name → args.map Code.erase
      = [.object none (v.inputBindings.map fun b => (b.1, .ident (Script.bindingName b.1))),
        .ident "_F"]

section

variable {o : CompileOptions} {lib : Library} {reached : Bytes → Prop} {v w : List Finished}
  {sets : Prop} {d : List Code × Code} {u : CodeUnit} {p : Program}

/-- The names in the parameters of a unit are none that the script knows. -/
theorem CodeUnit.Scoped.params_plain (h : u.Scoped o)
    (mem : id ∈ Code.namesAll u.params) : id.builtin = false := by
  have erased : id.erase ∈ Code.namesAll (Code.eraseAll u.params) := by
    rw [Code.namesAll_erase]
    exact mem_map_of_mem mem
  rw [h.params, Code.namesAll_cons, Code.namesAll_cons, Code.names_destructure, inputs,
    Destructure.names_foldl_add] at erased
  rw [← Identifier.erase_builtin]
  rcases mem_append.mp erased with input | filters
  · obtain ⟨name, -, same⟩ := mem_map.mp input
    rw [← same]
  · rw [mem_singleton.mp filters]

/-- A unit that was made when `v` was finished is closed in a program with the
units of `v` in it. -/
theorem CodeUnit.Made.closed (made : u.Made o sets v d) (linked : Linked o lib reached v)
    (whole : Linked o lib reached w) (earlier : v <:+ w)
    (units : p.units = (w.map Finished.unit).reverse) : u.Closed o p where
  references c mem around id inside plain := by
    rcases made.scopes.references mem inside plain with bound | input | declared | known
    · exact .inl bound
    · exact .inr (.inl input)
    · exact .inr (.inr (.inl declared))
    · refine .inr (.inr (.inr ?_))
      rcases mem_append.mp known with helper | reserved
      · simp only [Script.helpers, mem_cons, not_mem_nil, or_false] at helper
        exact helper.imp_right (Or.imp_right .inl)
      · obtain ⟨r, mem, same⟩ := mem_map.mp reserved
        exact .inr (.inr (.inr ⟨r, mem, same.symm⟩))
  distinct := made.scopes.distinct
  resolved := by rw [made.scopes.inputNames_eq, made.scopes.locals]
  known id inside builtin := by
    rw [← Code.mem_names, Code.names_function, append_assoc] at inside
    rcases mem_append.mp inside with param | inside
    · rw [made.scopes.params_plain param] at builtin
      cases builtin
    · refine (made.knows inside builtin).imp_right fun unit => ?_
      obtain ⟨r, imported, same⟩ := made.imports_of_known inside builtin unit
      obtain ⟨f, finished, name, source, -⟩ := made.imported imported
      have mem : f.unit ∈ p.units := by
        rw [units]
        exact mem_reverse.mpr (mem_map_of_mem (earlier.mem finished))
      exact ⟨r, imported, same, f.unit, mem, name, source⟩
  calls c mem around loc id args inside builtin unit found named := by
    have callee : (Code.identifier id.erase).callee? ≠ none := by simp [Code.callee?, builtin]
    obtain ⟨x, call⟩ := made.regular mem inside callee
    obtain ⟨f, finished, same, passed⟩ := linked.args_of_call call
    rw [units] at found
    obtain ⟨g, finished', rfl⟩ := mem_map.mp (mem_reverse.mp found)
    cases whole.eq_of_name finished' (earlier.mem finished) (named.trans same)
    rw [← Code.eraseAll_eq_map]
    exact passed

end

/-- **Every compiled program is closed and linked.** -/
theorem compile_closed {o : CompileOptions} {lib : Library} {src : Bytes} {p : Program}
    (h : (compile o lib src).1 = .ok p) : ∀ u ∈ p.allUnits, u.Closed o p := by
  intro u mem
  obtain ⟨v, w, sets, d, linked, earlier, units, made⟩ := compile_made_unit h mem
  exact made.closed (linked.of_suffix earlier) linked earlier units

section

private def badges : Library :=
  ⟨[("badge", "\x7b% set size = base %\x7d\x7b\x7b size + user.rank \x7d\x7d")]⟩

private def profile : Bytes :=
  "\x7b% for user in users %\x7d\x7b% include \"badge\" %\x7d\x7b% endfor %\x7d"

private def profileNames : List (List Bytes × List Bytes) :=
  [(["base", "user"], ["size"]), (["users", "base"], [])]

private theorem profile_units : ((compile { moduleMode := true } badges profile).1.toOption.map
    fun p => p.allUnits.map fun u => (u.inputNames, u.locals)) = some profileNames := by cbv

/-- A unit with two inputs and a local, called where a loop binds one of the
inputs. -/
theorem profile_closed :
    ∃ p, (compile { moduleMode := true } badges profile).1 = .ok p
      ∧ p.allUnits.map (fun u => (u.inputNames, u.locals)) = profileNames
      ∧ ∀ u ∈ p.allUnits, u.Closed { moduleMode := true } p := by
  have units := profile_units
  cases compiled : (compile { moduleMode := true } badges profile).1 with
  | error e => rw [compiled] at units; cases units
  | ok p =>
    rw [compiled] at units
    exact ⟨p, rfl, Option.some.inj units, compile_closed compiled⟩

end

end TemplateCompiler
