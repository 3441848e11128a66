import TemplateCompiler.Proofs.Compile.Hygiene
import TemplateCompiler.Proofs.Compile.Inputs
import TemplateCompiler.Proofs.Compile.Located

/-!
# The names of generated code

Every name that a compiled unit binds or refers to can stand where it does. It
is an identifier and no keyword of the script, and it is the spelling of one
name of the template only, so no two variables are merged. What is bound at one
place is all different: the parameters of a function, and the filters, the
inputs and the locals of a unit (`compile_legal`).

That names are spelled, and what functions there are, is known of all code that
is made from templates. That names are identifiers depends on the parser, which
reads no others, and is known of code that is located.
-/

open List

namespace TemplateCompiler

variable {name : Bytes} {e : Code}

/-! ## Legal names -/

namespace Script

/-- **A legal name** of generated code: an identifier and no keyword, which is
given to one name of the template and to no other. -/
structure Legal (name : Bytes) : Prop where
  word : isIdentifier name = true
  unreserved : name ∉ keywords
  spells : ∀ (n : Node) (key : Bytes), n.binding key = .ok { name } ↔ key = templateName name

theorem templateName_of_keyword : ∀ name ∈ keywords, templateName name = name := by decide

theorem templateName_templateName (name : Bytes) :
    templateName (templateName name) = templateName name := by
  by_cases keyword : templateName name ∈ keywords
  · exact templateName_of_keyword _ keyword
  · -- A name that is not shortened stays the same.
    have same : templateName name = name := by
      unfold templateName at keyword ⊢
      split
      · next short _ =>
        split
        · next short' => simp_all [isKeyword]
        · rfl
      · rfl
    rw [same, same]

theorem Spelled.unreserved (spelled : Spelled name) : name ∉ keywords := by
  intro keyword
  rw [Spelled, templateName_of_keyword name keyword, bindingName, isKeyword,
    if_pos (contains_iff_mem.2 keyword)] at spelled
  simpa using congrArg List.length spelled

theorem Spelled.legal (spelled : Spelled name) (word : isIdentifier name = true) :
    Legal name where
  word := word
  unreserved := spelled.unreserved
  spells n key := by
    constructor
    · intro bound
      obtain ⟨plain, same⟩ := Node.binding_ok bound
      cases same
      exact (templateName_bindingName plain).symm
    · rintro rfl
      rw [Node.binding, templateName_templateName, if_pos (beq_self_eq_true _),
        show bindingName (templateName name) = name from spelled]

end Script

/-! ## Where names are bound -/

namespace Code

/-- The names that a function in code binds. -/
def functionBinders : Code → List Bytes
  | .lambda _ params _ _ => params.flatMap binders
  | _ => []

theorem mem_preorder_trans {c d e : Code} (outer : d ∈ c.preorder) (inner : e ∈ d.preorder) :
    e ∈ c.preorder := by
  cases present : c.isMissing with
  | true => cases c <;> cases present; cases outer
  | false =>
    rw [preorder_eq c present] at outer
    rcases mem_cons.1 outer with rfl | below
    · exact inner
    · obtain ⟨x, part, below⟩ := mem_flatMap.1 below
      have smaller := sizeOf_lt_of_mem_parts part
      exact mem_preorder_of_part part (mem_preorder_trans below inner)
termination_by sizeOf c

theorem exists_of_mem_binders {c : Code} (mem : name ∈ c.binders) :
    ∃ id ∈ c.names, id.name = name := by
  cases c with
  | identifier id => exact ⟨id, by simp, (mem_singleton.1 mem).symm⟩
  | destructure d => simpa [binders] using mem
  | _ => cases mem

/-- A pattern has no functions in it. -/
theorem functionBinders_of_destructure {d : Destructure}
    (mem : e ∈ (Code.destructure d).preorder) : e.functionBinders = [] := by
  refine forall_mem_preorder (P := fun e => e.functionBinders = []) rfl (fun c part => ?_) e mem
  obtain ⟨id, -, rfl⟩ := mem_map.1 part
  exact forall_mem_preorder rfl (forall_mem_nil _)

/-- **The functions around a piece of code** are pieces of the code. -/
theorem Contains.bound {c e : Code} {around : List (List Code)} (h : c.Contains around e)
    (mem : name ∈ boundBy around) :
    (∃ d ∈ c.preorder, name ∈ d.functionBinders) ∨ ∃ u, .function u ∈ c.preorder := by
  induction h with
  | self c => cases mem
  | @part c d e inner around operand inside ih =>
    have below {x : Code} (piece : x ∈ d.preorder) : x ∈ c.preorder :=
      mem_preorder_of_part (mem_parts_of_operand operand) piece
    rw [boundBy_append, mem_append] at mem
    rcases mem with outer | here
    · exact (ih outer).imp (fun ⟨x, piece, binds⟩ => ⟨x, below piece, binds⟩)
        fun ⟨u, piece⟩ => ⟨u, below piece⟩
    · clear ih
      cases c with
      | lambda loc params body block =>
        have same : inner = [params] := by
          obtain ⟨x, -, same⟩ := mem_map.1 operand
          exact (congrArg Prod.fst same).symm
        refine .inl ⟨_, preorder_eq (.lambda loc params body block) rfl ▸ mem_cons_self, ?_⟩
        rwa [same, boundBy_singleton] at here
      | function u => exact .inr ⟨u, preorder_eq (.function u) rfl ▸ mem_cons_self⟩
      | missing | literal | identifier | importRef => cases operand
      | _ =>
        have none : inner = [] := by
          simp only [operands] at operand
          grind
        rw [none] at here
        cases here

end Code

/-! ## Units -/

/-- All names that a unit binds: its parameters, its locals and the parameters
of the functions in it. -/
def CodeUnit.bound (u : CodeUnit) : List Bytes :=
  u.params.flatMap Code.binders ++ u.locals ++ (Code.function u).preorder.flatMap Code.functionBinders

/-- **A unit with legal names.** -/
structure CodeUnit.Legal (u : CodeUnit) : Prop where
  /-- The parameters of a function in the unit are all different. -/
  functions : ∀ c ∈ (Code.function u).preorder, c.functionBinders.Nodup
  /-- The parameters of the unit bind its inputs and the filters. -/
  params : u.params.flatMap Code.binders = u.inputNames ++ [Script.filterNamespace]
  /-- The filters, the inputs and the locals are all different. -/
  distinct : (Script.filterNamespace :: (u.inputNames ++ u.locals)).Nodup
  /-- The key of an input is the template's spelling of its name. -/
  keys : ∀ b ∈ u.inputBindings,
    Script.templateName b.2 = b.1 ∧ Script.bindingName b.1 = b.2
  /-- Every name that is bound is legal. -/
  bound : ∀ name ∈ u.bound, Script.Legal name
  /-- Every name that is referred to is legal, but for names that the script
  knows. -/
  referenced : ∀ c ∈ u.code, ∀ around (id : Identifier), c.Contains around (.identifier id) →
    id.builtin = false → Script.Legal id.name

section

variable {o : CompileOptions} {lib : Library} {w : List Finished} {sets : Prop}
  {d : List Code × Code} {u : CodeUnit}

/-- A function in a unit stands in the code that the unit runs. -/
theorem CodeUnit.Scoped.exists_code (h : u.Scoped o)
    (mem : e ∈ (Code.function u).preorder) (binds : e.functionBinders ≠ []) :
    ∃ c ∈ u.code, e ∈ c.preorder := by
  rw [Code.preorder_eq _ rfl] at mem
  rcases mem_cons.1 mem with rfl | mem
  · exact absurd rfl binds
  · obtain ⟨c, part, inside⟩ := mem_flatMap.1 mem
    rcases mem_append.1 part with param | code
    · have shape : c.erase ∈ Code.eraseAll u.params :=
        Code.eraseAll_eq_map _ ▸ mem_map_of_mem param
      rw [h.params] at shape
      cases c with
      | destructure pattern => exact absurd (Code.functionBinders_of_destructure inside) binds
      | identifier id =>
        rw [Code.preorder_eq _ rfl] at inside
        cases mem_singleton.1 inside
        exact absurd rfl binds
      | _ => simp [Code.erase, Code.ident] at shape
    · exact ⟨c, code, inside⟩

/-- **The functions in a unit** are those of loops, or they take nothing. -/
theorem CodeUnit.Made.functionBinders_eq (made : u.Made o sets w d)
    (mem : e ∈ (Code.function u).preorder) :
    e.functionBinders = [] ∨ (∀ id ∈ e.margin, id.builtin = false)
      ∧ ∃ param, LoopParam param
        ∧ e.functionBinders = param.binders ++ [Node.loopCounter param.binders] := by
  by_cases binds : e.functionBinders = []
  · exact .inl binds
  · obtain ⟨c, code, inside⟩ := made.scopes.exists_code mem binds
    have regular := made.regular_of_mem code inside
    refine .inr ⟨fun id => regular.margin_plain, ?_⟩
    cases e with
    | lambda loc params body block =>
      have bound : params.flatMap Code.binders = (Code.eraseAll params).flatMap Code.binders := by
        simp only [Code.eraseAll_eq_map, flatMap_map, Code.binders_erase]
      rw [Code.functionBinders, bound] at binds ⊢
      rcases regular with none | ⟨param, loop, same⟩
      · rw [none] at binds
        exact absurd rfl binds
      · refine ⟨param, loop, ?_⟩
        rw [same]
        simp [Code.binders, Code.ident]
    | _ => exact absurd rfl binds

/-- The names that a loop binds are spelled, and no two are the same. -/
theorem LoopParam.spelled {param : Code} (h : LoopParam param) :
    (param.binders ++ [Node.loopCounter param.binders]).Nodup
      ∧ ∀ name ∈ param.binders ++ [Node.loopCounter param.binders], Script.Spelled name := by
  have counter : Script.Spelled (Node.loopCounter param.binders) := by
    rw [Script.Spelled, (Node.loopCounter_plain _).1, (Node.loopCounter_plain _).2]
  have vars : param.binders.Nodup ∧ ∀ name ∈ param.binders, Script.Spelled name := by
    cases h with
    | name n plain =>
      exact ⟨nodup_singleton _, forall_mem_singleton.2 (Script.spelled_bindingName plain)⟩
    | names ns plain distinct =>
      have same : (Code.destructure (loopPattern ns)).binders = ns.map Script.bindingName := by
        rw [Code.binders, names_loopPattern, map_map]
        rfl
      rw [same]
      refine ⟨distinct, fun name mem => ?_⟩
      obtain ⟨n, inside, rfl⟩ := mem_map.1 mem
      exact Script.spelled_bindingName (plain n inside)
  refine ⟨?_, forall_mem_append.2 ⟨vars.2, forall_mem_singleton.2 counter⟩⟩
  rw [nodup_append]
  refine ⟨vars.1, nodup_singleton _, ?_⟩
  rintro name mem _ last rfl
  rw [mem_singleton.1 last] at mem
  exact Script.fresh_not_mem _ _ mem

variable {A : Location → Prop}

/-- The names that functions in a unit bind are legal. -/
theorem CodeUnit.Made.functionBinders_legal (made : u.Made o sets w d)
    (placed : (Code.function u).Placed A) (mem : e ∈ (Code.function u).preorder) :
    e.functionBinders.Nodup ∧ ∀ name ∈ e.functionBinders, Script.Legal name := by
  rcases made.functionBinders_eq mem with none | ⟨plain, param, loop, same⟩
  · rw [none]
    exact ⟨nodup_nil, forall_mem_nil _⟩
  · rw [same]
    refine ⟨loop.spelled.1, fun name binds => (loop.spelled.2 name binds).legal ?_⟩
    rw [← same] at binds
    cases e with
    | lambda loc params body block =>
      obtain ⟨c, param, binds⟩ := mem_flatMap.1 binds
      obtain ⟨id, named, rfl⟩ := Code.exists_of_mem_binders binds
      have margin : id ∈ (Code.lambda loc params body block).margin :=
        mem_flatMap.2 ⟨c, param, named⟩
      have inside : Code.identifier id ∈ (Code.lambda loc params body block).preorder :=
        Code.mem_preorder_of_part (by simp [Code.parts, param]) (Code.mem_names.1 named)
      exact (placed _ (Code.mem_preorder_trans mem inside)).2.2 (plain id margin)
    | _ => cases binds

variable {reached : Bytes → Prop}

/-- Names that occur in a unit are legal. -/
theorem CodeUnit.Made.legal_of_occurs (made : u.Made o sets w d) (linked : Linked o lib reached w)
    (placed : (Code.function u).Placed A) {c : Code} (mem : c ∈ u.code) {bound : List Bytes}
    {p : Occurrence} (occurs : p ∈ c.occurrences bound) : Script.Legal p.name := by
  have spelled := made.spelled (fun f => linked.scopes) linked.spelled c mem bound p occurs
  have part : c ∈ (Code.function u).parts := mem_append_right _ mem
  exact spelled.legal ((placed.part part).isIdentifier_of_occurs occurs)

/-- **The names of a unit are legal**, if its code is located. -/
theorem CodeUnit.Made.legal (made : u.Made o sets w d) (linked : Linked o lib reached w)
    (placed : (Code.function u).Placed A) : u.Legal := by
  have input {name : Bytes} (free : name ∈ (Scope.ofUnit o.reserved u).free) :
      Script.Legal name := by
    obtain ⟨c, here, occurs⟩ := Scope.exists_of_mem (Scope.mem_free.1 free).1
    exact made.legal_of_occurs linked placed here occurs
  refine ⟨fun c mem => (made.functionBinders_legal placed mem).1, ?_, ?_, ?_, ?_, ?_⟩
  · rw [binders_params made.scopes.params, made.scopes.inputNames_eq]
  · exact nodup_cons.2 ⟨made.scopes.helpers_apart (by decide), made.scopes.distinct⟩
  · intro b mem
    rw [made.scopes.inputBindings_eq] at mem
    obtain ⟨name, free, rfl⟩ := mem_map.1 mem
    obtain ⟨c, here, occurs⟩ := Scope.exists_of_mem (Scope.mem_free.1 free).1
    exact ⟨rfl, made.spelled (fun f => linked.scopes) linked.spelled c here [] _ occurs⟩
  · rw [CodeUnit.bound, binders_params made.scopes.params, made.scopes.locals]
    simp only [forall_mem_append, forall_mem_singleton]
    refine ⟨⟨⟨fun name => input, Script.spelled_filterNamespace.legal (by decide)⟩, ?_⟩, ?_⟩
    · intro name declared
      obtain ⟨c, here, occurs⟩ := Scope.exists_of_mem (Scope.mem_declared.1 declared).1
      exact made.legal_of_occurs linked placed here occurs
    · intro name mem
      obtain ⟨e, piece, binds⟩ := mem_flatMap.1 mem
      exact (made.functionBinders_legal placed piece).2 name binds
  · intro c mem around id inside own
    have within {e : Code} (piece : e ∈ c.preorder) : e ∈ (Code.function u).preorder :=
      Code.mem_preorder_of_part (mem_append_right _ mem) piece
    by_cases bound : id.name ∈ Code.boundBy around
    · rcases inside.bound bound with ⟨e, piece, binds⟩ | ⟨v, piece⟩
      · exact (made.functionBinders_legal placed (within piece)).2 _ binds
      · exact (made.regular_of_mem mem piece).elim
    · obtain ⟨p, occurs, same⟩ := inside.occurs [] own (by simpa using bound)
      exact same ▸ made.legal_of_occurs linked placed mem occurs

end

/-! ## Programs -/

/-- **Every compiled program has legal names.** -/
theorem compile_legal {o : CompileOptions} {lib : Library} {src : Bytes} {p : Program}
    (reader : o.parse = Template.parse) (compiles : (compile o lib src).1 = .ok p) :
    ∀ u ∈ p.allUnits, u.Legal := by
  intro u mem
  obtain ⟨v, w, sets, d, linked, earlier, -, made⟩ := compile_made_unit compiles mem
  exact made.legal (linked.of_suffix earlier) (compile_placed reader compiles mem)

private def shelves : Library := ⟨[("b", "\x7b\x7b new \x7d\x7d\x7b\x7b item \x7d\x7d")]⟩

private def catalogue : Bytes :=
  "\x7b% set n = class %\x7d\x7b% for index, item in rows %\x7d\x7b% include \"b\" %\x7d\x7b% endfor %\x7d"

/-- What a unit binds: its inputs, its locals, and what the functions in it
take. -/
private def bindings (u : CodeUnit) : List (Bytes × Bytes) × List Bytes × List Bytes :=
  (u.inputBindings, u.locals, (Code.function u).preorder.flatMap Code.functionBinders)

private def catalogued : List (List (Bytes × Bytes) × List Bytes × List Bytes) :=
  [([("new", "new$"), ("item", "item")], [], []),
    ([("class", "class$"), ("rows", "rows"), ("new", "new$")], ["n"], ["index", "item", "index_2"])]

/-- A loop over pairs with a variable `index`, around a page that reads a name
which is a keyword of the script. -/
theorem catalogue_legal : ∃ p, (compile { moduleMode := true } shelves catalogue).1 = .ok p
    ∧ p.allUnits.map bindings = catalogued ∧ ∀ u ∈ p.allUnits, u.Legal := by
  have found : (compile { moduleMode := true } shelves catalogue).1.toOption.map
      (fun p => p.allUnits.map bindings) = some catalogued := by cbv
  cases compiles : (compile { moduleMode := true } shelves catalogue).1 with
  | error e =>
    rw [compiles] at found
    cases found
  | ok p =>
    rw [compiles] at found
    exact ⟨p, rfl, Option.some.inj found, compile_legal rfl compiles⟩

end TemplateCompiler
