import TemplateCompiler.Proofs.Template.Levelling
import TemplateCompiler.Proofs.Template.Sourcing

/-!
# Where includes stand

`Node.includes` lists the includes of a tree in the order in which a reader of
its source meets them. In a tree that the parser has built they are all
statements: no expression holds one. `Node.IsParsed` says what such trees look
like, and `isParsed_of_parse` that there are no others.
-/

open List

namespace TemplateCompiler

namespace Node

/-! ## Includes in source order -/

/-- The include that a node is, if it names its partial. -/
def include? : Node → Option Inclusion
  | .embed pos (.literal _ (.string name)) optional => some ⟨pos, name, optional⟩
  | _ => none

/-- **The includes of a tree in source order**: those that the walk meets. -/
def includes (n : Node) : List Inclusion := n.preorder.filterMap include?

/-- The includes of nodes in turn. -/
def includesOf (ns : List Node) : List Inclusion := ns.flatMap includes

theorem includesOf_append (ns ms : List Node) :
    includesOf (ns ++ ms) = includesOf ns ++ includesOf ms := flatMap_append

theorem includes_eq (n : Node) : n.includes = n.include?.toList ++ includesOf n.parts :=
  filterMap_preorder rfl n

theorem includesOf_eq_nil {ns : List Node} (none : ∀ n ∈ ns, n.includes = []) :
    includesOf ns = [] := flatMap_eq_nil_iff.2 none

/-- An expression, whatever its names and values. -/
def IsExpression (e : Node) : Prop := e.Levelled (fun _ => True) (fun _ => True)

theorem isMissing_of_isExpression {e : Node} (expression : e.IsExpression) :
    e.isMissing = false := by
  cases expression <;> rfl

/-- A node that expressions are made of, with names in `Word` and values in
`Value`. -/
def Operand (Word : Bytes → Prop) (Value : Literal → Prop) : Node → Prop
  | .symbol _ name => Word name
  | .literal _ v => Value v
  | .missing | .text .. | .list .. | .output .. | .ifElse .. | .forEach .. | .assign ..
  | .embed .. | .inherit .. | .block .. | .named .. => False
  | _ => True

section

variable {Word : Bytes → Prop} {Value : Literal → Prop} {e m : Node}

/-- The parts of an expression are expressions. -/
theorem Levelled.part (levelled : e.Levelled Word Value) (part : m ∈ e.parts)
    (present : m.isMissing = false) : m.Levelled Word Value := by
  cases levelled
  all_goals simp only [parts, mem_cons, mem_map, mem_flatMap, not_mem_nil,
    or_false] at part
  all_goals grind [Levelled.binary]

/-- **What stands in an expression** is made of operands. -/
theorem Levelled.mem_preorder (levelled : e.Levelled Word Value) :
    ∀ m ∈ e.preorder, m.Operand Word Value := by
  intro m mem
  have here := forall_mem_preorder_of_parts (fun _ _ h part present => h.part part present)
    levelled m mem
  cases here <;> trivial

theorem Levelled.filterMap_preorder {α : Type} {f : Node → Option α}
    (levelled : e.Levelled Word Value) (nothing : ∀ m : Node, m.Operand Word Value → f m = none) :
    e.preorder.filterMap f = [] :=
  filterMap_eq_nil_iff.2 fun m mem => nothing m (levelled.mem_preorder m mem)

end

/-- **No expression includes anything.** -/
theorem includes_of_isExpression {e : Node} (expression : e.IsExpression) : e.includes = [] :=
  expression.filterMap_preorder fun m operand => by
    cases m with
    | embed => cases operand
    | _ => rfl

/-- What is compiled of a node is its own include or one below it. -/
theorem inclusions_subset_includes (n : Node) : n.inclusions ⊆ n.includes := by
  intro i here
  have cases : n.include? = some i ∨ ∃ m ∈ n.parts, i ∈ m.inclusions := by
    cases n with
    | embed p t optional =>
      unfold inclusions at here
      split at here <;> simp_all [include?]
    | assign p ts v b =>
      rw [inclusions, inclusionsOf_eq] at here
      split at here <;> simp_all [parts]
      all_goals grind
    | _ =>
      simp only [inclusions, inclusionsOf_eq, inclusionsOfLinks_eq, inclusionsOfPairs_eq] at here
      simp only [parts]
      grind
  rw [includes_eq]
  obtain own | ⟨m, part, below⟩ := cases
  · rw [own]
    exact mem_cons_self
  · have := length_preorder_lt part
    exact mem_append_right _ (mem_flatMap.2 ⟨m, part, inclusions_subset_includes m below⟩)
termination_by n.preorder.length

/-- Compiling an expression meets no include either. -/
theorem inclusions_of_isExpression {e : Node} (expression : e.IsExpression) :
    e.inclusions = [] :=
  subset_nil.1 (includes_of_isExpression expression ▸ inclusions_subset_includes e)

/-! ## Trees that the parser builds -/

/-- **Trees as the parser builds them**: expressions stand where they are due,
and statements in the lists between tags. -/
inductive IsParsed : Node → Prop where
  | missing : IsParsed .missing
  | text {p content} : IsParsed (.text p content)
  | expression {e} (whole : e.IsExpression) : IsParsed e
  | list {p ns} (all : ∀ n ∈ ns, IsParsed n) : IsParsed (.list p ns)
  | output {p ns} (all : ∀ n ∈ ns, IsParsed n) : IsParsed (.output p ns)
  | ifElse {p c b a} (condition : c.IsExpression) (body : IsParsed b)
    (alternative : IsParsed a) : IsParsed (.ifElse p c b a)
  | forEach {p v i b a} (vars : v.IsExpression) (iterable : i.IsExpression) (body : IsParsed b)
    (alternative : IsParsed a) : IsParsed (.forEach p v i b a)
  | assign {p ts v} (some_ : ts ≠ []) (targets : ∀ t ∈ ts, t.IsExpression)
    (value : v.IsExpression) : IsParsed (.assign p ts v .missing)
  | capture {p ts b} (some_ : ts ≠ []) (targets : ∀ t ∈ ts, t.IsExpression) (body : IsParsed b) :
    IsParsed (.assign p ts .missing b)
  | embed {p t optional} (template : t.IsExpression) : IsParsed (.embed p t optional)
  | inherit {p t} (template : t.IsExpression) : IsParsed (.inherit p t)
  | block {p name b} (body : IsParsed b) : IsParsed (.block p name b)

end Node

/-! ## What the parser reads -/

theorem Expression.isExpression_of_ofTokens {stop : Position} {ts : List Token} {t : Node}
    (read : ofTokens stop ts = .ok t) : t.IsExpression :=
  levelled_of_ofTokens ⟨fun _ => trivial, fun _ => trivial, trivial, fun _ _ => trivial,
    fun _ _ => trivial, fun _ _ => trivial⟩
    ⟨fun _ _ _ => trivial, fun _ _ _ _ _ _ => trivial, fun _ _ _ _ _ => trivial⟩ read

/-- **Parsing keeps the form.** -/
theorem assembles_isParsed (src : Bytes) : Assembles src Node.IsExpression Node.IsParsed where
  expression {stop ts} stops words := by
    have told := (Expression.builds_sourced stops fun t mem => (words t mem).here).ofTokens_tells
    cases read : Expression.ofTokens stop ts with
    | error e => rwa [read] at told
    | ok t => exact Expression.isExpression_of_ofTokens read
  list _ all := .list all
  text _ := .output (forall_mem_singleton.2 .text)
  trimmed _ := .output (forall_mem_singleton.2 .text)
  output _ whole := .output (forall_mem_singleton.2 (.expression whole))
  ifElse _ condition body alternative :=
    .ifElse condition body (alternative.elim (fun same => same ▸ .missing) id)
  forEach _ vars items body alternative := by
    refine .forEach ?_ items body (alternative.elim (fun same => same ▸ .missing) id)
    cases vars with
    | name => exact .symbol trivial
    | names pos all =>
      refine .array fun n mem => ?_
      obtain ⟨q, w, -, rfl⟩ := all n mem
      exact .symbol trivial
  assign _ some_ targets value := .assign some_ (fun t mem => (targets t mem).2) value
  capture _ some_ targets body := .capture some_ (fun t mem => (targets t mem).2) body
  embed _ template := .embed template
  inherit _ template := .inherit template
  block _ body := .block body

/-- **The parser builds no other trees.** -/
theorem isParsed_of_parse {src : Bytes} {t : Node} (parsed : Template.parse src = .ok t) :
    t.IsParsed := by
  have told := (assembles_isParsed src).parse_tells
  rw [parsed] at told
  obtain ⟨ns, rfl, all⟩ := told
  exact .list all

end TemplateCompiler
