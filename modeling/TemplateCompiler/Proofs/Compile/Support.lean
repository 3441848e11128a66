import TemplateCompiler.Proofs.Compile.Attribution
import TemplateCompiler.Proofs.Compile.Inputs
import TemplateCompiler.Proofs.Compile.Printable

/-!
# Which templates compile

Not all that the parser accepts can be compiled. `Construct.Rejected` names
what cannot: comparisons with several operators, inheritance, empty groups,
names that are spelled like the stand-in for a keyword, and keys of
dictionaries that are neither names nor literals. The main statement,
`compile_supported`, is that a template without includes fails to compile
exactly if it has one of these in a place that is lowered, with an error for
the first of them, and that its program can be printed otherwise.
-/

open List

namespace TemplateCompiler

namespace Script

/-- A name spelled like the stand-in for a keyword: the keyword, and a dollar
sign behind it. -/
def IsStandIn (name : Bytes) : Prop := ∃ word ∈ keywords, name = word ++ [Byte.dollar]

theorem templateName_eq_self_iff {name : Bytes} : templateName name = name ↔ ¬ IsStandIn name := by
  constructor
  · rintro plain ⟨word, keyword, rfl⟩
    rw [templateName, dropSuffix?_append] at plain
    have taken : isKeyword word = true := contains_iff_mem.2 keyword
    have lengths := congrArg List.length plain
    simp [taken] at lengths
  · intro other
    unfold templateName
    split
    · next word front =>
      split
      · next keyword =>
        refine absurd ⟨word, contains_iff_mem.1 keyword, ?_⟩ other
        obtain ⟨rest, found, rfl⟩ := Option.map_eq_some_iff.1 front
        rw [← reverse_reverse name, ← Bytes.append_of_dropPrefix? found]
        simp
      · rfl
    · rfl

end Script

namespace Construct

/-- **What cannot be compiled.** -/
def Rejected : Construct → Prop
  | .node n =>
    match n with
    | .compare _ _ links => 2 ≤ links.length
    | .inherit .. | .block .. => True
    | .group _ items => items = []
    | .symbol _ name => Script.IsStandIn name
    | _ => False
  | .binder vars => ¬ vars.loopVars.Nodup ∨ ∃ name ∈ vars.loopVars, Script.IsStandIn name
  | .key k => k.isSymbol = false ∧ k.isLiteral = false

/-- The error for a construct that cannot be compiled. For the variables of a
loop it is that of one variable. -/
def Raises (e : CompileError) : Construct → Prop
  | .node n =>
    match n with
    | .compare pos _ links => e = .chainedComparison (links.map Prod.fst) pos
    | _ => ∃ reason, e = .unsupported n.kind (some n.pos) reason
  | .binder vars => ∃ pos name reason, (vars = .symbol pos name ∨ .symbol pos name ∈ vars.parts)
      ∧ e = .unsupported "Symbol" (some pos) reason
  | .key k => ∃ reason, e = .unsupported k.kind (some k.pos) reason

end Construct

namespace Node

variable {P : Position → Prop} {n : Node} {e : CompileError}

theorem errorsOf_binding_eq_nil {name : Bytes} :
    Compile.errorsOf (n.binding name) = [] ↔ ¬ Script.IsStandIn name := by
  rw [← Script.templateName_eq_self_iff]
  refine ⟨plain_of_binding, fun plain => ?_⟩
  rw [binding, if_pos (by simpa using plain)]
  rfl

/-- Variables have no faults if they are no stand-ins and differ from each
other and from those that are taken. -/
theorem variableFaults_eq_nil {taken : List Bytes} {ns : List Node}
    (names : ∀ n ∈ ns, ∃ p name, n = .symbol p name) :
    variableFaults taken ns = [] ↔
      (∀ name ∈ (array .none ns).loopVars, ¬ Script.IsStandIn name)
        ∧ ((array .none ns).loopVars.map Script.bindingName).Nodup
        ∧ ∀ name ∈ (array .none ns).loopVars, Script.bindingName name ∉ taken := by
  induction ns generalizing taken with
  | nil => simp [variableFaults, loopVars]
  | cons n ns ih =>
    obtain ⟨⟨p, first, rfl⟩, others⟩ := forall_mem_cons.1 names
    have vars : (array .none (symbol p first :: ns)).loopVars = first :: (array .none ns).loopVars :=
      rfl
    have repeated : (if taken.contains (Script.bindingName first) then
        [(symbol p first).unsupported ("loop variable " ++ quoted first ++ " repeated")] else [])
          = [] ↔ Script.bindingName first ∉ taken := by
      split <;> simp_all
    rw [variableFaults, append_eq_nil_iff, append_eq_nil_iff, repeated, ih others,
      errorsOf_binding_eq_nil, vars]
    simp only [forall_mem_cons, map_cons, nodup_cons, mem_append,
      mem_singleton, not_or, mem_map]
    grind

/-- **The variables of a loop have no faults** exactly if none is a stand-in
and none is repeated. -/
theorem loopFaults_eq_nil (names : n.BindsNames) :
    n.loopFaults = [] ↔ n.loopVars.Nodup ∧ ∀ name ∈ n.loopVars, ¬ Script.IsStandIn name := by
  cases n with
  | symbol p name =>
    rw [loopFaults, errorsOf_binding_eq_nil]
    simp [loopVars]
  | array p ns =>
    have spelled : (∀ name ∈ (array p ns).loopVars, ¬ Script.IsStandIn name) →
        (((array p ns).loopVars.map Script.bindingName).Nodup ↔ (array p ns).loopVars.Nodup) := by
      intro plain
      refine ⟨List.Nodup.of_map _, fun once => once.map_on fun a ha b hb => ?_⟩
      exact Script.bindingName_inj (Script.templateName_eq_self_iff.2 (plain a ha))
        (Script.templateName_eq_self_iff.2 (plain b hb))
    rw [loopFaults, variableFaults_eq_nil names]
    constructor
    · rintro ⟨plain, once, -⟩
      exact ⟨(spelled plain).1 once, plain⟩
    · rintro ⟨once, plain⟩
      exact ⟨plain, (spelled plain).2 once, fun _ _ => not_mem_nil⟩
  | _ => cases names

end Node

namespace Construct

variable {P : Position → Prop} {tree : Node} {c : Construct} {f : Inclusion → List CompileError}
  {e : CompileError}

/-- Whether a construct is an include. -/
def isInclude : Construct → Bool
  | .node (.embed ..) => true
  | _ => false

/-- **A construct has an error of its own** exactly if it is rejected. -/
theorem errors_eq_nil_iff (h : c.From P tree) (other : c.isInclude = false) :
    c.errors f = [] ↔ ¬ c.Rejected := by
  cases c with
  | binder vars =>
    rw [Rejected, not_or, not_not, not_exists]
    simp only [not_and]
    exact Node.loopFaults_eq_nil h.2
  | key k => cases k <;> simp [errors, Rejected, Node.dictKey, Compile.errorsOf, Node.isSymbol,
      Node.isLiteral]
  | node n =>
    cases n with
    | symbol p name => exact Node.errorsOf_binding_eq_nil
    | embed => cases other
    | compare p first links => 
      rcases links with _ | ⟨_, _ | _⟩ <;> simp [errors, Rejected, Node.faults]
    | group p ns => cases ns <;> simp [errors, Rejected, Node.faults]
    | inherit | block => simp [errors, Rejected, Node.faults]
    | _ => simp [errors, Rejected]

/-- The errors of a construct are those that it raises. -/
theorem raises_of_mem (h : c.From P tree) (other : c.isInclude = false) (mem : e ∈ c.errors f) :
    c.Raises e := by
  cases c with
  | binder vars =>
    obtain ⟨-, names⟩ := h
    cases vars with
    | symbol p name =>
      obtain ⟨reason, same⟩ := Node.unsupported_of_binding mem
      exact ⟨p, name, reason, .inl rfl, same⟩
    | array p ns =>
      obtain ⟨m, inside, reason, same⟩ := Node.unsupported_of_variables mem
      obtain ⟨p', name, rfl⟩ := names m inside
      exact ⟨p', name, reason, .inr inside, same⟩
    | _ => cases names
  | key k =>
    cases k with
    | missing => cases h
    | symbol | literal => cases mem
    | _ =>
      cases mem_singleton.1 mem
      exact ⟨_, rfl⟩
  | node n =>
    cases n with
    | embed => cases other
    | symbol p name => exact Node.unsupported_of_binding mem
    | compare p first links =>
      match links with
      | [] | [_] => cases mem
      | _ :: _ :: _ => exact mem_singleton.1 mem
    | group p ns =>
      cases ns with
      | nil => exact ⟨_, mem_singleton.1 mem⟩
      | cons => cases mem
    | inherit | block => exact ⟨_, mem_singleton.1 mem⟩
    | _ => cases mem

end Construct

/-- **The supported templates.** A template without includes fails to compile
exactly if it has a construct that is rejected in a place that is lowered. The
error is that of the first of them. Otherwise its program can be printed,
whatever the options. -/
theorem compile_supported {o : CompileOptions} (reader : o.parse = Template.parse) (lib : Library)
    {src : Bytes} {tree : Node} (parsed : Template.parse src = .ok tree)
    (alone : ∀ n ∈ tree.preorder, n.kind ≠ "Include") :
    ((∃ e, (compile o lib src).1 = .error e) ↔ ∃ c ∈ tree.met, c.Rejected)
      ∧ (∀ e, (compile o lib src).1 = .error e → ∃ before c after,
        tree.met = before ++ c :: after ∧ c.Rejected ∧ c.Raises e ∧ ∀ b ∈ before, ¬ b.Rejected)
      ∧ ∀ p, (compile o lib src).1 = .ok p → ∀ po, ∃ files, p.print po = .ok files := by
  have sourced := sourced_of_parse parsed
  have others : ∀ c ∈ tree.met, c.isInclude = false := by
    intro c mem
    have inside := sourced.from c mem
    unfold Construct.isInclude
    split
    · exact absurd rfl (alone _ inside.2)
    · rfl
  have rejected : ∀ c ∈ tree.met, (c.errors (includedFaults o lib { root := o.file }) = []
      ↔ ¬ c.Rejected) :=
    fun c mem => Construct.errors_eq_nil_iff (sourced.from c mem) (others c mem)
  have fails (e : CompileError) : (compile o lib src).1 = .error e
      ↔ Node.firstError (includedFaults o lib { root := o.file }) tree.met = some e := by
    rw [compile_eq_error_iff (by rw [reader]; exact parsed), Node.head?_faults sourced]
  refine ⟨?_, fun e failed => ?_, fun p compiled => print_of_compile compiled⟩
  · simp only [fails]
    rw [← Option.ne_none_iff_exists', ne_eq, Node.firstError_eq_none, forall₂_congr rejected]
    simp only [not_forall, not_not, exists_prop]
  · obtain ⟨before, c, after, met, error, earlier⟩ := Node.firstError_eq_some.1 ((fails e).1 failed)
    have inside : c ∈ tree.met := by rw [met]; simp
    have mem := List.mem_of_mem_head? error
    refine ⟨before, c, after, met, ?_, ?_, fun b front => ?_⟩
    · by_contra accepted
      rw [(rejected c inside).2 accepted] at mem
      cases mem
    · exact Construct.raises_of_mem (sourced.from c inside) (others c inside) mem
    · exact (rejected b (by rw [met]; exact List.mem_append_left _ front)).1 (earlier b front)

/-- A loop that binds one name twice, and a comparison with two operators in
its body. -/
def twice : Bytes := "\x7b% for a, a in b %\x7d\x7b\x7b a < b < c \x7d\x7d\x7b% endfor %\x7d"

private theorem twice_met : ∃ tree, Template.parse twice = .ok tree
    ∧ (∀ n ∈ tree.preorder, n.kind ≠ "Include") ∧ ∃ c ∈ tree.met, c.Rejected := by
  apply Exists.intro
  apply And.intro
  · conv => lhs; cbv
  refine ⟨by decide +kernel, _, .tail _ (.tail _ (.tail _ (.head _))), .inl ?_⟩
  decide

theorem twice_rejected : ∃ tree, Template.parse twice = .ok tree
    ∧ (∀ n ∈ tree.preorder, n.kind ≠ "Include") ∧ (∃ c ∈ tree.met, c.Rejected)
    ∧ ∃ e, (compile {} {} twice).1 = .error e := by
  obtain ⟨tree, parsed, alone, rejected⟩ := twice_met
  exact ⟨tree, parsed, alone, rejected, (compile_supported rfl {} parsed alone).1.2 rejected⟩

end TemplateCompiler
