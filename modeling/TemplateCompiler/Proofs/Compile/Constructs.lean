import TemplateCompiler.Proofs.Compile.Denotation
import TemplateCompiler.Proofs.Template.Sourcing

/-!
# What lowering meets

Lowering walks through a tree and stops at the first construct that it cannot
compile. `Node.met` lists what it would meet if nothing stopped it: the nodes
whose code is made, the variables of loops and the keys of dictionaries. The
name of a filter and a literal key of a lookup are not among them, since they
are spelled and not compiled.

`Node.head?_faults` says that the first fault of a tree that was read from
source is the first error of a construct that is met.
-/

open List

namespace TemplateCompiler

/-- Something that lowering meets in a tree. -/
inductive Construct where
  | node (n : Node)
  /-- What a loop binds. -/
  | binder (vars : Node)
  /-- The key of a dictionary entry. -/
  | key (k : Node)

/-- The errors of a construct by itself. Those of an include are given. -/
def Construct.errors (includes : Inclusion → List CompileError) : Construct → List CompileError
  | .node n =>
    match n with
    | .embed .. | .symbol .. | .inherit .. | .block .. | .group _ []
    | .compare _ _ (_ :: _ :: _) => n.faults includes
    | _ => []
  | .binder vars => vars.loopFaults
  | .key k => Compile.errorsOf k.dictKey

namespace Node

/-- Whether a node is a literal. -/
def isLiteral : Node → Bool
  | .literal .. => true
  | _ => false

mutual

/-- **What lowering meets in a tree**, in its order. -/
def met (n : Node) : List Construct :=
  match n with
  | .missing => []
  | .text .. | .embed .. | .symbol .. | .literal .. | .named .. => [.node n]
  | .list _ ns | .output _ ns | .array _ ns | .group _ ns => .node n :: metIn ns
  | .ifElse _ c b a | .choice _ c b a => .node n :: (c.met ++ (b.met ++ a.met))
  | .forEach _ vars items body alt =>
    .node n :: (items.met ++ .binder vars :: (body.met ++ alt.met))
  | .assign _ targets value body => .node n :: (value.met ++ (body.met ++ metIn targets))
  | .lookup _ target key => .node n :: (target.met ++ if key.isLiteral then [] else key.met)
  | .call _ callee args => .node n :: (metIn args ++ if callee.isSymbol then [] else callee.met)
  | .compare _ first links => .node n :: (first.met ++ metInLinks links)
  | .not _ m | .neg _ m | .inherit _ m | .block _ _ m => .node n :: m.met
  | .binary _ _ left right => .node n :: (left.met ++ right.met)
  | .dict _ pairs => .node n :: metInPairs pairs

/-- `met` of each node in turn. -/
def metIn : List Node → List Construct
  | [] => []
  | n :: ns => n.met ++ metIn ns

/-- `met` of the operands of a comparison. -/
def metInLinks : List (Bytes × Node) → List Construct
  | [] => []
  | (_, n) :: links => n.met ++ metInLinks links

/-- `met` of the keys and values of a dictionary. -/
def metInPairs : List (Node × Node) → List Construct
  | [] => []
  | (k, v) :: pairs => .key k :: (v.met ++ metInPairs pairs)

end

theorem metIn_eq (ns : List Node) : metIn ns = ns.flatMap met := by
  induction ns with
  | nil => rfl
  | cons n ns ih => rw [metIn, ih, flatMap_cons]

theorem metInLinks_eq (links : List (Bytes × Node)) :
    metInLinks links = links.flatMap fun l => l.2.met := by
  induction links with
  | nil => rfl
  | cons l links ih => rw [metInLinks, ih, flatMap_cons]

theorem metInPairs_eq (pairs : List (Node × Node)) :
    metInPairs pairs = pairs.flatMap fun e => .key e.1 :: e.2.met := by
  induction pairs with
  | nil => rfl
  | cons e pairs ih => rw [metInPairs, ih, flatMap_cons, cons_append]

end Node

/-! ## Constructs of a tree -/

/-- A construct of the tree `n`, which was read from source. -/
def Construct.From (P : Position → Prop) (n : Node) : Construct → Prop
  | .node m => m.Sourced P ∧ m ∈ n.preorder
  | .binder vars => vars.Sourced P ∧ vars.BindsNames
  | .key k => k.Sourced P

namespace Node

variable {P : Position → Prop} {n m : Node}

theorem Sourced.part (h : n.Sourced P) (part : m ∈ n.parts) (present : m.isMissing = false) :
    m.Sourced P := by
  cases h
  all_goals simp only [parts, mem_cons, mem_append, mem_map, mem_flatMap,
    not_mem_nil, or_false] at part
  all_goals grind [Node.isMissing]

/-- What is met in a node is the node, what it binds, its keys, or met in its
parts. -/
theorem met_cases {c : Construct} (mem : c ∈ n.met) :
    c = .node n ∨ (∃ p v i b a, n = .forEach p v i b a ∧ c = .binder v)
      ∨ (∃ p pairs, n = .dict p pairs ∧ ∃ e ∈ pairs, c = .key e.1) ∨ ∃ k ∈ n.parts, c ∈ k.met := by
  cases n
  all_goals simp only [met, metIn_eq, metInLinks_eq, metInPairs_eq, mem_cons, mem_append,
    mem_flatMap, not_mem_nil, or_false, parts, mem_map] at mem ⊢
  all_goals grind

/-- What is met in a tree that was read comes from it. -/
theorem Sourced.from {n : Node} (h : n.Sourced P) : ∀ c ∈ n.met, c.From P n := by
  intro c mem
  obtain rfl | ⟨p, v, i, b, a, rfl, rfl⟩ | ⟨p, pairs, rfl, e, inside, rfl⟩ | ⟨k, part, below⟩ :=
    met_cases mem
  · exact ⟨h, mem_preorder_self h.isMissing⟩
  · cases h with
    | forEach _ names vars => exact ⟨vars, names⟩
  · cases h with
    | dict _ keys => exact keys e inside
  · have present : k.isMissing = false := by cases k <;> first | rfl | cases below
    have := length_preorder_lt part
    have here := (h.part part present).from c below
    cases c with
    | node m => exact ⟨here.1, mem_preorder_of_part part here.2⟩
    | binder | key => exact here
termination_by n.preorder.length

/-! ## The first fault -/

section

variable {P : Position → Prop} {f : Inclusion → List CompileError}

/-- The first error among constructs. -/
def firstError (f : Inclusion → List CompileError) (cs : List Construct) : Option CompileError :=
  cs.findSome? fun c => (c.errors f).head?

theorem firstError_cons (c : Construct) (cs : List Construct) :
    firstError f (c :: cs) = (c.errors f).head?.or (firstError f cs) := by
  rw [firstError, findSome?_cons]
  cases (c.errors f).head? <;> rfl

theorem firstError_quiet {c : Construct} (quiet : c.errors f = []) (cs : List Construct) :
    firstError f (c :: cs) = firstError f cs := by
  rw [firstError_cons, quiet]
  rfl

theorem firstError_append (cs ds : List Construct) :
    firstError f (cs ++ ds) = (firstError f cs).or (firstError f ds) := findSome?_append

/-- Where an error was found, nothing before it had one. -/
theorem firstError_eq_some {cs : List Construct} {e : CompileError} :
    firstError f cs = some e ↔ ∃ before c after, cs = before ++ c :: after
      ∧ (c.errors f).head? = some e ∧ ∀ b ∈ before, b.errors f = [] := by
  simp only [firstError, findSome?_eq_some_iff, head?_eq_none_iff]

theorem firstError_eq_none {cs : List Construct} :
    firstError f cs = none ↔ ∀ c ∈ cs, c.errors f = [] := by
  simp only [firstError, findSome?_eq_none_iff, head?_eq_none_iff]

theorem head?_faultsOf {ns : List Node}
    (all : ∀ n ∈ ns, (n.faults f).head? = firstError f n.met) :
    (faultsOf f ns).head? = firstError f (metIn ns) := by
  induction ns with
  | nil => rfl
  | cons n ns ih =>
    obtain ⟨first, others⟩ := forall_mem_cons.1 all
    rw [faultsOf, metIn, head?_append, firstError_append, first, ih others]

theorem head?_faultsOfTargets {ns : List Node} (targets : ∀ n ∈ ns, n.isTarget = true)
    (all : ∀ n ∈ ns, (n.faults f).head? = firstError f n.met) :
    (faultsOfTargets f ns).head? = firstError f (metIn ns) := by
  induction ns with
  | nil => rfl
  | cons n ns ih =>
    obtain ⟨first, others⟩ := forall_mem_cons.1 all
    obtain ⟨target, targets⟩ := forall_mem_cons.1 targets
    rw [faultsOfTargets, metIn, head?_append, firstError_append, if_pos target, first,
      ih targets others]

theorem head?_faultsOfPairs {pairs : List (Node × Node)}
    (all : ∀ e ∈ pairs, (e.2.faults f).head? = firstError f e.2.met) :
    (faultsOfPairs f pairs).head? = firstError f (metInPairs pairs) := by
  induction pairs with
  | nil => rfl
  | cons pair pairs ih =>
    obtain ⟨k, v⟩ := pair
    obtain ⟨first, others⟩ := forall_mem_cons.1 all
    rw [faultsOfPairs, metInPairs, firstError_cons, firstError_append, head?_append,
      head?_append, first, ih others]
    rfl

/-- A part that may be missing. -/
theorem head?_optional {a : Node}
    (h : a.isMissing = false → (a.faults f).head? = firstError f a.met) :
    (if a.isMissing then [] else a.faults f).head? = firstError f a.met := by
  cases missing : a.isMissing with
  | false => exact h missing
  | true =>
    cases a with
    | missing => rfl
    | _ => cases missing

/-- **The first fault of a tree** is the first error of a construct that
lowering meets. -/
theorem head?_faults {n : Node} (h : n.Sourced P) :
    (n.faults f).head? = firstError f n.met := by
  -- A node with no error of its own is passed over, and one that is refused
  -- as a whole ends the search.
  have refused {c : Construct} {cs : List Construct} {e : CompileError}
      (error : c.errors f = [e]) : some e = firstError f (c :: cs) := by
    rw [firstError_cons, error]
    rfl
  induction h with
  | list pos all ih | output pos all ih | array pos all ih =>
    rw [faults, met, firstError_quiet rfl]
    exact head?_faultsOf ih
  | text => rfl
  | ifElse pos _ _ _ ihc ihb iha | choice pos _ _ _ ihc ihb iha =>
    rw [faults, met, firstError_quiet rfl, head?_append, head?_append, firstError_append,
      firstError_append, ihc, ihb, head?_optional iha]
  | forEach pos names _ _ _ _ _ ihi ihb iha =>
    rw [faults, met, firstError_quiet rfl, firstError_append, firstError_cons, firstError_append,
      head?_append, head?_append, head?_append, ihi, ihb, head?_optional iha]
    rfl
  | assign pos targets _ value ihts ihv =>
    rw [faults, value.isMissing, met, firstError_quiet rfl, head?_append, firstError_append,
      head?_faultsOfTargets targets ihts]
    exact congrArg (Option.or · _) ihv
  | capture pos targets _ body ihts ihb =>
    rw [faults, body.isMissing, met, firstError_quiet rfl, head?_append,
      head?_faultsOfTargets targets ihts]
    exact (congrArg (Option.or · _) ihb).trans (firstError_append _ _).symm
  | embed pos template =>
    rw [met, firstError_cons]
    exact Option.or_none.symm
  | inherit pos template => exact refused rfl
  | block pos body => exact refused rfl
  | @lookup p t k pos target key iht ihk =>
    rw [faults, met, firstError_quiet rfl, head?_append, firstError_append, iht]
    cases key with
    | @literal p v pos spelled =>
      have none : (Node.literal p v).faults f = [] := by
        cases v with
        | words items => exact absurd rfl (spelled items)
        | _ => rfl
      rw [none, ite_self]
      rfl
    | _ => exact congrArg (Option.or _) ihk
  | symbol pos =>
    rw [met, firstError_cons]
    exact Option.or_none.symm
  | @call p c args pos callee all ihc ih =>
    rw [faults, met, firstError_quiet rfl, head?_append, firstError_append,
      head?_faultsOf ih]
    split
    · rfl
    · rw [ihc]
  | @literal p v pos spelled =>
    cases v with
    | words items => exact absurd rfl (spelled items)
    | _ => rfl
  | @compare p first links pos head some_ all ihf ih =>
    rcases links with _ | ⟨⟨op, right⟩, _ | _⟩
    · exact absurd rfl some_
    · have last := ih (op, right) mem_cons_self
      rw [faults, met, firstError_quiet rfl, head?_append, firstError_append, ihf, last,
        metInLinks, metInLinks, append_nil]
    · exact refused rfl
  | not pos operand ih | neg pos operand ih =>
    rw [faults, met, firstError_quiet rfl]
    exact ih
  | @binary p op l r pos known left right ihl ihr =>
    have compiles : (op.combine? .missing .missing).isSome = true := by
      cases op with
      | other name => exact absurd rfl (known name)
      | _ => rfl
    rw [faults, met, firstError_quiet rfl, if_pos compiles, append_nil, head?_append,
      firstError_append, ihl, ihr]
  | dict pos keys values ihk ihv =>
    rw [faults, met, firstError_quiet rfl]
    exact head?_faultsOfPairs ihv
  | @group p ns pos all ih =>
    cases ns with
    | nil => exact refused rfl
    | cons n ns =>
      rw [faults, met, firstError_quiet rfl]
      exact head?_faultsOf ih

end

end Node

end TemplateCompiler
