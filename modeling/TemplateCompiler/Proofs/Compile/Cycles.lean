import TemplateCompiler.Proofs.Compile.InPlace
import TemplateCompiler.Proofs.Compile.Unfolding
import TemplateCompiler.Proofs.Template.Includes

/-!
# Cycles of includes

A compilation follows includes from file to file. It comes to an end because
the include path never holds a partial twice: followed down to one level more
than the library has partials, includes are never followed any further
(`Compile.expandWithin_eq`). If the files that a template reaches have no other
faults, then it compiles exactly if none of their partials includes itself
through others, and otherwise the compilation fails with a cycle
(`compile_iff_acyclic`).

The include path carries the proof. Each partial on it leads to the file that
is being compiled, so an include of one of them closes a cycle; and where a
compilation succeeds, no partial leads back to the path that it was reached
by.
-/

open List

namespace TemplateCompiler

/-! ## Depth -/

namespace Compile

/-- Membership of a name in a path is decided by comparing bytes. -/
local instance lawfulName : LawfulBEq Bytes := inferInstance

/-- Includes as in `expand`, followed down to a depth. Below it an include is
whatever `stop` says. -/
def expandWithin (o : CompileOptions) (lib : Library)
    (stop : IncludePath → Inclusion → Compile Code) :
    Nat → IncludePath → Inclusion → Compile Code
  | 0, path, i => stop path i
  | depth + 1, path, i =>
    match lib.source? i.name with
    | none =>
      if i.optional then do
        debug "ignoring missing partial" [("partial", i.name), ("from", path.file)]
        pure Code.null
      else throw (.missingPartial i.name path.file i.pos)
    | some src =>
      if i.name ∈ path.partials then throw (.includeCycle (path.cycle i.name))
      else
        let site : Site := ⟨i.name, expandWithin o lib stop depth (path.push i.name)⟩
        if o.moduleMode then call o path site i.name src else inline o site i.name src

/-- **Includes are not followed deeper than there is room on their path.** -/
theorem expandWithin_eq {o : CompileOptions} {lib : Library}
    (stop : IncludePath → Inclusion → Compile Code) {depth : Nat} {path : IncludePath}
    (deep : path.room lib < depth) : expandWithin o lib stop depth path = expand o lib path := by
  induction depth generalizing path with
  | zero => exact absurd deep (Nat.not_lt_zero _)
  | succ depth ih =>
    funext i
    rw [expandWithin]
    cases found : lib.source? i.name with
    | none => rw [expand_missing found]
    | some src =>
      by_cases cycle : i.name ∈ path.partials
      · rw [expand_cycle found cycle]
        exact if_pos cycle
      · have room := IncludePath.room_push_lt found cycle
        rw [expand_fresh found cycle, ← ih (by omega)]
        exact if_neg cycle

end Compile

/-! ## Faults and includes -/

namespace Node

section

variable {faultsAt : Inclusion → List CompileError}

/-- A step without faults of its own has those of its includes. -/
theorem Step.faults_eq_flatMap {s : Step} (none : s.faults (fun _ => []) = [])
    (part : ∀ n, s = .part n → n.faults faultsAt = n.inclusions.flatMap faultsAt) :
    s.faults faultsAt = s.inclusions.flatMap faultsAt := by
  cases s with
  | part n => exact part n rfl
  | param | known => exact none
  | expand i => exact (append_nil _).symm
  | refuse => cases none

/-- **In a tree without faults of its own**, the faults are those of its
includes. -/
theorem faults_eq_flatMap (n : Node) (none : n.faults (fun _ => []) = []) :
    n.faults faultsAt = n.inclusions.flatMap faultsAt := by
  refine lower_induction (E := fun _ => True) (P := fun n => n.faults (fun _ => []) = [] →
    n.faults faultsAt = n.inclusions.flatMap faultsAt) ?body ?assign ?plain n (fun _ _ => trivial) none
  case body =>
    intro n ns body ih none
    rw [faults_body body, flatMap_eq_nil_iff] at none
    rw [faults_body body, inclusions_body body, flatMap_assoc]
    exact flatMap_congr fun m mem => ih m mem (none m mem)
  case assign =>
    intro p ts v b iht ihv ihb none
    rw [faults, append_eq_nil_iff, faultsOfTargets_eq, flatMap_eq_nil_iff] at none
    obtain ⟨given, places⟩ := none
    rw [faults, inclusions, flatMap_append, faultsOfTargets_eq, inclusionsOf_eq,
      flatMap_assoc]
    congr 1
    · cases absent : v.isMissing with
      | false =>
        rw [absent] at given
        exact ihv absent given
      | true =>
        rw [absent] at given
        cases missing : b.isMissing with
        | true =>
          rw [missing] at given
          cases given
        | false =>
          rw [missing] at given
          exact ihb absent given
    · refine flatMap_congr fun t mem => ?_
      have here := places t mem
      cases kind : t.isTarget with
      | false =>
        rw [kind] at here
        cases here
      | true =>
        rw [kind] at here
        exact iht t mem here
  case plain =>
    intro n plain keeps ih _ none
    rw [faults_eq_steps plain keeps] at none ⊢
    obtain same | ⟨e, refused⟩ := inclusions_eq_steps plain keeps
    · rw [same, flatMap_assoc]
      rw [flatMap_eq_nil_iff] at none
      refine flatMap_congr fun s mem => Step.faults_eq_flatMap (none s mem) fun m part => ?_
      have here := none s mem
      subst part
      exact ih m mem here
    · rw [refused] at none
      cases none

end

/-- **No include is passed over**: in a tree of the parser without faults, the
includes that are compiled are all that stand in its source. -/
theorem inclusions_eq_includes {n : Node} (parsed : n.IsParsed)
    (none : n.faults (fun _ => []) = []) : n.inclusions = n.includes := by
  have all {ns : List Node} (each : ∀ n ∈ ns, n.faults (fun _ => []) = [] →
      n.inclusions = n.includes) (none : faultsOf (fun _ => []) ns = []) :
      inclusionsOf ns = includesOf ns := by
    rw [faultsOf_eq, flatMap_eq_nil_iff] at none
    induction ns with
    | nil => rfl
    | cons n ns ih =>
      obtain ⟨first, others⟩ := forall_mem_cons.1 each
      obtain ⟨here, rest⟩ := forall_mem_cons.1 none
      rw [inclusionsOf, first here, ih others rest]
      rfl
  have taken {n : Node} (plain : n.include? = .none) : n.includes = includesOf n.parts := by
    rw [includes_eq, plain]
    rfl
  have places {ts : List Node} (expressions : ∀ t ∈ ts, t.IsExpression) :
      inclusionsOf ts = [] ∧ includesOf ts = [] := by
    constructor
    · induction ts with
      | nil => rfl
      | cons t ts ih =>
        obtain ⟨first, others⟩ := forall_mem_cons.1 expressions
        rw [inclusionsOf, inclusions_of_isExpression first, ih others]
        rfl
    · exact includesOf_eq_nil fun t mem => includes_of_isExpression (expressions t mem)
  have alternative {a : Node} (whole : a.faults (fun _ => []) = [] → a.inclusions = a.includes)
      (none : (if a.isMissing then [] else a.faults fun _ => []) = []) :
      a.inclusions = a.includes := by
    cases a with
    | missing => rfl
    | _ => exact whole none
  induction parsed with
  | missing | inherit | block => cases none
  | text => rfl
  | expression whole => rw [inclusions_of_isExpression whole, includes_of_isExpression whole]
  | list _ ih | output _ ih =>
    rw [taken rfl]
    exact all ih none
  | @ifElse p c b a condition body other ihb iha =>
    rw [faults, append_eq_nil_iff, append_eq_nil_iff] at none
    obtain ⟨-, inner, rest⟩ := none
    rw [taken rfl, inclusions, ihb inner, alternative iha rest,
      inclusions_of_isExpression condition]
    simp [parts, includesOf, includes_of_isExpression condition]
  | @forEach p v i b a vars iterable body other ihb iha =>
    rw [faults] at none
    simp only [append_eq_nil_iff] at none
    obtain ⟨-, -, inner, rest⟩ := none
    rw [taken rfl, inclusions, ihb inner, alternative iha rest,
      inclusions_of_isExpression iterable]
    simp [parts, includesOf, includes_of_isExpression vars, includes_of_isExpression iterable]
  | @assign p ts v some_ targets value =>
    obtain ⟨left, right⟩ := places targets
    rw [taken rfl, parts, includesOf_append, right, inclusions, left,
      isMissing_of_isExpression value]
    simp [includesOf, inclusions_of_isExpression value, includes_of_isExpression value,
      show missing.includes = [] from rfl]
  | @capture p ts b some_ targets body ih =>
    obtain ⟨left, right⟩ := places targets
    rw [faults, append_eq_nil_iff] at none
    have inner : b.inclusions = b.includes := by
      refine alternative ih ?_
      have given := none.1
      cases missing : b.isMissing with
      | true => rfl
      | false =>
        rw [missing] at given
        exact given
    rw [taken rfl, parts, includesOf_append, right, inclusions, left]
    simp [includesOf, inner, isMissing, show missing.includes = [] from rfl]
  | @embed p t optional template =>
    cases t with
    | literal place value =>
      cases value with
      | string name => rfl
      | _ => cases none
    | _ => cases none

end Node

/-! ## The graph of includes -/

/-- One partial includes another. -/
def Includes (o : CompileOptions) (lib : Library) (name other : Bytes) : Prop :=
  ∃ src tree, lib.source? name = some src ∧ o.parse src = .ok tree
    ∧ ∃ i ∈ tree.inclusions, i.name = other

/-- **A template that reaches a cycle**: a partial that includes itself,
directly or through others. -/
def Cyclic (o : CompileOptions) (lib : Library) (src : Bytes) : Prop :=
  ∃ name, Reachable o lib src name ∧ Relation.TransGen (Includes o lib) name name

/-- A file in which nothing but a cycle is left to fail: each of its includes
has a partial or may be missing, and no other construct is rejected. -/
structure Node.Resolvable (lib : Library) (tree : Node) : Prop where
  faultless : tree.faults (fun _ => []) = []
  known : ∀ i ∈ tree.inclusions, i.optional = true ∨ (lib.source? i.name).isSome = true

/-- Every file that a template reaches can be read, and is left to fail only
because of a cycle. -/
structure Resolves (o : CompileOptions) (lib : Library) (src : Bytes) (tree : Node) : Prop where
  parsed : o.parse src = .ok tree
  root : tree.Resolvable lib
  partials : ∀ name text, Reachable o lib src name → lib.source? name = some text →
    ∃ t, o.parse text = .ok t ∧ t.Resolvable lib

section

variable {name : Bytes} {path : IncludePath} {i : Inclusion}

variable {o : CompileOptions} {lib : Library} {src : Bytes} {tree : Node}

/-- **Only cycles are found.** Each partial on the path leads to the include,
so where the include is on the path it closes a cycle. -/
theorem Resolves.cyclic_of_fault (resolves : Resolves o lib src tree)
    (reached : Reachable o lib src i.name)
    (known : i.optional = true ∨ (lib.source? i.name).isSome = true)
    (leads : ∀ name ∈ path.partials, Relation.TransGen (Includes o lib) name i.name)
    {e : CompileError} (fault : e ∈ includedFaults o lib path i) :
    (∃ chain, e = .includeCycle chain) ∧ Cyclic o lib src := by
  fun_induction includedFaults o lib path i generalizing e with
  | case1 => cases fault
  | case2 path i found required => simp [found, required] at known
  | case3 path i text found cycle =>
    exact ⟨⟨_, mem_singleton.1 fault⟩, i.name, reached, leads _ cycle⟩
  | case4 path i text found fresh _ t parsed ih =>
    obtain ⟨t', parsed', resolvable⟩ := resolves.partials i.name text reached found
    cases parsed.symm.trans parsed'
    rw [Node.faults_eq_flatMap t resolvable.faultless] at fault
    obtain ⟨e', inside, rfl⟩ := mem_map.1 fault
    obtain ⟨j, included, inside⟩ := mem_flatMap.1 inside
    have step : Includes o lib i.name j.name := ⟨text, t, found, parsed, j, included, rfl⟩
    have leads' : ∀ name ∈ (path.push i.name).partials,
        Relation.TransGen (Includes o lib) name j.name := by
      intro name mem
      rcases mem_append.1 mem with before | here
      · exact (leads name before).tail step
      · cases mem_singleton.1 here
        exact .single step
    obtain ⟨⟨chain, rfl⟩, cyclic⟩ := ih j (.next reached found parsed included)
      (resolvable.known j included) leads' inside
    exact ⟨⟨chain, rfl⟩, cyclic⟩
  | case5 path i text found fresh _ e failed =>
    obtain ⟨t, parsed, -⟩ := resolves.partials i.name text reached found
    cases failed.symm.trans parsed

/-- An include without faults passes this on to the includes of its
partial. -/
theorem Resolves.pass (resolves : Resolves o lib src tree) {j : Inclusion}
    (reached : Reachable o lib src i.name) (none : includedFaults o lib path i = []) {text : Bytes}
    {t : Node} (found : lib.source? i.name = some text) (parsed : o.parse text = .ok t)
    (included : j ∈ t.inclusions) :
    includedFaults o lib (path.push i.name) j = [] := by
  have fresh : i.name ∉ path.partials := by
    intro cycle
    rw [includedFaults_cycle found cycle] at none
    cases none
  obtain ⟨t', parsed', resolvable⟩ := resolves.partials i.name text reached found
  rw [parsed] at parsed'
  cases parsed'
  rw [includedFaults_fresh found fresh parsed, map_eq_nil_iff,
    Node.faults_eq_flatMap t resolvable.faultless] at none
  exact flatMap_eq_nil_iff.1 none j included

/-- **Nothing leads back to the path** from an include without faults. -/
theorem Resolves.not_mem_path (resolves : Resolves o lib src tree) {other : Bytes}
    (leads : Relation.ReflTransGen (Includes o lib) name other)
    (found : (lib.source? other).isSome = true) (named : i.name = name)
    (reached : Reachable o lib src i.name) (none : includedFaults o lib path i = []) :
    other ∉ path.partials := by
  induction leads using Relation.ReflTransGen.head_induction_on generalizing path i with
  | refl =>
    intro cycle
    obtain ⟨text, found⟩ := Option.isSome_iff_exists.1 found
    rw [← named] at found cycle
    rw [includedFaults_cycle found cycle] at none
    cases none
  | head step _ ih =>
    obtain ⟨text, t, source, parsed, j, included, next⟩ := step
    rw [← named] at source
    have inner := resolves.pass reached none source parsed included
    intro cycle
    exact ih next (.next reached source parsed included) inner (mem_append_left _ cycle)

/-- Each partial that is reached has been included without faults. -/
theorem Resolves.included (resolves : Resolves o lib src tree)
    (none : tree.faults (includedFaults o lib { root := o.file }) = [])
    (reached : Reachable o lib src name) :
    ∃ path i, i.name = name ∧ includedFaults o lib path i = [] := by
  induction reached with
  | @root t i parsed included =>
    rw [resolves.parsed] at parsed
    cases parsed
    rw [Node.faults_eq_flatMap _ resolves.root.faultless] at none
    exact ⟨_, i, rfl, flatMap_eq_nil_iff.1 none i included⟩
  | @next via text t j before found parsed included ih =>
    obtain ⟨path, i, rfl, inner⟩ := ih
    exact ⟨path.push i.name, j, rfl, resolves.pass before inner found parsed included⟩

/-- **A template has faults in place exactly if it reaches a cycle.** -/
theorem Resolves.faults_iff (resolves : Resolves o lib src tree) :
    tree.faults (includedFaults o lib { root := o.file }) = [] ↔ ¬ Cyclic o lib src := by
  constructor
  · rintro none ⟨name, reached, cycle⟩
    obtain ⟨path, i, rfl, inner⟩ := resolves.included none reached
    obtain ⟨next, step, back⟩ := Relation.TransGen.head'_iff.1 cycle
    obtain ⟨text, t, found, parsed, j, included, rfl⟩ := step
    have deeper := resolves.pass reached inner found parsed included
    refine resolves.not_mem_path back (by rw [found]; rfl) rfl
      (.next reached found parsed included) deeper ?_
    exact mem_append_right _ (mem_singleton_self _)
  · intro acyclic
    rw [Node.faults_eq_flatMap tree resolves.root.faultless, flatMap_eq_nil_iff]
    intro i included
    refine eq_nil_iff_forall_not_mem.2 fun e fault => acyclic ?_
    exact (resolves.cyclic_of_fault (.root resolves.parsed included)
      (resolves.root.known i included) (forall_mem_nil _) fault).2

/-- **How a compilation ends**, in either mode. -/
theorem Resolves.compile_ends (resolves : Resolves o lib src tree) :
    (Cyclic o lib src ∧ ∃ chain, (compile o lib src).1 = .error (.includeCycle chain))
      ∨ (¬ Cyclic o lib src ∧ ∃ p, (compile o lib src).1 = .ok p) := by
  have iff := resolves.faults_iff
  have fails (e : CompileError) : (compile o lib src).1 = .error e ↔ _ :=
    compile_eq_error_iff resolves.parsed
  cases faults : tree.faults (includedFaults o lib { root := o.file }) with
  | nil =>
    rw [faults] at fails iff
    cases ends : (compile o lib src).1 with
    | ok p => exact .inr ⟨iff.1 rfl, p, rfl⟩
    | error e => cases (fails e).1 ends
  | cons e es =>
    rw [faults] at fails
    have first : e ∈ tree.faults (includedFaults o lib { root := o.file }) :=
      faults ▸ mem_cons_self
    rw [Node.faults_eq_flatMap tree resolves.root.faultless] at first
    obtain ⟨i, included, fault⟩ := mem_flatMap.1 first
    obtain ⟨⟨chain, rfl⟩, cyclic⟩ := resolves.cyclic_of_fault (.root resolves.parsed included)
      (resolves.root.known i included) (forall_mem_nil _) fault
    exact .inl ⟨cyclic, chain, (fails _).2 rfl⟩

end

/-- **Includes are resolved in the end, and exactly the cycles are refused.**
Whatever the sources, no include is followed more than one level deeper than
the library has partials. If the files that a template reaches are left to
fail only because of a cycle, then it compiles if and only if it reaches none,
and fails with a cycle otherwise. Which includes count is read off the whole
source of a file. -/
theorem compile_iff_acyclic (o : CompileOptions) (lib : Library) (src : Bytes) :
    (∀ stop, Compile.expandWithin o lib stop (lib.names.length + 1) { root := o.file }
        = Compile.expand o lib { root := o.file })
      ∧ (∀ text tree, Template.parse text = .ok tree → tree.faults (fun _ => []) = [] →
        tree.inclusions = tree.includes)
      ∧ ∀ tree, Resolves o lib src tree →
        ((∃ p, (compile o lib src).1 = .ok p) ↔ ¬ Cyclic o lib src)
          ∧ (Cyclic o lib src → ∃ chain, (compile o lib src).1 = .error (.includeCycle chain)) := by
  refine ⟨fun stop => ?_, fun text tree parsed none => ?_, fun tree resolves => ?_⟩
  · exact Compile.expandWithin_eq stop (Nat.lt_succ_of_le List.countP_le_length)
  · exact Node.inclusions_eq_includes (isParsed_of_parse parsed) none
  · rcases resolves.compile_ends with ⟨cyclic, chain, ends⟩ | ⟨acyclic, p, ends⟩
    · refine ⟨iff_of_false ?_ (fun acyclic => acyclic cyclic), fun _ => ⟨chain, ends⟩⟩
      rintro ⟨p, ok⟩
      rw [ends] at ok
      cases ok
    · exact ⟨iff_of_true ⟨p, ends⟩ acyclic, fun cyclic => absurd cyclic acyclic⟩

section

instance (lib : Library) (tree : Node) : Decidable (tree.Resolvable lib) :=
  decidable_of_iff (tree.faults (fun _ => []) = []
      ∧ ∀ i ∈ tree.inclusions, i.optional = true ∨ (lib.source? i.name).isSome = true)
    ⟨fun ⟨faultless, known⟩ => ⟨faultless, known⟩, fun h => ⟨h.faultless, h.known⟩⟩

/-- Pages that include each other: `page` leads to `nav` and back, and `foot`
to nothing. -/
private def pages : Library :=
  ⟨[("page", "\x7b% include \"nav\" %\x7d"),
    ("nav", "\x7b% if c %\x7d\x7b% include \"page\" %\x7d\x7b% endif %\x7d"),
    ("foot", "\x7b% include \"gone\" ignore missing %\x7d")]⟩

private def including (name : Bytes) : Bytes := "\x7b% include \"" ++ name ++ "\" %\x7d"

/-- Whether a source can be read and is left to fail only because of a
cycle. -/
private def isResolvable (lib : Library) (text : Bytes) : Bool :=
  match Template.parse text with
  | .ok tree => decide (tree.Resolvable lib)
  | .error _ => false

private theorem resolves_of_isResolvable (lib : Library) (src : Bytes)
    (root : isResolvable lib src = true)
    (partials : (lib.partials.all fun entry => isResolvable lib entry.2) = true) :
    ∃ tree, Resolves {} lib src tree := by
  have read {text : Bytes} (h : isResolvable lib text = true) :
      ∃ tree, Template.parse text = .ok tree ∧ tree.Resolvable lib := by
    unfold isResolvable at h
    split at h
    · next tree parsed => exact ⟨tree, parsed, of_decide_eq_true h⟩
    · cases h
  obtain ⟨tree, parsed, resolvable⟩ := read root
  refine ⟨tree, parsed, resolvable, fun name text _ found => ?_⟩
  obtain ⟨before, after, same, -⟩ := lookup_eq_some_iff.1 found
  exact read (all_eq_true.1 partials (name, text) (by simp [same]))

private theorem pages_partials :
    (pages.partials.all fun entry => isResolvable pages entry.2) = true := by cbv

/-- A page on a cycle, and one that leads to none. -/
theorem pages_iff_acyclic :
    (Cyclic {} pages (including "page")
        ∧ (compile {} pages (including "page")).1 = .error (.includeCycle ["page", "nav", "page"]))
      ∧ ¬ Cyclic {} pages (including "foot")
      ∧ ∃ p, (compile {} pages (including "foot")).1 = .ok p := by
  obtain ⟨page, resolves⟩ := resolves_of_isResolvable pages (including "page") (by cbv)
    pages_partials
  obtain ⟨foot, resolves'⟩ := resolves_of_isResolvable pages (including "foot") (by cbv)
    pages_partials
  have fails : (compile {} pages (including "page")).1
      = .error (.includeCycle ["page", "nav", "page"]) := by cbv
  have compiles : (compile {} pages (including "foot")).1.toOption.isSome = true := by cbv
  obtain ⟨p, ends⟩ : ∃ p, (compile {} pages (including "foot")).1 = .ok p := by
    cases ends : (compile {} pages (including "foot")).1 with
    | ok p => exact ⟨p, rfl⟩
    | error e => rw [ends] at compiles; cases compiles
  have first := (compile_iff_acyclic {} pages (including "page")).2.2 page resolves
  have second := (compile_iff_acyclic {} pages (including "foot")).2.2 foot resolves'
  refine ⟨⟨by_contra fun acyclic => ?_, fails⟩, second.1.1 ⟨p, ends⟩, p, ends⟩
  obtain ⟨q, ok⟩ := first.1.2 acyclic
  rw [fails] at ok
  cases ok

end

end TemplateCompiler
