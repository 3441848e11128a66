import TemplateCompiler.Proofs.Compile.Drafting

/-!
# What lowering comes to

Lowering a tree is a compile step, which runs in a session and may fail. What
comes of it does not depend on the session, apart from locations, if that is
so for the includes of the tree. Two functions on trees say what it is.
`Node.faults` lists the constructs that cannot be compiled, each as its error
and in the order in which they are met, and `Node.code` is the code of a tree
without any. `Node.lower_comesTo` says that lowering fails with the first of
the faults, and that without faults it gives the code.
-/

open List

namespace TemplateCompiler

variable {ns : List Node} {n : Node}

/-! ## Steps that do not depend on the session -/

namespace Compile

variable {α β : Type}

/-- **What a step comes to**, in every session: it fails with the first of
these errors or, if there are none, succeeds with a result that has `P`. -/
def ComesTo (m : Compile α) (errors : List CompileError) (P : α → Prop) : Prop :=
  ∀ s, match errors with
    | [] => ∃ a t, m.outcome s = (.ok a, t) ∧ P a
    | e :: _ => ∃ t, m.outcome s = (.error e, t)

namespace ComesTo

variable {m : Compile α} {f : α → Compile β} {es fs : List CompileError} {P R : α → Prop}
  {Q : β → Prop}

theorem pure {a : α} (h : P a) : ComesTo (Pure.pure a) [] P := fun s => ⟨a, s, rfl, h⟩

theorem throw (e : CompileError) : ComesTo (MonadExcept.throw e : Compile α) (e :: es) P :=
  fun s => ⟨s, rfl⟩

theorem throw_bind (e : CompileError) :
    ComesTo ((MonadExcept.throw e : Compile α) >>= f) (e :: es) Q := fun s => ⟨s, rfl⟩

theorem quiet (h : m.Quiet P) : m.ComesTo [] P := by
  intro s
  obtain ⟨a, t, run, -, held⟩ := h s
  exact ⟨a, t, run, held⟩

/-- The errors of steps in sequence come one after the other. The second step
is not taken if the first one fails. -/
theorem bind_of_nil (first : m.ComesTo es P)
    (next : es = [] → ∀ a, P a → (f a).ComesTo fs Q) : (m >>= f).ComesTo (es ++ fs) Q := by
  intro s
  have step := first s
  cases es with
  | cons e es =>
    obtain ⟨t, run⟩ := step
    exact ⟨t, outcome_bind_error run⟩
  | nil =>
    obtain ⟨a, t, run, held⟩ := step
    have rest := next rfl a held t
    cases fs with
    | nil =>
      obtain ⟨b, u, run', held'⟩ := rest
      exact ⟨b, u, (outcome_bind_ok run).trans run', held'⟩
    | cons e fs =>
      obtain ⟨u, run'⟩ := rest
      exact ⟨u, (outcome_bind_ok run).trans run'⟩

theorem bind (first : m.ComesTo es P) (next : ∀ a, P a → (f a).ComesTo fs Q) :
    (m >>= f).ComesTo (es ++ fs) Q := first.bind_of_nil fun _ => next

/-- A step behind others that cannot fail. -/
theorem bind_last (first : m.ComesTo es P) (next : ∀ a, P a → (f a).ComesTo [] Q) :
    (m >>= f).ComesTo es Q := by
  rw [← append_nil es]
  exact first.bind next

/-- A quiet step in front of others. -/
theorem quiet_bind (h : m.Quiet P) (next : ∀ a, P a → (f a).ComesTo fs Q) :
    (m >>= f).ComesTo fs Q := (quiet h).bind next

theorem imp (h : m.ComesTo es P) (weaken : ∀ a, P a → R a) : m.ComesTo es R := by
  intro s
  have step := h s
  cases es with
  | cons e es => exact step
  | nil =>
    obtain ⟨a, t, run, held⟩ := step
    exact ⟨a, t, run, weaken a held⟩

/-- Steps over a list, each with its own errors and its own result. -/
theorem mapM {γ δ : Type} {xs : List γ} {step : γ → Compile α} {errors : γ → List CompileError}
    {view : α → δ} {result : γ → δ}
    (each : ∀ x ∈ xs, (step x).ComesTo (errors x) fun a => view a = result x) :
    (xs.mapM step).ComesTo (xs.flatMap errors) fun as => as.map view = xs.map result := by
  induction xs with
  | nil => exact .pure rfl
  | cons x xs ih =>
    obtain ⟨first, others⟩ := forall_mem_cons.1 each
    rw [mapM_cons, flatMap_cons]
    refine first.bind fun a head => ?_
    exact (ih others).bind_last fun as tail => .pure (by rw [map_cons, head, tail]; rfl)

end ComesTo

/-- The error of a step that only reads what was given. -/
def errorsOf (x : Except CompileError α) : List CompileError :=
  match x with
  | .ok _ => []
  | .error e => [e]

theorem lift_comesTo (x : Except CompileError α) :
    (liftM x : Compile α).ComesTo (errorsOf x) fun a => x = .ok a := by
  cases x with
  | ok a => exact .pure rfl
  | error e => exact .throw e

end Compile

namespace Node

open Compile (errorsOf)

/-! ## Faults -/

/-- The faults of the variables of a loop that takes its items apart, when
those of `taken` are bound already. -/
def variableFaults (taken : List Bytes) : List Node → List CompileError
  | [] => []
  | n :: ns =>
    match n with
    | .symbol _ name =>
      errorsOf (n.binding name)
        ++ ((if taken.contains (Script.bindingName name) then
            [n.unsupported ("loop variable " ++ quoted name ++ " repeated")] else [])
          ++ variableFaults (taken ++ [Script.bindingName name]) ns)
    | _ => [n.unsupported "loop variables must be names"]

/-- The faults of what a loop binds. -/
def loopFaults (n : Node) : List CompileError :=
  match n with
  | .symbol _ name => errorsOf (n.binding name)
  | .array _ names => variableFaults [] names
  | _ => [n.unsupported "loop variables must be names"]

/-- Whether a node is a name. -/
def isSymbol : Node → Bool
  | .symbol .. => true
  | _ => false

mutual

/-- **The constructs of a tree that cannot be compiled**, each as its error,
in the order in which they are met. Those of an include are given. -/
def faults (includes : Inclusion → List CompileError) (n : Node) : List CompileError :=
  match n with
  | .text .. => []
  | .list _ ns | .output _ ns | .array _ ns => faultsOf includes ns
  | .ifElse _ c b a | .choice _ c b a =>
    c.faults includes ++ (b.faults includes ++ if a.isMissing then [] else a.faults includes)
  | .forEach _ vars items body alt =>
    items.faults includes ++ (loopFaults vars
      ++ (body.faults includes ++ if alt.isMissing then [] else alt.faults includes))
  | .assign _ targets value body =>
    (if value.isMissing then
        if body.isMissing then [n.unsupported "set without a value"] else body.faults includes
      else value.faults includes) ++ faultsOfTargets includes targets
  | .embed pos target optional =>
    match target with
    | .literal _ (.string name) => includes ⟨pos, name, optional⟩
    | .literal place _ => [.dynamicInclude "non-string literal" place]
    | _ => [.dynamicInclude target.kind target.pos]
  | .lookup _ target key =>
    target.faults includes ++ if key.memberKey?.isSome then [] else key.faults includes
  | .symbol _ name | .named _ name => errorsOf (n.binding name)
  | .call _ callee args =>
    faultsOf includes args ++ if callee.isSymbol then [] else callee.faults includes
  | .literal _ value =>
    if (Code.ofLiteral? value).isSome then []
    else [n.unsupported "unsupported literal value []string"]
  | .compare _ left [(_, right)] => left.faults includes ++ right.faults includes
  | .compare pos _ links => [.chainedComparison (links.map Prod.fst) pos]
  | .not _ target | .neg _ target => target.faults includes
  | .binary _ op left right =>
    left.faults includes ++ (right.faults includes
      ++ if (op.combine? .missing .missing).isSome then []
        else [n.unsupported ("operator " ++ op.name)])
  | .dict _ pairs => faultsOfPairs includes pairs
  | .group _ ns => if ns.isEmpty then [n.unsupported "empty group"] else faultsOf includes ns
  | .inherit .. | .block .. | .missing => [n.unsupported []]

/-- `faults` of each node in turn. -/
def faultsOf (includes : Inclusion → List CompileError) : List Node → List CompileError
  | [] => []
  | n :: ns => n.faults includes ++ faultsOf includes ns

/-- `faults` of the targets of an assignment. -/
def faultsOfTargets (includes : Inclusion → List CompileError) : List Node → List CompileError
  | [] => []
  | n :: ns =>
    (if n.isTarget then n.faults includes else [n.unsupported "invalid assignment target"])
      ++ faultsOfTargets includes ns

/-- `faults` of the keys and values of a dictionary. -/
def faultsOfPairs (includes : Inclusion → List CompileError) :
    List (Node × Node) → List CompileError
  | [] => []
  | (key, value) :: pairs =>
    errorsOf (dictKey key) ++ (value.faults includes ++ faultsOfPairs includes pairs)

end

/-! ## Code -/

/-- What a loop binds. -/
def loopCode : Node → Code
  | .symbol _ name => .ident (Script.bindingName name)
  | .array _ names => .destructure (loopPattern (names.filterMap fun
      | .symbol _ name => some name
      | _ => none))
  | _ => .missing

/-- Assignments of a value to these targets. -/
def assignmentCodes (value : Code) : List Code → List Code
  | [] => []
  | first :: others =>
    .assign none first value :: others.map fun other => .assign none other first

mutual

/-- **The code of a tree**, without locations, if it has no faults. The code
of an include is given. -/
def code (includes : Inclusion → Code) (n : Node) : Code :=
  match n with
  | .text _ content => .str content
  | .list _ ns => BodyPart.code (bodyParts includes ns)
  | .output _ ns => BodyPart.code (codeParts includes ns)
  | .ifElse _ c b a | .choice _ c b a =>
    .conditional none (c.code includes) (b.code includes)
      (if a.isMissing then .str [] else a.code includes)
  | .forEach _ vars items body alt =>
    loop (items.code includes) (loopCode vars) (body.code includes)
      (if alt.isMissing then none else some (alt.code includes))
  | .assign _ targets value body =>
    .call none (.lambda none [] .missing (assignmentCodes
      (if value.isMissing then body.code includes else value.code includes)
      (codes includes targets))) []
  | .embed pos target optional =>
    match target with
    | .literal _ (.string name) => includes ⟨pos, name, optional⟩
    | _ => .missing
  | .lookup _ target key =>
    match key.memberKey? with
    | some (property, computed) => .member none (target.code includes) property computed
    | none => .member none (target.code includes) (key.code includes) true
  | .symbol _ name | .named _ name => .ident (Script.bindingName name)
  | .call _ callee args =>
    .call none (match callee with
      | .symbol _ name => filterPath name
      | _ => callee.code includes) (codes includes args)
  | .literal _ value => (Code.ofLiteral? value).getD .missing
  | .compare _ left [(op, right)] => .binary none op (left.code includes) (right.code includes)
  | .not _ target => .unary none "!" (target.code includes)
  | .neg _ target => .unary none "-" (target.code includes)
  | .binary _ op left right =>
    (op.combine? (left.code includes) (right.code includes)).getD .missing
  | .array _ ns => .array none (codes includes ns)
  | .dict _ pairs => .object none (codePairs includes pairs)
  | .group _ [inner] => inner.code includes
  | .group _ ns => .sequence none (codes includes ns)
  | .compare .. | .inherit .. | .block .. | .missing => .missing

/-- `code` of each node in turn. -/
def codes (includes : Inclusion → Code) : List Node → List Code
  | [] => []
  | n :: ns => n.code includes :: codes includes ns

/-- The parts that the contents of an output give. -/
def codeParts (includes : Inclusion → Code) : List Node → List BodyPart
  | [] => []
  | .text pos content :: ns => .text pos content :: codeParts includes ns
  | n :: ns => .hole (n.code includes) :: codeParts includes ns

/-- The parts that the nodes of a body give. -/
def bodyParts (includes : Inclusion → Code) : List Node → List BodyPart
  | [] => []
  | .text pos content :: ns => .text pos content :: bodyParts includes ns
  | .output _ inner :: ns => codeParts includes inner ++ bodyParts includes ns
  | n :: ns => .hole (n.code includes) :: bodyParts includes ns

/-- The entries of a dictionary. -/
def codePairs (includes : Inclusion → Code) : List (Node × Node) → List (Bytes × Code)
  | [] => []
  | (key, value) :: pairs => (keyText key, value.code includes) :: codePairs includes pairs

end

end Node

namespace Step

/-- What cannot be compiled in a step. -/
def faults (includes : Inclusion → List CompileError) : Step → List CompileError
  | .part n => n.faults includes
  | .param n => n.loopFaults
  | .known .. => []
  | .expand i => includes i
  | .refuse e => [e]

/-- The code that a step gives. -/
def code (includes : Inclusion → Code) : Step → Code
  | .part n => n.code includes
  | .param n => n.loopCode
  | .known _ c => c
  | .expand i => includes i
  | .refuse _ => .missing

end Step

/-! ## Locations seen in part

What a step comes to is said of its code with other locations, for any change
that does not see the locations in the file at hand. -/

namespace BodyPart

variable {g : Option Location → Option Location} {parts parts' : List BodyPart}

/-- A part with other locations in its code. -/
def relocate (g : Option Location → Option Location) : BodyPart → BodyPart
  | .text pos content => .text pos content
  | .hole code => .hole (code.relocate g)

theorem hole?_relocate (p : BodyPart) :
    (p.relocate g).hole? = p.hole?.map (Code.relocate g) := by
  cases p <;> rfl

theorem text?_relocate (p : BodyPart) : (p.relocate g).text? = p.text? := by
  cases p <;> rfl

theorem runs_relocate (parts : List BodyPart) : runs (parts.map (relocate g)) = runs parts := by
  induction parts with
  | nil => rfl
  | cons p parts ih => cases p <;> rw [map_cons, relocate, runs, runs, ih]

theorem relocate_mixed (same : parts.map (relocate g) = parts'.map (relocate g)) :
    (mixed parts).relocate g = (mixed parts').relocate g := by
  have holes (parts : List BodyPart) : (parts.map (relocate g)).filterMap hole?
      = (parts.filterMap hole?).map (Code.relocate g) := by
    rw [filterMap_map, map_filterMap]
    exact filterMap_congr fun p _ => hole?_relocate p
  have texts (parts : List BodyPart) :
      (parts.map (relocate g)).filterMap text? = parts.filterMap text? := by
    rw [filterMap_map]
    exact filterMap_congr fun p _ => text?_relocate p
  have sameRuns : runs parts = runs parts' := by rw [← runs_relocate, same, runs_relocate]
  have sameHoles := congrArg (List.filterMap hole?) same
  have sameTexts := congrArg (List.filterMap text?) same
  rw [holes, holes] at sameHoles
  rw [texts, texts] at sameTexts
  rw [mixed, mixed, sameRuns, sameTexts]
  generalize parts.filterMap hole? = cs, parts'.filterMap hole? = ds at sameHoles
  cases cs with
  | nil => rw [map_eq_nil_iff.1 sameHoles.symm]
  | cons c cs =>
    cases ds with
    | nil => cases sameHoles
    | cons d ds =>
      rw [Code.relocate, Code.relocate, Code.relocateAll_eq_map, Code.relocateAll_eq_map, sameHoles]

/-- Bodies with the same parts have the same code, whatever is seen of it. -/
theorem relocate_code (same : parts.map (relocate g) = parts'.map (relocate g)) :
    (code parts).relocate g = (code parts').relocate g := by
  have several := relocate_mixed same
  have lengths : parts.length = parts'.length := by simpa using congrArg List.length same
  match parts, parts', same, several, lengths with
  | [], [], _, several, _ => exact several
  | [p], [q], same, _, _ =>
    have alike := (List.cons.inj same).1
    cases p with
    | text =>
      cases q with
      | text => cases alike; rfl
      | hole => cases alike
    | hole =>
      cases q with
      | text => cases alike
      | hole => exact BodyPart.hole.inj alike
  | p :: q :: parts, p' :: q' :: parts', _, several, _ =>
    cases p <;> cases q <;> cases p' <;> cases q' <;> exact several

/-- **Assembling a body** gives its code. -/
theorem assemble_relocate {site : Site} (hides : Code.Hides g site.file) (pos : Position)
    (parts : List BodyPart) :
    (assemble site pos parts).Quiet fun c => c.relocate g = (code parts).relocate g := by
  rcases assemble_eq pos parts with ⟨c, rfl⟩ | same
  · exact Compile.Quiet.pure rfl
  · rw [same]
    exact Compile.Quiet.locating fun n => Code.relocate_stamp hides _ _ n

end BodyPart

namespace Node

open Compile (ComesTo lift_comesTo errorsOf)

variable {site : Site} {g : Option Location → Option Location}
  {faultsAt : Inclusion → List CompileError} {codeAt : Inclusion → Code}

theorem locate_comesTo (hides : Code.Hides g site.file) {pos : Position} {c d : Code}
    (same : c.relocate g = d) : (site.locate pos c).ComesTo [] fun c' => c'.relocate g = d :=
  .quiet (Compile.Quiet.locating fun n => (Code.relocate_stamp hides pos c n).trans same)

/-- What includes come to at a site. -/
def Expands (site : Site) (g : Option Location → Option Location)
    (faultsAt : Inclusion → List CompileError) (codeAt : Inclusion → Code)
    (is : List Inclusion) : Prop :=
  ∀ i ∈ is, (site.expand i).ComesTo (faultsAt i) fun c => c.relocate g = (codeAt i).relocate g

section

variable {is js : List Inclusion}

theorem Expands.left (h : Expands site g faultsAt codeAt (is ++ js)) :
    Expands site g faultsAt codeAt is :=
  fun i mem => h i (mem_append_left _ mem)

theorem Expands.right (h : Expands site g faultsAt codeAt (is ++ js)) :
    Expands site g faultsAt codeAt js :=
  fun i mem => h i (mem_append_right _ mem)

end

/-! ## Names and loops -/

theorem binding_comesTo (n : Node) (name : Bytes) :
    (liftM (n.binding name) : Compile Identifier).ComesTo (errorsOf (n.binding name))
      fun id => id = { name := Script.bindingName name } :=
  (lift_comesTo _).imp fun _ h => (binding_ok h).2

theorem relocate_add (d : Destructure) (key : Bytes) (id : Identifier) :
    (d.add key id).relocate g = (d.relocate g).add key (id.relocate g) := by
  simp [Destructure.add, Destructure.relocate, Identifier.relocate]

theorem names_relocate (d : Destructure) :
    (d.relocate g).names.map Identifier.name = d.names.map Identifier.name := by
  rw [Destructure.relocate, map_map]
  rfl

/-- **One more variable of a loop.** -/
theorem loopVariable_comesTo (hides : Code.Hides g site.file) {ns : List Bytes} {d : Destructure}
    (same : d.relocate g = (loopPattern ns).relocate g) (pos : Position) (name : Bytes) :
    (loopVariable site d (.symbol pos name)).ComesTo
      (errorsOf ((symbol pos name).binding name)
        ++ if (ns.map Script.bindingName).contains (Script.bindingName name) then
          [(symbol pos name).unsupported ("loop variable " ++ quoted name ++ " repeated")] else [])
      fun d' => d'.relocate g = (loopPattern (ns ++ [name])).relocate g := by
  rw [loopVariable]
  refine (binding_comesTo _ name).bind fun id bound => ?_
  subst bound
  have names : d.names.map Identifier.name = ns.map Script.bindingName := by
    rw [← names_relocate (g := g), same, names_relocate, names_loopPattern, map_map]
    rfl
  have taken : (d.names.any (·.name == Script.bindingName name))
      = (ns.map Script.bindingName).contains (Script.bindingName name) := by
    rw [← names, Bool.eq_iff_iff]
    simp
  simp only [taken]
  cases (ns.map Script.bindingName).contains (Script.bindingName name) with
  | true => exact .throw_bind _
  | false =>
    have stamped : (Compile.locating (Identifier.stamp site.file pos
        { name := Script.bindingName name })).Quiet
          fun id => id.relocate g = Identifier.relocate g { name := Script.bindingName name } :=
      Compile.Quiet.locating fun n => Code.identifier_relocate_stamp hides pos _ n
    refine .quiet_bind stamped fun id bound => .pure ?_
    rw [relocate_add, same, bound, loopPattern_concat, relocate_add]

theorem loopVariables_comesTo (hides : Code.Hides g site.file) (names : List Node)
    (ns : List Bytes) {d : Destructure} (same : d.relocate g = (loopPattern ns).relocate g) :
    (names.foldlM (loopVariable site) d).ComesTo
      (variableFaults (ns.map Script.bindingName) names)
      fun d' => d'.relocate g = (loopPattern (ns ++ names.filterMap fun
        | .symbol _ name => some name
        | _ => none)).relocate g := by
  induction names generalizing ns d with
  | nil => exact .pure (by rw [filterMap_nil, append_nil]; exact same)
  | cons n names ih =>
    rw [foldlM_cons]
    cases n with
    | symbol pos name =>
      rw [variableFaults, ← append_assoc]
      refine (loopVariable_comesTo hides same pos name).bind fun d' same' => ?_
      rw [← map_singleton, ← map_append]
      exact (ih _ same').imp fun d'' h => by simpa using h
    | _ => exact .throw_bind _

/-- **What a loop binds.** -/
theorem loopParam_comesTo (hides : Code.Hides g site.file) (n : Node) :
    (loopParam site n).ComesTo (loopFaults n) fun c => c.relocate g = (loopCode n).relocate g := by
  cases n with
  | symbol pos name =>
    rw [loopParam]
    refine (binding_comesTo _ name).bind_last fun id bound => ?_
    subst bound
    exact locate_comesTo hides rfl
  | array pos names =>
    rw [loopParam]
    refine (loopVariables_comesTo hides names [] rfl).bind_last fun d same => .pure ?_
    exact congrArg Code.destructure same
  | _ => exact .throw _

theorem binders_relocate (c : Code) : (c.relocate g).binders = c.binders := by
  cases c with
  | destructure d => exact names_relocate d
  | _ => rfl

/-- Loops with the same parts are the same, whatever is seen of them. -/
theorem relocate_loop {items items' param param' body body' : Code}
    {alternate alternate' : Option Code} (hi : items.relocate g = items'.relocate g)
    (hp : param.relocate g = param'.relocate g) (hb : body.relocate g = body'.relocate g)
    (ha : alternate.map (Code.relocate g) = alternate'.map (Code.relocate g)) :
    (loop items param body alternate).relocate g
      = (loop items' param' body' alternate').relocate g := by
  have binders : param.binders = param'.binders := by
    rw [← binders_relocate (g := g), hp, binders_relocate]
  cases alternate with
  | none =>
    rw [Option.map_eq_none_iff.1 ha.symm]
    simp only [loop, Code.relocate, Code.relocateAll, hi, hp, hb, binders]
  | some a =>
    obtain ⟨a', rfl, same⟩ := Option.map_eq_some_iff.1 ha.symm
    simp only [loop, Code.relocate, Code.relocateAll, hi, hp, hb, binders, same]

/-! ## Assignments -/

/-- What a target of an assignment comes to. -/
def TargetComesTo (site : Site) (g : Option Location → Option Location)
    (faultsAt : Inclusion → List CompileError) (codeAt : Inclusion → Code) (n : Node) : Prop :=
  (target site n).ComesTo
    (if n.isTarget then n.faults faultsAt else [n.unsupported "invalid assignment target"])
    fun c => c.relocate g = (n.code codeAt).relocate g

theorem faultsOfTargets_eq (ns : List Node) :
    faultsOfTargets faultsAt ns = ns.flatMap fun n =>
      if n.isTarget then n.faults faultsAt else [n.unsupported "invalid assignment target"] := by
  induction ns with
  | nil => rfl
  | cons n ns ih => rw [faultsOfTargets, ih, flatMap_cons]

theorem codes_eq_map (ns : List Node) : codes codeAt ns = ns.map (code codeAt) := by
  induction ns with
  | nil => rfl
  | cons n ns ih => rw [codes, ih, map_cons]

/-- **The assignments of a statement.** The first target is lowered again for
each of the others, which does not fail if it did not fail before. -/
theorem assignments_comesTo (hides : Code.Hides g site.file) {pos : Position}
    {value : Compile Code} {es : List CompileError} {v : Code}
    (given : value.ComesTo es fun c => c.relocate g = v.relocate g)
    (each : ∀ n ∈ ns, TargetComesTo site g faultsAt codeAt n) :
    (assignments site pos value (lowerTargets site ns)).ComesTo
      (es ++ faultsOfTargets faultsAt ns)
      fun cs => cs.map (Code.relocate g)
        = (assignmentCodes v (codes codeAt ns)).map (Code.relocate g) := by
  rw [faultsOfTargets_eq, lowerTargets_eq_map, codes_eq_map, assignments]
  refine given.bind fun c same => ?_
  cases ns with
  | nil => exact .pure rfl
  | cons first others =>
    obtain ⟨here, rest⟩ := forall_mem_cons.1 each
    rw [flatMap_cons]
    refine here.bind_of_nil fun succeeds t stored => ?_
    rw [TargetComesTo, succeeds] at here
    refine (locate_comesTo hides rfl).bind fun assigned seen => ?_
    have copies : ∀ n ∈ others, ComesTo (do
        let t ← target site n
        let copy ← target site first
        site.locate pos (.assign none t copy))
          (if n.isTarget then n.faults faultsAt else [n.unsupported "invalid assignment target"])
          fun c => c.relocate g
            = (Code.assign none (n.code codeAt) (first.code codeAt)).relocate g := by
      intro n mem
      refine (rest n mem).bind_last fun t same => here.bind fun copy same' => ?_
      exact locate_comesTo hides (by rw [Code.relocate, Code.relocate, same, same'])
    rw [mapM_map]
    refine (ComesTo.mapM copies).bind_last fun cs same' => .pure ?_
    rw [map_cons, seen, same', Code.relocate, stored, same, map_cons, assignmentCodes,
      map_cons, map_map, map_map]
    rfl

theorem assignedValue_comesTo {n value body : Node}
    (ofValue : value.isMissing = false → (value.lower site).ComesTo (value.faults faultsAt)
      fun c => c.relocate g = (value.code codeAt).relocate g)
    (ofBody : value.isMissing = true → (body.lower site).ComesTo (body.faults faultsAt)
      fun c => c.relocate g = (body.code codeAt).relocate g) :
    (assignedValue n value body (value.lower site) (body.lower site)).ComesTo
      (if value.isMissing then
        if body.isMissing then [n.unsupported "set without a value"] else body.faults faultsAt
      else value.faults faultsAt)
      fun c => c.relocate g
        = (if value.isMissing then body.code codeAt else value.code codeAt).relocate g := by
  cases value with
  | missing =>
    cases body with
    | missing => exact .throw _
    | _ => exact ofBody rfl
  | _ => exact ofValue rfl

/-- Operations with the same operands are the same, whatever is seen of
them. -/
theorem combine?_relocate (op : BinaryOp) {l l' r r' : Code} (hl : l.relocate g = l'.relocate g)
    (hr : r.relocate g = r'.relocate g) :
    (op.combine? l r).map (Code.relocate g) = (op.combine? l' r').map (Code.relocate g) := by
  cases op with
  | other => rfl
  | _ => simp only [BinaryOp.combine?, Option.map_some, Code.relocate, hl, hr]

/-- **Forms of the same results** are the same, whatever is seen of them. -/
theorem relocate_form (n : Node) {cs ds : List Code}
    (same : cs.map (Code.relocate g) = ds.map (Code.relocate g)) :
    (n.form cs).relocate g = (n.form ds).relocate g := by
  have given (o : Option Code) :
      (o.map (Code.relocate g)).getD .missing = (o.getD .missing).relocate g := by cases o <;> rfl
  have result (i : Nat) : (cs.getD i .missing).relocate g = (ds.getD i .missing).relocate g := by
    simpa [given] using congrArg (·[i]?.getD .missing) same
  cases n with
  | forEach p v i b a =>
    refine relocate_loop (result 0) (result 1) (result 2) ?_
    cases a.isMissing with
    | true => rfl
    | false => exact congrArg some (result 3)
  | binary p op l r =>
    have made := congrArg (·.getD .missing) (combine?_relocate op (result 0) (result 1))
    simp only [given] at made
    exact made
  | call p f args =>
    have last : (cs.getLastD .missing).relocate g = (ds.getLastD .missing).relocate g := by
      simpa [given] using congrArg (·.getLastD .missing) same
    simp only [form, Code.relocate, Code.relocateAll_eq_map, map_dropLast, same, last]
  | dict p pairs =>
    simp only [form, Code.relocate, Code.relocateProps_eq_map]
    have zipped := congrArg (List.zip (pairs.map fun p => keyText p.1)) same
    rw [zip_map_right, zip_map_right] at zipped
    exact congrArg _ zipped
  | compare p l links =>
    rcases links with _ | ⟨⟨op, r⟩, _ | _⟩
    · rfl
    · simp only [form, Code.relocate, result]
    · rfl
  | group p ns =>
    rcases ns with _ | ⟨_, _ | _⟩
    · simp only [form, Code.relocate, Code.relocateAll_eq_map, same]
    · exact result 0
    · simp only [form, Code.relocate, Code.relocateAll_eq_map, same]
  | output p ns =>
    unfold form
    split <;> simp_all
  | _ => simp only [form, Code.relocate, Code.relocateAll_eq_map, result, same]

/-! ## Trees -/

theorem faultsOf_eq (ns : List Node) : faultsOf faultsAt ns = ns.flatMap (faults faultsAt) := by
  induction ns with
  | nil => rfl
  | cons n ns ih => rw [faultsOf, flatMap_cons, ih]

theorem faults_checked {α : Type} (x : Except CompileError α) :
    (checked x).flatMap (Step.faults faultsAt) = errorsOf x := by
  cases x <;> rfl

theorem faultsOfPairs_eq (pairs : List (Node × Node)) :
    faultsOfPairs faultsAt pairs = (pairSteps pairs).flatMap (Step.faults faultsAt) := by
  induction pairs with
  | nil => rfl
  | cons pair pairs ih =>
    simp [faultsOfPairs, ih, pairSteps, flatMap_assoc, faults_checked, Step.faults]

/-- **The faults of a node** are those of its steps. -/
theorem faults_eq_steps (plain : n.body? = none) (keeps : n.isAssignment = false) :
    n.faults faultsAt = n.steps.flatMap (Step.faults faultsAt) := by
  have part (n : Node) : (Step.part n).faults faultsAt = n.faults faultsAt := rfl
  cases n with
  | list => cases plain
  | assign => cases keeps
  | output p ns =>
    match ns, plain with
    | [.text ..], _ => rfl
  | compare p l links =>
    match links with
    | [(op, r)] => simp [faults, steps, part]
    | [] | _ :: _ :: _ => rfl
  | group p ns =>
    cases ns with
    | nil => rfl
    | cons => simp [faults, faultsOf_eq, steps, flatMap_map, part]
  | ifElse p c b a | choice p c b a =>
    cases missing : a.isMissing <;> simp [faults, steps, altStep, missing, Step.faults]
  | forEach p v i b a =>
    cases missing : a.isMissing <;> simp [faults, steps, missing, Step.faults]
  | embed p target optional =>
    cases target with
    | literal q value => cases value <;> simp [faults, steps, embedStep, Step.faults]
    | _ => rfl
  | lookup p target key =>
    cases named : key.memberKey? <;> simp [faults, steps, keyStep, named, Step.faults]
  | call p callee args =>
    have called : (calleeStep callee).faults faultsAt
        = if callee.isSymbol then [] else callee.faults faultsAt := by cases callee <;> rfl
    simp [faults, faultsOf_eq, steps, flatMap_map, part, called]
  | literal p value =>
    cases given : Code.ofLiteral? value <;> simp [faults, steps, checked, given, Step.faults]
  | binary p op l r =>
    cases op <;> simp [faults, steps, checked, BinaryOp.combine?, Step.faults]
  | dict p pairs => exact faultsOfPairs_eq pairs
  | symbol | named => exact (faults_checked _).symm
  | _ => simp [faults, faultsOf_eq, steps, flatMap_map, part] <;> rfl

theorem codePairs_eq (pairs : List (Node × Node)) (none : faultsOfPairs faultsAt pairs = []) :
    codePairs codeAt pairs = (pairs.map fun p => keyText p.1).zip
      ((pairSteps pairs).map (Step.code codeAt)) := by
  induction pairs with
  | nil => rfl
  | cons pair pairs ih =>
    rw [faultsOfPairs, append_eq_nil_iff, append_eq_nil_iff] at none
    have named : checked (dictKey pair.1) = [] := by
      cases known : dictKey pair.1 with
      | ok => rfl
      | error => simp [known, errorsOf] at none
    simp [codePairs, ih none.2.2, pairSteps, named, Step.code]

/-- The code of a call. -/
theorem code_call (pos : Position) (callee : Node) (args : List Node) :
    (call pos callee args).code codeAt
      = .call none ((calleeStep callee).code codeAt) (codes codeAt args) := by
  cases callee <;> rfl

/-- **The code of a node** without faults is its form, with the code of its
steps. -/
theorem code_eq_steps (plain : n.body? = none) (keeps : n.isAssignment = false)
    (faultless : n.faults faultsAt = []) :
    n.code codeAt = n.form (n.steps.map (Step.code codeAt)) := by
  have part (n : Node) : (Step.part n).code codeAt = n.code codeAt := rfl
  cases n with
  | list => cases plain
  | assign => cases keeps
  | output p ns =>
    obtain ⟨_, _, rfl⟩ := text_of_body? plain
    rfl
  | compare p l links =>
    rcases links with _ | ⟨⟨op, r⟩, _ | _⟩
    · rfl
    · simp [code, steps, form, part]
    · rfl
  | group p ns =>
    rcases ns with _ | ⟨n, _ | _⟩
    · cases faultless
    · rfl
    · simp [code, form, codes_eq_map, steps, part]
  | ifElse p c b a | choice p c b a =>
    cases missing : a.isMissing <;> simp [code, steps, form, altStep, missing, Step.code]
  | forEach p v i b a =>
    cases missing : a.isMissing <;> simp [code, steps, form, missing, Step.code]
  | embed p target optional =>
    cases target with
    | literal q value => cases value <;> rfl
    | _ => rfl
  | lookup p target key =>
    cases named : key.memberKey? <;> simp [code, steps, form, keyStep, named, Step.code]
  | call p callee args => simp [code_call, steps, form, codes_eq_map, part]
  | dict p pairs => rw [code, codePairs_eq pairs faultless]; rfl
  | array => simp [code, form, codes_eq_map, steps, part]
  | _ => rfl

/-- The part that a node of a body gives. -/
def partCode (includes : Inclusion → Code) : Node → BodyPart
  | .text pos content => .text pos content
  | n => .hole (n.code includes)

theorem codeParts_eq (ns : List Node) : codeParts codeAt ns = ns.map (partCode codeAt) := by
  induction ns with
  | nil => rfl
  | cons n ns ih => cases n <;> rw [codeParts, ih] <;> first | rfl | simp

theorem bodyParts_eq (ns : List Node) :
    bodyParts codeAt ns = (flatten ns).map (partCode codeAt) := by
  induction ns with
  | nil => rfl
  | cons n ns ih =>
    rw [flatten, flatMap_cons, map_append, ← flatten, ← ih]
    cases n with
    | output pos inner => rw [bodyParts, codeParts_eq]
    | _ => rfl

theorem faults_body (body : n.body? = some ns) :
    n.faults faultsAt = ns.flatMap (faults faultsAt) :=
  flatMap_body (fun _ _ => faultsOf_eq _) (fun _ _ => faultsOf_eq _) body

theorem code_body (body : n.body? = some ns) :
    n.code codeAt = BodyPart.code (ns.map (partCode codeAt)) := by
  unfold body? at body
  split at body <;> cases body
  · rw [code, bodyParts_eq]
  · rw [code, codeParts_eq]

/-- Lowering a node comes to its faults and its code. -/
def LowerComesTo (site : Site) (g : Option Location → Option Location)
    (faultsAt : Inclusion → List CompileError) (codeAt : Inclusion → Code) (n : Node) : Prop :=
  (n.lower site).ComesTo (n.faults faultsAt) fun c => c.relocate g = (n.code codeAt).relocate g

/-- **Taking a step.** -/
theorem step_comesTo (hides : Code.Hides g site.file) {s : Step}
    (part : ∀ n, s = .part n → LowerComesTo site g faultsAt codeAt n)
    (expand : ∀ i, s = .expand i → (site.expand i).ComesTo (faultsAt i)
      fun c => c.relocate g = (codeAt i).relocate g) :
    (s.run site).ComesTo (s.faults faultsAt)
      fun c => c.relocate g = (s.code codeAt).relocate g := by
  cases s with
  | part n => exact part n rfl
  | param n => exact loopParam_comesTo hides n
  | known pos c => exact locate_comesTo hides rfl
  | expand i => exact expand i rfl
  | refuse e => exact .throw e

/-- What the nodes of a body come to. -/
theorem parts_comesTo (each : ∀ n ∈ ns, LowerComesTo site g faultsAt codeAt n) :
    (lowerParts site ns).ComesTo (ns.flatMap (faults faultsAt)) fun ps =>
      ps.map (BodyPart.relocate g) = (ns.map (partCode codeAt)).map (BodyPart.relocate g) := by
  rw [lowerParts_eq, map_map]
  refine ComesTo.mapM fun n mem => ?_
  cases n with
  | text pos content => exact .pure rfl
  | _ => exact (each _ mem).bind_last fun c same => .pure (congrArg BodyPart.hole same)

theorem target_comesTo (lowered : LowerComesTo site g faultsAt codeAt n) :
    TargetComesTo site g faultsAt codeAt n := by
  unfold TargetComesTo target
  split
  · exact lowered
  · exact .throw _

/-- **Lowering a tree** fails with its first fault, and without faults it
gives its code. -/
theorem lower_comesTo (hides : Code.Hides g site.file) (n : Node)
    (he : Expands site g faultsAt codeAt n.inclusions) :
    LowerComesTo site g faultsAt codeAt n := by
  refine lower_induction ?body ?assign ?plain n he
  case body =>
    intro n ns body ih
    rw [LowerComesTo, lower_eq_body site body, faults_body body, code_body body]
    refine (parts_comesTo ih).bind_last fun parts same => ?_
    refine .quiet_bind (BodyPart.assemble_relocate hides n.pos parts) fun code seen => ?_
    exact locate_comesTo hides (seen.trans (BodyPart.relocate_code same))
  case assign =>
    intro pos targets value body iht ihv ihb
    rw [LowerComesTo, lower_assign, faults, code, lowerAssignment]
    have given := assignedValue_comesTo (n := .assign pos targets value body) ihv ihb
    refine (assignments_comesTo hides given fun t mem => target_comesTo (iht t mem)).bind_last
      fun cs same => ?_
    exact locate_comesTo hides (by
      simp only [Code.relocate, Code.relocateAll_eq_map, same])
  case plain =>
    intro n plain keeps ih expands
    rw [LowerComesTo, lower_eq_steps site n plain keeps, ← append_nil (n.faults faultsAt),
      faults_eq_steps plain keeps]
    have each := ComesTo.mapM fun s mem => step_comesTo hides (s := s) (fun m h => ih m (h ▸ mem))
      fun i h => expands i (h ▸ mem)
    refine each.bind_of_nil fun none cs same => locate_comesTo hides ?_
    rw [code_eq_steps plain keeps ((faults_eq_steps plain keeps).trans none)]
    exact relocate_form n (by rw [same, map_map]; rfl)

/-- The trees of a list. -/
theorem lowerAll_comesTo (hides : Code.Hides g site.file)
    (he : Expands site g faultsAt codeAt (inclusionsOf ns)) :
    ∀ n ∈ ns, LowerComesTo site g faultsAt codeAt n := by
  intro n mem
  rw [inclusionsOf_eq] at he
  exact lower_comesTo hides n fun i here => he i (mem_flatMap_of_mem mem here)

theorem lowerParts_comesTo (hides : Code.Hides g site.file) (ns : List Node)
    (he : Expands site g faultsAt codeAt (inclusionsOf ns)) :
    (lowerParts site ns).ComesTo (faultsOf faultsAt ns)
      fun ps => ps.map (BodyPart.relocate g) = (codeParts codeAt ns).map (BodyPart.relocate g) := by
  rw [faultsOf_eq, codeParts_eq]
  exact parts_comesTo (lowerAll_comesTo hides he)

theorem targets_comesTo (hides : Code.Hides g site.file) (ns : List Node)
    (he : Expands site g faultsAt codeAt (inclusionsOf ns)) :
    ∀ n ∈ ns, TargetComesTo site g faultsAt codeAt n :=
  fun n mem => target_comesTo (lowerAll_comesTo hides he n mem)

end Node

end TemplateCompiler
