import TemplateCompiler.Proofs.Code.Agreement
import TemplateCompiler.Proofs.Compile.Closedness
import TemplateCompiler.Proofs.Compile.InPlace

/-!
# The inputs of a template

A unit takes the names that its code needs from outside, and that is found out
by looking at the code. What a template needs can also be told from its tree:
`Node.places` lists where the template reads and assigns names that no loop
around them binds, in the order of its own constructs, and `Node.inputs` and
`Node.locals` are read off that list. `compile_inputs` says that the two ways
come to the same, although the code of a loop mentions its items up to three
times and counts its rounds, assignments are moved to the front or wrapped into
functions, names may have another spelling, and filters stand in an object.
-/

open List

namespace TemplateCompiler

variable {name : Bytes} {n : Node} {p : Position}

namespace Node

/-! ## Names in templates -/

/-- The variables of a loop. -/
def loopVars : Node → List Bytes
  | .symbol _ name => [name]
  | .array _ names => names.filterMap fun
      | .symbol _ name => some name
      | _ => none
  | _ => []

/-- The names that a loop binds in its body: its variables and its counter. -/
def bindings (vars : Node) : List Bytes :=
  vars.loopVars ++ [loopCounter (vars.loopVars.map Script.bindingName)]

mutual

/-- **Where a template reads or assigns names** that no loop around them
binds. The name of a filter or of a function that is called is not read, and
neither are the keys of a dictionary, the variables of a loop and the names
that are assigned. An assignment comes to its first target, then to its value
and then to the other targets. -/
def places (n : Node) : List Occurrence :=
  match n with
  | .symbol _ name | .named _ name => [.read name]
  | .list _ ns | .output _ ns | .array _ ns | .group _ ns => placesOf ns
  | .ifElse _ c b a | .choice _ c b a => c.places ++ b.places ++ a.places
  | .forEach _ vars items body alt =>
    items.places ++ unbound vars.bindings body.places ++ alt.places
  | .assign _ targets value body =>
    match placesOfTargets targets with
    | [] => []
    | first :: others =>
      first ++ (if value.isMissing then body.places else value.places) ++ others.flatten
  | .lookup _ l r | .binary _ _ l r => l.places ++ r.places
  | .call _ callee args =>
    (match callee with
      | .symbol .. => []
      | _ => callee.places) ++ placesOf args
  | .compare _ first links => first.places ++ placesOfLinks links
  | .not _ t | .neg _ t => t.places
  | .dict _ pairs => placesOfPairs pairs
  | .text .. | .literal .. | .embed .. | .inherit .. | .block .. | .missing => []

/-- `places` of each node in turn. -/
def placesOf : List Node → List Occurrence
  | [] => []
  | n :: ns => n.places ++ placesOf ns

/-- `places` of each target. A name is assigned, and a member reads what is in
front of it. -/
def placesOfTargets : List Node → List (List Occurrence)
  | [] => []
  | n :: ns =>
    (match n with
      | .symbol _ name => [.assigned name]
      | _ => n.places) :: placesOfTargets ns

/-- `places` of the operands of a comparison. -/
def placesOfLinks : List (Bytes × Node) → List Occurrence
  | [] => []
  | (_, n) :: links => n.places ++ placesOfLinks links

/-- `places` of the values of a dictionary. -/
def placesOfPairs : List (Node × Node) → List Occurrence
  | [] => []
  | (_, v) :: pairs => v.places ++ placesOfPairs pairs

end

/-- The names that a template reads. -/
def reads (n : Node) : List Bytes := n.places.filterMap Occurrence.read?

/-- The names that a template assigns. -/
def sets (n : Node) : List Bytes := n.places.filterMap Occurrence.assigned?

/-- Whether a name is the template's own: not one of a runtime helper, and not
reserved. -/
def isOwn (reserved : List Bytes) (name : Bytes) : Bool :=
  !(Scope.reservedNames reserved).contains (Script.bindingName name)

/-- **The inputs of a template**: the names of its own that it reads and never
assigns, in the order in which they are first read. -/
def inputs (reserved : List Bytes) (n : Node) : List Bytes :=
  (n.reads.filter fun name => isOwn reserved name && !n.sets.contains name).eraseDups

/-- **The locals of a template**: the names of its own that it assigns, in the
order in which they are first assigned. -/
def locals (reserved : List Bytes) (n : Node) : List Bytes :=
  (n.sets.filter (isOwn reserved)).eraseDups

/-! ## Includes in place -/

mutual

/-- The tree with other trees in the place of its includes. -/
def fill (includes : Inclusion → Node) (n : Node) : Node :=
  match n with
  | .embed pos (.literal _ (.string name)) optional => .list pos [includes ⟨pos, name, optional⟩]
  | .list p ns => .list p (fillAll includes ns)
  | .output p ns => .output p (fillAll includes ns)
  | .array p ns => .array p (fillAll includes ns)
  | .group p ns => .group p (fillAll includes ns)
  | .ifElse p c b a => .ifElse p (c.fill includes) (b.fill includes) (a.fill includes)
  | .choice p c b a => .choice p (c.fill includes) (b.fill includes) (a.fill includes)
  | .forEach p vars items body alt =>
    .forEach p vars (items.fill includes) (body.fill includes) (alt.fill includes)
  -- A body beside a value is not looked at.
  | .assign p targets value body =>
    .assign p (fillAll includes targets) (value.fill includes)
      (if value.isMissing then body.fill includes else body)
  | .lookup p l r => .lookup p (l.fill includes) (r.fill includes)
  | .binary p op l r => .binary p op (l.fill includes) (r.fill includes)
  | .call p callee args => .call p (callee.fill includes) (fillAll includes args)
  | .compare p first links => .compare p (first.fill includes) (fillLinks includes links)
  | .not p t => .not p (t.fill includes)
  | .neg p t => .neg p (t.fill includes)
  | .dict p pairs => .dict p (fillPairs includes pairs)
  | n => n

/-- `fill` of each node in turn. -/
def fillAll (includes : Inclusion → Node) : List Node → List Node
  | [] => []
  | n :: ns => n.fill includes :: fillAll includes ns

/-- `fill` of the operands of a comparison. -/
def fillLinks (includes : Inclusion → Node) : List (Bytes × Node) → List (Bytes × Node)
  | [] => []
  | (op, n) :: links => (op, n.fill includes) :: fillLinks includes links

/-- `fill` of the values of a dictionary. -/
def fillPairs (includes : Inclusion → Node) : List (Node × Node) → List (Node × Node)
  | [] => []
  | (key, v) :: pairs => (key, v.fill includes) :: fillPairs includes pairs

end

theorem fillAll_eq (includes : Inclusion → Node) (ns : List Node) :
    fillAll includes ns = ns.map (fill includes) := by
  induction ns with
  | nil => rfl
  | cons n ns ih => rw [fillAll, ih]; rfl

theorem fillLinks_eq (includes : Inclusion → Node) (links : List (Bytes × Node)) :
    fillLinks includes links = links.map fun l => (l.1, l.2.fill includes) := by
  induction links with
  | nil => rfl
  | cons l links ih => rw [fillLinks, ih]; rfl

theorem fillPairs_eq (includes : Inclusion → Node) (pairs : List (Node × Node)) :
    fillPairs includes pairs = pairs.map fun e => (e.1, e.2.fill includes) := by
  induction pairs with
  | nil => rfl
  | cons e pairs ih => rw [fillPairs, ih]; rfl

/-- A tree without includes is left as it is. -/
theorem fill_of_inclusions_nil {includes : Inclusion → Node} (n : Node)
    (without : n.inclusions = []) : n.fill includes = n := by
  have below {m : Node} (part : m ∈ n.parts) (none : m.inclusions = []) : m.fill includes = m :=
    have := length_preorder_lt part
    fill_of_inclusions_nil m none
  have kept {α : Type} {f : α → α} {xs : List α} (same : ∀ x ∈ xs, f x = x) : xs.map f = xs :=
    (map_congr_left same).trans (map_id _)
  cases n with
  | embed p target optional =>
    cases target with
    | literal q value => cases value <;> first | rfl | cases without
    | _ => rfl
  | text | symbol | named | literal | missing | inherit | block => rfl
  | _ =>
    simp only [inclusions, inclusionsOf_eq, inclusionsOfLinks_eq, inclusionsOfPairs_eq,
      append_eq_nil_iff, flatMap_eq_nil_iff, parts] at without below
    simp only [fill, fillAll_eq, fillLinks_eq, fillPairs_eq]
    grind [isMissing, fill]
termination_by n.preorder.length

theorem isMissing_fill (includes : Inclusion → Node) (n : Node) :
    (n.fill includes).isMissing = n.isMissing := by
  cases n with
  | embed p target optional => rw [fill.eq_def]; split <;> rfl
  | _ => rfl

theorem isSymbol_fill (includes : Inclusion → Node) (n : Node) :
    (n.fill includes).isSymbol = n.isSymbol := by
  cases n with
  | embed p target optional => rw [fill.eq_def]; split <;> rfl
  | _ => rfl

/-! ## The code of a template, name by name -/

/-- The places of the targets of an assignment. -/
def targetPlaces (n : Node) : List Occurrence :=
  match n with
  | .symbol _ name => [.assigned name]
  | _ => n.places

theorem placesOfTargets_eq (ns : List Node) : placesOfTargets ns = ns.map targetPlaces := by
  induction ns with
  | nil => rfl
  | cons n ns ih => cases n <;> exact congrArg (List.cons _) ih

section

variable (codeAt : Inclusion → Code)

/-- What the code of a node reads and assigns. -/
def mentions (n : Node) : List Occurrence := (n.code codeAt).occurrences []

theorem mentions_codes (ns : List Node) :
    Code.occurrencesAll [] (codes codeAt ns) = ns.flatMap (mentions codeAt) := by
  induction ns with
  | nil => rfl
  | cons n ns ih => rw [codes, Code.occurrencesAll, ih]; rfl

theorem mentions_codePairs (pairs : List (Node × Node)) :
    Code.occurrencesProps [] (codePairs codeAt pairs)
      = pairs.flatMap fun pair => mentions codeAt pair.2 := by
  induction pairs with
  | nil => rfl
  | cons pair pairs ih =>
    obtain ⟨key, v⟩ := pair
    rw [codePairs, Code.occurrencesProps, ih]
    rfl

theorem mentions_codeParts (ns : List Node) :
    Code.occurrencesAll [] ((codeParts codeAt ns).filterMap BodyPart.hole?)
      = ns.flatMap (mentions codeAt) := by
  induction ns with
  | nil => rfl
  | cons n ns ih =>
    rw [flatMap_cons, ← ih]
    cases n <;> rfl

end

end Node

/-- A body mentions what its holes do. -/
theorem BodyPart.occurrences_code (parts : List BodyPart) :
    (BodyPart.code parts).occurrences [] = Code.occurrencesAll [] (parts.filterMap hole?) := by
  have several : (mixed parts).occurrences [] = Code.occurrencesAll [] (parts.filterMap hole?) := by
    unfold mixed
    split
    · next none => rw [none]; rfl
    · rfl
  unfold BodyPart.code
  split
  · rfl
  · exact (append_nil _).symm
  · exact several

namespace Node

section

variable (codeAt : Inclusion → Code)

theorem mentions_output (p : Position) (ns : List Node) :
    mentions codeAt (.output p ns) = ns.flatMap (mentions codeAt) := by
  rw [mentions, code, BodyPart.occurrences_code, mentions_codeParts]

theorem mentions_list (p : Position) (ns : List Node) :
    mentions codeAt (.list p ns) = ns.flatMap (mentions codeAt) := by
  rw [mentions, code, bodyParts_eq, ← codeParts_eq, BodyPart.occurrences_code, mentions_codeParts,
    flatMap_flatten (mentions_output codeAt)]

theorem mentions_assign (p : Position) (targets : List Node) (value body : Node) :
    mentions codeAt (.assign p targets value body)
      = Code.occurrencesAll [] (statementCodes codeAt (.assign p targets value body)) := by
  simp [mentions, code, statementCodes, Code.occurrences, Code.occurrencesAll]

/-- **A draft mentions what the code of the whole tree does**: moving
assignments to the front changes nothing, since they stand behind text only. -/
theorem mentions_draftCode (tree : Node) :
    Code.occurrencesAll [] (tree.draftCode codeAt).1 ++ (tree.draftCode codeAt).2.occurrences []
      = mentions codeAt tree := by
  have statements : ∀ n ∈ (hoist (flatten tree.children)).1,
      Code.occurrencesAll [] (statementCodes codeAt n) = mentions codeAt n := by
    intro n mem
    cases n with
    | assign p targets value body => exact (mentions_assign codeAt p targets value body).symm
    | _ => cases (mem_hoist.1 mem).2
  have front : ∀ ns : List Node, (∀ n ∈ ns,
        Code.occurrencesAll [] (statementCodes codeAt n) = mentions codeAt n) →
      Code.occurrencesAll [] (ns.flatMap (statementCodes codeAt))
        = ns.flatMap (mentions codeAt) := by
    intro ns each
    rw [Code.occurrencesAll_eq_flatMap, flatMap_assoc]
    refine flatMap_congr fun n mem => ?_
    rw [← Code.occurrencesAll_eq_flatMap, each n mem]
  rw [draftCode, BodyPart.occurrences_code, mentions_codeParts, front _ statements,
    flatMap_hoist (fun _ _ => rfl), flatMap_children (mentions_output codeAt) (mentions_list codeAt)]

end

/-! ## Loops -/

/-- A name that ends in a digit is spelled in code as it is in a template. -/
theorem plain_of_digit {b : UInt8} (last : name.getLast? = some b) (digit : Byte.isDigit b = true) :
    Script.templateName name = name ∧ Script.bindingName name = name := by
  have others : ∀ word ∈ Script.keywords, ∀ b ∈ word.getLast?, Byte.isDigit b = false := by
    decide +kernel
  constructor
  · obtain ⟨front, rfl⟩ := getLast?_eq_some_iff.1 last
    have apart : (Byte.dollar == b) = false := by
      rw [beq_eq_false_iff_ne]
      rintro rfl
      exact absurd digit (by decide)
    rw [Script.templateName, Bytes.dropSuffix?, reverse_append]
    simp [Bytes.dropPrefix?, apart]
  · have word : Script.isKeyword name = false := by
      refine Bool.eq_false_iff.2 fun keyword => ?_
      have letter := others name (contains_iff_mem.1 keyword) b last
      exact absurd (letter.symm.trans digit) Bool.false_ne_true
    rw [Script.bindingName, word]
    rfl

/-- The counter of a loop is spelled in code as it is in the template. -/
theorem loopCounter_plain (names : List Bytes) :
    Script.templateName (loopCounter names) = loopCounter names
      ∧ Script.bindingName (loopCounter names) = loopCounter names := by
  rcases Script.fresh_cases names "index" with same | ⟨n, same⟩ <;> rw [loopCounter, same]
  · decide
  · cases last : (Script.numbered "index" n).getLast? with
    | none =>
      have longer := congrArg List.length (getLast?_eq_none_iff.1 last)
      simp [Script.numbered, Bytes.ofString] at longer
    | some b => exact plain_of_digit last (UnitName.isDigit_getLast?_numbered last)

theorem plain_of_binding
    (faultless : Compile.errorsOf (n.binding name) = []) : Script.templateName name = name := by
  by_contra other
  rw [binding, if_neg (by simpa using other)] at faultless
  cases faultless

theorem plain_of_variableFaults {taken : List Bytes} {ns : List Node}
    (faultless : variableFaults taken ns = [])
    (mem : name ∈ (Node.array .none ns).loopVars) : Script.templateName name = name := by
  induction ns generalizing taken with
  | nil => cases mem
  | cons n ns ih =>
    cases n with
    | symbol p first =>
      obtain ⟨head, rest⟩ := append_eq_nil_iff.1 faultless
      obtain ⟨-, tail⟩ := append_eq_nil_iff.1 rest
      rcases mem_cons.1 mem with rfl | later
      · exact plain_of_binding head
      · exact ih tail later
    | _ => cases faultless

/-- The names that a loop without faults binds are no stand-ins. -/
theorem plain_of_loopFaults {vars : Node} (faultless : vars.loopFaults = [])
    (mem : name ∈ vars.bindings) : Script.templateName name = name := by
  rcases mem_append.1 mem with var | counter
  · cases vars with
    | symbol p first =>
      rw [mem_singleton.1 var]
      exact plain_of_binding faultless
    | array p ns => exact plain_of_variableFaults faultless var
    | _ => cases var
  · rw [mem_singleton.1 counter]
    exact (loopCounter_plain _).1

/-- What a loop binds in its code is what it binds in the template. -/
theorem loopBinders_loopCode (vars : Node) :
    loopBinders (loopCode vars) = vars.bindings.map Script.bindingName := by
  have binders : (loopCode vars).binders = vars.loopVars.map Script.bindingName := by
    cases vars with
    | array p ns =>
      rw [loopCode, Code.binders, names_loopPattern, map_map]
      rfl
    | _ => rfl
  rw [loopBinders, bindings, binders, map_append, map_singleton,
    (loopCounter_plain _).2]

end Node

/-! ## Assignments -/

open Scope (Agree Spells)

/-- What code reads and assigns as the target of an assignment. -/
def Code.targetOccurrences (c : Code) : List Occurrence :=
  match c with
  | .identifier id => [.assigned id.name]
  | _ => c.occurrences []

section

variable {known : List Bytes}

theorem Code.occurrences_assign (target value : Code) :
    (Code.assign none target value).occurrences []
      = target.targetOccurrences ++ value.occurrences [] := by
  cases target <;> rfl

/-- Reading a target after it was assigned. -/
theorem Code.mem_targetOccurrences {c : Code} {o : Occurrence} (mem : o ∈ c.occurrences []) :
    o ∈ c.targetOccurrences
      ∨ ∃ name, o = .read name ∧ .assigned name ∈ c.targetOccurrences := by
  cases c with
  | identifier id =>
    unfold occurrences reference at mem
    split at mem
    · cases mem
    · exact .inr ⟨id.name, mem_singleton.1 mem, mem_singleton.2 rfl⟩
  | _ => exact .inl mem

/-- **Copying from the first target** adds nothing to what was read and
assigned when it got its value. -/
theorem Code.copies_agree {front : List Occurrence} {first : Code}
    (old : first.targetOccurrences ⊆ front) (others : List Code) :
    Scope.Agree known
      (front ++ Code.occurrencesAll [] (others.map fun other => .assign none other first))
      (front ++ others.flatMap targetOccurrences) := by
  induction others generalizing front with
  | nil => exact .refl known _
  | cons other others ih =>
    have seen : ∀ o ∈ first.occurrences [], o ∈ front ++ other.targetOccurrences
        ∨ ∃ name, o = .read name ∧ .assigned name ∈ front ++ other.targetOccurrences := by
      intro o mem
      rcases mem_targetOccurrences mem with here | ⟨name, read, here⟩
      · exact .inl (mem_append_left _ (old here))
      · exact .inr ⟨name, read, mem_append_left _ (old here)⟩
    rw [map_cons, occurrencesAll, occurrences_assign, flatMap_cons, ← append_assoc,
      ← append_assoc, ← append_assoc]
    refine ((Scope.Agree.absorb seen).append (.refl known _)).trans (ih fun o mem => ?_)
    exact mem_append_left _ (old mem)

end

namespace Node

section

variable {known : List Bytes} {codeAt : Inclusion → Code} {treeAt : Inclusion → Node}
  {faultsAt : Inclusion → List CompileError}

theorem flatMap_spells {ns : List Node}
    (each : ∀ n ∈ ns, Spells known (mentions codeAt n) (n.fill treeAt).places) :
    Spells known (ns.flatMap (mentions codeAt)) (placesOf (fillAll treeAt ns)) := by
  induction ns with
  | nil => exact .nil known
  | cons n ns ih =>
    obtain ⟨first, others⟩ := forall_mem_cons.1 each
    exact first.append (ih others)

theorem target_spells (isTarget : n.isTarget = true) (faultless : n.faults faultsAt = [])
    (h : Spells known (mentions codeAt n) (n.fill treeAt).places) :
    Spells known (n.code codeAt).targetOccurrences (n.fill treeAt).targetPlaces := by
  cases n with
  | symbol p name => exact .assigned (plain_of_binding faultless)
  | lookup p target key =>
    have member : (Node.code codeAt (.lookup p target key)).targetOccurrences
        = mentions codeAt (.lookup p target key) := by
      rw [mentions, code]
      split <;> rfl
    rw [member]
    exact h
  | _ => cases isTarget

/-- **An assignment mentions** its first target, its value, and then the other
targets. -/
theorem assignment_spells {value : Code} {places : List Occurrence} {targets : List Node}
    (given : Spells known (value.occurrences []) places)
    (each : ∀ n ∈ targets,
      Spells known (n.code codeAt).targetOccurrences (n.fill treeAt).targetPlaces) :
    Spells known (Code.occurrencesAll [] (assignmentCodes value (codes codeAt targets)))
      (match placesOfTargets (fillAll treeAt targets) with
        | [] => []
        | first :: others => first ++ places ++ others.flatten) := by
  rw [placesOfTargets_eq, fillAll_eq, map_map]
  cases targets with
  | nil => exact .nil known
  | cons first others =>
    obtain ⟨head, tail⟩ := forall_mem_cons.1 each
    have copies : Spells known ((codes codeAt others).flatMap Code.targetOccurrences)
        (others.map (targetPlaces ∘ fill treeAt)).flatten := by
      clear each
      induction others with
      | nil => exact .nil known
      | cons n ns ih =>
        obtain ⟨here, later⟩ := forall_mem_cons.1 tail
        exact here.append (ih later)
    rw [codes, assignmentCodes, Code.occurrencesAll, Code.occurrences_assign]
    exact .of_agree (Code.copies_agree (subset_append_left _ _) _)
      ((head.append given).append copies)

/-- **A loop mentions** its items, what it leaves unbound in its body, and its
alternative. The items count where they come first. -/
theorem loop_spells {items body : Code} {alternate : Option Code} {vars : Node}
    {places inner others : List Occurrence} (faultless : vars.loopFaults = [])
    (source : Spells known (items.occurrences []) places)
    (mapped : Spells known (body.occurrences []) inner)
    (alt : Spells known (alternate.elim [] (·.occurrences [])) others) :
    Spells known ((loop items (loopCode vars) body alternate).occurrences [])
      (places ++ unbound vars.bindings inner ++ others) := by
  have bound := Code.occurrences_append [] (loopBinders (loopCode vars)) body
  rw [nil_append, loopBinders_loopCode] at bound
  rw [occurrences_loop, loopBinders_loopCode, append_nil, bound]
  have once : Agree known (items.occurrences []
      ++ ((alternate.elim [] fun _ => items.occurrences []) ++ items.occurrences []))
      (items.occurrences []) := by
    refine .absorb fun o mem => .inl ?_
    cases alternate with
    | none => exact mem
    | some other => exact (mem_append.1 mem).elim id id
  have inside := mapped.unbound fun name mem => plain_of_loopFaults faultless mem
  have whole := ((Spells.of_agree once source).append inside).append alt
  simpa only [append_assoc] using whole

theorem mentions_combine {op : BinaryOp} (defined : (op.combine? .missing .missing).isSome = true)
    (l r : Code) :
    ((op.combine? l r).getD .missing).occurrences [] = l.occurrences [] ++ r.occurrences [] := by
  cases op with
  | other name => cases defined
  | _ => rfl

theorem mentions_group (p : Position) (ns : List Node) :
    mentions codeAt (.group p ns) = ns.flatMap (mentions codeAt) := by
  match ns with
  | [] => rfl
  | [inner] => exact (append_nil _).symm
  | n :: m :: ns => exact mentions_codes codeAt (n :: m :: ns)

/-- A key that names a member is a literal, and mentions nothing. -/
theorem mentions_memberKey {key : Node} {property : Code} {computed : Bool}
    (named : key.memberKey? = some (property, computed)) :
    (if computed then property.occurrences [] else []) = [] ∧ (key.fill treeAt).places = [] := by
  constructor
  · rcases memberKey?_some named with ⟨n, rfl, rfl⟩ | ⟨name, rfl, rfl, -⟩ <;> rfl
  · cases key with
    | literal p value => rfl
    | _ => cases named

/-- A member mentions what it is a member of, and a key that is computed. -/
theorem lookup_spells {target key : Node}
    (object : Spells known (mentions codeAt target) (target.fill treeAt).places)
    (computed : key.memberKey?.isSome = false →
      Spells known (mentions codeAt key) (key.fill treeAt).places) :
    Spells known (mentions codeAt (.lookup p target key))
      ((Node.lookup p target key).fill treeAt).places := by
  rw [mentions, code, fill, places]
  cases named : key.memberKey? with
  | none => exact object.append (computed (by rw [named]; rfl))
  | some member =>
    obtain ⟨property, computed⟩ := member
    obtain ⟨nothing, literal⟩ : _ ∧ (key.fill treeAt).places = [] := mentions_memberKey named
    rw [literal]
    show Spells known (_ ++ if computed then property.occurrences [] else []) _
    rw [nothing]
    exact object.append (.nil known)

theorem places_call (p : Position) (callee : Node) (args : List Node) :
    (Node.call p callee args).places
      = (if callee.isSymbol then [] else callee.places) ++ placesOf args := by
  cases callee <;> rfl

/-- A call mentions its callee, unless that is a filter, and its arguments. -/
theorem call_spells (filters : Script.filterNamespace ∈ known) {callee : Node} {args : List Node}
    (called : callee.isSymbol = false →
      Spells known (mentions codeAt callee) (callee.fill treeAt).places)
    (given : Spells known (args.flatMap (mentions codeAt)) (placesOf (fillAll treeAt args))) :
    Spells known (mentions codeAt (.call p callee args))
      ((Node.call p callee args).fill treeAt).places := by
  rw [fill, places_call, isSymbol_fill, mentions, code_call, Code.occurrences, mentions_codes]
  refine Spells.append ?_ given
  cases callee with
  | symbol q name =>
    show Spells known ((filterPath name).occurrences []) []
    rw [occurrences_filterPath]
    exact .known_read filters
  | _ => exact called rfl

theorem links_spells (p : Position) (op : Bytes) {left right : Node}
    (first : Spells known (mentions codeAt left) (left.fill treeAt).places)
    (second : Spells known (mentions codeAt right) (right.fill treeAt).places) :
    Spells known (mentions codeAt (.compare p left [(op, right)]))
      ((Node.compare p left [(op, right)]).fill treeAt).places := by
  have both := first.append (second.append (.nil known))
  rwa [append_nil] at both

theorem pairs_spells {pairs : List (Node × Node)}
    (each : ∀ pair ∈ pairs, Spells known (mentions codeAt pair.2) (pair.2.fill treeAt).places) :
    Spells known (pairs.flatMap fun pair => mentions codeAt pair.2)
      (placesOfPairs (fillPairs treeAt pairs)) := by
  induction pairs with
  | nil => exact .nil known
  | cons pair pairs ih =>
    obtain ⟨first, others⟩ := forall_mem_cons.1 each
    exact first.append (ih others)

theorem mentions_literal {value : Literal} : mentions codeAt (.literal p value) = [] := by
  cases value <;> rfl

theorem placesOf_fillAll (ns : List Node) :
    placesOf (fillAll treeAt ns) = ns.flatMap fun m => (m.fill treeAt).places := by
  induction ns with
  | nil => rfl
  | cons n ns ih => rw [fillAll, placesOf, ih, flatMap_cons]

theorem spells_of_isMissing {m : Node} (absent : m.isMissing = true) :
    Spells known [] (m.fill treeAt).places := by
  cases m with
  | missing => exact .nil known
  | _ => cases absent

/-- The code of these includes mentions what their trees do. -/
def Includes (known : List Bytes) (faultsAt : Inclusion → List CompileError)
    (codeAt : Inclusion → Code) (treeAt : Inclusion → Node) (is : List Inclusion) : Prop :=
  ∀ i ∈ is, faultsAt i = [] → Spells known ((codeAt i).occurrences []) (treeAt i).places

/-- **The code of a template mentions what the template does**, if that is so
for its includes. -/
theorem code_spells (filters : Script.filterNamespace ∈ known) (n : Node)
    (faultless : n.faults faultsAt = [])
    (includes : Includes known faultsAt codeAt treeAt n.inclusions) :
    Spells known (mentions codeAt n) (n.fill treeAt).places := by
  refine lower_induction
    (E := fun i => faultsAt i = [] → Spells known ((codeAt i).occurrences []) (treeAt i).places)
    (P := fun n => n.faults faultsAt = [] →
      Spells known (mentions codeAt n) (n.fill treeAt).places) ?_ ?_ ?_ n includes faultless
  · intro n ns body each faultless
    rw [faults_body body, flatMap_eq_nil_iff] at faultless
    rw [flatMap_body (mentions_output codeAt) (mentions_list codeAt) body, 
      flatMap_body (g := fun m => (m.fill treeAt).places)
        (fun _ => placesOf_fillAll) (fun _ => placesOf_fillAll) body, ← placesOf_fillAll]
    exact flatMap_spells fun m mem => each m mem (faultless m mem)
  · intro p targets value body stored given inner faultless
    obtain ⟨first, second⟩ := append_eq_nil_iff.1 faultless
    rw [mentions_assign, statementCodes, fill, places, isMissing_fill]
    refine assignment_spells ?_ fun t mem => ?_
    · cases absent : value.isMissing with
      | false =>
        rw [absent] at first
        exact given absent first
      | true =>
        rw [absent] at first
        cases missing : body.isMissing with
        | true => rw [missing] at first; cases first
        | false =>
          rw [missing] at first
          exact inner absent first
    · rw [faultsOfTargets_eq, flatMap_eq_nil_iff] at second
      have here := second t mem
      cases kind : t.isTarget with
      | false => rw [kind] at here; cases here
      | true =>
        rw [kind] at here
        exact target_spells kind here (stored t mem here)
  · intro n plain keeps each expanded faultless
    have clean := flatMap_eq_nil_iff.1 (faults_eq_steps plain keeps ▸ faultless)
    have part {m : Node} (mem : .part m ∈ n.steps) := each m mem (clean (.part m) mem)
    have refused {e : CompileError} (mem : .refuse e ∈ n.steps) : False := by
      cases clean _ mem
    cases n with
    | list => cases plain
    | assign => cases keeps
    | text => exact .nil known
    | output p ns =>
      obtain ⟨_, _, rfl⟩ := text_of_body? plain
      exact .nil known
    | array p ns =>
      rw [mentions, code, Code.occurrences, mentions_codes]
      exact flatMap_spells fun m mem => part (mem_map_of_mem mem)
    | group p ns =>
      rw [mentions_group]
      cases ns with
      | nil => exact (refused (mem_singleton.2 rfl)).elim
      | cons n ns => exact flatMap_spells fun m mem => part (mem_map_of_mem mem)
    | ifElse p c b a | choice p c b a =>
      have other : Spells known
          ((if a.isMissing then Code.str [] else a.code codeAt).occurrences [])
          (a.fill treeAt).places := by
        cases absent : a.isMissing with
        | true => exact spells_of_isMissing absent
        | false => exact part (by simp [steps, altStep, absent])
      exact ((part (m := c) (by simp [steps])).append (part (m := b) (by simp [steps]))).append other
    | forEach p vars items body alt =>
      refine loop_spells (clean (.param vars) (by simp [steps])) (part (by simp [steps]))
        (part (by simp [steps])) ?_
      cases absent : alt.isMissing with
      | true => exact spells_of_isMissing absent
      | false => exact part (by simp [steps, absent])
    | embed p target optional =>
      have alone {i : Inclusion} (mem : .expand i ∈ (Node.embed p target optional).steps) :=
        (expanded i mem (clean (.expand i) mem)).append (.nil known)
      cases target with
      | literal q value =>
        cases value with
        | string name =>
          have included := alone (mem_singleton.2 rfl)
          rwa [append_nil] at included
        | _ => exact (refused (mem_singleton.2 rfl)).elim
      | _ => exact (refused (mem_singleton.2 rfl)).elim
    | lookup p target key =>
      refine lookup_spells (part (by simp [steps])) fun computed => ?_
      rw [Option.isSome_eq_false_iff, Option.isNone_iff_eq_none] at computed
      exact part (by simp [steps, keyStep, computed])
    | symbol p name | named p name => exact .read (plain_of_binding faultless)
    | call p callee args =>
      refine call_spells filters (fun kind => ?_)
        (flatMap_spells fun m mem => part (by simp [steps, mem]))
      cases callee with
      | symbol => cases kind
      | _ => exact part (by simp [steps, calleeStep])
    | literal p value =>
      rw [mentions_literal]
      exact .nil known
    | compare p first links =>
      rcases links with _ | ⟨⟨op, right⟩, _ | _⟩
      · exact (refused (mem_singleton.2 rfl)).elim
      · exact links_spells p op (part (by simp [steps])) (part (by simp [steps]))
      · exact (refused (mem_singleton.2 rfl)).elim
    | not p t | neg p t => exact part (m := t) (by simp [steps])
    | binary p op l r =>
      have defined : (op.combine? .missing .missing).isSome = true := by
        cases op with
        | other => exact (refused (by simp [steps, checked, BinaryOp.combine?]; rfl)).elim
        | _ => rfl
      rw [mentions, code, mentions_combine defined]
      exact (part (by simp [steps])).append (part (by simp [steps]))
    | dict p pairs =>
      rw [mentions, code, Code.occurrences, mentions_codePairs]
      exact pairs_spells fun pair mem => part (mem_flatMap.2 ⟨pair, mem, by simp⟩)
    | inherit | block | missing => exact (refused (mem_singleton.2 rfl)).elim

end

/-! ## What a scope makes of a template -/

theorem eraseDups_map {f : Bytes → Bytes} {names : List Bytes}
    (inj : ∀ a ∈ names, ∀ b ∈ names, f a = f b → a = b) :
    (names.map f).eraseDups = names.eraseDups.map f := by
  induction names using List.reverseRecOn with
  | nil => rfl
  | append_singleton names a ih =>
    have before := ih fun b hb c hc => inj b (mem_append_left _ hb) c (mem_append_left _ hc)
    have same : f a ∈ names.map f ↔ a ∈ names := by
      refine ⟨fun mem => ?_, mem_map_of_mem⟩
      obtain ⟨b, inside, eq⟩ := mem_map.1 mem
      exact inj b (mem_append_left _ inside) a (by simp) eq ▸ inside
    rw [map_append, map_singleton, eraseDups_concat, eraseDups_concat, before]
    by_cases old : a ∈ names <;> simp [old, same]

/-- No name that a template reads or assigns is a stand-in, if none that it
mentions is. -/
theorem plain_of_places (plain : ∀ q ∈ n.places, Script.templateName q.name = q.name)
    (mem : name ∈ n.reads ∨ name ∈ n.sets) : Script.templateName name = name := by
  rcases mem with mem | mem <;> obtain ⟨o, inside, found⟩ := mem_filterMap.1 mem <;>
    cases o <;> cases found <;> exact plain _ inside

/-- **The scope of a template's occurrences**, spelled as in code. -/
theorem ofOccurrences_spelled (reserved : List Bytes) (n : Node)
    (plain : ∀ q ∈ n.places, Script.templateName q.name = q.name) :
    Scope.ofOccurrences (Scope.reservedNames reserved) (n.places.map Occurrence.spelled)
      = ⟨(n.locals reserved).map Script.bindingName,
        (n.inputs reserved).map Script.bindingName⟩ := by
  have read : (n.places.map Occurrence.spelled).filterMap Occurrence.read?
      = n.reads.map Script.bindingName := by
    rw [reads, filterMap_map, map_filterMap]
    refine filterMap_congr fun o _ => ?_
    cases o <;> rfl
  have assigned : Scope.assignedIn (n.places.map Occurrence.spelled)
      = n.sets.map Script.bindingName := by
    rw [sets, Scope.assignedIn, filterMap_map, map_filterMap]
    refine filterMap_congr fun o _ => ?_
    cases o <;> rfl
  have inj {a b : Bytes} (ha : a ∈ n.reads ∨ a ∈ n.sets) (hb : b ∈ n.reads ∨ b ∈ n.sets) :=
    Script.bindingName_inj (plain_of_places plain ha) (plain_of_places plain hb)
  rw [Scope.ofOccurrences_eq, assigned, Scope.needs, read, ← eraseDups_filter, filter_map,
    filter_map, locals, inputs]
  congr 1
  · rw [eraseDups_map fun a ha b hb =>
      inj (.inr (mem_filter.1 ha).1) (.inr (mem_filter.1 hb).1)]
    rfl
  · rw [eraseDups_map fun a ha b hb =>
      inj (.inl (mem_filter.1 ha).1) (.inl (mem_filter.1 hb).1)]
    refine congrArg _ (congrArg List.eraseDups (filter_congr fun name mem => ?_))
    have same : Script.bindingName name ∈ n.sets.map Script.bindingName ↔ name ∈ n.sets := by
      refine ⟨fun inside => ?_, mem_map_of_mem⟩
      obtain ⟨other, mem', spelled⟩ := mem_map.1 inside
      exact inj (.inr mem') (.inl mem) spelled ▸ mem'
    simp only [Function.comp_apply, isOwn, contains_eq_mem, same]

end Node

/-! ## Compilations -/

/-- **The tree of an include in place**: that of its partial, with the
partial's own includes in place. A partial that may be missing and is counts
as nothing. -/
def includedTree (o : CompileOptions) (lib : Library) (path : IncludePath) (i : Inclusion) :
    Node :=
  match h : lib.source? i.name with
  | none => .literal i.pos .null
  | some src =>
    if fresh : i.name ∈ path.partials then .missing
    else
      have := IncludePath.room_push_lt h fresh
      match o.parse src with
      | .ok tree => tree.fill fun j => includedTree o lib (path.push i.name) j
      | .error _ => .missing
termination_by path.room lib

section

variable {o : CompileOptions} {lib : Library} {path : IncludePath} {i : Inclusion} {src : Bytes}

theorem includedTree_missing (missing : lib.source? i.name = none) :
    includedTree o lib path i = .literal i.pos .null := by
  rw [includedTree]
  split <;> simp_all

theorem includedTree_fresh (found : lib.source? i.name = some src)
    (fresh : i.name ∉ path.partials) {tree : Node} (parsed : o.parse src = .ok tree) :
    includedTree o lib path i = tree.fill (includedTree o lib (path.push i.name)) := by
  rw [includedTree]
  split <;> simp_all

/-- **The code of an include mentions what its tree does.** -/
theorem included_spells {known : List Bytes} (filters : Script.filterNamespace ∈ known)
    (g : Bytes → Option Location → Option Location) (path : IncludePath) (i : Inclusion)
    (faultless : includedFaults o lib path i = []) :
    Scope.Spells known ((includedCode g o lib path i).occurrences [])
      (includedTree o lib path i).places := by
  fun_induction includedFaults o lib path i with
  | case1 path i found =>
    rw [includedCode_missing found, includedTree_missing found]
    exact .nil known
  | case4 path i src found fresh _ tree parsed ih =>
    rw [includedCode_fresh found fresh parsed, includedTree_fresh found fresh parsed,
      ← Code.occurrences_erase, Code.erase_relocate, Code.occurrences_erase]
    exact Node.code_spells filters tree (map_eq_nil_iff.1 faultless) fun j _ none => ih j none
  | case2 | case3 | case5 => cases faultless

/-- The tree of a template, with its includes in place. -/
def Node.inlined (o : CompileOptions) (lib : Library) (tree : Node) : Node :=
  tree.fill (includedTree o lib { root := o.file })

/-- The keys of the inputs of a unit. -/
def CodeUnit.inputKeys (u : CodeUnit) : List Bytes := u.inputBindings.map Prod.fst

theorem CodeUnit.Scoped.inputKeys_eq {u : CodeUnit} (h : u.Scoped o) :
    u.inputKeys = (Scope.ofUnit o.reserved u).free.map Script.templateName := by
  rw [inputKeys, h.inputBindings_eq, map_map]
  rfl

/-- **The inputs and locals of a template are told by its tree.** If a
template compiles, the keys of its root's inputs are the names that the
template reads outside the loops that bind them, does not assign there and
does not share with the runtime, in the order in which they are first read;
and its locals are the names it assigns there. Includes count as the trees of
their partials in place; a template without includes is looked at as it is,
and compiles to the same root in both modes. -/
theorem compile_inputs {tree : Node} {p : Program} (parsed : o.parse src = .ok tree)
    (compiles : (compile o lib src).1 = .ok p)
    (whole : o.moduleMode = false ∨ tree.inclusions = []) :
    (∃ root, p.root = some root
      ∧ root.inputKeys = (tree.inlined o lib).inputs o.reserved
      ∧ root.locals = ((tree.inlined o lib).locals o.reserved).map Script.bindingName)
    ∧ (tree.inclusions = [] → tree.inlined o lib = tree) := by
  refine ⟨?_, Node.fill_of_inclusions_nil tree⟩
  have filters : Script.filterNamespace ∈ Scope.reservedNames o.reserved :=
    List.mem_append_left _ (by decide)
  have expands : Node.Expands (Compile.rootSite o lib) (fun _ => none)
      (includedFaults o lib { root := o.file })
      (includedCode (fun _ _ => none) o lib { root := o.file }) tree.inclusions := by
    rcases whole with inPlace | without
    · exact Compile.rootSite_expands lib inPlace _
    · rw [without]
      exact fun i mem => absurd mem List.not_mem_nil
  obtain ⟨-, t, -, run⟩ := Compile.outcome_of_compile compiles
  obtain ⟨faultless, root, isRoot, closed, statements, body⟩ :=
    (Compile.program_comesTo parsed expands).of_ok run
  have spells := Node.code_spells filters tree faultless fun i _ none =>
    included_spells filters (fun _ _ => Option.none) { root := o.file } i none
  have scope : Scope.ofUnit o.reserved root
      = ⟨((tree.inlined o lib).locals o.reserved).map Script.bindingName,
        ((tree.inlined o lib).inputs o.reserved).map Script.bindingName⟩ := by
    rw [← Code.eraseAll_eq_map, ← Code.eraseAll_eq_map] at statements
    rw [Scope.ofUnit, ← Code.occurrencesAll_erase, statements, Code.occurrencesAll_erase,
      ← Code.occurrences_erase, body, Code.occurrences_erase, Node.mentions_draftCode,
      spells.agree.scope_eq]
    exact Node.ofOccurrences_spelled o.reserved _ spells.plain
  refine ⟨root, isRoot, ?_, ?_⟩
  · rw [closed.inputKeys_eq, scope, List.map_map]
    refine (List.map_congr_left fun name mem => ?_).trans (List.map_id _)
    have read := (List.mem_filter.1 (List.mem_eraseDups.1 mem)).1
    exact Script.templateName_bindingName (Node.plain_of_places spells.plain (.inl read))
  · rw [closed.locals, scope]

private def frames : Library := ⟨[("f", "\x7b%set t=q%\x7d\x7b\x7bk|up\x7d\x7d\x7b\x7bnew\x7d\x7d")]⟩

private def framedRows : Bytes :=
  "\x7b%for index,k in xs%\x7d\x7b\x7bindex_2\x7d\x7d\x7b%include \"f\"%\x7d\x7b%else%\x7d\x7b\x7bk\x7d\x7d\x7b%endfor%\x7d"

/-- The keys of the root's inputs, and its locals. -/
private def rootNames (lib : Library) (src : Bytes) : Option (List Bytes × List Bytes) :=
  ((compile {} lib src).1.toOption.bind Program.root).map fun u => (u.inputKeys, u.locals)

private theorem rootNames_rows : rootNames frames framedRows
    = some ((["xs", "q", "new", "k"] : List Bytes), (["t"] : List Bytes)) := by cbv

/-- A loop that binds its counter and a name that is read outside too, around
a page that reads and assigns names of its own. -/
theorem rows_inputs : ∃ tree p root, Template.parse framedRows = .ok tree
    ∧ (compile {} frames framedRows).1 = .ok p ∧ p.root = some root
    ∧ root.inputKeys = (tree.inlined {} frames).inputs []
    ∧ root.locals = ((tree.inlined {} frames).locals []).map Script.bindingName
    ∧ root.inputKeys = ["xs", "q", "new", "k"] ∧ root.locals = ["t"] := by
  have found := rootNames_rows
  unfold rootNames at found
  cases compiles : (compile {} frames framedRows).1 with
  | error e => rw [compiles] at found; cases found
  | ok p =>
    obtain ⟨tree, -, parsed, -⟩ := Compile.outcome_of_compile compiles
    obtain ⟨⟨root, isRoot, keys, locals⟩, -⟩ := compile_inputs parsed compiles (.inl rfl)
    rw [compiles, Except.toOption, Option.bind_some, isRoot, Option.map_some,
      Option.some.injEq, Prod.mk.injEq] at found
    exact ⟨tree, p, root, parsed, rfl, isRoot, keys, locals, found⟩

/-- **A value is read before all targets but the first.** With two targets
that are members, what the value reads comes between them. -/
theorem value_between_targets : rootNames ⟨[]⟩ "\x7b% set x.a, y.b = z %\x7d"
    = some ((["x", "z", "y"] : List Bytes), []) := by cbv

end

end TemplateCompiler
