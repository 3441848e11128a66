import TemplateCompiler.Proofs.Template.Tree

/-!
# Lowering, step by step

Lowering a node takes steps, one after the other: parts of the node are lowered,
other code is located, and what cannot be compiled is refused. The results are
put together to the form of the node (`Node.lower_eq_steps`). Only two kinds of
nodes are lowered in another way: bodies, where text is kept apart
(`Node.lower_eq_body`), and assignments, which lower their first target anew
for each of the others. What has to be known of lowering is therefore known of
all trees once it is known of steps, of bodies and of assignments
(`Node.lower_induction`).
-/

open List

namespace TemplateCompiler

/-- A step in lowering a node. -/
inductive Step where
  /-- A part of the node is lowered. -/
  | part (n : Node)
  /-- The parameter of a loop. -/
  | param (n : Node)
  /-- Code that does not depend on the parts of the node. -/
  | known (pos : Position) (c : Code)
  | expand (i : Inclusion)
  | refuse (e : CompileError)

/-- Takes a step. -/
def Step.run (site : Site) : Step → Compile Code
  | .part n => n.lower site
  | .param n => Node.loopParam site n
  | .known pos c => site.locate pos c
  | .expand i => site.expand i
  | .refuse e => throw e

/-- The includes of a step. -/
def Step.inclusions : Step → List Inclusion
  | .part n => n.inclusions
  | .expand i => [i]
  | _ => []

namespace Node

/-- Refuses what was not given. -/
def checked {α : Type} : Except CompileError α → List Step
  | .ok _ => []
  | .error e => [.refuse e]

/-- The key of a dictionary entry, as text. -/
def keyText (key : Node) : Bytes :=
  match dictKey key with
  | .ok spelled => spelled
  | .error _ => []

/-- The steps for the entries of a dictionary. -/
def pairSteps (pairs : List (Node × Node)) : List Step :=
  pairs.flatMap fun p => checked (dictKey p.1) ++ [.part p.2]

/-- The step for an alternative, or for the empty text in its place. -/
def altStep (pos : Position) (alt : Node) : Step :=
  if alt.isMissing then .known pos (.str []) else .part alt

/-- The step for the key of a lookup. -/
def keyStep (key : Node) : Step :=
  match key.memberKey? with
  | some (property, _) => .known key.pos property
  | none => .part key

/-- The step for an include, which has to name its partial. -/
def embedStep (pos : Position) (optional : Bool) : Node → Step
  | .literal _ (.string name) => .expand ⟨pos, name, optional⟩
  | .literal place _ => .refuse (.dynamicInclude "non-string literal" place)
  | target => .refuse (.dynamicInclude target.kind target.pos)

/-- The step for what is called: a name is that of a filter. -/
def calleeStep : Node → Step
  | .symbol pos name => .known pos (filterPath name)
  | n => .part n

/-- **The steps in which a node is lowered**, bodies and assignments apart. -/
def steps (n : Node) : List Step :=
  match n with
  | .ifElse pos c b a | .choice pos c b a =>
    [.part c, .part b, altStep pos a]
  | .forEach _ vars items body alt =>
    [.part items, .param vars, .part body] ++ if alt.isMissing then [] else [.part alt]
  | .embed pos target optional => [embedStep pos optional target]
  | .lookup _ target key => [.part target, keyStep key]
  | .symbol _ name | .named _ name => checked (n.binding name)
  | .call _ callee args => args.map .part ++ [calleeStep callee]
  | .literal _ value => checked (if (Code.ofLiteral? value).isSome then .ok ()
      else .error (n.unsupported "unsupported literal value []string"))
  | .compare _ left [(_, right)] => [.part left, .part right]
  | .compare pos _ links => [.refuse (.chainedComparison (links.map Prod.fst) pos)]
  | .not _ target | .neg _ target => [.part target]
  | .binary _ op left right =>
    [.part left, .part right] ++ checked (if (op.combine? .missing .missing).isSome then .ok ()
      else .error (n.unsupported ("operator " ++ op.name)))
  | .dict _ pairs => pairSteps pairs
  | .group _ [] => [.refuse (n.unsupported "empty group")]
  | .array _ ns | .group _ ns => ns.map .part
  | .inherit .. | .block .. | .missing => [.refuse (n.unsupported [])]
  | .text .. | .list .. | .output .. | .assign .. => []

/-- **What the results of the steps are put together to.** -/
def form (n : Node) (cs : List Code) : Code :=
  let result (i : Nat) : Code := cs.getD i .missing
  match n with
  | .text _ content | .output _ [.text _ content] => .str content
  | .ifElse .. | .choice .. => .conditional none (result 0) (result 1) (result 2)
  | .forEach _ _ _ _ alt =>
    loop (result 0) (result 1) (result 2) (if alt.isMissing then none else some (result 3))
  | .embed .. | .group _ [_] => result 0
  | .lookup _ _ key =>
    .member none (result 0) (result 1) ((key.memberKey?.map Prod.snd).getD true)
  | .symbol _ name | .named _ name => .ident (Script.bindingName name)
  | .call .. => .call none (cs.getLastD .missing) cs.dropLast
  | .literal _ value => (Code.ofLiteral? value).getD .missing
  | .compare _ _ [(op, _)] => .binary none op (result 0) (result 1)
  | .not .. => .unary none "!" (result 0)
  | .neg .. => .unary none "-" (result 0)
  | .binary _ op _ _ => (op.combine? (result 0) (result 1)).getD .missing
  | .array .. => .array none cs
  | .dict _ pairs => .object none ((pairs.map fun p => keyText p.1).zip cs)
  | .group .. => .sequence none cs
  | _ => .missing

/-- The nodes of a body. -/
def body? : Node → Option (List Node)
  | .list _ ns => some (flatten ns)
  | .output _ [.text ..] => none
  | .output _ ns => some ns
  | _ => none

/-- An output that is no body is one text. -/
theorem text_of_body? {p : Position} {ns : List Node} (plain : (output p ns).body? = none) :
    ∃ place content, ns = [.text place content] := by
  unfold body? at plain
  split at plain
  · next same => cases same
  · next same => cases same; exact ⟨_, _, rfl⟩
  · cases plain
  · next other => exact absurd rfl (other _ _)

section

variable (site : Site)

-- Here the equations of the mutual definitions are made, once and for all proofs that use them.
attribute [local simp] lower lowerAll lowerParts lowerBody lowerTargets lowerPairs

theorem lowerAll_eq (ns : List Node) : lowerAll site ns = (ns.map Step.part).mapM (Step.run site) := by
  rw [mapM_map]
  induction ns with
  | nil => rw [lowerAll, mapM_nil]
  | cons n ns ih => rw [lowerAll, ih, mapM_cons]; rfl

theorem lowerPairs_eq (pairs : List (Node × Node)) :
    lowerPairs site pairs = (do
      let cs ← (pairSteps pairs).mapM (Step.run site)
      pure ((pairs.map fun p => keyText p.1).zip cs)) := by
  induction pairs with
  | nil => rw [lowerPairs]; rfl
  | cons pair pairs ih =>
    obtain ⟨key, value⟩ := pair
    have cons : pairSteps ((key, value) :: pairs)
        = checked (dictKey key) ++ .part value :: pairSteps pairs := by simp [pairSteps]
    rw [lowerPairs, ih, cons]
    cases known : dictKey key with
    | error e => rfl
    | ok k =>
      simp [checked, Step.run, keyText, known]
      rfl

theorem binding_eq (n : Node) (name : Bytes) (next : Identifier → Compile Code) :
    (do let id ← n.binding name; next id) = (do
      let _ ← (checked (n.binding name)).mapM (Step.run site)
      next { name := Script.bindingName name }) := by
  unfold binding
  dsimp only
  split <;> rfl

/-- **Lowering a node** takes its steps. -/
theorem lower_eq_steps (n : Node) (plain : n.body? = none) (keeps : n.isAssignment = false) :
    n.lower site = (do
      let cs ← n.steps.mapM (Step.run site)
      site.locate n.pos (n.form cs)) := by
  cases n with
  | list => cases plain
  | assign => cases keeps
  | missing | inherit | block | text => rw [lower]; rfl
  | symbol pos name | named pos name => rw [lower, steps]; exact binding_eq ..
  | output pos ns =>
    obtain ⟨_, content, rfl⟩ := text_of_body? plain
    rw [lower]
    rfl
  | ifElse pos test body alt | choice pos test body alt =>
    trans (do
      let t ← test.lower site
      let b ← body.lower site
      let a ← (altStep pos alt).run site
      site.locate pos (.conditional none t b a))
    · rw [lower]
      cases alt <;> rfl
    · simp [steps, form, Step.run, Node.pos]
  | forEach pos vars items body alt =>
    trans (do
      let i ← items.lower site
      let p ← loopParam site vars
      let b ← body.lower site
      let a ← if alt.isMissing then pure none else some <$> alt.lower site
      site.locate pos (loop i p b a))
    · rw [lower]
      cases alt <;> rfl
    · cases missing : alt.isMissing <;> simp [steps, form, Step.run, missing, Node.pos]
  | embed pos template optional =>
    cases template with
    | literal place value =>
      cases value <;> rw [lower] <;> first | rfl | simp [steps, embedStep, form, Step.run, Node.pos]
    | _ => rw [lower] <;> first | rfl | simp
  | lookup pos target key =>
    rw [lower]
    cases named : key.memberKey? <;> simp [steps, keyStep, form, Step.run, named, Node.pos]
  | call pos callee args =>
    trans (do
      let xs ← lowerAll site args
      let f ← (calleeStep callee).run site
      site.locate pos (.call none f xs))
    · rw [lower]
      cases callee <;> rfl
    · rw [lowerAll_eq]
      simp [steps, form, Node.pos]
  | literal pos value =>
    rw [lower]
    cases given : Code.ofLiteral? value <;> simp [steps, checked, form, given, Step.run, Node.pos]
  | compare pos first links =>
    rcases links with _ | ⟨⟨op, right⟩, _ | _⟩
    · rw [lower] <;> first | rfl | simp
    · rw [lower]; simp [steps, form, Step.run, Node.pos]
    · rw [lower] <;> first | rfl | simp
  | not pos operand | neg pos operand => rw [lower]; simp [steps, form, Step.run, Node.pos]
  | binary pos op left right =>
    rw [lower, steps]
    cases op with
    | other name => simp [BinaryOp.combine?, checked, Step.run]
    | _ => simp [form, checked, Step.run, BinaryOp.combine?, Node.pos]
  | array pos ns => rw [lower, lowerAll_eq]; simp [steps, form, Node.pos]
  | dict pos pairs => rw [lower, lowerPairs_eq]; simp [steps, form, Node.pos]
  | group pos ns =>
    rcases ns with _ | ⟨a, _ | ⟨b, ns⟩⟩
    · rw [lower]; rfl
    · rw [lower]; simp [steps, form, Step.run, Node.pos]
    · rw [lower]
      · rw [lowerAll_eq]; simp [steps, form, Node.pos]
      · simp
      · simp

/-- A node of a body: text stays text. -/
def bodyPart (n : Node) : Compile BodyPart :=
  match n with
  | .text pos content => pure (.text pos content)
  | _ => do
    let c ← n.lower site
    pure (.hole c)

theorem lowerParts_eq (ns : List Node) : lowerParts site ns = ns.mapM (bodyPart site) := by
  induction ns with
  | nil => rw [lowerParts, mapM_nil]
  | cons n ns ih =>
    rw [mapM_cons, ← ih]
    cases n <;> rw [lowerParts] <;> simp [bodyPart]

/-- **The parts of a body** are those of its nodes, with outputs replaced by
their contents. -/
theorem lowerBody_eq (ns : List Node) : lowerBody site ns = lowerParts site (flatten ns) := by
  rw [lowerParts_eq]
  induction ns with
  | nil => rw [lowerBody]; rfl
  | cons n ns ih =>
    rw [flatten, flatMap_cons, ← flatten, mapM_append, ← ih]
    cases n <;> rw [lowerBody] <;> simp [bodyPart, lowerParts_eq]

/-- **Lowering a body** assembles its parts. -/
theorem lower_eq_body {n : Node} {ns : List Node} (body : n.body? = some ns) :
    n.lower site = (do
      let parts ← lowerParts site ns
      let code ← BodyPart.assemble site n.pos parts
      site.locate n.pos code) := by
  unfold body? at body
  split at body
  · cases body
    rw [lower, lowerBody_eq]
    rfl
  · cases body
  · next more =>
    cases body
    rw [lower]
    · rfl
    · exact fun pos content same => more pos content same
  · cases body

end

/-! ## Going through a tree -/

variable {n m : Node} {ns : List Node}

/-- The nodes of a body are parts of it, or parts of its outputs. -/
theorem mem_body (body : n.body? = some ns) (mem : m ∈ ns) :
    m ∈ n.operands ∨ ∃ k ∈ n.operands, m ∈ k.operands := by
  unfold body? at body
  split at body <;> cases body
  · obtain ⟨k, inside, mem⟩ := mem_flatMap.1 mem
    cases k with
    | output => exact .inr ⟨_, inside, mem⟩
    | _ => exact .inl (mem_singleton.1 mem ▸ inside)
  · exact .inl mem

/-- What a step of a node may be about: a part of the node, or code that is
known, at the position of the node or of a part. -/
def Owns (n : Node) : Step → Prop
  | .part m | .param m => m ∈ n.operands
  | .known pos c => pos = n.pos ∧ c = .str [] ∨ ∃ m ∈ n.parts, m.isMissing = false ∧ pos = m.pos ∧
    ((∃ computed, m.memberKey? = some (c, computed))
      ∨ ∃ name, c = filterPath name ∧ n.ownWords = Bytes.splitOn Byte.dot name)
  | _ => True

theorem owns_of_mem_steps (n : Node) : ∀ s ∈ n.steps, n.Owns s := by
  have refused {n : Node} {α : Type} (x : Except CompileError α) : ∀ s ∈ checked x, n.Owns s := by
    cases x <;> simp [checked, Owns]
  have below {n : Node} {ns : List Node} (parts : ∀ m ∈ ns, m ∈ n.operands) :
      ∀ s ∈ ns.map Step.part, n.Owns s := forall_mem_map.2 parts
  cases n with
  | ifElse p c b a | choice p c b a =>
    cases missing : a.isMissing <;> simp [steps, altStep, Owns, missing, operands, parts, Node.pos]
  | forEach p v i b a => cases a.isMissing <;> simp [steps, Owns, operands, parts]
  | lookup p t k =>
    refine forall_mem_cons.2 ⟨mem_cons_self, forall_mem_singleton.2 ?_⟩
    cases named : k.memberKey? with
    | none => simp [keyStep, Owns, named, operands, parts]
    | some found =>
      have present : k.isMissing = false := by cases k <;> first | rfl | cases named
      rw [keyStep, named]
      exact .inr ⟨k, by simp [parts], present, rfl, .inl ⟨_, named⟩⟩
  | call p f args =>
    refine forall_mem_append.2 ⟨below fun m mem => ?_, forall_mem_singleton.2 ?_⟩ <;>
      cases f with
      | symbol => first | exact mem | exact .inr ⟨_, mem_cons_self, rfl, rfl, .inr ⟨_, rfl, rfl⟩⟩
      | _ => first | exact mem_cons_of_mem _ mem | exact mem_cons_self
  | compare p l links =>
    rcases links with _ | ⟨⟨op, r⟩, _ | _⟩ <;> simp [steps, Owns, operands, parts]
  | binary p op l r => exact forall_mem_append.2 ⟨by simp [Owns, operands, parts], refused _⟩
  | dict p pairs =>
    simp only [steps, pairSteps, mem_flatMap, mem_append]
    rintro s ⟨q, mem, here | here⟩
    · exact refused _ s here
    · rw [mem_singleton.1 here]
      exact mem_flatMap.2 ⟨q, mem, by simp⟩
  | array => exact below fun m mem => mem
  | group p ns =>
    cases ns with
    | nil => exact forall_mem_singleton.2 trivial
    | cons => exact below fun m mem => mem
  | embed p t o =>
    refine forall_mem_singleton.2 ?_
    unfold embedStep
    split <;> trivial
  | symbol | named | literal => exact refused _
  | _ => simp [steps, Owns, operands, parts]

theorem mem_parts_of_step (step : .part m ∈ n.steps) : m ∈ n.parts :=
  mem_parts_of_operand (owns_of_mem_steps n _ step)

section

variable {β : Type} {R : Step → β → Prop} {bs : List β}

theorem results_append {ss ts : List Step} (each : List.Forall₂ R (ss ++ ts) bs) :
    ∃ cs ds, List.Forall₂ R ss cs ∧ List.Forall₂ R ts ds ∧ cs ++ ds = bs := by
  induction ss generalizing bs with
  | nil => exact ⟨[], bs, .nil, each, rfl⟩
  | cons s ss ih =>
    cases each with | cons first rest =>
    obtain ⟨cs, ds, front, back, rfl⟩ := ih rest
    exact ⟨_ :: cs, ds, .cons first front, back, rfl⟩

theorem forall_results {α : Type} {P : β → Prop} {xs : List α}
    (each : List.Forall₂ (fun _ => P) xs bs) : ∀ b ∈ bs, P b := by
  induction each with
  | nil => exact forall_mem_nil _
  | cons first _ ih => exact forall_mem_cons.2 ⟨first, ih⟩

/-- What is checked gives no result. -/
theorem results_checked (never : ∀ e b, ¬R (.refuse e) b) {α : Type} {x : Except CompileError α}
    (each : List.Forall₂ R (checked x) bs) : bs = [] := by
  cases x with
  | ok => exact forall₂_nil_left_iff.1 each
  | error e => cases each with | cons first => exact absurd first (never _ _)

theorem ok_of_results (never : ∀ e b, ¬R (.refuse e) b) {α : Type} {x : Except CompileError α}
    (each : List.Forall₂ R (checked x) bs) : ∃ a, x = .ok a := by
  cases x with
  | ok a => exact ⟨a, rfl⟩
  | error e => cases each with | cons first => exact absurd first (never _ _)

theorem results_pairSteps (never : ∀ e b, ¬R (.refuse e) b) {pairs : List (Node × Node)}
    (each : List.Forall₂ R (pairSteps pairs) bs) :
    List.Forall₂ (fun p b => R (.part p.2) b) pairs bs := by
  induction pairs generalizing bs with
  | nil => exact forall₂_nil_left_iff.1 each ▸ .nil
  | cons pair pairs ih =>
    rw [pairSteps, flatMap_cons, append_assoc] at each
    obtain ⟨front, back, checks, rest, rfl⟩ := results_append each
    rw [results_checked never checks, nil_append]
    cases rest with | cons first rest => exact .cons first (ih rest)

end

theorem inclusions_of_isMissing (h : n.isMissing = true) : n.inclusions = [] := by
  cases n <;> first | rfl | cases h

theorem inclusions_altStep (pos : Position) (alt : Node) :
    (altStep pos alt).inclusions = alt.inclusions := by
  unfold altStep
  split
  · next missing => exact (inclusions_of_isMissing missing).symm
  · rfl

theorem inclusions_keyStep (key : Node) : (keyStep key).inclusions = key.inclusions := by
  unfold keyStep
  split
  · next named =>
    unfold memberKey? at named
    split at named <;> first | rfl | cases named
  · rfl

theorem inclusions_calleeStep (n : Node) : (calleeStep n).inclusions = n.inclusions := by
  cases n <;> rfl

theorem inclusions_embedStep (pos : Position) (optional : Bool) (target : Node) :
    (embedStep pos optional target).inclusions = (embed pos target optional).inclusions := by
  cases target with
  | literal p value => cases value <;> rfl
  | _ => rfl

theorem inclusions_checked {α : Type} (x : Except CompileError α) :
    (checked x).flatMap Step.inclusions = [] := by
  cases x <;> rfl

/-- **The includes of a node** are those of its steps, unless it is refused. -/
theorem inclusions_eq_steps (plain : n.body? = none) (keeps : n.isAssignment = false) :
    n.inclusions = n.steps.flatMap Step.inclusions ∨ ∃ e, n.steps = [.refuse e] := by
  have part (n : Node) : (Step.part n).inclusions = n.inclusions := rfl
  cases n with
  | list => cases plain
  | assign => cases keeps
  | output p ns =>
    obtain ⟨_, _, rfl⟩ := text_of_body? plain
    exact .inl rfl
  | compare p l links =>
    rcases links with _ | ⟨⟨op, r⟩, _ | _⟩
    · exact .inr ⟨_, rfl⟩
    · exact .inl (by simp [inclusions, steps, inclusionsOfLinks, Step.inclusions])
    · exact .inr ⟨_, rfl⟩
  | group p ns =>
    cases ns with
    | nil => exact .inr ⟨_, rfl⟩
    | cons => exact .inl (by simp [inclusions, inclusionsOf_eq, steps, flatMap_map, part])
  | forEach p v i b a =>
    cases missing : a.isMissing <;>
      simp [inclusions, steps, missing, inclusions_of_isMissing, Step.inclusions]
  | missing | inherit | block => exact .inr ⟨_, rfl⟩
  | _ =>
    left
    simp [inclusions, inclusionsOf_eq, inclusionsOfPairs_eq, steps, pairSteps, flatMap_map,
      flatMap_assoc, inclusions_checked, inclusions_altStep, inclusions_keyStep,
      inclusions_calleeStep, inclusions_embedStep, part]

theorem flatMap_flatten {α : Type} {gather : Node → List α}
    (output : ∀ p inner, gather (.output p inner) = inner.flatMap gather)
    (ns : List Node) : (flatten ns).flatMap gather = ns.flatMap gather := by
  rw [flatten, flatMap_assoc]
  congr 1
  funext n
  cases n with
  | output p inner => exact (output p inner).symm
  | _ => exact append_nil _

/-- What is gathered node by node from a body. -/
theorem flatMap_body {α : Type} {g : Node → List α}
    (output : ∀ p inner, g (.output p inner) = inner.flatMap g)
    (list : ∀ p ns, g (.list p ns) = ns.flatMap g) (body : n.body? = some ns) :
    g n = ns.flatMap g := by
  unfold body? at body
  split at body <;> cases body
  · rw [list, flatMap_flatten output]
  · exact output ..

theorem inclusions_body (body : n.body? = some ns) : n.inclusions = ns.flatMap inclusions :=
  flatMap_body (fun _ _ => inclusionsOf_eq _) (fun _ _ => inclusionsOf_eq _) body

/-- **Going through a tree as lowering does**, when something is known of its
includes. -/
theorem lower_induction {E : Inclusion → Prop} {P : Node → Prop}
    (body : ∀ n ns, n.body? = some ns → (∀ m ∈ ns, P m) → P n)
    (assign : ∀ p ts v b, (∀ t ∈ ts, P t) → (v.isMissing = false → P v) →
      (v.isMissing = true → P b) → P (.assign p ts v b))
    (plain : ∀ n, n.body? = none → n.isAssignment = false → (∀ m, .part m ∈ n.steps → P m) →
      (∀ i, .expand i ∈ n.steps → E i) → P n)
    (n : Node) (he : ∀ i ∈ n.inclusions, E i) : P n := by
  have part (m : Node) (mem : m ∈ n.parts) (sub : m.inclusions ⊆ n.inclusions) : P m := by
    have := length_preorder_lt mem
    exact lower_induction body assign plain m fun i here => he i (sub here)
  cases given : n.body? with
  | some ns =>
    refine body n ns given fun m mem => ?_
    have sub : m.inclusions ⊆ n.inclusions := by
      rw [inclusions_body given]
      exact fun i here => mem_flatMap_of_mem mem here
    obtain mem | ⟨k, inside, mem⟩ := mem_body given mem
    · exact part m (mem_parts_of_operand mem) sub
    · have := Nat.lt_trans (length_preorder_lt (mem_parts_of_operand mem))
        (length_preorder_lt (mem_parts_of_operand inside))
      exact lower_induction body assign plain m fun i here => he i (sub here)
  | none =>
    cases kind : n.isAssignment with
    | false =>
      have sub {s : Step} (mem : s ∈ n.steps) : s.inclusions ⊆ n.inclusions := by
        intro i here
        obtain same | ⟨e, same⟩ := inclusions_eq_steps given kind
        · exact same ▸ mem_flatMap_of_mem mem here
        · rw [same, mem_singleton] at mem
          subst mem
          cases here
      exact plain n given kind (fun m step => part m (mem_parts_of_step step) (sub step))
        fun i step => he i (sub step (mem_singleton_self i))
    | true =>
      cases n with
      | assign p ts v b =>
        refine assign p ts v b (fun t mem => part t (mem_append_left _ mem) ?_)
          (fun h => part v (by simp [parts]) (by simp [inclusions, h]))
          fun h => part b (by simp [parts]) (by simp [inclusions, h])
        rw [inclusions, inclusionsOf_eq]
        exact fun i here => mem_append_right _ (mem_flatMap_of_mem mem here)
      | _ => cases kind
termination_by n.preorder.length

end Node

end TemplateCompiler
