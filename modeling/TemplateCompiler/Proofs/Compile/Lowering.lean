import TemplateCompiler.Proofs.Compile.Match
import TemplateCompiler.Proofs.Compile.Steps

/-!
# Lowering side by side

If the includes of a tree mean matching things on two sides, then so does the
tree: `Node.lower_related`. The statements about compiled code rest on it.
Everything else is about units and includes.
-/

open List

namespace TemplateCompiler.Node

variable {is : List Inclusion}

/-- In the place of an expression, assignments are a block. -/
theorem lower_assign (site : Site) (pos : Position) (targets : List Node) (value body : Node) :
    (assign pos targets value body).lower site = (do
      let xs ← lowerAssignment site (assign pos targets value body)
      site.locate pos (.call none (.lambda none [] .missing xs) [])) := by
  rw [lower]
  rfl

/-! ## Names and patterns -/

/-- A name of the template that generated code may use is no stand-in for a
keyword. -/
theorem binding_ok {n : Node} {name : Bytes} {id : Identifier} (h : n.binding name = .ok id) :
    Script.templateName name = name ∧ id = { name := Script.bindingName name } := by
  unfold binding at h
  by_cases plain : Script.templateName name = name
  · refine ⟨plain, ?_⟩
    rw [if_pos (by simpa using plain)] at h
    exact (Except.ok.inj h).symm
  · rw [if_neg (by simpa using plain)] at h
    exact absurd h (by simp)

/-- The path of a filter is not made from the template, so it has no
locations. -/
theorem erase_filterPath (name : Bytes) : (filterPath name).erase = filterPath name := by
  refine filterPath_induction (P := fun c => c.erase = c) (Code.erase_ident _) name ?_
  intro c word _ same
  rw [Code.erase, same, Code.erase_ident]

end TemplateCompiler.Node

namespace TemplateCompiler

/-- Erasing goes through the names of a pattern. -/
theorem Destructure.erase_add (d : Destructure) (key : Bytes) (id : Identifier) :
    (d.add key id).erase = d.erase.add key id.erase := by
  simp [Destructure.add, Destructure.erase]

theorem loopPattern_concat (ns : List Bytes) (n : Bytes) :
    loopPattern (ns ++ [n]) = (loopPattern ns).add n { name := Script.bindingName n } := by
  rw [loopPattern, foldl_append]
  rfl

/-- The includes mean matching things on both sides. -/
def Correspondence.Expands (K : Correspondence) (sets : Prop) (site site' : Site)
    (is : List Inclusion) : Prop :=
  ∀ i ∈ is, ∀ w, K.Related w (K.Lowers sets [i]) (site.expand i) (site'.expand i)

namespace Correspondence.Expands

variable {K : Correspondence} {sets : Prop} {site site' : Site} {is js : List Inclusion}

theorem left (h : K.Expands sets site site' (is ++ js)) : K.Expands sets site site' is :=
  fun i m => h i (mem_append_left _ m)

theorem right (h : K.Expands sets site site' (is ++ js)) : K.Expands sets site site' js :=
  fun i m => h i (mem_append_right _ m)

end Correspondence.Expands

namespace Node

variable {K : Correspondence} {sets : Prop} {site site' : Site} {v w : K.World}
  {rs : List (Code × Code)} {ns : List Node} {n : Node}

/-- Names are bound alike. -/
theorem binding_related (n : Node) (name : Bytes) :
    K.Related w (fun _ a b => Script.templateName name = name
        ∧ a = { name := Script.bindingName name } ∧ b = { name := Script.bindingName name })
      (liftM (n.binding name)) (liftM (n.binding name)) := by
  refine Correspondence.Related.lift _ fun id h => ?_
  obtain ⟨plain, same⟩ := binding_ok h
  exact ⟨plain, same, same⟩

/-- A pattern that both sides have built from the same names, up to
locations. -/
def SamePattern (d d' : Destructure) : Prop :=
  ∃ ns, (∀ n ∈ ns, Script.templateName n = n) ∧ (ns.map Script.bindingName).Nodup
    ∧ d.erase = loopPattern ns ∧ d'.erase = loopPattern ns

theorem names_of_erase {d : Destructure} {ns : List Bytes} (h : d.erase = loopPattern ns) :
    d.names.map Identifier.name = ns.map Script.bindingName := by
  have erased : d.names.map Identifier.erase = (loopPattern ns).names :=
    congrArg Destructure.names h
  have named := congrArg (List.map Identifier.name) erased
  rw [names_loopPattern, map_map, map_map] at named
  exact named

/-- **One more variable of a loop**: on both sides the pattern grows by the
same name, or the name is refused. -/
theorem loopVariable_related {d d' : Destructure} (h : SamePattern d d') (n : Node) :
    K.Related w (fun _ => SamePattern) (loopVariable site d n) (loopVariable site' d' n) := by
  obtain ⟨ns, plain, distinct, left, right⟩ := h
  cases n with
  | symbol pos name =>
    rw [loopVariable, loopVariable]
    refine (binding_related _ name).bind ?_
    rintro v id id' - ⟨plainName, rfl, rfl⟩
    have taken : ∀ {e : Destructure}, e.erase = loopPattern ns →
        (e.names.any (·.name == Script.bindingName name))
          = (ns.map Script.bindingName).contains (Script.bindingName name) := by
      intro e he
      rw [← names_of_erase he]
      rw [Bool.eq_iff_iff]
      simp
    simp only [taken left, taken right]
    cases repeated : (ns.map Script.bindingName).contains (Script.bindingName name) with
    | true => exact Correspondence.Related.throw _
    | false =>
      have stamped : ∀ file, (Compile.locating (Identifier.stamp file pos
          { name := Script.bindingName name })).Quiet
            fun id => id.erase = { name := Script.bindingName name } :=
        fun file => Compile.Quiet.locating fun n => rfl
      rw [if_neg Bool.false_ne_true, if_neg Bool.false_ne_true]
      refine Correspondence.Related.quiet_left (stamped _) fun id hid => ?_
      refine Correspondence.Related.quiet_right (stamped _) fun id' hid' => ?_
      refine Correspondence.Related.pure ⟨ns ++ [name], ?_, ?_, ?_, ?_⟩
      · intro n m
        rcases mem_append.mp m with old | new
        · exact plain n old
        · rw [mem_singleton.mp new, plainName]
      · rw [map_append, nodup_append]
        refine ⟨distinct, by simp, ?_⟩
        rintro a old b new rfl
        rw [map_singleton, mem_singleton] at new
        rw [← new, contains_iff_mem.mpr old] at repeated
        exact absurd repeated (by simp)
      · rw [Destructure.erase_add, left, hid, loopPattern_concat]
      · rw [Destructure.erase_add, right, hid', loopPattern_concat]
  | _ => exact Correspondence.Related.throw _

/-- What a loop binds is the same on both sides. -/
theorem loopParam_related (n : Node) :
    K.Related w (fun _ c d => c.erase = d.erase ∧ LoopParam c.erase) (loopParam site n)
      (loopParam site' n) := by
  cases n with
  | symbol pos name =>
    rw [loopParam, loopParam]
    refine (binding_related _ name).bind ?_
    rintro v id id' - ⟨plain, rfl, rfl⟩
    refine Correspondence.Related.quiet (site.quiet_locate pos _) (site'.quiet_locate pos _) ?_
    intro c d left right
    refine ⟨left.trans right.symm, ?_⟩
    rw [left]
    exact LoopParam.name name plain
  | array pos names =>
    rw [loopParam, loopParam]
    have fold : ∀ (names : List Node) (v : K.World) (d d' : Destructure), SamePattern d d' →
        K.Related v (fun _ => SamePattern) (names.foldlM (loopVariable site) d)
          (names.foldlM (loopVariable site') d') := by
      intro names
      induction names with
      | nil => exact fun v d d' h => Correspondence.Related.pure h
      | cons n names ih =>
        intro v d d' h
        rw [foldlM_cons, foldlM_cons]
        exact (loopVariable_related h n).bind fun v' e e' _ h' => ih v' e e' h'
    have empty : SamePattern { names := [] } { names := [] } :=
      ⟨[], by simp, nodup_nil, rfl, rfl⟩
    refine (fold names w _ _ empty).bind ?_
    rintro v d d' - ⟨ns, plain, distinct, left, right⟩
    refine Correspondence.Related.pure ⟨?_, ?_⟩
    · rw [Code.erase, Code.erase, left, right]
    · rw [Code.erase, left]
      exact LoopParam.names ns plain distinct
  | _ => exact Correspondence.Related.throw _

/-! ## Assignments -/

/-- Targets of assignments that match: the same name, or matching members. -/
def TargetsMatch (K : Correspondence) (sets : Prop) (is : List Inclusion) (w : K.World)
    (c d : Code) : Prop :=
  K.Lowers sets is w c d
    ∧ ((∃ n, Script.templateName n = n ∧ c.erase = .ident (Script.bindingName n)
        ∧ d.erase = .ident (Script.bindingName n))
      ∨ ∃ o p o' p' computed, c.erase = .member none o p computed
        ∧ d.erase = .member none o' p' computed)

theorem TargetsMatch.later {c d : Code} (h : TargetsMatch K sets is v c d) (later : K.Later v w) :
    TargetsMatch K sets is w c d :=
  ⟨⟨h.1.1.later later, h.1.2.later later⟩, h.2⟩

/-- An assignment of matching values to matching targets. -/
theorem assign_match {t t' v v' : Code} (allowed : sets)
    (target : TargetsMatch K sets is w t t') (value : K.Match sets w v v') :
    K.Match sets w (.assign none t v) (.assign none t' v') := by
  rw [Correspondence.Match, Code.erase, Code.erase]
  obtain ⟨⟨m, -⟩, ⟨n, plain, left, right⟩ | ⟨o, p, o', p', computed, left, right⟩⟩ := target
  · rw [left, right]
    exact Lowered.assignName allowed n plain value
  · rw [Correspondence.Match, left, right] at m
    rw [left, right]
    exact Lowered.assignMember allowed m value

/-- The step that gives the code of a target. -/
def target (site : Site) (n : Node) : Compile Code :=
  if n.isTarget then n.lower site else throw (n.unsupported "invalid assignment target")

theorem lowerTargets_eq_map (site : Site) (ns : List Node) :
    lowerTargets site ns = ns.map (target site) := by
  induction ns with
  | nil => rw [lowerTargets]; rfl
  | cons n ns ih => rw [lowerTargets, ih]; rfl

section

variable {pos : Position} {ns : List Node} (allowed : sets)
  (ht : ∀ n ∈ ns, ∀ w, K.Related w (TargetsMatch K sets n.inclusions) (target site n)
    (target site' n))

include allowed ht

/-- The further targets of an assignment, which get what the first one
holds. -/
theorem copies_related {first : Node}
    (hf : ∀ w, K.Related w (TargetsMatch K sets first.inclusions) (target site first)
      (target site' first)) (w : K.World) :
    K.Related w (K.LowersAll sets (inclusionsOf ns))
      ((ns.map (target site)).mapM fun other => do
        let t ← other
        let copy ← target site first
        site.locate pos (.assign none t copy))
      ((ns.map (target site')).mapM fun other => do
        let t ← other
        let copy ← target site' first
        site'.locate pos (.assign none t copy)) := by
  rw [mapM_map, mapM_map, inclusionsOf_eq]
  refine Correspondence.Related.lowersAll (fun n mem w => ?_) w
  refine (ht n mem w).bind fun v t t' _ mt => (hf v).bind fun u c c' later mc => ?_
  have kept := mt.later later
  exact Correspondence.Related.locate ⟨assign_match allowed kept mc.1.1, kept.1.2⟩

/-- **The assignments of a statement** match, target by target. -/
theorem assignments_related {value value' : Compile Code}
    (hv : ∀ w, K.Related w (K.Lowers sets is) value value') (w : K.World) :
    K.Related w (K.LowersAll sets (is ++ inclusionsOf ns))
      (assignments site pos value (lowerTargets site ns))
      (assignments site' pos value' (lowerTargets site' ns)) := by
  rw [lowerTargets_eq_map, lowerTargets_eq_map]
  unfold assignments
  refine (hv w).bind fun v c c' _ ⟨mc, dc⟩ => ?_
  cases ns with
  | nil =>
    refine Correspondence.Related.pure ⟨.nil, ?_⟩
    exact dc.append Correspondence.Done.nil
  | cons n ns =>
    refine (ht n mem_cons_self v).bind fun u t t' later mt => ?_
    have assigned : K.Related u (K.Lowers sets (is ++ n.inclusions))
        (site.locate pos (.assign none t c)) (site'.locate pos (.assign none t' c')) :=
      Correspondence.Related.locate
        ⟨assign_match allowed mt (mc.later later), (dc.later later).append mt.1.2⟩
    refine assigned.bind fun x a a' _ ⟨ma, da⟩ => ?_
    refine (copies_related allowed (fun m mem => ht m (mem_cons_of_mem _ mem))
      (ht n mem_cons_self) x).bind fun y as as' later' ⟨mas, das⟩ => ?_
    refine Correspondence.Related.pure ⟨.cons (ma.later later') mas, ?_⟩
    rw [inclusionsOf, ← append_assoc]
    exact (da.later later').append das

end

/-- Lowering a node gives matching code on both sides, in the form that an
assignment needs if the node can be assigned to. -/
def Corresponds (K : Correspondence) (sets : Prop) (site site' : Site) (n : Node) : Prop :=
  ∀ w, K.Related w (fun v c d => K.Lowers sets n.inclusions v c d
    ∧ (n.isTarget = true → TargetsMatch K sets n.inclusions v c d)) (n.lower site) (n.lower site')

theorem Corresponds.related (h : Corresponds K sets site site' n) (w : K.World) :
    K.Related w (K.Lowers sets n.inclusions) (n.lower site) (n.lower site') :=
  (h w).imp fun _ _ _ _ both => both.1

/-- **The statements of an assignment** match. -/
theorem assign_related (pos : Position) {targets : List Node} {value body : Node} (allowed : sets)
    (ht : ∀ t ∈ targets, Corresponds K sets site site' t)
    (hv : value.isMissing = false → Corresponds K sets site site' value)
    (hb : value.isMissing = true → Corresponds K sets site site' body) (w : K.World) :
    K.Related w (K.LowersAll sets (assign pos targets value body).inclusions)
      (lowerAssignment site (assign pos targets value body))
      (lowerAssignment site' (assign pos targets value body)) := by
  have places : ∀ t ∈ targets, ∀ w, K.Related w (TargetsMatch K sets t.inclusions)
      (target site t) (target site' t) := by
    intro t mem w
    unfold target
    cases kind : t.isTarget with
    | false => exact Correspondence.Related.throw _
    | true => exact (ht t mem w).imp fun _ _ _ _ both => both.2 kind
  refine assignments_related allowed places (fun w => ?_) w
  cases value with
  | missing =>
    cases body with
    | missing => exact Correspondence.Related.throw _
    | _ => exact (hb rfl).related w
  | _ => exact (hv rfl).related w

/-! ## Steps -/

/-- A key that is written out names a field or is an index. -/
theorem memberKey?_some {key : Node} {property : Code} {computed : Bool}
    (h : key.memberKey? = some (property, computed)) :
    (∃ n, property = .int n ∧ computed = true)
      ∨ ∃ s, property = .ident s ∧ computed = false ∧ Script.isIdentifier s = true := by
  unfold memberKey? at h
  split at h
  · cases h
    exact .inl ⟨_, rfl, rfl⟩
  · split at h
    · cases h
      exact .inl ⟨_, rfl, rfl⟩
    · split at h
      · next word =>
        cases h
        exact .inr ⟨_, rfl, rfl, word⟩
      · cases h
  · cases h

open Correspondence

/-- Trees in which assignments may stand only where they are allowed. -/
def MaySet (sets : Prop) (ns : List Node) : Prop := ∀ n ∈ ns, sets ∨ n.SetFree

theorem MaySet.parts (h : sets ∨ n.SetFree) : MaySet sets n.parts :=
  fun _ part => h.imp id fun free => free.part part

/-- Erasing goes through a loop. -/
theorem erase_loop (items param body : Code) (alternate : Option Code) :
    (loop items param body alternate).erase
      = loop items.erase param.erase body.erase (alternate.map Code.erase) := by
  cases alternate <;> simp [loop, Code.erase, Code.eraseAll, Identifier.erase, Code.ident, Code.str,
    Code.binders_erase]

/-- What the results of a step on both sides have in common. -/
def StepMatches (K : Correspondence) (sets : Prop) (w : K.World) : Step → Code × Code → Prop
  | .param _, r => r.1.erase = r.2.erase ∧ LoopParam r.1.erase
  | .known _ c, r => r.1.erase = c.erase ∧ r.2.erase = c.erase
  | .refuse _, _ => False
  | .part _, r | .expand _, r => K.Match sets w r.1 r.2

/-- **Taking a step** on both sides. -/
theorem step_related (s : Step) (part : ∀ n, s = .part n → Corresponds K sets site site' n)
    (expand : ∀ i, s = .expand i → ∀ w, K.Related w (K.Lowers sets [i]) (site.expand i)
      (site'.expand i)) (w : K.World) :
    K.Related w (fun v c d => StepMatches K sets v s (c, d) ∧ K.Done v s.inclusions)
      (s.run site) (s.run site') := by
  cases s with
  | part n => exact (part n rfl).related w
  | param n => exact (loopParam_related n).imp fun _ _ _ _ h => ⟨h, Done.nil⟩
  | known pos c =>
    exact Related.quiet (site.quiet_locate pos c) (site'.quiet_locate pos c)
      fun _ _ left right => ⟨⟨left, right⟩, Done.nil⟩
  | expand i => exact expand i rfl w
  | refuse e => exact Related.throw e

theorem StepMatches.later {s : Step} {r : Code × Code} (h : StepMatches K sets v s r)
    (later : K.Later v w) : StepMatches K sets w s r := by
  cases s with
  | part | expand => exact Match.later h later
  | _ => exact h

theorem match_results (each : List.Forall₂ (StepMatches K sets w) (ns.map .part) rs) :
    List.Forall₂ (K.Match sets w) (rs.map Prod.fst) (rs.map Prod.snd) := by
  rw [forall₂_map_left_iff] at each
  exact forall₂_results each

/-- Matching entries, as objects take them. -/
theorem entries_match {ps qs : List (Bytes × Code)}
    (h : List.Forall₂ (fun p q => p.1 = q.1 ∧ K.Match sets w p.2 q.2) ps qs) :
    K.Match sets w (.object none ps) (.object none qs) := by
  rw [Match, Code.erase, Code.erase, Code.eraseProps_eq_map, Code.eraseProps_eq_map]
  refine .object ?_ ?_
  · induction h with
    | nil => rfl
    | cons head _ ih => simp [head.1] at ih ⊢; exact ih
  · induction h with
    | nil => simp
    | cons head _ ih =>
      intro p m
      rw [map_cons, map_cons, zip_cons_cons, mem_cons] at m
      rcases m with rfl | m
      · exact head.2
      · exact ih p m

/-- **Forms of matching results** match. -/
theorem form_match (plain : n.body? = none) (keeps : n.isAssignment = false)
    (each : List.Forall₂ (StepMatches K sets w) n.steps rs) :
    K.Match sets w (n.form (rs.map Prod.fst)) (n.form (rs.map Prod.snd)) := by
  have never (e : CompileError) (r : Code × Code) : ¬StepMatches K sets w (.refuse e) r := id
  cases n with
  | list => cases plain
  | assign => cases keeps
  | missing | inherit | block => cases each with | cons first => exact first.elim
  | text p content => exact .literal (.string content) rfl
  | output p ns =>
    obtain ⟨_, content, rfl⟩ := text_of_body? plain
    exact .literal (.string content) rfl
  | symbol p name | named p name =>
    obtain ⟨id, bound⟩ := ok_of_results never each
    exact .name name (binding_ok bound).1
  | literal p value =>
    cases value with
    | words => cases each with | cons first => exact first.elim
    | null => exact .literal .null rfl
    | string s => exact .literal (.string s) rfl
    | bool b => exact .literal (.bool b) rfl
    | int n | plain n => exact .literal (.int n) rfl
    | float d => exact .literal (.float d) rfl
  | ifElse p c b a | choice p c b a =>
    obtain _ | ⟨test, _ | ⟨first, _ | @⟨_, r, _, _, second, ⟨⟩⟩⟩⟩ := each
    have other : K.Match sets w r.1 r.2 := by
      unfold altStep at second
      split at second
      · rw [Match, second.1, second.2]
        exact .literal (.string []) rfl
      · exact second
    exact .conditional test first other
  | forEach p v i b a =>
    cases missing : a.isMissing <;> simp only [steps, missing, form] at each ⊢
    · obtain _ | ⟨items, _ | ⟨param, _ | ⟨body, _ | ⟨other, ⟨⟩⟩⟩⟩⟩ := each
      rw [Match, erase_loop, erase_loop]
      exact param.1 ▸ .loopElse items param.2 body other
    · obtain _ | ⟨items, _ | ⟨param, _ | ⟨body, ⟨⟩⟩⟩⟩ := each
      rw [Match, erase_loop, erase_loop]
      exact param.1 ▸ .loop items param.2 body
  | embed p t o =>
    obtain _ | ⟨h, ⟨⟩⟩ := each
    unfold embedStep at h
    split at h
    · exact h
    · exact h.elim
    · exact h.elim
  | lookup p t k =>
    obtain _ | ⟨object, _ | @⟨_, r, _, _, key, ⟨⟩⟩⟩ := each
    unfold keyStep at key
    cases named : k.memberKey? with
    | none =>
      rw [named] at key
      simp only [form, named]
      exact .index object key
    | some found =>
      obtain ⟨property, computed⟩ := found
      rw [named] at key
      simp only [form, named]
      show Lowered sets (K.Calls w) (.member none _ r.1.erase computed)
        (.member none _ r.2.erase computed)
      rw [key.1, key.2]
      rcases memberKey?_some named with ⟨n, rfl, rfl⟩ | ⟨s, rfl, rfl, -⟩
      · exact .index object (.literal (.int n) rfl)
      · exact .field s object
  | call p f args =>
    obtain ⟨xs, fs, given, called, rfl⟩ := results_append each
    obtain _ | @⟨_, g, _, _, callee, ⟨⟩⟩ := called
    obtain ⟨lengths, all⟩ := zip_eraseAll (match_results given)
    simp only [form, map_append, map_cons, map_nil, getLastD_concat, dropLast_concat]
    show Lowered sets (K.Calls w) (.call none g.1.erase _) (.call none g.2.erase _)
    cases f with
    | symbol q name =>
      rw [callee.1, callee.2, erase_filterPath]
      exact .filter name lengths all
    | _ => exact .call callee lengths all
  | compare p l links =>
    rcases links with _ | ⟨⟨op, r⟩, _ | ⟨_, _⟩⟩
    · obtain _ | ⟨first, -⟩ := each
      exact first.elim
    · obtain _ | ⟨left, _ | ⟨right, ⟨⟩⟩⟩ := each
      exact .binary op left right
    · obtain _ | ⟨first, -⟩ := each
      exact first.elim
  | not p t | neg p t =>
    obtain _ | ⟨operand, ⟨⟩⟩ := each
    exact .unary _ (by decide) operand
  | binary p op l r =>
    obtain ⟨front, back, operands, checks, rfl⟩ := results_append each
    obtain _ | ⟨left, _ | ⟨right, ⟨⟩⟩⟩ := operands
    obtain ⟨_, defined⟩ := ok_of_results never checks
    cases op with
    | other => cases defined
    | or | and => exact .logical _ left right
    | _ => exact .binary _ left right
  | array p ns =>
    obtain ⟨lengths, all⟩ := zip_eraseAll (match_results each)
    exact .array lengths all
  | dict p pairs =>
    have values := results_pairSteps never each
    have entries : List.Forall₂ (fun p q => p.1 = q.1 ∧ K.Match sets w p.2 q.2)
        ((pairs.map fun p => keyText p.1).zip (rs.map Prod.fst))
        ((pairs.map fun p => keyText p.1).zip (rs.map Prod.snd)) := by
      clear each plain keeps
      induction values with
      | nil => exact .nil
      | cons first _ ih => exact .cons ⟨rfl, first⟩ ih
    exact entries_match entries
  | group p ns =>
    rcases ns with _ | ⟨_, _ | ⟨_, _⟩⟩
    · obtain _ | ⟨first, -⟩ := each
      exact first.elim
    · obtain _ | ⟨inner, ⟨⟩⟩ := each
      exact inner
    · obtain ⟨lengths, all⟩ := zip_eraseAll (match_results each)
      exact .sequence lengths all

/-- Parts of a body that match, made after these includes were compiled. -/
def PartsMatch (K : Correspondence) (sets : Prop) (is : List Inclusion) (w : K.World)
    (ps qs : List BodyPart) : Prop :=
  List.Forall₂ (BodyPart.Matches K sets w) ps qs ∧ K.Done w is

theorem parts_related (each : ∀ n ∈ ns, Corresponds K sets site site' n) (w : K.World) :
    K.Related w (PartsMatch K sets (ns.flatMap inclusions)) (lowerParts site ns)
      (lowerParts site' ns) := by
  rw [lowerParts_eq, lowerParts_eq]
  refine (Related.mapM (R := fun v (n : Node) r => BodyPart.Matches K sets v r.1 r.2
      ∧ K.Done v n.inclusions)
    (fun later h => ⟨h.1.later later, h.2.later later⟩) (fun n mem w => ?_) w).imp ?_
  · cases n with
    | text pos content => exact Related.pure ⟨.text pos content, Done.nil⟩
    | _ =>
      refine ((each _ mem).related w).bind fun v c d _ ⟨m, done⟩ => ?_
      exact Related.pure ⟨.hole m, done⟩
  · rintro v _ _ - ⟨rs, all, rfl, rfl⟩
    exact ⟨forall₂_results (all.imp fun _ _ h => h.1), Done.flatMap (all.imp fun _ _ h => h.2)⟩

/-! ## Trees -/

theorem corresponds (n : Node) (hs : sets ∨ n.SetFree)
    (he : K.Expands sets site site' n.inclusions) : Corresponds K sets site site' n := by
  refine lower_induction (P := fun n => sets ∨ n.SetFree → Corresponds K sets site site' n)
    ?body ?assign ?plain n he hs
  case body =>
    intro n ns body ih hs w
    have inner : MaySet sets ns := by
      intro m mem
      obtain part | ⟨k, part, mem⟩ := mem_body body mem
      · exact MaySet.parts hs m (mem_parts_of_operand part)
      · exact MaySet.parts (MaySet.parts hs k (mem_parts_of_operand part)) m
          (mem_parts_of_operand mem)
    have other : n.isTarget = false := by cases n <;> first | rfl | cases body
    rw [lower_eq_body site body, lower_eq_body site' body, inclusions_body body]
    refine (parts_related (fun m mem => ih m mem (inner m mem)) w).bind fun v ps qs _ h => ?_
    refine (BodyPart.assemble_related h.1 h.2).bind fun v c d _ h => ?_
    exact (Related.locate h).imp fun _ _ _ _ h => ⟨h, by simp [other]⟩
  case assign =>
    intro pos targets value body iht ihv ihb hs w
    have allowed : sets := hs.elim id fun free => absurd free.isAssignment (by simp [isAssignment])
    have below := MaySet.parts hs
    rw [lower_assign, lower_assign]
    have statements := assign_related pos allowed
      (fun t mem => iht t mem (below t (by simp [parts, mem])))
      (fun h => ihv h (below _ (by simp [parts]))) (fun h => ihb h (below _ (by simp [parts]))) w
    refine statements.bind fun v xs ys _ h => ?_
    obtain ⟨lengths, all⟩ := zip_eraseAll h.1
    have block : K.Lowers sets (assign pos targets value body).inclusions v
        (.call none (.lambda none [] .missing xs) []) (.call none (.lambda none [] .missing ys) []) :=
      ⟨.block allowed lengths all, h.2⟩
    exact (Related.locate block).imp fun _ _ _ _ h => ⟨h, by rintro ⟨⟩⟩
  case plain =>
    intro n plain keeps ih expands hs w
    rw [lower_eq_steps site n plain keeps, lower_eq_steps site' n plain keeps]
    refine (Related.mapM (R := fun v s r => StepMatches K sets v s r ∧ K.Done v s.inclusions)
      (fun later h => ⟨h.1.later later, h.2.later later⟩) (fun s mem w => step_related s
        (fun m same => ih m (same ▸ mem) (MaySet.parts hs m (mem_parts_of_step (same ▸ mem))))
        (fun i same => expands i (same ▸ mem)) w) w).bind ?_
    rintro v _ _ - ⟨rs, all, rfl, rfl⟩
    have each := all.imp fun _ _ h => h.1
    have done : K.Done v n.inclusions := by
      obtain same | ⟨e, refused⟩ := inclusions_eq_steps plain keeps
      · exact same ▸ Done.flatMap (all.imp fun _ _ h => h.2)
      · rw [refused] at each
        cases each with | cons first => exact first.elim
    have m := form_match plain keeps each
    refine Related.quiet (site.quiet_locate _ _) (site'.quiet_locate _ _) fun c d left right => ?_
    have lowers : K.Lowers sets n.inclusions v c d := by
      refine ⟨?_, done⟩
      rw [Match, left, right]
      exact m
    refine ⟨lowers, fun target => ⟨lowers, ?_⟩⟩
    rw [left, right]
    cases n with
    | symbol p name =>
      obtain ⟨id, bound⟩ := ok_of_results (fun _ _ => id) each
      exact .inl ⟨name, (binding_ok bound).1, rfl, rfl⟩
    | lookup p t k => exact .inr ⟨_, _, _, _, _, rfl, rfl⟩
    | _ => cases target

/-- **Lowering a tree side by side.** If its includes mean matching things,
then so does the tree. -/
theorem lower_related (n : Node) (hs : sets ∨ n.SetFree)
    (he : K.Expands sets site site' n.inclusions) (w : K.World) :
    K.Related w (K.Lowers sets n.inclusions) (n.lower site) (n.lower site') :=
  (corresponds n hs he).related w

theorem lowerParts_related (ns : List Node) (hs : MaySet sets ns)
    (he : K.Expands sets site site' (inclusionsOf ns)) (w : K.World) :
    K.Related w (PartsMatch K sets (inclusionsOf ns)) (lowerParts site ns)
      (lowerParts site' ns) := by
  rw [inclusionsOf_eq] at he ⊢
  exact parts_related (fun n mem => corresponds n (hs n mem) fun i here =>
    he i (mem_flatMap_of_mem mem here)) w

/-- An assignment that is hoisted. -/
theorem lowerAssignment_related (assigns : n.isAssignment = true) (hs : sets ∨ n.SetFree)
    (he : K.Expands sets site site' n.inclusions) (w : K.World) :
    K.Related w (K.LowersAll sets n.inclusions) (lowerAssignment site n)
      (lowerAssignment site' n) := by
  have below := MaySet.parts hs
  have allowed : sets := hs.elim id fun free => absurd free.isAssignment (by simp [assigns])
  cases n with
  | assign pos targets value body =>
    have targets : ∀ t ∈ targets, Corresponds K sets site site' t := by
      intro t mem
      rw [inclusions, inclusionsOf_eq] at he
      exact corresponds t (below t (by simp [parts, mem])) fun i here =>
        he.right i (mem_flatMap_of_mem mem here)
    refine assign_related _ allowed targets (fun h => ?_) (fun h => ?_) w <;>
      refine corresponds _ (below _ (by simp [parts])) fun i here => he i ?_ <;>
      simp [inclusions, h, here]
  | _ => cases assigns

end Node

end TemplateCompiler
