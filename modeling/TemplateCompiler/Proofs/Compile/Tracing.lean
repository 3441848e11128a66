import TemplateCompiler.Proofs.Compile.Settling
import TemplateCompiler.Proofs.Template.Includes

/-!
# The includes of a compilation, one after the other

Compiling a template meets its includes in the order of its source, and the
calls they become stand in the code in the same order. `Site.Runs` is a
sequence of includes as a session goes through them, and `Site.Traces` says of
a compile step which includes it runs and what comes of their code. The
statements of a template are taken apart one form at a time
(`Node.lower_traces`); expressions run no includes, which is all that has to
be known about them.
-/

open List

namespace TemplateCompiler

variable {pos : Position} {ns : List Node} {targets : List Node} {tree : Node}

/-! ## The calls in code -/

/-- The unit that an identifier names: a known name that is no global of the
script. -/
def Identifier.unit? (id : Identifier) : Option Bytes :=
  if id.builtin && !Script.isBuiltin id.name then some id.name else none

namespace Code

/-- **The units that code calls**, in the order of the walk. -/
def calls (c : Code) : List Bytes := c.names.filterMap Identifier.unit?

/-- The units that several pieces of code call. -/
def callsAll (cs : List Code) : List Bytes := cs.flatMap calls

theorem callsAll_eq (cs : List Code) : callsAll cs = (namesAll cs).filterMap Identifier.unit? := by
  rw [namesAll, filterMap_flatMap]
  rfl

/-- Calls do not depend on locations. -/
theorem calls_congr {c d : Code} (same : c.erase = d.erase) : c.calls = d.calls := by
  have erased : ∀ c : Code, c.calls = c.erase.names.filterMap Identifier.unit? := by
    intro c
    rw [names_erase, filterMap_map]
    rfl
  rw [erased, erased, same]

/-- Code that knows nothing but globals of the script calls no units. -/
theorem calls_eq_nil {c : Code} (knows : c.Knows fun name => Script.isBuiltin name = true) :
    c.calls = [] := by
  refine filterMap_eq_nil_iff.2 fun id mem => ?_
  rw [Identifier.unit?, if_neg]
  rw [Bool.and_eq_true, Bool.not_eq_true']
  rintro ⟨builtin, other⟩
  rw [knows id mem builtin] at other
  cases other

theorem calls_assign (loc : Option Location) (t v : Code) :
    (assign loc t v).calls = t.calls ++ v.calls := by
  rw [calls, names_assign, filterMap_append]
  rfl

theorem calls_conditional (loc : Option Location) (t a b : Code) :
    (conditional loc t a b).calls = t.calls ++ (a.calls ++ b.calls) := by
  rw [calls, names_conditional, append_assoc, filterMap_append, filterMap_append]
  rfl

end Code

/-- The units that a part of a body calls. -/
def BodyPart.calls : BodyPart → List Bytes
  | .text .. => []
  | .hole code => code.calls

theorem BodyPart.calls_code (parts : List BodyPart) :
    (BodyPart.code parts).calls = parts.flatMap BodyPart.calls := by
  have holes : Code.callsAll (parts.filterMap hole?) = parts.flatMap BodyPart.calls := by
    induction parts with
    | nil => rfl
    | cons part parts ih =>
      cases part with
      | text => exact ih
      | hole code =>
        rw [flatMap_cons, ← ih]
        rfl
  have several : (mixed parts).calls = parts.flatMap BodyPart.calls := by
    rw [← holes, mixed]
    split
    · next none => rw [none]; rfl
    · rw [Code.calls, Code.names_interpolation, ← Code.callsAll_eq]
  unfold code
  split
  · rfl
  · exact (append_nil _).symm
  · exact several

/-! ## Running includes -/

namespace Site

/-- **Includes one after the other**, each with the code it gave. Between them
nothing happens but the handing out of locations. -/
inductive Runs (site : Site) : Session → List (Inclusion × Code) → Session → Prop where
  | done {s t : Session} (same : s.SameUnits t) : Runs site s [] t
  | next {s s' t u : Session} {i : Inclusion} {c : Code} {l : List (Inclusion × Code)}
    (same : s.SameUnits s') (run : (site.expand i).outcome s' = (.ok c, t))
    (rest : Runs site t l u) : Runs site s ((i, c) :: l) u

variable {site : Site} {s t u : Session} {l k : List (Inclusion × Code)}

theorem Runs.after (runs : site.Runs t l u) (same : s.SameUnits t) : site.Runs s l u := by
  cases runs with
  | done same' => exact .done (same.trans same')
  | next same' run rest => exact .next (same.trans same') run rest

theorem Runs.append (first : site.Runs s l t) (second : site.Runs t k u) :
    site.Runs s (l ++ k) u := by
  induction first with
  | done same => exact second.after same
  | next same run _ ih => exact .next same run (ih second)

/-- **What a step traces**: when it succeeds it has run the includes `is`, and
`goal` holds of the calls in their code and of its result. -/
def Traces {α : Type} (site : Site) (m : Compile α) (is : List Inclusion)
    (goal : List Bytes → α → Prop) : Prop :=
  ∀ s a t, m.outcome s = (.ok a, t) →
    ∃ l, site.Runs s l t ∧ l.map Prod.fst = is ∧ goal (l.flatMap fun e => e.2.calls) a

variable {α β : Type} {m : Compile α} {f : α → Compile β} {is js : List Inclusion}

namespace Traces

theorem pure {goal : List Bytes → α → Prop} {a : α} (holds : goal [] a) :
    site.Traces (Pure.pure a) [] goal := by
  rintro s _ t ⟨⟩
  exact ⟨[], .done (.refl s), rfl, holds⟩

theorem throw {goal : List Bytes → α → Prop} (e : CompileError) :
    site.Traces (MonadExcept.throw e : Compile α) is goal := by
  rintro s a t ⟨⟩

theorem bind {first : List Bytes → α → Prop} {goal : List Bytes → β → Prop}
    (traces : site.Traces m is first)
    (next : ∀ bs a, first bs a → site.Traces (f a) js fun cs b => goal (bs ++ cs) b) :
    site.Traces (m >>= f) (is ++ js) goal := by
  intro s b u run
  obtain ⟨a, t, left, run⟩ := Compile.ok_of_outcome_bind run
  obtain ⟨l, runs, here, held⟩ := traces s a t left
  obtain ⟨k, runs', there, holds⟩ := next _ a held t b u run
  refine ⟨l ++ k, runs.append runs', by rw [map_append, here, there], ?_⟩
  rw [flatMap_append]
  exact holds

/-- A step behind all includes. -/
theorem bind_last {first : List Bytes → α → Prop} {goal : List Bytes → β → Prop}
    (traces : site.Traces m is first)
    (next : ∀ bs a, first bs a → site.Traces (f a) [] fun cs b => goal (bs ++ cs) b) :
    site.Traces (m >>= f) is goal := by
  rw [← append_nil is]
  exact traces.bind next

/-- A quiet step in front of all includes. -/
theorem quiet_bind {P : α → Prop} {goal : List Bytes → β → Prop} (silent : m.Quiet P)
    (next : ∀ a, P a → site.Traces (f a) is goal) : site.Traces (m >>= f) is goal := by
  intro s b u run
  obtain ⟨a, t, run', same, held⟩ := silent s
  rw [Compile.outcome_bind_ok run'] at run
  obtain ⟨l, runs, here, holds⟩ := next a held t b u run
  exact ⟨l, runs.after same, here, holds⟩

/-- A step that fails before the others has traced anything. -/
theorem throw_bind {goal : List Bytes → β → Prop} (e : CompileError) :
    site.Traces ((MonadExcept.throw e : Compile α) >>= f) is goal := by
  rintro s b t ⟨⟩

/-- Without includes there are no calls. -/
theorem nil {calls : α → List Bytes} (traces : site.Traces m [] fun bs a => calls a = bs) :
    site.Traces m [] fun bs a => bs = [] ∧ calls a = [] := by
  intro s a t run
  obtain ⟨l, runs, here, held⟩ := traces s a t run
  rw [map_eq_nil_iff.1 here] at runs held
  exact ⟨[], runs, rfl, rfl, held⟩

theorem quiet {P : α → Prop} {goal : List Bytes → α → Prop} (silent : m.Quiet P)
    (holds : ∀ a, P a → goal [] a) : site.Traces m [] goal := by
  intro s a t run
  obtain ⟨a', t', run', same, held⟩ := silent s
  rw [run] at run'
  cases run'
  exact ⟨[], .done same, rfl, holds a held⟩

/-- Steps over a list, each of which leaves the calls of its includes in what
it gives. -/
theorem mapM {ι : Type} {xs : List ι} {step : ι → Compile α} {i : ι → List Inclusion}
    {calls : α → List Bytes}
    (each : ∀ x ∈ xs, site.Traces (step x) (i x) fun bs a => calls a = bs) :
    site.Traces (xs.mapM step) (xs.flatMap i) fun bs as => as.flatMap calls = bs := by
  induction xs with
  | nil => exact .pure rfl
  | cons x xs ih =>
    obtain ⟨first, others⟩ := forall_mem_cons.1 each
    rw [mapM_cons, flatMap_cons]
    refine first.bind fun bs a same => (ih others).bind_last fun cs as same' => .pure ?_
    rw [flatMap_cons, same, same', append_nil]

theorem imp {goal goal' : List Bytes → α → Prop} (traces : site.Traces m is goal)
    (weaken : ∀ bs a, goal bs a → goal' bs a) : site.Traces m is goal' := by
  intro s a t run
  obtain ⟨l, runs, here, holds⟩ := traces s a t run
  exact ⟨l, runs, here, weaken _ a holds⟩

end Traces

/-- A step that gives code and leaves in it the calls of its includes. -/
def Lowers (site : Site) (m : Compile Code) (is : List Inclusion) : Prop :=
  site.Traces m is fun bs c => c.calls = bs

/-- A step that runs no includes and gives code without calls. -/
def Silent (site : Site) (m : Compile Code) : Prop :=
  site.Traces m [] fun bs c => bs = [] ∧ c.calls = []

theorem Silent.lowers {m : Compile Code} (silent : site.Silent m) : site.Lowers m [] :=
  silent.imp fun _ _ h => h.2.trans h.1.symm

/-- Silent code in front of all includes. -/
theorem Silent.bind {m : Compile Code} {f : Code → Compile β} {goal : List Bytes → β → Prop}
    (silent : site.Silent m) (next : ∀ c : Code, c.calls = [] → site.Traces (f c) is goal) :
    site.Traces (m >>= f) is goal := by
  rw [← nil_append is]
  refine Traces.bind silent ?_
  rintro _ c ⟨rfl, none⟩
  exact next c none

theorem locate_lowers {goal : List Bytes → Code → Prop} {c : Code}
    (holds : ∀ d : Code, d.calls = c.calls → goal [] d) :
    site.Traces (site.locate pos c) [] goal :=
  .quiet (site.quiet_locate pos c) fun d same => holds d (Code.calls_congr same)

/-- An include runs itself. -/
theorem expand_lowers (i : Inclusion) : site.Lowers (site.expand i) [i] := by
  intro s c t run
  exact ⟨[(i, c)], .next (.refl s) run (.done (.refl t)), rfl, (append_nil _).symm⟩

end Site

namespace Node

open Site

variable {site : Site}

/-! ## Expressions -/

/-- **Expressions run no includes.** -/
theorem lower_silent {e : Node} (expression : e.IsExpression) : site.Silent (e.lower site) := by
  intro s c t run
  have expands : (besides s).Expands True site site e.inclusions := by
    rw [inclusions_of_isExpression expression]
    exact fun i mem => nomatch mem
  have ends := lower_related e (.inl trivial) expands () s s (.refl s)
  rw [run] at ends
  obtain ⟨_, -, same, lowered, -⟩ := ends
  refine ⟨[], .done same, rfl, rfl, Code.calls_eq_nil (Code.knows_erase.1 ?_)⟩
  exact lowered.knows (by decide) nofun

theorem target_silent {n : Node} (expression : n.IsExpression) : site.Silent (target site n) := by
  unfold target
  split
  · exact lower_silent expression
  · exact .throw _

theorem loopParam_silent (n : Node) : site.Silent (loopParam site n) := by
  intro s c t run
  have ends : (besides s).Ends () _ ((loopParam site n).outcome s)
      ((loopParam site n).outcome s) := loopParam_related n s s (.refl s)
  rw [run] at ends
  obtain ⟨_, -, same, -, param⟩ := ends
  exact ⟨[], .done same, rfl, rfl,
    Code.calls_eq_nil (Code.knows_erase.1 (Lowered.knows_loopParam param))⟩

/-! ## Bodies -/

theorem lowerParts_traces (all : ∀ n ∈ ns, site.Lowers (n.lower site) n.includes) :
    site.Traces (lowerParts site ns) (includesOf ns) fun bs parts =>
      parts.flatMap BodyPart.calls = bs := by
  have each : ∀ n ∈ ns, site.Traces (bodyPart site n) n.includes fun bs p => p.calls = bs := by
    intro n mem
    cases n with
    | text => exact .pure rfl
    | _ => exact (all _ mem).bind_last fun bs c same => .pure (same.trans (append_nil bs).symm)
  rw [lowerParts_eq]
  exact .mapM each

theorem includesOf_children (tree : Node) : includesOf (flatten tree.children) = tree.includes :=
  flatMap_children (fun _ _ => includes_eq _) (fun _ _ => includes_eq _) tree

/-- A tree whose nodes are lowered in turn. -/
theorem lower_of_parts (all : ∀ n ∈ flatten tree.children, site.Lowers (n.lower site) n.includes) :
    site.Lowers (tree.lower site) tree.includes := by
  obtain ⟨join, quiet, inPlace⟩ := lower_eq_parts site tree
  rw [inPlace, ← includesOf_children, ← append_nil (includesOf _)]
  refine (lowerParts_traces all).bind fun bs parts same => ?_
  refine .quiet (quiet parts) fun c erased => ?_
  rw [Code.calls_congr erased, BodyPart.calls_code, same, append_nil]

/-! ## Assignments -/

/-- Copies of the first target to the others call nothing. -/
theorem copies_traces {first : Compile Code} {others : List (Compile Code)}
    (silent : site.Silent first) (all : ∀ m ∈ others, site.Silent m) :
    site.Traces (others.mapM fun other => do
        let target ← other
        let copy ← first
        site.locate pos (.assign none target copy)) [] fun bs cs =>
      bs = [] ∧ Code.callsAll cs = [] := by
  have one : ∀ other ∈ others, site.Traces (do
      let target ← other
      let copy ← first
      site.locate pos (.assign none target copy)) [] fun bs c => c.calls = bs := by
    intro other mem
    refine (all other mem).bind fun target none => silent.bind fun copy none' => ?_
    refine locate_lowers fun d same => ?_
    rw [same, Code.calls_assign, none, none']
    rfl
  have each := Traces.mapM (i := fun _ => []) one
  rw [flatMap_eq_nil_iff.2 fun _ _ => rfl] at each
  exact each.nil

/-- Assignments leave the calls of their value in the code. -/
theorem assignments_traces {value : Compile Code} {is : List Inclusion}
    (lowers : site.Lowers value is) (some_ : targets ≠ [])
    (places : ∀ t ∈ targets, t.IsExpression) :
    site.Traces (assignments site pos value (lowerTargets site targets)) is fun bs cs =>
      Code.callsAll cs = bs := by
  obtain ⟨first, others, rfl⟩ := exists_cons_of_ne_nil some_
  obtain ⟨place, rest⟩ := forall_mem_cons.1 places
  rw [lowerTargets_eq_map, map_cons, assignments]
  refine Traces.bind_last lowers fun bs v same => ?_
  refine (target_silent place).bind fun t none => ?_
  refine .quiet_bind (site.quiet_locate pos _) fun assigned erased => ?_
  refine (copies_traces (target_silent place) ?_).bind_last ?_
  · intro m mem
    obtain ⟨n, inside, rfl⟩ := mem_map.1 mem
    exact target_silent (rest n inside)
  · rintro _ copies ⟨rfl, none'⟩
    refine .pure ?_
    show assigned.calls ++ Code.callsAll copies = _
    rw [Code.calls_congr erased, none', Code.calls_assign, none, same]
    simp

/-- **An assignment** leaves the calls of its value in its code. -/
theorem lowerAssignment_traces {value body : Node}
    (parsed : (assign pos targets value body).IsParsed)
    (lowers : site.Lowers (body.lower site) body.includes) :
    site.Traces (lowerAssignment site (assign pos targets value body))
      (assign pos targets value body).includes fun bs cs => Code.callsAll cs = bs := by
  have includes : (assign pos targets value body).includes
      = includesOf targets ++ (value.includes ++ body.includes) := by
    rw [includes_eq]
    simp [include?, parts, includesOf]
  have none (places : ∀ t ∈ targets, t.IsExpression) : includesOf targets = [] :=
    includesOf_eq_nil fun t mem => includes_of_isExpression (places t mem)
  rw [includes, lowerAssignment]
  cases parsed with
  | expression whole => cases whole
  | assign some_ places given =>
    have chosen : assignedValue (assign pos targets value .missing) value .missing
        (value.lower site) (missing.lower site) = value.lower site := by
      cases given <;> rfl
    rw [none places, includes_of_isExpression given, chosen]
    exact assignments_traces (lower_silent given).lowers some_ places
  | capture some_ places whole =>
    rw [none places]
    by_cases empty : body = .missing
    · subst empty
      exact .throw_bind _
    · have chosen : assignedValue (assign pos targets .missing body) .missing body
          (missing.lower site) (body.lower site) = body.lower site := by
        cases body <;> first | rfl | exact absurd rfl empty
      rw [chosen]
      exact assignments_traces lowers some_ places

/-- In the place of an expression, assignments are a block. -/
theorem assign_lowers {value body : Node} (parsed : (assign pos targets value body).IsParsed)
    (lowers : site.Lowers (body.lower site) body.includes) :
    site.Lowers ((assign pos targets value body).lower site)
      (assign pos targets value body).includes := by
  rw [lower_assign]
  refine (lowerAssignment_traces parsed lowers).bind_last fun bs block same => ?_
  refine locate_lowers fun d erased => ?_
  rw [erased, ← same, Code.callsAll_eq]
  simp [Code.calls, Code.namesAll]

/-! ## Statements -/

theorem altStep_lowers {n : Node} (lowers : site.Lowers (n.lower site) n.includes) :
    site.Lowers ((altStep pos n).run site) n.includes := by
  cases n with
  | missing => exact locate_lowers fun d same => same
  | _ => exact lowers

/-- A loop calls what its body and its alternative call. -/
theorem calls_loop {items param : Code} (body : Code) (alternate : Option Code)
    (noItems : items.calls = []) (noParam : param.calls = []) :
    (loop items param body alternate).calls = body.calls ++ (alternate.map Code.calls).getD [] := by
  rw [Code.calls] at noItems noParam
  have array : Identifier.unit? { name := "Array", builtin := true } = none := by decide
  have plain (name : Bytes) : Identifier.unit? { name } = none := rfl
  cases alternate <;>
    simp [loop, Code.calls, Code.str, Code.ident, noItems, noParam, array, plain]

theorem isParsed_flatten (all : ∀ n ∈ ns, n.IsParsed) :
    ∀ m ∈ flatten ns, m.IsParsed := by
  intro m mem
  obtain ⟨n, inside, mem⟩ := mem_flatMap.1 mem
  have parsed := all n inside
  cases n with
  | output p inner =>
    cases parsed with
    | expression whole => cases whole
    | output all => exact all m mem
  | _ => exact mem_singleton.1 mem ▸ parsed

theorem isParsed_children (parsed : tree.IsParsed) :
    ∀ m ∈ flatten tree.children, m.IsParsed := by
  refine isParsed_flatten ?_
  cases tree with
  | list p ns =>
    cases parsed with
    | expression whole => cases whole
    | list all => exact all
  | _ => exact forall_mem_singleton.2 parsed

/-- The nodes of a body are smaller than the body. -/
theorem sizeOf_flatten {m : Node} (mem : m ∈ flatten ns) :
    sizeOf m < sizeOf ns := by
  obtain ⟨n, inside, mem⟩ := mem_flatMap.1 mem
  have smaller := sizeOf_lt_of_mem inside
  cases n with
  | output p inner =>
    have inner : sizeOf m < sizeOf inner := sizeOf_lt_of_mem mem
    rw [output.sizeOf_spec] at smaller
    omega
  | _ => exact mem_singleton.1 mem ▸ smaller

/-- **Compiling a tree of the parser runs its includes in source order**, and
their calls stand in its code in that order. -/
theorem lower_traces (n : Node) (parsed : n.IsParsed) :
    site.Lowers (n.lower site) n.includes := by
  have taken {n : Node} (plain : n.include? = none) : n.includes = includesOf n.parts := by
    rw [includes_eq, plain]
    rfl
  cases parsed with
  | missing => rw [lower]; exact .throw_bind _
  | @text p content =>
    rw [lower, pure_bind]
    exact locate_lowers fun d same => same
  | expression whole =>
    rw [includes_of_isExpression whole]
    exact (lower_silent whole).lowers
  | @list p ns all =>
    refine lower_of_parts fun m mem => ?_
    have smaller : sizeOf m < sizeOf ns := sizeOf_flatten mem
    exact lower_traces m (isParsed_flatten all m mem)
  | @output p ns all =>
    refine lower_of_parts fun m mem => ?_
    have inside : m ∈ ns := by simpa [children, flatten] using mem
    have smaller := sizeOf_lt_of_mem inside
    exact lower_traces m (all m inside)
  | @ifElse p c b a condition body alternative =>
    rw [taken rfl, show includesOf (ifElse p c b a).parts = b.includes ++ (a.includes ++ []) by
      simp [parts, includesOf, includes_of_isExpression condition], lower_eq_steps site _ rfl rfl]
    simp only [steps, mapM_cons, mapM_nil, bind_assoc, pure_bind]
    refine (lower_silent condition).bind fun test none => ?_
    refine (lower_traces b body).bind fun bs first same => ?_
    refine (altStep_lowers (lower_traces a alternative)).bind fun cs second same' => ?_
    refine locate_lowers fun d erased => ?_
    rw [erased, form]
    simp [Code.calls_conditional, none, same, same']
  | @forEach p v i b a vars iterable body alternative =>
    rw [taken rfl, show includesOf (forEach p v i b a).parts = b.includes ++ a.includes by
      simp [parts, includesOf, includes_of_isExpression vars, includes_of_isExpression iterable],
      lower_eq_steps site _ rfl rfl, steps]
    simp only [mapM_append, mapM_cons, mapM_nil, bind_assoc, pure_bind]
    refine (lower_silent iterable).bind fun items noItems => ?_
    refine (loopParam_silent v).bind fun param noParam => ?_
    refine (lower_traces b body).bind fun bs inner same => ?_
    cases missing : a.isMissing with
    | true =>
      have none : a.includes = [] := by
        cases a with
        | missing => rfl
        | _ => cases missing
      rw [none]
      refine locate_lowers fun d erased => ?_
      rw [erased, form, missing]
      exact (calls_loop inner _ noItems noParam).trans (by rw [same]; rfl)
    | false =>
      simp only [Bool.false_eq_true, if_false, mapM_cons, mapM_nil, bind_assoc, pure_bind]
      refine (lower_traces a alternative).bind_last fun cs other same' => ?_
      refine locate_lowers fun d erased => ?_
      rw [erased, form, missing]
      exact (calls_loop inner _ noItems noParam).trans (by rw [same]; simp [same'])
  | @assign p ts v some_ targets value =>
    exact assign_lowers (.assign some_ targets value) (lower_traces .missing .missing)
  | @capture p ts b some_ targets body =>
    exact assign_lowers (.capture some_ targets body) (lower_traces b body)
  | @embed p t optional template =>
    rw [lower_eq_steps site _ rfl rfl]
    simp only [steps, mapM_cons, mapM_nil, bind_assoc, pure_bind]
    have step : site.Lowers ((embedStep p optional t).run site) (embed p t optional).includes := by
      unfold embedStep
      split
      · exact expand_lowers _
      all_goals exact .throw _
    refine step.bind_last fun bs c same => locate_lowers fun d erased => ?_
    rw [erased, form, append_nil]
    exact same
  | inherit => rw [lower]; exact .throw_bind _
  | block => rw [lower]; exact .throw_bind _
termination_by sizeOf n
decreasing_by all_goals simp_wf <;> omega

/-! ## Drafts -/

/-- Hoisting keeps the includes of a template in their order. -/
theorem includesOf_hoist (nodes : List Node) :
    includesOf (hoist nodes).1 ++ includesOf (hoist nodes).2 = includesOf nodes :=
  flatMap_hoist (fun _ _ => rfl) nodes

theorem hoisted_traces (assigns : ∀ n ∈ ns, n.isAssignment = true) (all : ∀ n ∈ ns, n.IsParsed) :
    site.Traces (ns.mapM (lowerAssignment site)) (includesOf ns) fun bs css =>
      Code.callsAll css.flatten = bs := by
  induction ns with
  | nil => exact .pure rfl
  | cons n ns ih =>
    obtain ⟨set, sets⟩ := forall_mem_cons.1 assigns
    obtain ⟨parsed, others⟩ := forall_mem_cons.1 all
    cases n with
    | assign p targets value body =>
      have lowers : site.Lowers (body.lower site) body.includes := by
        cases parsed with
        | expression whole => cases whole
        | assign => exact lower_traces .missing .missing
        | capture _ _ parsed => exact lower_traces body parsed
      rw [mapM_cons]
      refine (lowerAssignment_traces parsed lowers).bind fun bs cs same => ?_
      refine (ih sets others).bind_last fun bs' css same' => ?_
      refine .pure ?_
      rw [flatten_cons, Code.callsAll, flatMap_append, ← Code.callsAll, ← Code.callsAll,
        same, same', append_nil]
    | _ => cases set

/-- **A draft has run the includes of its template in source order**, and
their calls stand in it in that order. -/
theorem draft_traces (parsed : tree.IsParsed) :
    site.Traces (Compile.draft site tree) tree.includes fun bs d =>
      Code.callsAll d.1 ++ d.2.calls = bs := by
  have nodes := isParsed_children parsed
  rw [← includesOf_children, ← includesOf_hoist, Compile.draft_eq site rfl]
  refine (hoisted_traces (fun n mem => (mem_hoist.1 mem).2)
    fun n mem => nodes n (mem_hoist.1 mem).1).bind fun bs css same => ?_
  refine (lowerParts_traces fun n mem =>
    lower_traces n (nodes n (mem_hoist.2 mem))).bind_last fun cs parts same' => ?_
  refine .quiet_bind (BodyPart.quiet_assemble site tree.pos parts) fun body erased => ?_
  refine .pure ?_
  show Code.callsAll css.flatten ++ body.calls = _
  rw [Code.calls_congr erased, BodyPart.calls_code, same, same', append_nil]

end Node

end TemplateCompiler
