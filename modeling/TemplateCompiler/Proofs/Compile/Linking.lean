import TemplateCompiler.Proofs.Compile.Registry

/-!
# Linking partials

Compiling with units for partials goes on side by side with compiling the
same template with every partial in place. The worlds of this correspondence
are the partials that have been finished, and a session agrees with a world if
it tracks it. No partial on an include path is finished, so what was settled
comes out the same when it is included again, and a call of its unit is all
that the second include needs. The two compilations stay in step:
`Compile.expand_related`.
-/

open List

namespace TemplateCompiler

variable {w : List Finished}

/-! ## Closing a draft -/

/-- The units that a unit calls do not depend on locations. -/
theorem CodeUnit.called_congr {u v : CodeUnit}
    (statements : Code.eraseAll u.statements = Code.eraseAll v.statements)
    (body : u.body.erase = v.body.erase) : u.called w = v.called w := by
  have erased : ∀ u : CodeUnit, u.called w
      = (Code.namesAll (Code.eraseAll u.statements) ++ u.body.erase.names).filterMap fun id =>
        if id.builtin then (w.find? (·.unit.name == id.name)).map Finished.ref else none := by
    intro u
    rw [Code.namesAll_erase, Code.names_erase, ← map_append, filterMap_map]
    rfl
  rw [erased, erased, statements, body]

/-- A name that the script knows, or that of a finished unit. -/
def KnownName (w : List Finished) (name : Bytes) : Prop :=
  Script.isBuiltin name = true ∨ ∃ f ∈ w, f.unit.name = name

/-- A call knows the unit that it calls. -/
theorem Calls.knows {c d : Code} (h : Calls w c d) {known : Bytes → Prop}
    (units : ∀ f ∈ w, known f.unit.name) : (d.callee? = none ∧ d.isExpression = true) ∧ d.Knows known := by
  obtain ⟨f, mem, -, rfl⟩ := h
  refine ⟨⟨rfl, rfl⟩, Code.knows_iff.2 fun e piece id same builtin => ?_⟩
  subst same
  obtain call | ⟨other, same, known⟩ | ⟨props, object, -⟩ := f.mem_call _ piece
  · cases call
  · cases same
    exact known builtin ▸ units f mem
  · cases object

section

variable {o : CompileOptions} {compiling : List (Bytes × Bytes)} {w : List Finished}
  {sets : Prop} {t : Session}

/-- **The units found in the registry** are those that are called. -/
theorem Session.Tracks.callees_eq (h : t.Tracks o compiling w) {draft : CodeUnit}
    (params : draft.params = []) (statements : ∀ c ∈ draft.statements, c.Knows (KnownName w))
    (body : draft.body.Knows (KnownName w)) :
    (draft.callees t).map ImportRef.erase = draft.called w := by
  have names : draft.callees t = (Code.function draft).names.filterMap fun id =>
      if id.builtin then (t.entryOfUnit? id.name).map fun e => ⟨id.loc, e.unit, e.partialName⟩
      else none := by
    rw [CodeUnit.callees, Code.names, filterMap_filterMap]
    congr 1
    funext c
    cases c <;> rfl
  rw [names, Code.names_function, params, Code.namesAll_nil, nil_append, CodeUnit.called,
    map_filterMap]
  refine filterMap_congr fun id mem => ?_
  cases builtin : id.builtin with
  | false => rfl
  | true =>
    have known : KnownName w id.name := by
      rcases mem_append.mp mem with inside | inside
      · exact Code.knows_all.mpr statements id inside builtin
      · exact body id inside builtin
    rw [if_pos rfl, if_pos rfl, Option.map_map]
    exact h.entryOfUnit?_eq known

/-- **Closing a draft** makes a unit of it. -/
theorem CodeUnit.Made.of_close {d : List Code × Code} {draft u : CodeUnit}
    (h : t.Tracks o compiling w) (closed : u.Closes o (draft.callees t) draft)
    (params : draft.params = []) (imports : draft.imports = [])
    (statements : List.Forall₂ (Lowered sets (Calls w)) d.1 (Code.eraseAll draft.statements))
    (body : Lowered sets (Calls w) d.2 draft.body.erase) : u.Made o sets w d := by
  have knows {x c : Code} (lowered : Lowered sets (Calls w) x c.erase) :
      c.Knows (KnownName w) :=
    Code.knows_erase.mp (lowered.knows (.inl (by decide)) fun _ _ call =>
      call.knows fun f mem => .inr ⟨f, mem, rfl⟩)
  have knowsStatements : ∀ c ∈ draft.statements, c.Knows (KnownName w) := by
    intro c mem
    obtain ⟨x, lowered⟩ := Lowered.of_mem statements mem
    exact knows lowered
  refine ⟨closed.statements ▸ statements, closed.body ▸ body, closed.scopes, ?_⟩
  rw [closed.imports, imports, h.callees_eq params knowsStatements (knows body),
    called_congr closed.statements closed.body]
  rfl

end

/-! ## The correspondence -/

/-- **Partials in place on one side, units on the other.** The second side is
in the middle of the partials `compiling`. -/
def linking (o : CompileOptions) (lib : Library) (reached : Bytes → Prop)
    (compiling : List (Bytes × Bytes)) : Correspondence where
  World := List Finished
  Later v w := v <:+ w
  refl _ := suffix_rfl
  trans := List.IsSuffix.trans
  Agree w _ t := Linked o lib reached w ∧ t.Tracks o compiling w
  agree_of_same agree _ same := ⟨agree.1, agree.2.of_same same⟩
  Calls := Calls
  calls_mono := Calls.mono
  Met := Met lib
  met_mono := Met.mono

section

variable {name src : Bytes} {u : CodeUnit} {i : Inclusion} {tree : Node} {s t : Session}
  {site : Site}

variable {o : CompileOptions} {lib : Library} {reached : Bytes → Prop}
  {compiling : List (Bytes × Bytes)} {path : IncludePath}

/-- What is known of a partial when its unit is done. -/
theorem Finished.Sound.of_close (on : path.partials = compiling.map Prod.fst) {id : Bytes}
    (hr : reached name) (found : lib.source? name = some src) (parsed : o.parse src = .ok tree)
    {v : List Finished} {s' : Session} {c : Code} {d d' : List Code × Code}
    (linked : Linked o lib reached v) (tracks : t.Tracks o (compiling ++ [(name, id)]) v)
    (run : (tree.lower ⟨name, Compile.expand o.inPlace lib (path.push name)⟩).outcome s
      = (.ok c, s')) (drafts : Node.DraftsMatch (linking o lib reached (compiling ++ [(name, id)]))
      (¬ tree.SetFree) tree.inclusions v d d') (bare : tree.SetFree → d = ([], c))
    (closed : u.Closes o
      (CodeUnit.callees t { name := id, source := name, statements := d'.1, body := d'.2 })
      { name := id, source := name, statements := d'.1, body := d'.2 }) :
    Finished.Sound o lib reached v ⟨tree, u, c.erase⟩ ∧ u.name = id ∧ u.source = name := by
  have unitName : u.name = id := closed.name
  have source : u.source = name := closed.source
  have partials := tracks.partials
  have names := tracks.names
  simp only [map_append, map_singleton, ← append_assoc] at partials names
  rw [nodup_append_comm, singleton_append, nodup_cons] at partials names
  have newName : ∀ g ∈ v, g.unit.name ≠ id := fun g mem same =>
    names.1 (mem_append_left _ (mem_map.mpr ⟨g, mem, same⟩))
  have newSource : ∀ g ∈ v, g.unit.source ≠ name := fun g mem same =>
    partials.1 (mem_append_left _ (mem_map.mpr ⟨g, mem, same⟩))
  have entered : (path.push name).partials = (compiling ++ [(name, id)]).map Prod.fst := by
    simp [IncludePath.push, on]
  have avoids : Avoids path v := fun g mem inside =>
    tracks.avoids entered g mem (mem_append_left _ inside)
  obtain ⟨plain, settled⟩ := settle linked found parsed drafts.done newSource avoids run
  have made : u.Made o (¬ tree.SetFree) v (Code.eraseAll d.1, d.2.erase) :=
    .of_close tracks closed rfl rfl drafts.erased drafts.body
  refine ⟨⟨?_, ?_, drafts.done, ?_, ?_, ?_, plain, ?_⟩, unitName, source⟩
  · exact source ▸ hr
  · exact ⟨src, source ▸ found, parsed⟩
  · exact fun g mem => ⟨unitName ▸ newName g mem, source ▸ newSource g mem⟩
  · exact unitName ▸ (tracks.taken id (by simp)).2
  · refine ⟨_, made, fun free => ?_⟩
    rw [bare free]
    rfl
  · intro path' pos optional apart
    have outside : name ∉ path'.partials := source ▸ apart ⟨tree, u, c.erase⟩ mem_cons_self
    show (Compile.expand o.inPlace lib path' ⟨pos, u.source, optional⟩).Quiet _
    rw [source]
    exact settled path' pos optional (fun g mem => apart g (mem_cons_of_mem _ mem)) outside

/-- Compiles a partial that is new to a unit of its own, and calls it. -/
def Compile.enroll (o : CompileOptions) (site : Site) (tree : Node) : Compile Code := do
  let id ← register o site.file
  let u ← inside site.file (unit o site id tree)
  finish site.file u
  countReference site.file
  pure (reference u id)

/-- **A new partial** is on its way while it is drafted. If drafting it fails,
then with the error that leaves the partial; otherwise it is finished. -/
theorem Session.Tracks.enroll (tracks : s.Tracks o compiling w) (site : Site)
    (unknown : s.find? site.file = none) (tree : Node) :
    ∃ id s₁, s₁.Tracks o (compiling ++ [(site.file, id)]) w
      ∧ (∀ e t, (Compile.draft site tree).outcome s₁ = (.error e, t) →
        (Compile.enroll o site tree).outcome s = (.error (e.leaving site.file), t))
      ∧ ∀ d t v c, (Compile.draft site tree).outcome s₁ = (.ok d, t) →
        t.Tracks o (compiling ++ [(site.file, id)]) v →
        ∃ u t', (Compile.enroll o site tree).outcome s = (.ok (Compile.reference u id), t')
          ∧ u.Closes o (CodeUnit.callees t
              { name := id, source := site.file, statements := d.1, body := d.2 })
              { name := id, source := site.file, statements := d.1, body := d.2 }
          ∧ t'.Tracks o compiling (⟨tree, u, c⟩ :: v) := by
  obtain ⟨id, s₁, registered, tracks₁⟩ := tracks.register unknown
  have unitRun := Compile.outcome_inside site.file (Compile.unit o site id tree) s₁
  rw [Compile.unit_eq] at unitRun
  rw [Compile.enroll, Compile.outcome_bind_ok registered, Compile.unit_eq]
  refine ⟨id, s₁, tracks₁, fun e t fails => ?_, fun d t v c drafted tracks₂ => ?_⟩
  · rw [Compile.outcome_bind_error fails] at unitRun
    rw [Compile.outcome_bind_error unitRun]
  · obtain ⟨u, t₁, closing, same, closed⟩ := Compile.outcome_close o site.file id tree.pos d t
    rw [Compile.outcome_bind_ok drafted, closing] at unitRun
    have source : u.source = site.file := closed.source
    have tracks₃ := tracks₂.of_same same
    rw [← show u.name = id from closed.name, ← source] at tracks₃
    obtain ⟨t₂, finished, tracks₄⟩ := tracks₃.finish (f := ⟨tree, u, c⟩)
    rw [show Finished.unit ⟨tree, u, c⟩ = u from rfl, source] at finished
    obtain ⟨t₃, counted, tracks₅⟩ := tracks₄.countReference site.file
    rw [Compile.outcome_bind_ok unitRun, Compile.outcome_bind_ok finished,
      Compile.outcome_bind_ok counted]
    exact ⟨u, t₃, rfl, closed, tracks₅⟩

/-- **A partial that is met for the first time** is compiled in place on one
side, and to a unit on the other. -/
theorem Compile.ends_new (on : path.partials = compiling.map Prod.fst) (hr : reached i.name)
    (found : lib.source? i.name = some src) (parsed : o.parse src = .ok tree)
    (linked : Linked o lib reached w) (tracks : t.Tracks o compiling w)
    (unknown : t.find? i.name = none)
    (expands : ∀ id, (linking o lib reached (compiling ++ [(i.name, id)])).Expands (¬ tree.SetFree)
      ⟨i.name, expand o.inPlace lib (path.push i.name)⟩ ⟨i.name, expand o lib (path.push i.name)⟩
      tree.inclusions) :
    (linking o lib reached compiling).Ends w
      ((linking o lib reached compiling).Lowers False [i])
      ((inside i.name
        (tree.lower ⟨i.name, expand o.inPlace lib (path.push i.name)⟩)).outcome s)
      ((enroll o ⟨i.name, expand o lib (path.push i.name)⟩ tree).outcome t) := by
  obtain ⟨id, t₁, tracks₁, fails, succeeds⟩ :=
    tracks.enroll ⟨i.name, expand o lib (path.push i.name)⟩ unknown tree
  rw [outcome_inside]
  have may : ¬ tree.SetFree ∨ tree.SetFree := (Decidable.em _).symm
  have ends := Node.inPlace_related may (expands id) w s t₁ ⟨linked, tracks₁⟩
  rcases left : (tree.lower ⟨i.name, expand o.inPlace lib (path.push i.name)⟩).outcome s
    with ⟨e | c, s₂⟩ <;>
  rcases right : (draft ⟨i.name, expand o lib (path.push i.name)⟩ tree).outcome t₁
    with ⟨e' | d', t₂⟩ <;> rw [left, right] at ends
  · rw [fails _ _ right]
    exact congrArg (CompileError.leaving i.name) ends
  · exact ends.elim
  · exact ends.elim
  · obtain ⟨v, later, ⟨linked', tracks₂⟩, d, drafts, bare⟩ := ends
    obtain ⟨u, t₃, run, closed, tracks₃⟩ := succeeds d' t₂ v c.erase right tracks₂
    obtain ⟨sound, name, source⟩ := Finished.Sound.of_close on hr found parsed linked' tracks₂ left
      drafts bare closed
    rw [run]
    refine ⟨⟨tree, u, c.erase⟩ :: v, later.trans (suffix_cons _ _),
      ⟨.cons linked' sound, tracks₃⟩, ?_, ?_⟩
    · exact .included ⟨_, mem_cons_self, rfl, by rw [Finished.call, name]⟩
    · intro j mem
      rw [mem_singleton.mp mem]
      exact .inr ⟨_, mem_cons_self, source⟩

/-- **A partial that is met again** gives its code in place on one side, and a
call of its unit on the other. -/
theorem Compile.ends_known (on : path.partials = compiling.map Prod.fst)
    (linked : Linked o lib reached w) (tracks : t.Tracks o compiling w) {f : Finished} (mem : f ∈ w)
    (same : f.unit.source = i.name) :
    (linking o lib reached compiling).Ends w
      ((linking o lib reached compiling).Lowers False [i])
      ((expand o.inPlace lib path i).outcome s)
      (Compile.outcome (do
        countReference i.name
        pure (reference f.unit f.unit.name)) t) := by
  obtain ⟨v, later, sound⟩ := linked.sound_of_mem mem
  obtain ⟨pos, name, optional⟩ := i
  cases same
  have apart : Avoids path (f :: v) := fun g inside => tracks.avoids on g (later.mem inside)
  obtain ⟨c, s', run, -, code⟩ := sound.settled path pos optional apart s
  obtain ⟨t', counted, tracks'⟩ := tracks.countReference f.unit.source
  rw [run, outcome_bind_ok counted]
  refine ⟨w, suffix_rfl, ⟨linked, tracks'⟩, .included ⟨f, mem, code, rfl⟩, fun j inside => ?_⟩
  rw [mem_singleton.mp inside]
  exact .inr ⟨f, mem, rfl⟩

theorem Compile.outcome_call_new (new : t.find? site.file = none) :
    (call o path site site.file src).outcome t
      = (parsePartial o site.file src >>= enroll o site).outcome t := by
  have read : Compile.outcome (get : Compile Session) t = (.ok t, t) := rfl
  rw [call, outcome_bind_ok read, new]
  rfl

theorem Compile.outcome_call_known {e : RegistryEntry} (met : t.find? name = some e)
    (code : e.code = some u) :
    (call o path site name src).outcome t = Compile.outcome (do
      countReference name
      pure (reference u e.unit)) t := by
  have read : Compile.outcome (get : Compile Session) t = (.ok t, t) := rfl
  obtain ⟨partialName, unit, references, _⟩ := e
  cases code
  rw [call, outcome_bind_ok read, met]

/-- Partials are compiled only if they are reached. -/
def Closed (o : CompileOptions) (lib : Library) (reached : Bytes → Prop) : Prop :=
  ∀ name src tree, reached name → lib.source? name = some src → o.parse src = .ok tree →
    ∀ i ∈ tree.inclusions, reached i.name

/-- Matching code without assignments matches where they are allowed. -/
theorem Lowers.of_false {K : Correspondence} {sets : Prop} {is : List Inclusion} {w : K.World}
    {c d : Code} (h : K.Lowers False is w c d) : K.Lowers sets is w c d :=
  ⟨h.1.mono False.elim fun _ _ => id, h.2⟩

/-- **Includes side by side**: in place on one side, and a call of a unit on
the other. -/
theorem Compile.expand_related (modules : o.moduleMode = true) (closed : Closed o lib reached)
    {compiling : List (Bytes × Bytes)} {path : IncludePath}
    (on : path.partials = compiling.map Prod.fst) (i : Inclusion) (hr : reached i.name)
    (w : List Finished) :
    (linking o lib reached compiling).Related w
      ((linking o lib reached compiling).Lowers False [i])
      (expand o.inPlace lib path i) (expand o lib path i) := by
  cases found : lib.source? i.name with
  | none =>
    rw [expand_missing found, expand_missing found]
    cases optional : i.optional with
    | false => exact Correspondence.Related.throw _
    | true =>
      refine Correspondence.Related.quiet_left (Quiet.debug _ _) fun _ _ => ?_
      refine Correspondence.Related.quiet_right (Quiet.debug _ _) fun _ _ => ?_
      refine Correspondence.Related.pure ⟨.literal .null rfl, fun j mem => ?_⟩
      rw [mem_singleton.mp mem]
      exact .inl ⟨optional, found⟩
  | some src =>
    by_cases cycle : i.name ∈ path.partials
    · rw [expand_cycle found cycle, expand_cycle found cycle]
      exact Correspondence.Related.throw _
    · rintro s t ⟨linked, tracks⟩
      rw [expand_fresh (o := o) found cycle, if_pos modules]
      cases met : t.find? i.name with
      | none =>
        rw [outcome_call_new met]
        cases parsed : o.parse src with
        | error e =>
          have fails : parsePartial o i.name src = throw (.inPartial i.name (.malformed e)) := by
            rw [parsePartial, parsed]
          have fails' : parsePartial o.inPlace i.name src
              = throw (.inPartial i.name (.malformed e)) := fails
          rw [expand_fresh found cycle, if_neg (by simp [CompileOptions.inPlace]), inline, fails,
            fails']
          rfl
        | ok tree =>
          rw [expand_inPlace found cycle parsed, parsePartial, parsed]
          refine ends_new on hr found parsed linked tracks met fun id j inside v => ?_
          have room := IncludePath.room_push_lt found cycle
          have entered : (path.push i.name).partials = (compiling ++ [(i.name, id)]).map Prod.fst := by
            simp [IncludePath.push, on]
          exact (expand_related modules closed entered j
            (closed i.name src tree hr found parsed j inside) v).imp fun _ _ _ _ => Lowers.of_false
      | some e =>
        obtain ⟨f, mem, source, code, named⟩ := tracks.finished_of_find? met (on ▸ cycle)
        rw [outcome_call_known met code, named]
        exact ends_known on linked tracks mem source
termination_by path.room lib

end

end TemplateCompiler
