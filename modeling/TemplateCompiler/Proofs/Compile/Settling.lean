import TemplateCompiler.Compile.Basic
import TemplateCompiler.Proofs.Compile.Drafting
import TemplateCompiler.Proofs.Script.Names

/-!
# Finished partials

While a template is compiled, partials are finished one after the other:
`Linked` lists them, the latest first, with what is known about each. The
point is that a partial that is finished never has to be looked at again:
wherever it is included later, its code in place comes out the same
(`Settled`). This is `settle`: the includes of the partial are finished
themselves, so they give the same code in both places, and the partial does
too by `Node.lower_related`.
-/

open List

namespace TemplateCompiler

/-- The same options, with partials compiled in place. -/
def CompileOptions.inPlace (o : CompileOptions) : CompileOptions := { o with moduleMode := false }

namespace Compile

/-! ## Includes, case by case -/

section

variable {o : CompileOptions} {lib : Library} {path : IncludePath} {i : Inclusion} {src : Bytes}

theorem expand_missing (missing : lib.source? i.name = none) :
    expand o lib path i =
      if i.optional then do
        debug "ignoring missing partial" [("partial", i.name), ("from", path.file)]
        pure Code.null
      else throw (.missingPartial i.name path.file i.pos) := by
  rw [expand]
  split <;> simp_all

theorem expand_cycle (found : lib.source? i.name = some src) (cycle : i.name ∈ path.partials) :
    expand o lib path i = throw (.includeCycle (path.cycle i.name)) := by
  rw [expand]
  split <;> simp_all

theorem expand_fresh (found : lib.source? i.name = some src) (fresh : i.name ∉ path.partials) :
    expand o lib path i =
      if o.moduleMode then call o path ⟨i.name, expand o lib (path.push i.name)⟩ i.name src
      else inline o ⟨i.name, expand o lib (path.push i.name)⟩ i.name src := by
  rw [expand]
  split <;> simp_all

end

/-- Leaving a partial touches nothing but the error. -/
theorem outcome_inside {α : Type} (name : Bytes) (m : Compile α) (s : Session) :
    (inside name m).outcome s
      = ((m.outcome s).1.mapError (CompileError.leaving name), (m.outcome s).2) := by
  show (ExceptT.adapt _ m).run.run s = _
  rfl

end Compile

/-- Related steps inside a partial are related. -/
theorem Correspondence.Related.inside {K : Correspondence} {w : K.World} {α β : Type}
    {Q : K.World → α → β → Prop} {m : Compile α} {m' : Compile β} (name : Bytes)
    (h : K.Related w Q m m') : K.Related w Q (Compile.inside name m) (Compile.inside name m') := by
  intro s t agree
  have ends := h s t agree
  rw [Compile.outcome_inside, Compile.outcome_inside]
  revert ends
  generalize m.outcome s = x
  generalize m'.outcome t = y
  obtain ⟨_ | a, s'⟩ := x <;> obtain ⟨_ | b, t'⟩ := y <;> intro ends
  · exact congrArg (CompileError.leaving name) ends
  · exact ends
  · exact ends
  · exact ends

/-! ## Finished partials -/

/-- A partial that has been compiled. -/
structure Finished where
  tree : Node
  unit : CodeUnit
  /-- Its code where it stands in place of an include, without locations. -/
  inPlace : Code

namespace Finished

/-- A call of the unit. -/
def call (f : Finished) : Code := (Compile.reference f.unit f.unit.name).erase

/-- **The pieces of a call**: the name of the unit, and names that are passed
in an object. -/
theorem mem_call (f : Finished) : ∀ e ∈ f.call.preorder, e = f.call
    ∨ (∃ id : Identifier, e = .identifier id ∧ (id.builtin = true → id.name = f.unit.name))
    ∨ ∃ props, e = .object none props ∧ ∀ p ∈ props, p.2.isExpression = true := by
  have passed : ∀ p ∈ Code.eraseProps (f.unit.params.flatMap Compile.passed),
      ∃ name, p.2 = Code.ident name := by
    rw [Code.eraseProps_eq_map]
    refine forall_mem_map.2 (forall_mem_flatMap.2 fun param _ => ?_)
    cases param with
    | destructure d => exact forall_mem_map.2 fun b _ => ⟨b.2.name, Code.erase_ident _⟩
    | _ => exact forall_mem_nil _
  refine Code.forall_mem_preorder (.inl rfl) (forall_mem_cons.2 ⟨?_, forall_mem_cons.2
    ⟨Code.forall_mem_preorder (.inr (.inr ⟨_, rfl, fun p mem => ?_⟩)) ?_,
      forall_mem_singleton.2 ?_⟩⟩)
  · exact forall_mem_singleton.2 (.inr (.inl ⟨_, rfl, fun _ => rfl⟩))
  · obtain ⟨name, same⟩ := passed p mem
    rw [same]
    rfl
  · refine forall_mem_map.2 fun p mem => ?_
    obtain ⟨name, same⟩ := passed p mem
    rw [same]
    exact forall_mem_singleton.2 (.inr (.inl ⟨_, rfl, by rintro ⟨⟩⟩))
  · exact forall_mem_singleton.2 (.inr (.inl ⟨_, rfl, by rintro ⟨⟩⟩))

/-- An import of the unit. -/
def ref (f : Finished) : ImportRef := ⟨none, f.unit.name, f.unit.source⟩

end Finished

/-- The code of a finished partial in place, and a call of its unit. -/
def Calls (w : List Finished) (c d : Code) : Prop := ∃ f ∈ w, c = f.inPlace ∧ d = f.call

/-- An include of a finished partial, or of one that may be missing and is. -/
def Met (lib : Library) (w : List Finished) (i : Inclusion) : Prop :=
  (i.optional = true ∧ lib.source? i.name = none) ∨ ∃ f ∈ w, f.unit.source = i.name

/-- None of these partials is on the path. -/
def Avoids (path : IncludePath) (w : List Finished) : Prop :=
  ∀ f ∈ w, f.unit.source ∉ path.partials

/-- **A finished partial is settled**: included in any place where none of the
partials that were finished with it is being compiled, it gives the same
code. -/
def Settled (o : CompileOptions) (lib : Library) (w : List Finished) (f : Finished) : Prop :=
  ∀ path pos optional, Avoids path (f :: w) →
    (Compile.expand o.inPlace lib path ⟨pos, f.unit.source, optional⟩).Quiet
      fun c => c.erase = f.inPlace

/-- The finished partials that a unit calls. -/
def CodeUnit.called (w : List Finished) (u : CodeUnit) : List ImportRef :=
  (Code.namesAll u.statements ++ u.body.names).filterMap fun id =>
    if id.builtin then (w.find? (·.unit.name == id.name)).map Finished.ref else none

/-- **What a unit is made of**: code that matches the statements and the body
of `d`, and what closing adds to it. -/
structure CodeUnit.Made (o : CompileOptions) (sets : Prop) (w : List Finished)
    (d : List Code × Code) (u : CodeUnit) : Prop where
  statements : List.Forall₂ (Lowered sets (Calls w)) d.1 (Code.eraseAll u.statements)
  body : Lowered sets (Calls w) d.2 u.body.erase
  scopes : u.Scoped o
  imports : u.imports.map ImportRef.erase = (u.called w).foldl ImportRef.addTo []

/-- A name for a unit: a name of the script, but no keyword, no global and no
helper of it, and not the root's name. -/
def CompileOptions.Fit (o : CompileOptions) (name : Bytes) : Prop :=
  Script.isBuiltin name = false ∧ name ∉ o.root :: Script.helpers
    ∧ Script.isKeyword name = false ∧ UnitName.Legal name

/-- What is known about a partial that was finished after those of `w`. Only
partials in `reached` are compiled. -/
structure Finished.Sound (o : CompileOptions) (lib : Library) (reached : Bytes → Prop)
    (w : List Finished) (f : Finished) : Prop where
  reached : reached f.unit.source
  template : ∃ text, lib.source? f.unit.source = some text ∧ o.parse text = .ok f.tree
  done : ∀ i ∈ f.tree.inclusions, Met lib w i
  distinct : ∀ g ∈ w, g.unit.name ≠ f.unit.name ∧ g.unit.source ≠ f.unit.source
  fit : o.Fit f.unit.name
  made : ∃ d, f.unit.Made o (¬ f.tree.SetFree) w d ∧ (f.tree.SetFree → d = ([], f.inPlace))
  plain : Lowered True (fun _ _ => False) f.inPlace f.inPlace
  settled : Settled o lib w f

/-- **Partials that were finished one after the other**, the latest first. -/
inductive Linked (o : CompileOptions) (lib : Library) (reached : Bytes → Prop) :
    List Finished → Prop where
  | nil : Linked o lib reached []
  | cons {f : Finished} {w : List Finished} (earlier : Linked o lib reached w)
    (sound : f.Sound o lib reached w) : Linked o lib reached (f :: w)

section

variable {o : CompileOptions} {lib : Library} {reached : Bytes → Prop} {v w : List Finished}

theorem Calls.mono {c d : Code} (later : v <:+ w) (h : Calls v c d) : Calls w c d := by
  obtain ⟨f, mem, left, right⟩ := h
  exact ⟨f, later.mem mem, left, right⟩

theorem Met.mono {i : Inclusion} (later : v <:+ w) (h : Met lib v i) : Met lib w i :=
  h.imp id fun ⟨f, mem, same⟩ => ⟨f, later.mem mem, same⟩

/-- Those that were finished at any time are linked. -/
theorem Linked.of_suffix (h : Linked o lib reached w) (earlier : v <:+ w) :
    Linked o lib reached v := by
  induction h with
  | nil => rw [suffix_nil.mp earlier]; exact .nil
  | cons linked sound ih =>
    rcases suffix_cons_iff.mp earlier with rfl | inside
    · exact linked.cons sound
    · exact ih inside

/-- Every finished partial is known from those before it. -/
theorem Linked.sound_of_mem (h : Linked o lib reached w) {f : Finished} (mem : f ∈ w) :
    ∃ v, f :: v <:+ w ∧ f.Sound o lib reached v := by
  induction h with
  | nil => exact absurd mem not_mem_nil
  | cons _ sound ih =>
    rcases mem_cons.mp mem with rfl | mem
    · exact ⟨_, suffix_rfl, sound⟩
    · obtain ⟨v, later, sound⟩ := ih mem
      exact ⟨v, later.trans (suffix_cons _ _), sound⟩

end

/-! ## Settling -/

/-- A partial in place. -/
theorem Compile.expand_inPlace {o : CompileOptions} {lib : Library} {path : IncludePath}
    {i : Inclusion} {src : Bytes} {tree : Node} (found : lib.source? i.name = some src)
    (fresh : i.name ∉ path.partials) (parsed : o.parse src = .ok tree) :
    expand o.inPlace lib path i
      = inside i.name (tree.lower ⟨i.name, expand o.inPlace lib (path.push i.name)⟩) := by
  have read : parsePartial o.inPlace i.name src = pure tree := by
    rw [parsePartial, show o.inPlace.parse src = .ok tree from parsed]
  rw [expand_fresh found fresh, if_neg (by simp [CompileOptions.inPlace]), inline, read, pure_bind]

/-- Compilations with every partial in place. The second one starts from a
session like `s₀` and leaves its registry alone. -/
def besides (s₀ : Session) : Correspondence where
  World := Unit
  Later _ _ := True
  refl _ := trivial
  trans _ _ := trivial
  Agree _ _ t := s₀.SameUnits t
  agree_of_same agree _ same := agree.trans same
  Calls _ _ _ := False
  calls_mono _ h := h
  Met _ _ := True
  met_mono _ h := h

section

variable {o : CompileOptions} {lib : Library} {reached : Bytes → Prop} {w : List Finished}

/-- An include that was met gives the same code from then on. -/
theorem Met.quiet {i : Inclusion} (met : Met lib w i) (linked : Linked o lib reached w) :
    ∃ c₀, Lowered True (fun _ _ => False) c₀ c₀ ∧ ∀ path, Avoids path w →
      (Compile.expand o.inPlace lib path i).Quiet fun c => c.erase = c₀ := by
  rcases met with ⟨optional, missing⟩ | ⟨f, mem, same⟩
  · refine ⟨Code.null, .literal .null rfl, fun path _ => ?_⟩
    rw [Compile.expand_missing missing, if_pos optional]
    exact (Compile.Quiet.debug _ _).bind fun _ _ => .pure rfl
  · obtain ⟨v, later, sound⟩ := linked.sound_of_mem mem
    refine ⟨f.inPlace, sound.plain, fun path avoids => ?_⟩
    obtain ⟨pos, name, optional⟩ := i
    cases same
    exact sound.settled path pos optional fun g inside => avoids g (later.mem inside)

/-- **A partial whose includes are finished is settled** once it has been
compiled in one place. -/
theorem settle (linked : Linked o lib reached w) {name src : Bytes} {tree : Node}
    (found : lib.source? name = some src) (parsed : o.parse src = .ok tree)
    (done : ∀ i ∈ tree.inclusions, Met lib w i) (new : ∀ f ∈ w, f.unit.source ≠ name)
    {path : IncludePath} (avoids : Avoids path w) {s t : Session} {c : Code}
    (run : (tree.lower ⟨name, Compile.expand o.inPlace lib (path.push name)⟩).outcome s
      = (.ok c, t)) :
    Lowered True (fun _ _ => False) c.erase c.erase ∧
      ∀ path' pos optional, Avoids path' w → name ∉ path'.partials →
        (Compile.expand o.inPlace lib path' ⟨pos, name, optional⟩).Quiet
          fun c' => c'.erase = c.erase := by
  have push : ∀ {path : IncludePath}, Avoids path w → Avoids (path.push name) w := by
    intro path avoids f mem inside
    rcases mem_append.mp inside with old | here
    · exact avoids f mem old
    · exact new f mem (mem_singleton.mp here)
  -- Compiled in another place, the tree gives what it gave in the first one.
  have again : ∀ (path' : IncludePath) (s' : Session), Avoids path' w →
      ∃ d t', (tree.lower ⟨name, Compile.expand o.inPlace lib (path'.push name)⟩).outcome s'
          = (.ok d, t') ∧ s'.SameUnits t' ∧ Lowered True (fun _ _ => False) c.erase d.erase := by
    intro path' s' avoids'
    have expands : (besides s').Expands True ⟨name, Compile.expand o.inPlace lib (path.push name)⟩
        ⟨name, Compile.expand o.inPlace lib (path'.push name)⟩ tree.inclusions := by
      intro i mem u
      obtain ⟨c₀, plain, quiet⟩ := (done i mem).quiet linked
      refine Correspondence.Related.quiet (quiet _ (push avoids)) (quiet _ (push avoids')) ?_
      intro a b left right
      refine ⟨?_, fun _ _ => trivial⟩
      rw [Correspondence.Match, left, right]
      exact plain
    have ends := Node.lower_related tree (.inl trivial) expands () s s' (.refl s')
    rw [run] at ends
    revert ends
    generalize (tree.lower ⟨name, Compile.expand o.inPlace lib (path'.push name)⟩).outcome s' = y
    obtain ⟨_ | d, t'⟩ := y
    · exact False.elim
    · rintro ⟨_, _, same, lowered, _⟩
      exact ⟨d, t', rfl, same, lowered⟩
  refine ⟨?_, fun path' pos optional avoids' fresh s' => ?_⟩
  · obtain ⟨d, -, -, -, lowered⟩ := again path s avoids
    exact lowered.eq ▸ lowered
  · obtain ⟨d, t', run', same, lowered⟩ := again path' s' avoids'
    refine ⟨d, t', ?_, same, lowered.eq.symm⟩
    rw [Compile.expand_inPlace found fresh parsed, Compile.outcome_inside, run']
    rfl

end

end TemplateCompiler
