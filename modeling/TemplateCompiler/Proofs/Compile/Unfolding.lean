import TemplateCompiler.Proofs.Compile.Scopes

/-!
# Units put back in place

`Code.unfold` replaces calls of units by given code, and `CodeUnit.bodies`
gives the bodies of units for that, those they call put in place first. Since
a unit comes after those that it calls, nothing is left to replace in the end.
With this, compiling partials to units is undone: what a root with calls
unfolds to is the root compiled with every partial in place
(`module_unfolds_to_inline`).
-/

open List

namespace TemplateCompiler

variable {reached : Bytes → Prop} {o : CompileOptions} {lib : Library} {w : List Finished}

namespace Code

mutual

/-- **Calls of units replaced** by the code that stands for them. -/
def unfold (bodies : Bytes → Option Code) : Code → Code
  | .call loc f args =>
    match f.callee?.bind bodies with
    | some body => body
    | none => .call loc (f.unfold bodies) (unfoldAll bodies args)
  | .member loc o p computed => .member loc (o.unfold bodies) (p.unfold bodies) computed
  | .unary loc op a => .unary loc op (a.unfold bodies)
  | .binary loc op l r => .binary loc op (l.unfold bodies) (r.unfold bodies)
  | .logical loc op l r => .logical loc op (l.unfold bodies) (r.unfold bodies)
  | .conditional loc t a b =>
    .conditional loc (t.unfold bodies) (a.unfold bodies) (b.unfold bodies)
  | .array loc es => .array loc (unfoldAll bodies es)
  | .object loc props => .object loc (unfoldProps bodies props)
  | .sequence loc es => .sequence loc (unfoldAll bodies es)
  | .interpolation loc tag runs holes => .interpolation loc tag runs (unfoldAll bodies holes)
  | .assign loc t v => .assign loc (t.unfold bodies) (v.unfold bodies)
  | .lambda loc params body block => .lambda loc params (body.unfold bodies) (unfoldAll bodies block)
  | c => c

/-- `unfold` of each piece. -/
def unfoldAll (bodies : Bytes → Option Code) : List Code → List Code
  | [] => []
  | c :: cs => c.unfold bodies :: unfoldAll bodies cs

/-- `unfold` of the values of an object. -/
def unfoldProps (bodies : Bytes → Option Code) : List (Bytes × Code) → List (Bytes × Code)
  | [] => []
  | (key, c) :: props => (key, c.unfold bodies) :: unfoldProps bodies props

end

theorem unfoldAll_eq_map (bodies : Bytes → Option Code) (cs : List Code) :
    unfoldAll bodies cs = cs.map (unfold bodies) := by
  induction cs with
  | nil => rfl
  | cons c cs ih => rw [unfoldAll, ih]; rfl

theorem unfoldProps_eq_map (bodies : Bytes → Option Code) (props : List (Bytes × Code)) :
    unfoldProps bodies props = props.map fun p => (p.1, p.2.unfold bodies) := by
  induction props with
  | nil => rfl
  | cons p props ih => obtain ⟨key, c⟩ := p; rw [unfoldProps, ih]; rfl

variable {bodies : Bytes → Option Code}

/-- A call of anything but a unit stays. -/
theorem unfold_call {f : Code} (other : f.callee? = none) (loc : Option Location)
    (args : List Code) :
    (call loc f args).unfold bodies = .call loc (f.unfold bodies) (args.map (unfold bodies)) := by
  rw [unfold, other, unfoldAll_eq_map]
  rfl

/-- A call of a unit is replaced. -/
theorem unfold_unit {name : Bytes} {body : Code} (found : bodies name = some body)
    (loc place : Option Location) (args : List Code) :
    (call loc (.identifier ⟨place, name, true⟩) args).unfold bodies = body := by
  rw [unfold, callee?]
  simp [found]

theorem map_unfold {cs ds : List Code} (h : List.Forall₂ (fun c d => d.unfold bodies = c) cs ds) :
    ds.map (unfold bodies) = cs := by
  induction h with
  | nil => rfl
  | cons head _ ih => rw [map_cons, head, ih]

/-- What is of one of the forms stays, and its parts are unfolded. -/
theorem unfold_form {c : Code} (form : c.Form) : (c.unfold bodies).shell = c.shell
    ∧ (c.unfold bodies).loc = c.loc ∧ (c.unfold bodies).parts = c.parts.map (unfold bodies) := by
  cases c with
  | call place f args =>
    rw [unfold_call form]
    simp [shell, loc, parts, Function.comp_def]
  | lambda place params body block =>
    have same : params.map (unfold bodies) = params := by
      obtain rfl | ⟨param, binds, rfl⟩ := form
      · rfl
      · cases binds <;> rfl
    simp [unfold, shell, loc, parts, unfoldAll_eq_map, same, Function.comp_def]
  | destructure d => simp [unfold, parts, Function.comp_def]
  | function => exact form.elim
  | _ => simp [unfold, shell, loc, parts, unfoldAll_eq_map, unfoldProps_eq_map, Function.comp_def]

end Code

namespace CodeUnit

/-- The bodies of units, each with the units that it calls put in place. -/
def bodies (units : List CodeUnit) : List (Bytes × Code) :=
  units.foldl (fun known u => (u.name, u.body.erase.unfold (known.lookup ·)) :: known) []

end CodeUnit

/-! ## Unfolding what was compiled -/

section

variable {bodies : Bytes → Option Code}

namespace Lowered

variable {sets : Prop} {calls : Code → Code → Prop} {c d : Code}

/-- **Putting units back in place** gives the code that was in place. -/
theorem unfold_eq (h : Lowered sets calls c d)
    (hc : ∀ c d, calls c d → d.callee? = none ∧ d.isExpression = true ∧ d.unfold bodies = c) :
    d.unfold bodies = c := by
  refine (h.rec_parts hc fun c d shells locs form _ below => ?_).2
  obtain ⟨shell, loc, parts⟩ := @Code.unfold_form bodies _ form
  exact Code.ext_parts (shell.trans shells.symm) (loc.trans locs.symm)
    (parts.trans (Code.map_unfold below))

end Lowered

end

/-! ## Finished partials -/

section

variable {o : CompileOptions} {lib : Library} {reached : Bytes → Prop} {w : List Finished}

/-- Calls unfold to what their units are found to be. -/
theorem Calls.unfold {bodies : List (Bytes × Code)}
    (found : ∀ f ∈ w, bodies.lookup f.unit.name = some f.inPlace) (c d : Code) (h : Calls w c d) :
    d.callee? = none ∧ d.isExpression = true ∧ d.unfold (bodies.lookup ·) = c := by
  obtain ⟨f, mem, rfl, rfl⟩ := h
  rw [Finished.call, Compile.reference_eq, Code.erase]
  exact ⟨rfl, rfl, Code.unfold_unit (found f mem) _ _ _⟩

/-- **The bodies of finished units**, unfolded, are the partials in place. -/
theorem Linked.lookup_bodies (linked : Linked o lib reached w) (free : ∀ f ∈ w, f.tree.SetFree) :
    ∀ f ∈ w, (CodeUnit.bodies (w.map Finished.unit).reverse).lookup f.unit.name
      = some f.inPlace := by
  induction linked with
  | nil => exact fun f mem => absurd mem not_mem_nil
  | @cons g w earlier sound ih =>
    have found := ih fun f mem => free f (mem_cons_of_mem _ mem)
    have step : CodeUnit.bodies ((g :: w).map Finished.unit).reverse
        = (g.unit.name, g.unit.body.erase.unfold
            ((CodeUnit.bodies (w.map Finished.unit).reverse).lookup ·))
          :: CodeUnit.bodies (w.map Finished.unit).reverse := by
      rw [map_cons, reverse_cons, CodeUnit.bodies, foldl_append]
      rfl
    obtain ⟨d, made, bare⟩ := sound.made
    cases bare (free g mem_cons_self)
    have body := made.body.unfold_eq (Calls.unfold found)
    intro f mem
    rw [step]
    rcases mem_cons.mp mem with rfl | mem
    · rw [lookup_cons, beq_self_eq_true, body]
    · have other : (f.unit.name == g.unit.name) = false := by
        simpa using (sound.distinct f mem).1
      rw [lookup_cons, other, found f mem]

end

/-! ## The two modes -/

/-- **The partials that a template reaches** through includes. -/
inductive Reachable (o : CompileOptions) (lib : Library) (src : Bytes) : Bytes → Prop where
  | root {tree : Node} {i : Inclusion} (parsed : o.parse src = .ok tree)
    (included : i ∈ tree.inclusions) : Reachable o lib src i.name
  | next {name text : Bytes} {tree : Node} {i : Inclusion} (before : Reachable o lib src name)
    (found : lib.source? name = some text) (parsed : o.parse text = .ok tree)
    (included : i ∈ tree.inclusions) : Reachable o lib src i.name

/-- **Both roots have one scope**, if partials assign nothing. -/
theorem ProgramsMatch.scope_eq {r r' : CodeUnit} {p q : Program}
    (h : ProgramsMatch o lib reached w r r' p q) (free : ∀ f ∈ w, f.tree.SetFree) :
    Scope.ofUnit o.reserved r' = Scope.ofUnit o.reserved r := by
  have calls := h.linked.calls_agree free
  have statements : List.Forall₂ (Code.Agree (Scope.reservedNames o.reserved))
      (Code.eraseAll r.statements) (Code.eraseAll r'.statements) :=
    h.made.statements.imp fun _ _ lowered => lowered.agree calls
  have all := (Code.occurrencesAll_agree statements []).append (h.made.body.agree calls [])
  rw [Code.occurrencesAll_erase, Code.occurrencesAll_erase, Code.occurrences_erase,
    Code.occurrences_erase] at all
  exact all.scope_eq.symm

/-- **Module mode refines inline mode.** If no partial that is reached assigns
anything and a template compiles with its partials in place, then it compiles
with units for them too. Putting the units back in place gives the same code,
and both roots have the same inputs and the same locals. -/
theorem module_unfolds_to_inline {o : CompileOptions} {lib : Library} {src : Bytes} {p : Program}
    (free : ∀ name text tree, Reachable o lib src name → lib.source? name = some text →
      o.parse text = .ok tree → tree.SetFree)
    (inline : (compile { o with moduleMode := false } lib src).1 = .ok p) :
    ∃ q r r', (compile { o with moduleMode := true } lib src).1 = .ok q
      ∧ p.root = some r ∧ q.root = some r'
      ∧ (r'.statements.map fun c => c.erase.unfold ((CodeUnit.bodies q.units).lookup ·))
        = r.statements.map Code.erase
      ∧ r'.body.erase.unfold ((CodeUnit.bodies q.units).lookup ·) = r.body.erase
      ∧ r'.params.map Code.erase = r.params.map Code.erase ∧ r'.locals = r.locals := by
  have related : ModesMatch { o with moduleMode := true } lib (Reachable o lib src)
      (compile { o with moduleMode := false } lib src).1
      (compile { o with moduleMode := true } lib src).1 :=
    compile_related rfl
      (fun _ _ _ before found parsed _ included => .next before found parsed included)
      fun _ parsed _ included => .root parsed included
  rw [inline] at related
  cases module : (compile { o with moduleMode := true } lib src).1 with
  | error e => rw [module] at related; exact related.elim
  | ok q =>
    rw [module] at related
    obtain ⟨w, r, r', programs⟩ := related
    have free : ∀ f ∈ w, f.tree.SetFree := by
      intro f mem
      obtain ⟨u, -, sound⟩ := programs.linked.sound_of_mem mem
      obtain ⟨text, found, parsed⟩ := sound.template
      exact free _ _ _ sound.reached found parsed
    have calls := Calls.unfold (programs.linked.lookup_bodies free)
    have scope := programs.scope_eq free
    refine ⟨q, r, r', rfl, programs.root, programs.root', ?_, ?_, ?_, ?_⟩
    · have statements := Code.map_unfold
        (programs.made.statements.imp fun _ _ lowered => lowered.unfold_eq calls)
      rw [Code.eraseAll_eq_map, Code.eraseAll_eq_map, List.map_map] at statements
      rw [programs.units]
      exact statements
    · rw [programs.units]
      exact programs.made.body.unfold_eq calls
    · rw [← Code.eraseAll_eq_map, ← Code.eraseAll_eq_map, programs.made.scopes.params,
        programs.scopes.params]
      exact congrArg (fun s => [Code.destructure (CodeUnit.inputs s.free), _]) scope
    · rw [programs.made.scopes.locals, programs.scopes.locals]
      exact congrArg Scope.declared scope

section

/-- A library with one partial, which reads what a loop around it binds. -/
private def rows : Library := ⟨[("row", "\x7b\x7b a \x7d\x7d\x7b\x7b c \x7d\x7d")]⟩

/-- A template that includes the partial in a loop. -/
private def table : Bytes :=
  "\x7b% for a in b %\x7d\x7b% include \"row\" %\x7d\x7b% endfor %\x7d"

private theorem table_compiles :
    (compile { moduleMode := false } rows table).1.toOption.isSome = true := by cbv

private theorem rows_setFree : (rows.partials.all fun entry =>
    match Template.parse entry.2 with
    | .ok tree => decide tree.SetFree
    | .error _ => false) = true := by cbv

/-- The two modes on a partial in a loop. -/
theorem table_unfolds_to_inline :
    ∃ p, (compile { moduleMode := false } rows table).1 = .ok p
      ∧ ∃ q r r', (compile { moduleMode := true } rows table).1 = .ok q
      ∧ p.root = some r ∧ q.root = some r'
      ∧ (r'.statements.map fun c => c.erase.unfold ((CodeUnit.bodies q.units).lookup ·))
        = r.statements.map Code.erase
      ∧ r'.body.erase.unfold ((CodeUnit.bodies q.units).lookup ·) = r.body.erase
      ∧ r'.params.map Code.erase = r.params.map Code.erase ∧ r'.locals = r.locals := by
  have ends := table_compiles
  cases inline : (compile { moduleMode := false } rows table).1 with
  | error e => rw [inline] at ends; cases ends
  | ok p =>
    refine ⟨p, rfl, module_unfolds_to_inline (o := {}) ?_ inline⟩
    intro name text tree _ found parsed
    obtain ⟨before, after, partials, -⟩ := List.lookup_eq_some_iff.mp found
    have free := List.all_eq_true.mp rows_setFree (name, text) (by simp [partials])
    rw [show Template.parse text = .ok tree from parsed] at free
    exact of_decide_eq_true free

end

end TemplateCompiler
