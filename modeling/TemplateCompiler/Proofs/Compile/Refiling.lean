import TemplateCompiler.Proofs.Code.Refiling
import TemplateCompiler.Proofs.Compile.Denotation
import TemplateCompiler.Proofs.Compile.Settling

/-!
# Compilations under other file names

Two compilations that get the same template, the same partials and options of
the same effect run in step, even if they call their files differently: they
fail together, or they make the same code up to the names of files
(`compile_alike`). The logs of the two may differ. The relation between their
steps is `Compile.Alike`, where a *view* tells what of two results has to be
the same.
-/

open List

namespace TemplateCompiler

/-- An entry with files renamed. -/
def RegistryEntry.refile (ρ : Bytes → Bytes) (e : RegistryEntry) : RegistryEntry :=
  { e with code := e.code.map (CodeUnit.refile ρ) }

/-- **A session with files renamed**, and without its log. -/
def Session.refile (ρ : Bytes → Bytes) (s : Session) : Session where
  registry := s.registry.map (RegistryEntry.refile ρ)
  taken := s.taken
  units := s.units.map (CodeUnit.refile ρ)
  located := s.located

namespace Compile

variable {α β γ δ : Type} {ρ : Bytes → Bytes}

/-- Two ends of steps: failures, or results with the same view. -/
def SameEnd (ρ : Bytes → Bytes) (view : α → γ) :
    Except CompileError α × Session → Except CompileError α × Session → Prop
  | (.ok a, s), (.ok b, t) => view a = view b ∧ s.refile ρ = t.refile ρ
  | (.error _, _), (.error _, _) => True
  | _, _ => False

/-- **Steps that differ in the names of files and in the log alone.** -/
def Alike (ρ : Bytes → Bytes) (view : α → γ) (x y : Compile α) : Prop :=
  ∀ s t : Session, s.refile ρ = t.refile ρ → SameEnd ρ view (x.outcome s) (y.outcome t)

namespace Alike

variable {view : α → γ} {view' : β → δ} {x y : Compile α} {f g : α → Compile β}

theorem pure {a b : α} (same : view a = view b) : Alike ρ view (Pure.pure a) (Pure.pure b) :=
  fun _ _ sessions => ⟨same, sessions⟩

theorem throw (e e' : CompileError) :
    Alike ρ view (MonadExcept.throw e) (MonadExcept.throw e') :=
  fun _ _ _ => trivial

theorem throw_bind (e e' : CompileError) {α' : Type} {f g : α' → Compile α} :
    Alike ρ view ((MonadExcept.throw e : Compile α') >>= f)
      ((MonadExcept.throw e' : Compile α') >>= g) :=
  fun _ _ _ => trivial

/-- **Steps in sequence.** -/
theorem bind (first : Alike ρ view x y)
    (next : ∀ a b, view a = view b → Alike ρ view' (f a) (g b)) :
    Alike ρ view' (x >>= f) (y >>= g) := by
  intro s t sessions
  have step := first s t sessions
  rcases left : x.outcome s with ⟨e | a, s'⟩ <;> rcases right : y.outcome t with ⟨e' | b, t'⟩ <;>
    rw [left, right] at step
  · rw [outcome_bind_error left, outcome_bind_error right]
    exact trivial
  · exact step.elim
  · exact step.elim
  · rw [outcome_bind_ok left, outcome_bind_ok right]
    exact next a b step.1 s' t' step.2

/-- A step that only reads what was given. -/
theorem lift (r : Except CompileError α) :
    Alike ρ (fun a : α => a) (liftM r : Compile α) (liftM r) := by
  cases r with
  | error e => exact fun _ _ _ => trivial
  | ok a => exact pure rfl

theorem debug (message message' : Bytes) (fields fields' : List (Bytes × Bytes)) :
    Alike ρ (id : Unit → Unit) (Compile.debug message fields) (Compile.debug message' fields') :=
  fun _ _ sessions => ⟨rfl, sessions⟩

theorem locating {n m : StateM Nat α}
    (h : ∀ k, view (n k).1 = view (m k).1 ∧ (n k).2 = (m k).2) :
    Alike ρ view (Compile.locating n) (Compile.locating m) := by
  intro s t sessions
  obtain ⟨same, next⟩ := h s.located
  have counts : (s.refile ρ).located = (t.refile ρ).located := congrArg Session.located sessions
  change s.located = t.located at counts
  show view (n s.located).1 = view (m t.located).1
    ∧ { s.refile ρ with located := (n s.located).2 } = { t.refile ρ with located := (m t.located).2 }
  rw [← counts, ← next, sessions]
  exact ⟨same, rfl⟩

theorem inside (name name' : Bytes) (h : Alike ρ view x y) :
    Alike ρ view (Compile.inside name x) (Compile.inside name' y) := by
  intro s t sessions
  have step := h s t sessions
  rw [outcome_inside, outcome_inside]
  rcases left : x.outcome s with ⟨e | a, s'⟩ <;> rcases right : y.outcome t with ⟨e' | b, t'⟩ <;>
    rw [left, right] at step
  · exact trivial
  · exact step.elim
  · exact step.elim
  · exact step

/-- Steps for the members of a list. -/
theorem mapM {xs : List δ} {step step' : δ → Compile α}
    (each : ∀ d ∈ xs, Alike ρ view (step d) (step' d)) :
    Alike ρ (List.map view) (xs.mapM step) (xs.mapM step') := by
  induction xs with
  | nil => exact pure rfl
  | cons d xs ih =>
    obtain ⟨head, tail⟩ := forall_mem_cons.1 each
    rw [mapM_cons, mapM_cons]
    refine head.bind fun a b same => (ih tail).bind fun as bs same' => pure ?_
    rw [map_cons, map_cons, same, same']

end Alike

end Compile

/-! ## Lowering -/

/-- **Sites under names that ρ takes for one**, with includes that are alike. -/
structure Site.Alike (ρ : Bytes → Bytes) (site site' : Site) : Prop where
  file : ρ site.file = ρ site'.file
  expand : ∀ i, Compile.Alike ρ (Code.refile ρ) (site.expand i) (site'.expand i)

open Compile (Alike)

section

variable {ρ : Bytes → Bytes} {site site' : Site}

theorem Site.Alike.locate (sites : site.Alike ρ site') {pos : Position} {c c' : Code}
    (same : c.refile ρ = c'.refile ρ) :
    Compile.Alike ρ (Code.refile ρ) (site.locate pos c)
      (site'.locate pos c') :=
  .locating fun n => Code.stamp_alike sites.file pos same n

/-- Several pieces under one view. -/
theorem Code.relocateAll_alike {cs cs' : List Code}
    (same : cs.map (Code.refile ρ) = cs'.map (Code.refile ρ)) :
    Code.relocateAll (Location.refiled ρ) cs = Code.relocateAll (Location.refiled ρ) cs' := by
  rw [Code.relocateAll_eq_map, Code.relocateAll_eq_map, same]

theorem BodyPart.place_relocate (g : Option Location → Option Location) (pos : Position)
    (parts : List BodyPart) : place pos (parts.map (relocate g)) = place pos parts := by
  match parts with
  | [] | [.text ..] | [.hole _] => rfl
  | p :: _ :: _ => cases p <;> rfl

/-- **Assembling a body.** -/
theorem BodyPart.assemble_alike (sites : site.Alike ρ site') {pos : Position}
    {parts parts' : List BodyPart}
    (same : parts.map (relocate (Location.refiled ρ)) = parts'.map (relocate (Location.refiled ρ))) :
    Alike ρ (Code.refile ρ) (assemble site pos parts)
      (assemble site' pos parts') := by
  have seen := relocate_code same
  have alone {c : Code} {ps : List BodyPart}
      (same : ps.map (relocate (Location.refiled ρ)) = [.hole c]) : ∃ d, ps = [.hole d] := by
    obtain ⟨q, rfl, alike⟩ := map_eq_singleton_iff.1 same
    cases q with
    | text => cases alike
    | hole d => exact ⟨d, rfl⟩
  rcases assemble_eq pos parts with ⟨c, rfl⟩ | left
  · obtain ⟨d, rfl⟩ := alone same.symm
    exact .pure seen
  · rcases assemble_eq pos parts' with ⟨d, rfl⟩ | right
    · obtain ⟨c, rfl⟩ := alone same
      exact .pure seen
    · rw [left, right, ← place_relocate (Location.refiled ρ) pos parts, same, place_relocate]
      exact sites.locate seen

end

namespace Node

variable {ρ : Bytes → Bytes} {site site' : Site}

/-- Lowering a node is alike at two sites. -/
abbrev LowersAlike (ρ : Bytes → Bytes) (site site' : Site) (n : Node) : Prop :=
  Alike ρ (Code.refile ρ) (n.lower site) (n.lower site')

/-! ### Names and loops -/

theorem loopVariable_alike (sites : site.Alike ρ site') {d d' : Destructure}
    (same : d.relocate (Location.refiled ρ) = d'.relocate (Location.refiled ρ)) (n : Node) :
    Alike ρ (Destructure.relocate (Location.refiled ρ)) (loopVariable site d n)
      (loopVariable site' d' n) := by
  cases n with
  | symbol pos name =>
    have names : d.names.map Identifier.name = d'.names.map Identifier.name := by
      rw [← names_relocate (g := Location.refiled ρ), same, names_relocate]
    refine (Alike.lift _).bind fun id id' eq => ?_
    obtain rfl : id = id' := eq
    have taken : d.names.any (·.name == id.name) = d'.names.any (·.name == id.name) := by
      have := congrArg (List.any · (· == id.name)) names
      simpa [any_map, Function.comp_def] using this
    rw [taken]
    split
    · exact .throw_bind _ _
    · have stamped : Alike ρ (Identifier.relocate (Location.refiled ρ))
          (Compile.locating (id.stamp site.file pos)) (Compile.locating (id.stamp site'.file pos)) :=
        .locating fun n => Code.identifier_stamp_alike sites.file pos id n
      refine stamped.bind fun id id' located => .pure ?_
      rw [relocate_add, relocate_add, same, located]
  | _ => exact .throw _ _

/-- **The parameter of a loop.** -/
theorem loopParam_alike (sites : site.Alike ρ site') (n : Node) :
    Alike ρ (Code.refile ρ) (loopParam site n) (loopParam site' n) := by
  cases n with
  | symbol pos name =>
    refine (Alike.lift _).bind fun id id' eq => ?_
    obtain rfl : id = id' := eq
    exact sites.locate rfl
  | array pos names =>
    have all (names : List Node) (d d' : Destructure)
        (same : d.relocate (Location.refiled ρ) = d'.relocate (Location.refiled ρ)) :
        Alike ρ (Destructure.relocate (Location.refiled ρ)) (names.foldlM (loopVariable site) d)
          (names.foldlM (loopVariable site') d') := by
      induction names generalizing d d' with
      | nil => exact .pure same
      | cons n names ih =>
        rw [foldlM_cons, foldlM_cons]
        exact (loopVariable_alike sites same n).bind ih
    refine (all names { names := [] } _ rfl).bind fun d d' same => .pure ?_
    exact congrArg Code.destructure same
  | _ => exact .throw _ _

/-! ### Assignments -/

/-- **The assignments of a statement.** -/
theorem assignments_alike (sites : site.Alike ρ site') {pos : Position} {value value' : Compile Code}
    {ns : List Node}
    (given : Alike ρ (Code.refile ρ) value value')
    (each : ∀ n ∈ ns, Alike ρ (Code.refile ρ) (target site n) (target site' n)) :
    Alike ρ (List.map (Code.refile ρ))
      (assignments site pos value (lowerTargets site ns))
      (assignments site' pos value' (lowerTargets site' ns)) := by
  rw [lowerTargets_eq_map, lowerTargets_eq_map, assignments, assignments]
  refine given.bind fun v v' same => ?_
  cases ns with
  | nil => exact .pure rfl
  | cons first others =>
    obtain ⟨here, rest⟩ := forall_mem_cons.1 each
    have located {t t' w w' : Code}
        (targets : t.refile ρ = t'.refile ρ) (values : w.refile ρ = w'.refile ρ) :
        Alike ρ (Code.refile ρ) (site.locate pos (.assign none t w))
          (site'.locate pos (.assign none t' w')) :=
      sites.locate (congrArg₂ (Code.assign none) targets values)
    refine here.bind fun t t' targets => (located targets same).bind fun c c' assigned => ?_
    have copied : ∀ n ∈ others, Alike ρ (Code.refile ρ)
        (do let t ← target site n; let copy ← target site first; site.locate pos (.assign none t copy))
        (do let t ← target site' n; let copy ← target site' first; site'.locate pos (.assign none t copy)) :=
      fun n mem => (rest n mem).bind fun t t' targets =>
        here.bind fun w w' values => located targets values
    rw [mapM_map, mapM_map]
    refine (Alike.mapM copied).bind fun cs cs' copies => .pure ?_
    rw [map_cons, map_cons, assigned, copies]

theorem assignedValue_alike {n value body : Node}
    (ofValue : value.isMissing = false → LowersAlike ρ site site' value)
    (ofBody : value.isMissing = true → LowersAlike ρ site site' body) :
    Alike ρ (Code.refile ρ)
      (assignedValue n value body (value.lower site) (body.lower site))
      (assignedValue n value body (value.lower site') (body.lower site')) := by
  cases value with
  | missing =>
    cases body with
    | missing => exact .throw _ _
    | _ => exact ofBody rfl
  | _ => exact ofValue rfl

/-! ### Trees -/

theorem step_alike (sites : site.Alike ρ site') {s : Step}
    (part : ∀ n, s = .part n → LowersAlike ρ site site' n) :
    Alike ρ (Code.refile ρ) (s.run site) (s.run site') := by
  cases s with
  | part n => exact part n rfl
  | param n => exact loopParam_alike sites n
  | known pos c => exact sites.locate rfl
  | expand i => exact sites.expand i
  | refuse e => exact .throw e e

theorem parts_alike {ns : List Node} (each : ∀ n ∈ ns, LowersAlike ρ site site' n) :
    Alike ρ (List.map (BodyPart.relocate (Location.refiled ρ))) (lowerParts site ns)
      (lowerParts site' ns) := by
  rw [lowerParts_eq, lowerParts_eq]
  refine Alike.mapM fun n mem => ?_
  cases n with
  | text pos content => exact .pure rfl
  | _ => exact (each _ mem).bind fun c d same => .pure (congrArg BodyPart.hole same)

theorem target_alike {n : Node} (lowered : LowersAlike ρ site site' n) :
    Alike ρ (Code.refile ρ) (target site n) (target site' n) := by
  unfold target
  split
  · exact lowered
  · exact .throw _ _

/-- **Lowering a tree** under other file names. -/
theorem lower_alike (sites : site.Alike ρ site') (n : Node) : LowersAlike ρ site site' n := by
  refine lower_induction (E := fun _ => True) (P := LowersAlike ρ site site') ?body ?assign
    ?plain n fun _ _ => trivial
  case body =>
    intro n ns body ih
    rw [LowersAlike, lower_eq_body site body, lower_eq_body site' body]
    refine (parts_alike ih).bind fun parts parts' same => ?_
    exact (BodyPart.assemble_alike sites same).bind fun _ _ seen => sites.locate seen
  case assign =>
    intro pos targets value body iht ihv ihb
    rw [LowersAlike, lower_assign, lower_assign, lowerAssignment, lowerAssignment]
    refine (assignments_alike sites (assignedValue_alike ihv ihb) fun t mem =>
      target_alike (iht t mem)).bind fun cs cs' same => ?_
    exact sites.locate (by simp only [Code.relocate, Code.relocateAll_eq_map, same])
  case plain =>
    intro n plain keeps ih _
    rw [LowersAlike, lower_eq_steps site n plain keeps, lower_eq_steps site' n plain keeps]
    refine (Alike.mapM fun s mem => step_alike sites fun m h => ih m (h ▸ mem)).bind
      fun cs cs' same => ?_
    exact sites.locate (relocate_form n same)

theorem lowerParts_alike (sites : site.Alike ρ site') (ns : List Node) :
    Alike ρ (List.map (BodyPart.relocate (Location.refiled ρ))) (lowerParts site ns)
      (lowerParts site' ns) := parts_alike fun n _ => lower_alike sites n

theorem targets_alike (sites : site.Alike ρ site') (ns : List Node) :
    ∀ n ∈ ns, Alike ρ (Code.refile ρ) (target site n) (target site' n) :=
  fun n _ => target_alike (lower_alike sites n)

end Node

end TemplateCompiler
