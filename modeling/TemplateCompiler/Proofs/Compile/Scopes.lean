import TemplateCompiler.Proofs.Code.Agreement
import TemplateCompiler.Proofs.Compile.Programs

/-!
# Scopes through calls

A call passes on what the unit that it calls needs: its arguments are the
unit's inputs, read by their names (`Finished.call_eq`). So a call reads the
same names as the partial in place (`Linked.calls_agree`), as long as partials
assign nothing, and code that matches makes the same scope.
-/

open List

namespace TemplateCompiler

/-! ## Inputs -/

namespace Destructure

/-- Missing keys are empty ones. -/
theorem pairUp_append_replicate (names : List Identifier) (keys : List Bytes) (n : Nat) :
    pairUp names (keys ++ List.replicate n []) = pairUp names keys := by
  induction names generalizing keys n with
  | nil => rfl
  | cons id names ih =>
    cases keys with
    | cons key keys => rw [cons_append, pairUp, pairUp, ih]
    | nil =>
      cases n with
      | zero => rfl
      | succ n =>
        have rest := ih [] n
        rw [nil_append] at rest ⊢
        rw [replicate_succ, pairUp, pairUp, rest]
        rfl

theorem pairUp_append {names : List Identifier} {keys : List Bytes}
    (lengths : names.length = keys.length) (more : List Identifier) (moreKeys : List Bytes) :
    pairUp (names ++ more) (keys ++ moreKeys) = pairUp names keys ++ pairUp more moreKeys := by
  induction names generalizing keys with
  | nil => rw [length_eq_zero_iff.mp lengths.symm]; rfl
  | cons id names ih =>
    cases keys with
    | nil => exact absurd lengths (by simp)
    | cons key keys =>
      rw [cons_append, cons_append, pairUp, pairUp, ih (Nat.succ.inj lengths),
        cons_append]

/-- There are no keys, or there is one for each name. -/
def Aligned (d : Destructure) : Prop := d.keys = [] ∨ d.keys.length = d.names.length

/-- **A name that is added** comes last, with its key. -/
theorem bindings_add {d : Destructure} (aligned : d.Aligned) {key : Bytes} {id : Identifier}
    (present : key = [] → id.name = []) :
    (d.add key id).bindings = d.bindings ++ [(key, id)] ∧ (d.add key id).Aligned := by
  obtain ⟨loc, names, keys⟩ := d
  have short : keys.length ≤ names.length := by
    rcases aligned with rfl | same
    · exact Nat.zero_le _
    · exact Nat.le_of_eq same
  simp only [add, bindings, Aligned]
  split
  · next plain =>
    obtain ⟨same, empty⟩ := Bool.and_eq_true_iff.mp plain
    rw [isEmpty_iff.mp empty, beq_iff_eq.mp same]
    refine ⟨?_, .inl rfl⟩
    -- Without keys, every name is read from its own spelling.
    have spelled : ∀ ns : List Identifier, pairUp ns [] = pairUp ns (List.replicate ns.length []) :=
      fun ns => (pairUp_append_replicate ns [] ns.length).symm
    rw [spelled, length_append, length_singleton, replicate_succ',
      pairUp_append (by simp), ← spelled]
    rfl
  · have full : names.length = (keys ++ List.replicate (names.length - keys.length) []).length := by
      rw [length_append, length_replicate]
      omega
    refine ⟨?_, .inr ?_⟩
    · rw [pairUp_append full, pairUp_append_replicate]
      congr 1
      by_cases same : key = id.name
      · simp [same, pairUp]
      · have nonempty : key ≠ [] := fun none => same (none.trans (present none).symm)
        simp [same, nonempty, pairUp]
    · rw [length_append, ← full, length_append]
      rfl

theorem bindings_foldl_add {bs : List (Bytes × Identifier)}
    (present : ∀ b ∈ bs, b.1 = [] → b.2.name = []) {d : Destructure} (aligned : d.Aligned) :
    (bs.foldl (fun d b => d.add b.1 b.2) d).bindings = d.bindings ++ bs
      ∧ (bs.foldl (fun d b => d.add b.1 b.2) d).Aligned := by
  induction bs generalizing d with
  | nil => exact ⟨(append_nil _).symm, aligned⟩
  | cons b bs ih =>
    obtain ⟨here, others⟩ := forall_mem_cons.1 present
    obtain ⟨added, aligned'⟩ := bindings_add aligned here
    obtain ⟨all, ends⟩ := ih others aligned'
    exact ⟨by rw [foldl_cons, all, added, append_assoc]; rfl, ends⟩

/-- **A pattern keeps every key.** Names are added to an empty pattern one after
the other, each with a key that is not empty. After each step the pattern has
the names in their order, no keys or one for each name, and each name is read
from the key that it was added with. -/
theorem bindings_of_adds {bs : List (Bytes × Identifier)} (present : ∀ b ∈ bs, b.1 ≠ []) (n : Nat) :
    let d := (bs.take n).foldl (fun d b => d.add b.1 b.2) ({ names := [] } : Destructure)
    d.names = (bs.take n).map Prod.snd ∧ (d.keys = [] ∨ d.keys.length = d.names.length)
      ∧ d.bindings = bs.take n := by
  have keys : ∀ b ∈ bs.take n, b.1 = [] → b.2.name = [] := fun b mem none =>
    absurd none (present b (mem_of_mem_take mem))
  obtain ⟨added, aligned⟩ := bindings_foldl_add keys (d := { names := [] }) (.inl rfl)
  exact ⟨names_foldl_add Prod.fst Prod.snd (bs.take n) { names := [] }, aligned, added⟩

/-- A key that differs from its name stands between keys that do not. -/
theorem bindings_of_mixed_adds :
    let bs : List (Bytes × Identifier) :=
      [("a", { name := "a" }), ("new", { name := "new$" }), ("b", { name := "b" })]
    let d := bs.foldl (fun d b => d.add b.1 b.2) ({ names := [] } : Destructure)
    (∀ b ∈ bs, b.1 ≠ []) ∧ d.keys = [[], "new", []] ∧ d.bindings = bs := by
  have present : ∀ b ∈ ([("a", { name := "a" }), ("new", { name := "new$" }), ("b", { name := "b" })] :
      List (Bytes × Identifier)), b.1 ≠ [] := by decide
  exact ⟨present, rfl, (bindings_of_adds present 3).2.2⟩

end Destructure

namespace CodeUnit

/-- A spelling in generated code stands for a name that is empty only if it
is. -/
theorem templateName_ne_nil {name : Bytes} (h : Script.templateName name = []) : name = [] := by
  unfold Script.templateName at h
  split at h
  · split at h
    · next keyword => rw [h] at keyword; exact absurd keyword (by decide)
    · exact h
  · exact h

/-- An input: the template's spelling of a name, and the name. -/
def input (name : Bytes) : Bytes × Identifier := (Script.templateName name, { name })

/-- **The inputs of a unit** are the names it was given. -/
theorem bindings_inputs (free : List Bytes) : (inputs free).bindings = free.map input := by
  have present : ∀ b ∈ free.map input, b.1 = [] → b.2.name = [] :=
    forall_mem_map.2 fun _ _ => templateName_ne_nil
  have added := (Destructure.bindings_foldl_add present (d := { names := [] }) (.inl rfl)).1
  rwa [foldl_map] at added

/-- Taking a pattern apart does not depend on locations. -/
theorem bindings_erase (d : Destructure) :
    d.erase.bindings = d.bindings.map fun b => (b.1, b.2.erase) := by
  obtain ⟨loc, names, keys⟩ := d
  show Destructure.pairUp (names.map Identifier.erase) keys = _
  rw [Destructure.bindings]
  induction names generalizing keys with
  | nil => rfl
  | cons id names ih =>
    cases keys with
    | nil => exact congrArg (List.cons _) (ih [])
    | cons key keys => exact congrArg (List.cons _) (ih keys)

end CodeUnit

/-- What a call passes for a parameter. -/
def Code.passes : Code → List (Bytes × Code)
  | .destructure d => d.bindings.map fun b => (b.1, .ident b.2.name)
  | _ => []

theorem Compile.reference_eq (u : CodeUnit) (unit : Bytes) :
    reference u unit = .call none (.identifier { name := unit, builtin := true })
      [.object none (u.params.flatMap Code.passes), .ident Script.filterNamespace] := rfl

theorem Code.passes_erase (c : Code) : c.erase.passes = c.passes := by
  cases c with
  | destructure d =>
    rw [erase, passes, passes, CodeUnit.bindings_erase, map_map]
    rfl
  | _ => rfl

/-- **A call passes on the inputs** of the unit that it calls, and the
filters. -/
theorem Finished.call_eq {o : CompileOptions} {f : Finished} (h : f.unit.Scoped o) :
    f.call = .call none (.identifier { name := f.unit.name, builtin := true })
      [.object none ((Scope.ofUnit o.reserved f.unit).free.map fun name =>
          (Script.templateName name, .ident name)),
        .ident Script.filterNamespace] := by
  have passed : f.unit.params.flatMap Code.passes
      = (Scope.ofUnit o.reserved f.unit).free.map fun name =>
        (Script.templateName name, Code.ident name) := by
    have erased : f.unit.params.flatMap Code.passes
        = (Code.eraseAll f.unit.params).flatMap Code.passes := by
      rw [Code.eraseAll_eq_map, flatMap_map]
      exact congrArg (List.flatMap · _) (funext fun c => (Code.passes_erase c).symm)
    rw [erased, h.params]
    simp [Code.passes, Code.ident, CodeUnit.bindings_inputs, CodeUnit.input, Function.comp_def]
  rw [Finished.call, Compile.reference_eq, passed]
  simp [Code.erase, Code.eraseAll, Code.eraseProps_eq_map, Identifier.erase, Function.comp_def]

/-! ## Code that matches -/

/-- What a loop binds around its body. -/
def Node.loopBinders (param : Code) : List Bytes :=
  param.binders ++ [Node.loopCounter param.binders]

/-- **The names that a loop reads**: those of its items, twice or more, and of
its body what the loop does not bind. -/
theorem Node.occurrences_loop (items param body : Code) (alternate : Option Code)
    (bound : List Bytes) :
    (loop items param body alternate).occurrences bound
      = (items.occurrences bound
          ++ alternate.elim [] fun _ => items.occurrences bound)
        ++ (items.occurrences bound ++ body.occurrences (loopBinders param ++ bound))
        ++ alternate.elim [] (·.occurrences bound) := by
  cases alternate <;>
    simp [loop, loopBinders, Code.occurrences, Code.occurrencesAll, Code.reference, Code.binders,
      Code.ident, Code.str]

/-- A filter reads the filters, and nothing else. -/
theorem Node.occurrences_filterPath (path : Bytes) (bound : List Bytes) :
    (filterPath path).occurrences bound
      = Code.reference bound { name := Script.filterNamespace } := by
  have all : ∀ (words : List Bytes) (c : Code),
      (words.foldl (fun path word => Code.member none path (.ident word) false) c).occurrences bound
        = c.occurrences bound := by
    intro words
    induction words with
    | nil => exact fun c => rfl
    | cons word words ih =>
      intro c
      rw [foldl_cons, ih, Code.occurrences]
      exact append_nil _
  exact all _ _

namespace Lowered

variable {sets : Prop} {calls : Code → Code → Prop} {c d : Code}

/-- **Induction on what code reads and assigns.** A relation between lists of
occurrences holds of code that matches if it holds of single occurrences and
of calls, and is kept when lists are put together. -/
theorem occurrences_rec {R : List Occurrence → List Occurrence → Prop} (nil : R [] [])
    (append : ∀ {ps ps' qs qs'}, R ps ps' → R qs qs' → R (ps ++ qs) (ps' ++ qs'))
    (name : ∀ n, Script.templateName n = n →
      R [.read (Script.bindingName n)] [.read (Script.bindingName n)])
    (filters : R [.read Script.filterNamespace] [.read Script.filterNamespace])
    (assigned : sets → ∀ n, Script.templateName n = n →
      R [.assigned (Script.bindingName n)] [.assigned (Script.bindingName n)])
    (call : ∀ c d, calls c d → ∀ bound, R (c.occurrences bound) (d.occurrences bound))
    (h : Lowered sets calls c d) : ∀ bound, R (c.occurrences bound) (d.occurrences bound) := by
  have all : ∀ {xs ys : List Code}, xs.length = ys.length →
      (∀ p ∈ xs.zip ys, ∀ bound, R (p.1.occurrences bound) (p.2.occurrences bound)) → ∀ bound,
      R (Code.occurrencesAll bound xs) (Code.occurrencesAll bound ys) := by
    intro xs ys lengths each bound
    have matched : List.Forall₂ (fun x y => R (x.occurrences bound) (y.occurrences bound)) xs ys :=
      forall₂_iff_zip.mpr ⟨lengths, fun m => each _ m bound⟩
    clear each lengths
    induction matched with
    | nil => exact nil
    | cons head _ ih => exact append head ih
  have reads : ∀ n bound, R [.read n] [.read n] →
      R (Code.reference bound { name := n }) (Code.reference bound { name := n }) := by
    intro n bound here
    unfold Code.reference
    split
    · exact nil
    · exact here
  induction h with
  | literal value h => intro bound; cases value <;> cases h <;> exact nil
  | name n plain => exact fun bound => reads _ bound (name n plain)
  | included h => exact call _ _ h
  | field key _ object => exact fun bound => append (object bound) nil
  | index _ _ object property => exact fun bound => append (object bound) (property bound)
  | filter path lengths _ args =>
    intro bound
    rw [Code.occurrences, Code.occurrences, Node.occurrences_filterPath]
    exact append (reads _ bound filters) (all lengths args bound)
  | call _ lengths _ callee args => exact fun bound => append (callee bound) (all lengths args bound)
  | unary op _ _ arg => exact arg
  | binary op _ _ left right | logical op _ _ left right =>
    exact fun bound => append (left bound) (right bound)
  | conditional _ _ _ test consequent alternate =>
    exact fun bound => append (append (test bound) (consequent bound)) (alternate bound)
  | array lengths _ elements => exact all lengths elements
  | sequence lengths _ exprs => exact all lengths exprs
  | interpolation count lengths _ holes => exact all lengths holes
  | object keys _ values =>
    intro bound
    rw [Code.occurrences, Code.occurrences, Code.occurrencesProps_eq, Code.occurrencesProps_eq]
    refine all (by simpa using length_eq_of_keys keys) ?_ bound
    intro p mem
    rw [zip_map, mem_map] at mem
    obtain ⟨q, mem, rfl⟩ := mem
    exact values q mem
  | loop _ binds _ items body =>
    intro bound
    rw [Node.occurrences_loop, Node.occurrences_loop]
    exact append (append (append (items bound) nil) (append (items bound) (body _))) nil
  | loopElse _ binds _ _ items body alternate =>
    intro bound
    rw [Node.occurrences_loop, Node.occurrences_loop]
    exact append (append (append (items bound) (items bound)) (append (items bound) (body _)))
      (alternate bound)
  | assignName allowed n plain _ value =>
    intro bound
    have here : R (Code.assignment bound (Script.bindingName n))
        (Code.assignment bound (Script.bindingName n)) := by
      unfold Code.assignment
      split
      · exact nil
      · exact assigned allowed n plain
    exact append here (value bound)
  | assignMember allowed _ _ target value => exact fun bound => append (target bound) (value bound)
  | block allowed lengths _ statements => exact fun bound => append (all lengths statements _) nil

/-- **Code that matches agrees**, if calls agree with what they stand for. -/
theorem agree {known : List Bytes} (h : Lowered sets calls c d)
    (hc : ∀ c d, calls c d → Code.Agree known c d) : Code.Agree known c d :=
  occurrences_rec (.refl known _) Scope.Agree.append (fun _ _ => .refl known _) (.refl known _)
    (fun _ _ _ => .refl known _) hc h

/-- Where nothing may be assigned, nothing is. -/
theorem unassigned (h : Lowered sets calls c d) (none : ¬ sets)
    (hc : ∀ c d, calls c d → ∀ bound, Scope.assignedIn (d.occurrences bound) = [])
    (bound : List Bytes) : Scope.assignedIn (d.occurrences bound) = [] :=
  occurrences_rec (R := fun _ qs => Scope.assignedIn qs = []) rfl
    (fun front back => by rw [Scope.assignedIn_append, front, back]; rfl) (fun _ _ => rfl) rfl
    (fun allowed => absurd allowed none) hc h bound

end Lowered

/-! ## Calls -/

section

variable {o : CompileOptions} {lib : Library} {reached : Bytes → Prop} {w : List Finished}

theorem Linked.scopes (h : Linked o lib reached w) {f : Finished} (mem : f ∈ w) :
    f.unit.Scoped o := by
  obtain ⟨v, -, sound⟩ := h.sound_of_mem mem
  obtain ⟨d, made, -⟩ := sound.made
  exact made.scopes

/-- **What a call reads**: the inputs of the unit, and the filters. -/
theorem Finished.occurrences_call {f : Finished} (h : f.unit.Scoped o) (bound : List Bytes) :
    f.call.occurrences bound
      = unbound bound (((Scope.ofUnit o.reserved f.unit).free
        ++ [Script.filterNamespace]).map Occurrence.read) := by
  have one : ∀ name, Code.reference bound { name } = unbound bound [.read name] := by
    intro name
    have here := Code.reference_append [] bound { name }
    rwa [nil_append] at here
  have all : ∀ names : List Bytes, names.flatMap (fun name => Code.reference bound { name })
      = unbound bound (names.map Occurrence.read) := by
    intro names
    induction names with
    | nil => rfl
    | cons name names ih =>
      rw [flatMap_cons, ih, one]
      exact (unbound_append bound [_] _).symm
  rw [Finished.call_eq h, ← all, flatMap_append]
  show [] ++ (Code.occurrencesProps bound _ ++ (Code.occurrences bound _ ++ [])) = _
  rw [Code.occurrencesProps_eq, Code.occurrencesAll_eq_flatMap, map_map, flatMap_map]
  rfl

/-- **Passing on what a scope needs** agrees with what made the scope, if
nothing was assigned: the names are read once each, and the filters are known. -/
theorem Scope.agree_passed {reserved : List Bytes} {ps : List Occurrence}
    (unassigned : assignedIn ps = []) :
    Agree (reservedNames reserved) ps
      (unbound [] (((ofOccurrences (reservedNames reserved) ps).free
        ++ [Script.filterNamespace]).map Occurrence.read)) := by
  have filters : Script.filterNamespace ∈ reservedNames reserved :=
    mem_append_left _ (by decide)
  have distinct := nodup_free (reservedNames reserved) ps
  have unknown : ∀ name ∈ (ofOccurrences (reservedNames reserved) ps).free,
      name ∉ reservedNames reserved := fun _ mem => (mem_free.mp mem).2.1
  have needed : needs (reservedNames reserved) [] ps
      = (ofOccurrences (reservedNames reserved) ps).free := by
    rw [ofOccurrences_eq, unassigned]
  generalize (ofOccurrences (reservedNames reserved) ps).free = names at *
  have none : assignedIn ((names ++ [Script.filterNamespace]).map Occurrence.read) = [] := by
    simp [assignedIn, Occurrence.assigned?]
  have all (qs : List Occurrence) : unbound [] qs = qs := filter_eq_self.mpr fun _ _ => rfl
  refine ⟨?_, ?_⟩ <;> rw [all, none, unassigned]
  have kept : names.filter (fun name => !decide (name ∈ reservedNames reserved)) = names :=
    filter_eq_self.mpr fun name mem => by simpa using unknown name mem
  rw [needed, needs, filterMap_map, show Occurrence.read? ∘ Occurrence.read = some from rfl,
    filterMap_some, filter_append]
  simp [kept, filters, eraseDups_of_nodup distinct]

/-- Calls assign nothing. -/
theorem Linked.calls_unassigned (linked : Linked o lib reached w) (c d : Code) (h : Calls w c d)
    (bound : List Bytes) : Scope.assignedIn (d.occurrences bound) = [] := by
  obtain ⟨f, mem, -, rfl⟩ := h
  rw [Finished.occurrences_call (linked.scopes mem), Scope.assignedIn_unbound]
  simp [Scope.assignedIn, Occurrence.assigned?]

/-- **A call agrees with the partial in place**, if partials assign nothing. -/
theorem Linked.calls_agree (linked : Linked o lib reached w) (free : ∀ f ∈ w, f.tree.SetFree) :
    ∀ c d, Calls w c d → Code.Agree (Scope.reservedNames o.reserved) c d := by
  induction linked with
  | nil => exact fun c d ⟨f, mem, _⟩ => absurd mem not_mem_nil
  | @cons f w earlier sound ih =>
    have calls := ih fun g mem => free g (mem_cons_of_mem _ mem)
    rintro c d ⟨g, mem, rfl, rfl⟩
    rcases mem_cons.mp mem with rfl | mem
    · obtain ⟨d, made, bare⟩ := sound.made
      cases bare (free g mem_cons_self)
      -- The unit has a body alone, which needs what the partial needs in place.
      have statements : Code.eraseAll g.unit.statements = [] := forall₂_nil_left_iff.1 made.statements
      have agree := made.body.agree calls []
      have unassigned := made.body.unassigned (not_not_intro (free g mem_cons_self))
        earlier.calls_unassigned []
      rw [Code.occurrences_erase] at agree unassigned
      refine Code.Agree.of_alone (agree.trans ?_)
      rw [Finished.occurrences_call made.scopes, Scope.ofUnit, ← Code.occurrencesAll_erase,
        statements]
      exact Scope.agree_passed unassigned
    · exact calls _ _ ⟨g, mem, rfl, rfl⟩

end

end TemplateCompiler
