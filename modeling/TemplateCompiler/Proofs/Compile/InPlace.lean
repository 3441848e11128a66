import TemplateCompiler.Proofs.Compile.Denotation
import TemplateCompiler.Proofs.Compile.Programs

/-!
# What a compilation in place comes to

With its partials in place, a template compiles to code that depends on
nothing but the sources. `includedFaults` and `includedCode` say what an
include comes to: the faults of its partial, each wrapped as it leaves the
partial, and the partial's code. The partials on the way to an include matter
only because of cycles. `Compile.program_comesTo` says what a whole compilation
comes to: its errors are the faults of the root, and its root is made of the
statements and the body that `rootCode` reads off the template.
-/

open List

namespace TemplateCompiler

namespace Node

open Compile (ComesTo)

variable {site : Site} {g : Option Location → Option Location}
  {faultsAt : Inclusion → List CompileError} {codeAt : Inclusion → Code}

/-! ## Drafts -/

/-- The faults of a template are those of its nodes, with assignments moved to
the front. -/
theorem faults_eq_hoist (tree : Node) :
    (hoist (flatten tree.children)).1.flatMap (faults faultsAt)
      ++ faultsOf faultsAt (hoist (flatten tree.children)).2 = tree.faults faultsAt := by
  rw [faultsOf_eq, flatMap_hoist fun _ _ => rfl,
    flatMap_children (fun _ _ => faultsOf_eq _) (fun _ _ => faultsOf_eq _)]

/-- The statements of an assignment. -/
def statementCodes (codeAt : Inclusion → Code) : Node → List Code
  | .assign _ targets value body =>
    assignmentCodes (if value.isMissing then body.code codeAt else value.code codeAt)
      (codes codeAt targets)
  | _ => []

theorem lowerAssignment_comesTo (hides : Code.Hides g site.file) {n : Node}
    (assigns : n.isAssignment = true) (he : Expands site g faultsAt codeAt n.inclusions) :
    (lowerAssignment site n).ComesTo (n.faults faultsAt)
      fun cs => cs.map (Code.relocate g) = (n.statementCodes codeAt).map (Code.relocate g) := by
  cases n with
  | assign pos targets value body =>
    rw [lowerAssignment, faults, statementCodes]
    have ofValue : value.isMissing = false → (value.lower site).ComesTo (value.faults faultsAt)
        fun c => c.relocate g = (value.code codeAt).relocate g := by
      intro present
      rw [inclusions, present] at he
      exact lower_comesTo hides value he.left
    have ofBody : value.isMissing = true → (body.lower site).ComesTo (body.faults faultsAt)
        fun c => c.relocate g = (body.code codeAt).relocate g := by
      intro absent
      rw [inclusions, absent] at he
      exact lower_comesTo hides body he.left
    exact assignments_comesTo hides (assignedValue_comesTo ofValue ofBody)
      (targets_comesTo hides targets he.right)
  | _ => cases assigns

/-- The statements and the body of a template. -/
def draftCode (codeAt : Inclusion → Code) (tree : Node) : List Code × Code :=
  let (sets, rest) := hoist (flatten tree.children)
  (sets.flatMap (statementCodes codeAt), BodyPart.code (codeParts codeAt rest))

/-- **Drafting a template** fails with its first fault, and without faults it
gives its statements and its body. -/
theorem draft_comesTo (hides : Code.Hides g site.file) {tree : Node}
    (he : Expands site g faultsAt codeAt tree.inclusions) :
    (Compile.draft site tree).ComesTo (tree.faults faultsAt) fun d =>
      d.1.map (Code.relocate g) = (tree.draftCode codeAt).1.map (Code.relocate g)
        ∧ d.2.relocate g = (tree.draftCode codeAt).2.relocate g := by
  rw [← inclusionsOf_children, ← inclusionsOf_hoist] at he
  rw [Compile.draft_eq site rfl, ← faults_eq_hoist]
  have hoisted : ∀ n ∈ (hoist (flatten tree.children)).1,
      (lowerAssignment site n).ComesTo (n.faults faultsAt)
        fun cs => cs.map (Code.relocate g) = (n.statementCodes codeAt).map (Code.relocate g) := by
    intro n mem
    refine lowerAssignment_comesTo hides (mem_hoist.1 mem).2 fun i inside => he.left i ?_
    exact inclusionsOf_eq _ ▸ mem_flatMap_of_mem mem inside
  refine (ComesTo.mapM hoisted).bind fun css same => ?_
  refine (lowerParts_comesTo hides _ he.right).bind_last fun parts same' => ?_
  refine .quiet_bind (BodyPart.assemble_relocate hides tree.pos parts) fun body seen => .pure ⟨?_, ?_⟩
  · rw [map_flatten, same, draftCode, map_flatMap]
    rfl
  · exact seen.trans (BodyPart.relocate_code same')

end Node

/-! ## Includes -/

theorem IncludePath.file_push (path : IncludePath) (name : Bytes) : (path.push name).file = name := by
  simp [push, file]

/-- **The faults of an include in place**, each as it leaves the partial. -/
def includedFaults (o : CompileOptions) (lib : Library) (path : IncludePath) (i : Inclusion) :
    List CompileError :=
  match h : lib.source? i.name with
  | none => if i.optional then [] else [.missingPartial i.name path.file i.pos]
  | some src =>
    if fresh : i.name ∈ path.partials then [.includeCycle (path.cycle i.name)]
    else
      have := IncludePath.room_push_lt h fresh
      match o.parse src with
      | .ok tree =>
        (tree.faults fun j => includedFaults o lib (path.push i.name) j).map
          (CompileError.leaving i.name)
      | .error e => [.inPartial i.name (.malformed e)]
termination_by path.room lib

/-- **The code of an include in place**, if it has no faults. In the code of a
partial no more is kept of locations than `g` shows of them. -/
def includedCode (g : Bytes → Option Location → Option Location) (o : CompileOptions)
    (lib : Library) (path : IncludePath) (i : Inclusion) : Code :=
  match h : lib.source? i.name with
  | none => Code.null
  | some src =>
    if fresh : i.name ∈ path.partials then .missing
    else
      have := IncludePath.room_push_lt h fresh
      match o.parse src with
      | .ok tree => (tree.code fun j => includedCode g o lib (path.push i.name) j).relocate (g i.name)
      | .error _ => .missing
termination_by path.room lib

section

variable {o : CompileOptions} {lib : Library} {path : IncludePath} {i : Inclusion} {src : Bytes}

theorem includedFaults_missing (missing : lib.source? i.name = none) :
    includedFaults o lib path i
      = if i.optional then [] else [.missingPartial i.name path.file i.pos] := by
  rw [includedFaults]
  split <;> simp_all

theorem includedFaults_cycle (found : lib.source? i.name = some src)
    (cycle : i.name ∈ path.partials) :
    includedFaults o lib path i = [.includeCycle (path.cycle i.name)] := by
  rw [includedFaults]
  split <;> simp_all

theorem includedFaults_fresh (found : lib.source? i.name = some src)
    (fresh : i.name ∉ path.partials) {tree : Node} (parsed : o.parse src = .ok tree) :
    includedFaults o lib path i
      = (tree.faults (includedFaults o lib (path.push i.name))).map
          (CompileError.leaving i.name) := by
  rw [includedFaults]
  split <;> simp_all

theorem includedFaults_malformed (found : lib.source? i.name = some src)
    (fresh : i.name ∉ path.partials) {e : SyntaxError} (parsed : o.parse src = .error e) :
    includedFaults o lib path i = [.inPartial i.name (.malformed e)] := by
  rw [includedFaults]
  split <;> simp_all

variable {g : Bytes → Option Location → Option Location}

theorem includedCode_missing (missing : lib.source? i.name = none) :
    includedCode g o lib path i = Code.null := by
  rw [includedCode]
  split <;> simp_all

theorem includedCode_fresh (found : lib.source? i.name = some src)
    (fresh : i.name ∉ path.partials) {tree : Node} (parsed : o.parse src = .ok tree) :
    includedCode g o lib path i
      = (tree.code (includedCode g o lib (path.push i.name))).relocate (g i.name) := by
  rw [includedCode]
  split <;> simp_all

end

namespace Compile

variable {es : List CompileError} {α : Type}

/-- A step inside a partial fails with what leaves the partial. -/
theorem ComesTo.inside {m : Compile α} {P : α → Prop} (name : Bytes) (h : m.ComesTo es P) :
    (inside name m).ComesTo (es.map (CompileError.leaving name)) P := by
  intro s
  have step := h s
  cases es with
  | nil =>
    obtain ⟨a, t, run, held⟩ := step
    exact ⟨a, t, by rw [outcome_inside, run]; rfl, held⟩
  | cons e es =>
    obtain ⟨t, run⟩ := step
    exact ⟨t, by rw [outcome_inside, run]; rfl⟩

/-- A step that succeeds had no faults. -/
theorem ComesTo.of_ok {m : Compile α} {P : α → Prop} {s t : Session} {a : α} (h : m.ComesTo es P)
    (run : m.outcome s = (.ok a, t)) :
    es = [] ∧ P a := by
  have step := h s
  cases es with
  | cons e es =>
    obtain ⟨u, error⟩ := step
    cases run.symm.trans error
  | nil =>
    obtain ⟨b, u, run', held⟩ := step
    cases run.symm.trans run'
    exact ⟨rfl, held⟩

/-- A result of a step that comes to something has what all its results
have. -/
theorem ComesTo.and {m : Compile α} {P R : α → Prop} (h : m.ComesTo es P)
    (gives : ∀ s a t, m.outcome s = (.ok a, t) → R a) :
    m.ComesTo es fun a => P a ∧ R a := by
  intro s
  have step := h s
  cases es with
  | cons e es => exact step
  | nil =>
    obtain ⟨a, t, run, held⟩ := step
    exact ⟨a, t, run, held, gives s a t run⟩

/-- The code of partials shows the same, seen from the file of the partial or
from another one. -/
def Shows (g : Bytes → Option Location → Option Location) (o : CompileOptions) (lib : Library) :
    Prop :=
  ∀ (path : IncludePath) name src tree s c t, lib.source? name = some src →
    o.parse src = .ok tree →
    (tree.lower ⟨name, expand o lib (path.push name)⟩).outcome s = (.ok c, t) →
    ∀ file, c.relocate (g file) = (c.relocate (g name)).relocate (g file)

/-- **What an include comes to** in place. -/
theorem expand_comesTo {g : Bytes → Option Location → Option Location}
    (hides : ∀ file, Code.Hides (g file) file) {o : CompileOptions}
    (inPlace : o.moduleMode = false) {lib : Library} (shows_ : Shows g o lib)
    (path : IncludePath) (i : Inclusion) :
    (expand o lib path i).ComesTo (includedFaults o lib path i)
      fun c => ∀ file, c.relocate (g file) = (includedCode g o lib path i).relocate (g file) := by
  fun_induction includedFaults o lib path i with
  | case1 path i found optional =>
    rw [expand_missing found, if_pos optional, includedCode_missing found]
    exact .quiet_bind (Quiet.debug _ _) fun _ _ => .pure fun _ => rfl
  | case2 path i found required =>
    rw [expand_missing found, if_neg required]
    exact .throw _
  | case3 path i src found cycle =>
    rw [expand_cycle found cycle]
    exact .throw _
  | case4 path i src found fresh _ tree parsed ih =>
    rw [expand_fresh found fresh, if_neg (by simp [inPlace]), inline, parsePartial, parsed,
      includedCode_fresh found fresh parsed]
    have expands : Node.Expands ⟨i.name, expand o lib (path.push i.name)⟩ (g i.name)
        (includedFaults o lib (path.push i.name)) (includedCode g o lib (path.push i.name))
        tree.inclusions := fun j _ => (ih j).imp fun c h => h i.name
    have lowered := Node.lower_comesTo (hides i.name) tree expands
    refine ((lowered.and fun s c t run =>
      shows_ path i.name src tree s c t found parsed run).imp ?_).inside i.name
    rintro c ⟨same, seen⟩ file
    rw [seen file, same]
  | case5 path i src found fresh _ e failed =>
    rw [expand_fresh found fresh, if_neg (by simp [inPlace]), inline, parsePartial, failed]
    exact .throw_bind _

/-! ## Programs -/

section

variable {o : CompileOptions} {lib : Library} {src : Bytes} {tree : Node}

/-- **What a compilation comes to**: it fails with the first fault of the
root, and without faults the root is made of the code of its template. -/
theorem program_comesTo (parsed : o.parse src = .ok tree)
    {faultsAt : Inclusion → List CompileError} {codeAt : Inclusion → Code}
    (he : Node.Expands (rootSite o lib) (fun _ => none) faultsAt codeAt tree.inclusions) :
    (program o lib src).ComesTo (tree.faults faultsAt) fun p => ∃ root, p.root = some root
      ∧ root.Scoped o
      ∧ root.statements.map Code.erase = (tree.draftCode codeAt).1.map Code.erase
      ∧ root.body.erase = (tree.draftCode codeAt).2.erase := by
  intro s
  have drafted := Node.draft_comesTo (fun _ _ _ => rfl) he s
  cases faults : tree.faults faultsAt with
  | cons e es =>
    rw [faults] at drafted
    obtain ⟨t, run⟩ := drafted
    exact ⟨t, outcome_program_error parsed run⟩
  | nil =>
    rw [faults] at drafted
    obtain ⟨d, t, run, statements, body⟩ := drafted
    obtain ⟨root, t', out, closed⟩ := outcome_program_ok parsed run
    refine ⟨_, t', out, root, rfl, closed.scopes, ?_, ?_⟩
    · rw [← Code.eraseAll_eq_map, ← Code.eraseAll_eq_map, closed.statements]
      rw [← Code.relocateAll_eq_map, ← Code.relocateAll_eq_map] at statements
      rw [← Code.eraseAll_relocateAll, statements, Code.eraseAll_relocateAll]
    · rw [closed.body, Code.erase_eq_of_relocate body]

/-- The includes of the root in place. -/
theorem rootSite_expands (lib : Library) (inPlace : o.moduleMode = false) (is : List Inclusion) :
    Node.Expands (rootSite o lib) (fun _ => none) (includedFaults o lib { root := o.file })
      (includedCode (fun _ _ => none) o lib { root := o.file }) is := by
  have alike : Shows (fun _ _ => none) o lib := by
    intro path name src tree s c t found parsed run file
    rw [Code.relocate_relocate]
  exact fun i _ => (expand_comesTo (fun _ _ _ _ => rfl) inPlace alike _ i).imp fun c h => h o.file

end

end Compile

/-! ## Both modes -/

section

variable {o : CompileOptions} {lib : Library} {src : Bytes} {tree : Node} {e : CompileError}

/-- The faults of an include are the same in both modes. -/
theorem includedFaults_inPlace (path : IncludePath) (i : Inclusion) :
    includedFaults o.inPlace lib path i = includedFaults o lib path i := by
  fun_induction includedFaults o lib path i with
  | case1 _ _ found optional => rw [includedFaults_missing found, if_pos optional]
  | case2 _ _ found required => rw [includedFaults_missing found, if_neg required]
  | case3 _ _ _ found cycle => rw [includedFaults_cycle found cycle]
  | case4 _ _ _ found fresh _ _ parsed ih =>
    rw [includedFaults_fresh (o := o.inPlace) found fresh parsed, funext ih]
  | case5 _ _ _ found fresh _ _ failed =>
    rw [includedFaults_malformed (o := o.inPlace) found fresh failed]

/-- A template fails as it does with its partials in place. -/
theorem fails_inPlace :
    (compile o lib src).1 = .error e ↔ (compile o.inPlace lib src).1 = .error e := by
  cases mode : o.moduleMode with
  | false => rw [show o.inPlace = o by rw [CompileOptions.inPlace, ← mode]]
  | true =>
    have related : ModesMatch o lib (fun _ => True) (compile o.inPlace lib src).1
        (compile o lib src).1 :=
      compile_related mode (fun _ _ _ _ _ _ _ _ => trivial) fun _ _ _ _ => trivial
    exact (related.fails_iff e).symm

/-- **A template fails with its first fault**, in either mode. -/
theorem compile_eq_error_iff (parsed : o.parse src = .ok tree) : (compile o lib src).1 = .error e
      ↔ (tree.faults (includedFaults o lib { root := o.file })).head? = some e := by
  have same : includedFaults o.inPlace lib { root := o.file }
      = includedFaults o lib { root := o.file } := funext fun i => includedFaults_inPlace _ i
  have run := Compile.program_comesTo (o := o.inPlace) parsed
    (Compile.rootSite_expands lib rfl tree.inclusions) (Session.start o.inPlace)
  rw [show o.inPlace.file = o.file from rfl, same] at run
  rw [fails_inPlace, compile_fst]
  revert run
  cases tree.faults (includedFaults o lib { root := o.file }) with
  | nil =>
    rintro ⟨p, t, run, -⟩
    rw [run]
    exact ⟨nofun, nofun⟩
  | cons first others =>
    rintro ⟨t, run⟩
    rw [run]
    simp

end

end TemplateCompiler
