import TemplateCompiler.Proofs.Code.Parts

/-!
# Code with other locations

`Code.relocate` changes the locations in a piece of code, those that are not
there included, and leaves the rest alone. Locating code in a file is invisible
to a change that does not see the locations in that file
(`Code.relocate_stamp`): it takes them for locations that are not there. Taking
all locations off is such a change, and so is keeping the files of all pieces,
when those that have no location count as pieces of the file.
-/

namespace TemplateCompiler

/-- A name with another location. -/
def Identifier.relocate (g : Option Location → Option Location) (id : Identifier) : Identifier :=
  { id with loc := g id.loc }

/-- A pattern with other locations. -/
def Destructure.relocate (g : Option Location → Option Location) (d : Destructure) : Destructure :=
  ⟨g d.loc, d.names.map (Identifier.relocate g), d.keys⟩

namespace Code

mutual

/-- **A piece of code with other locations**, also below it. The imports of a
unit are no code. -/
def relocate (g : Option Location → Option Location) : Code → Code
  | .missing => .missing
  | .literal loc kind value => .literal (g loc) kind value
  | .identifier id => .identifier (id.relocate g)
  | .member loc o p computed => .member (g loc) (o.relocate g) (p.relocate g) computed
  | .call loc f args => .call (g loc) (f.relocate g) (relocateAll g args)
  | .unary loc op a => .unary (g loc) op (a.relocate g)
  | .binary loc op l r => .binary (g loc) op (l.relocate g) (r.relocate g)
  | .logical loc op l r => .logical (g loc) op (l.relocate g) (r.relocate g)
  | .conditional loc t a b =>
    .conditional (g loc) (t.relocate g) (a.relocate g) (b.relocate g)
  | .array loc es => .array (g loc) (relocateAll g es)
  | .object loc props => .object (g loc) (relocateProps g props)
  | .sequence loc es => .sequence (g loc) (relocateAll g es)
  | .interpolation loc tag runs holes => .interpolation (g loc) tag runs (relocateAll g holes)
  | .assign loc t v => .assign (g loc) (t.relocate g) (v.relocate g)
  | .lambda loc params body block =>
    .lambda (g loc) (relocateAll g params) (body.relocate g) (relocateAll g block)
  | .destructure d => .destructure (d.relocate g)
  | .function ⟨loc, name, source, params, locals, statements, body, imports⟩ =>
    .function ⟨g loc, name, source, relocateAll g params, locals, relocateAll g statements,
      body.relocate g, imports⟩
  | .importRef ⟨loc, unit, source⟩ => .importRef ⟨g loc, unit, source⟩

/-- `relocate` of each piece. -/
def relocateAll (g : Option Location → Option Location) : List Code → List Code
  | [] => []
  | c :: cs => c.relocate g :: relocateAll g cs

/-- `relocate` of the values of an object. -/
def relocateProps (g : Option Location → Option Location) :
    List (Bytes × Code) → List (Bytes × Code)
  | [] => []
  | (key, c) :: props => (key, c.relocate g) :: relocateProps g props

end

variable {g : Option Location → Option Location} {file : Bytes}

theorem relocateAll_eq_map (cs : List Code) : relocateAll g cs = cs.map (relocate g) := by
  induction cs with
  | nil => rfl
  | cons c cs ih => rw [relocateAll, ih]; rfl

theorem relocateProps_eq_map (props : List (Bytes × Code)) :
    relocateProps g props = props.map fun p => (p.1, p.2.relocate g) := by
  induction props with
  | nil => rfl
  | cons p props ih => obtain ⟨key, c⟩ := p; rw [relocateProps, ih]; rfl

theorem parts_relocate (c : Code) : (c.relocate g).parts = c.parts.map (relocate g) := by
  cases c with
  | destructure d => simp [relocate, parts, Destructure.relocate, Function.comp_def]
  | function u => cases u; simp [relocate, parts, relocateAll_eq_map]
  | object loc props => simp [relocate, parts, relocateProps_eq_map, Function.comp_def]
  | _ => simp [relocate, parts, relocateAll_eq_map]

theorem shell_relocate (c : Code) : (c.relocate g).shell = c.shell := by
  cases c with
  | function u => cases u; simp [relocate, shell, relocateAll_eq_map, Function.comp_def]
  | _ =>
    simp [relocate, shell, Destructure.relocate, relocateAll_eq_map, relocateProps_eq_map,
      Identifier.relocate, Function.comp_def]

theorem isMissing_relocate (c : Code) : (c.relocate g).isMissing = c.isMissing := by
  cases c <;> rfl

theorem loc_relocate {c : Code} (present : c.isMissing = false) : (c.relocate g).loc = g c.loc := by
  cases c <;> first | rfl | cases present

/-- Code is relocated if its location is, and if its parts are. -/
theorem eq_relocate {c d : Code} (present : c.isMissing = false) (shells : d.shell = c.shell)
    (locs : d.loc = g c.loc) (below : d.parts = c.parts.map (relocate g)) : d = c.relocate g :=
  ext_parts (shells.trans (shell_relocate c).symm) (locs.trans (loc_relocate present).symm)
    (below.trans (parts_relocate c).symm)

/-- **The walk through code** with other locations. -/
theorem preorder_relocate (c : Code) : (c.relocate g).preorder = c.preorder.map (relocate g) :=
  preorder_map isMissing_relocate parts_relocate c

/-- Changes in sequence. -/
theorem relocate_relocate (f g : Option Location → Option Location) (c : Code) :
    (c.relocate f).relocate g = c.relocate fun loc => g (f loc) := by
  refine eq_of_parts (f := fun c => (c.relocate f).relocate g) (fun c => ?_) (fun c => ?_)
    (fun c => ?_) parts_relocate c
  · rw [shell_relocate, shell_relocate, shell_relocate]
  · cases c <;> rfl
  · rw [parts_relocate, parts_relocate, List.map_map]
    rfl

/-- Changes that agree on the locations in a piece of code change it alike. -/
theorem relocate_congr {f g : Option Location → Option Location} (c : Code)
    (alike : ∀ d ∈ c.preorder, f d.loc = g d.loc) : c.relocate f = c.relocate g := by
  cases present : c.isMissing with
  | true => cases c <;> first | rfl | cases present
  | false =>
    rw [preorder_eq c present, List.forall_mem_cons] at alike
    refine eq_relocate present (shell_relocate c) ((loc_relocate present).trans alike.1) ?_
    rw [parts_relocate]
    exact List.map_congr_left fun d part =>
      have := sizeOf_lt_of_mem_parts part
      relocate_congr d fun e mem => alike.2 e (List.mem_flatMap.2 ⟨d, part, mem⟩)
termination_by sizeOf c

theorem relocate_same (same : ∀ loc, g loc = loc) (c : Code) : c.relocate g = c := by
  refine eq_of_parts (g := id) shell_relocate (fun c => ?_) parts_relocate
    (fun c => (List.map_id _).symm) c
  cases c <;> first | rfl | exact same _

/-! ## Locating is invisible

A step of the locating walk is a state transformer; run from any count of
locations it returns the code it was given, up to locations in the file. -/

/-- A change that takes the locations in a file for locations that are not
there. -/
def Hides (g : Option Location → Option Location) (file : Bytes) : Prop :=
  ∀ line column index, g (some ⟨file, line, column, index⟩) = g none

/-- **Locating code in a file** changes nothing but locations in it. -/
theorem relocate_stamp (hides : Hides g file) (pos : Position) (c : Code) (n : Nat) :
    (c.stamp file pos n).1.relocate g = c.relocate g := by
  rcases done_or_bare c with done | ⟨present, bare⟩
  · rw [stamp_done done]
  · obtain ⟨located, shells, below⟩ := stamp_bare file pos bare present n
    refine eq_relocate present ((shell_relocate _).trans shells) ?_ ?_
    · rw [loc_relocate ((isMissing_of_shell shells).trans present), located, bare]
      exact hides _ _ _
    · rw [parts_relocate, (Prod.mk.inj below).1]
      exact map_stampAll fun d part m =>
        have := sizeOf_lt_of_mem_parts part
        relocate_stamp hides pos d m
termination_by sizeOf c

theorem identifier_relocate_stamp (hides : Hides g file) (pos : Position) (id : Identifier)
    (n : Nat) : (id.stamp file pos n).1.relocate g = id.relocate g :=
  identifier.inj (relocate_stamp hides pos (.identifier id) n)

end Code

end TemplateCompiler
