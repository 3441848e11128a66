import TemplateCompiler.Code.Scope
import TemplateCompiler.Proofs.Code.Relocation

/-!
# Code without locations

A location says where code came from, not what it does. `Code.erase` takes the
locations off, and its pieces are the same before and after, up to theirs
(`Code.preorder_erase`). Handing out locations is
invisible once they are taken off again (`Code.erase_stamp`), so a statement
about erased code holds of code at any stage of a compilation.
-/

namespace TemplateCompiler

/-- A name without its location. -/
def Identifier.erase (id : Identifier) : Identifier := { id with loc := none }

@[simp] theorem Identifier.erase_name (id : Identifier) : id.erase.name = id.name := rfl

@[simp] theorem Identifier.erase_builtin (id : Identifier) :
    id.erase.builtin = id.builtin := rfl

/-- An import without its location. -/
def ImportRef.erase (r : ImportRef) : ImportRef := { r with loc := none }

/-- A pattern without its locations. -/
def Destructure.erase (d : Destructure) : Destructure :=
  ⟨none, d.names.map Identifier.erase, d.keys⟩

namespace Code

mutual

/-- **A piece of code without its locations**, nor those of what is below
it. -/
def erase : Code → Code
  | .missing => .missing
  | .literal _ kind value => .literal none kind value
  | .identifier id => .identifier id.erase
  | .member _ o p computed => .member none o.erase p.erase computed
  | .call _ f args => .call none f.erase (eraseAll args)
  | .unary _ op a => .unary none op a.erase
  | .binary _ op l r => .binary none op l.erase r.erase
  | .logical _ op l r => .logical none op l.erase r.erase
  | .conditional _ t a b => .conditional none t.erase a.erase b.erase
  | .array _ es => .array none (eraseAll es)
  | .object _ props => .object none (eraseProps props)
  | .sequence _ es => .sequence none (eraseAll es)
  | .interpolation _ tag runs holes => .interpolation none tag runs (eraseAll holes)
  | .assign _ t v => .assign none t.erase v.erase
  | .lambda _ params body block =>
    .lambda none (eraseAll params) body.erase (eraseAll block)
  | .destructure d => .destructure d.erase
  | .function ⟨_, name, source, params, locals, statements, body, imports⟩ =>
    .function ⟨none, name, source, eraseAll params, locals, eraseAll statements, body.erase,
      imports.map ImportRef.erase⟩
  | .importRef r => .importRef r.erase

/-- `erase` of each piece. -/
def eraseAll : List Code → List Code
  | [] => []
  | c :: cs => c.erase :: eraseAll cs

/-- `erase` of the values of an object. -/
def eraseProps : List (Bytes × Code) → List (Bytes × Code)
  | [] => []
  | (key, c) :: props => (key, c.erase) :: eraseProps props

end

theorem eraseAll_eq_map (cs : List Code) : eraseAll cs = cs.map erase := by
  induction cs with
  | nil => rfl
  | cons c cs ih => rw [eraseAll, ih]; rfl

theorem eraseProps_eq_map (props : List (Bytes × Code)) :
    eraseProps props = props.map fun p => (p.1, p.2.erase) := by
  induction props with
  | nil => rfl
  | cons p props ih => obtain ⟨key, c⟩ := p; rw [eraseProps, ih]; rfl

@[simp] theorem erase_ident (name : Bytes) : (ident name).erase = ident name := by
  rw [ident, erase]; rfl

theorem isMissing_erase (c : Code) : c.erase.isMissing = c.isMissing := by cases c <;> rfl

/-! ## Locating is invisible -/

theorem loc_erase (c : Code) : c.erase.loc = none := by cases c <;> rfl

theorem parts_erase (c : Code) : c.erase.parts = c.parts.map erase := by
  cases c with
  | destructure d => simp [erase, parts, Destructure.erase, Function.comp_def]
  | function u => cases u; simp [erase, parts, eraseAll_eq_map]
  | object loc props => simp [erase, parts, eraseProps_eq_map, Function.comp_def]
  | _ => simp [erase, parts, eraseAll_eq_map]

/-- The imports of a unit are in its shell. -/
theorem shell_erase (c : Code) : c.erase.shell = c.shell.erase := by
  cases c with
  | function u => cases u; simp [erase, shell, eraseAll_eq_map, Function.comp_def]
  | _ =>
    simp [erase, shell, Destructure.erase, Identifier.erase, ImportRef.erase, eraseAll_eq_map,
      eraseProps_eq_map, Function.comp_def]

/-- Erased code has no locations left to change. -/
theorem erase_relocate (g : Option Location → Option Location) (c : Code) :
    (c.relocate g).erase = c.erase := by
  refine eq_of_parts (f := fun c => (c.relocate g).erase) (fun c => ?_) (fun c => ?_)
    (fun c => ?_) parts_erase c
  · rw [shell_erase, shell_relocate, shell_erase]
  · rw [loc_erase, loc_erase]
  · rw [parts_erase, parts_relocate, List.map_map]
    rfl

theorem eraseAll_relocateAll (g : Option Location → Option Location) (cs : List Code) :
    eraseAll (relocateAll g cs) = eraseAll cs := by
  simp only [eraseAll_eq_map, relocateAll_eq_map, List.map_map, Function.comp_def, erase_relocate]

/-- Code that looks the same, whatever is seen of its locations, is the same
without them. -/
theorem erase_eq_of_relocate {g : Option Location → Option Location} {c d : Code}
    (same : c.relocate g = d.relocate g) : c.erase = d.erase := by
  rw [← erase_relocate g c, same, erase_relocate]

/-- **Locating code changes nothing but locations.** -/
theorem erase_stamp (file : Bytes) (pos : Position) (c : Code) (n : Nat) :
    (c.stamp file pos n).1.erase = c.erase :=
  erase_eq_of_relocate (g := fun _ => none) (relocate_stamp (fun _ _ _ => rfl) pos c n)

/-! ## What does not depend on locations -/

@[simp] theorem binders_erase (c : Code) : c.erase.binders = c.binders := by
  cases c with
  | destructure d =>
    rw [erase, binders, binders, Destructure.erase, List.map_map]
    rfl
  | _ => rfl

/-- **Erasing goes through the walk**: the pieces of erased code are the
erased pieces. -/
theorem preorder_erase (c : Code) : c.erase.preorder = c.preorder.map erase :=
  preorder_map isMissing_erase parts_erase c

end Code

end TemplateCompiler
