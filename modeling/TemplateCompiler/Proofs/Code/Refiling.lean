import TemplateCompiler.Compile.Unit
import TemplateCompiler.Proofs.Code.Erasure

/-!
# Files under other names

Two compilations of one template that go by different file names make the same
code, but for the files in its locations. To say so, the files are renamed:
`Location.refiled` renames the file in a location and leaves places without one
alone. Locating code commutes with renaming (`Code.stamp_refiled`), since it
hands out the same numbers whatever the file is called.
-/

namespace TemplateCompiler

/-- A location with its file renamed. -/
def Location.refile (ρ : Bytes → Bytes) (l : Location) : Location := { l with file := ρ l.file }

/-- **Renaming the file in a location**, if there is one. -/
def Location.refiled (ρ : Bytes → Bytes) : Option Location → Option Location :=
  Option.map (Location.refile ρ)

/-- An import with the file in its location renamed. -/
def ImportRef.refile (ρ : Bytes → Bytes) (r : ImportRef) : ImportRef :=
  { r with loc := Location.refiled ρ r.loc }

/-- Code with files renamed. -/
abbrev Code.refile (ρ : Bytes → Bytes) : Code → Code := Code.relocate (Location.refiled ρ)

/-- **A unit with files renamed**: in its locations, and the one it comes from. -/
def CodeUnit.refile (ρ : Bytes → Bytes) (u : CodeUnit) : CodeUnit where
  loc := Location.refiled ρ u.loc
  name := u.name
  source := ρ u.source
  params := Code.relocateAll (Location.refiled ρ) u.params
  locals := u.locals
  statements := Code.relocateAll (Location.refiled ρ) u.statements
  body := u.body.relocate (Location.refiled ρ)
  imports := u.imports.map (ImportRef.refile ρ)

/-- A program with files renamed. -/
def Program.refile (ρ : Bytes → Bytes) (p : Program) : Program where
  root := p.root.map (CodeUnit.refile ρ)
  units := p.units.map (CodeUnit.refile ρ)
  imports := p.imports.map (ImportRef.refile ρ)

variable {ρ : Bytes → Bytes} {file : Bytes}

namespace Code

theorem refiled_none : Location.refiled ρ none = none := rfl

theorem refiled_some (l : Location) :
    Location.refiled ρ (some l) = some ⟨ρ l.file, l.line, l.column, l.index⟩ := rfl

/-- **Locating commutes with renaming files.** -/
theorem stamp_refiled (pos : Position) (c : Code) (n : Nat) :
    (c.refile ρ).stamp (ρ file) pos n = ((c.stamp file pos n).1.refile ρ, (c.stamp file pos n).2) := by
  rcases done_or_bare c with done | ⟨present, bare⟩
  · have done' : (c.refile ρ).isMissing = true ∨ (c.refile ρ).loc.isSome = true := by
      cases present : c.isMissing with
      | true => exact .inl ((isMissing_relocate c).trans present)
      | false => exact .inr (by simpa [loc_relocate present, Location.refiled, present] using done)
    rw [stamp_done done, stamp_done done']
  · obtain ⟨located, shells, inside⟩ := stamp_bare file pos bare present n
    obtain ⟨located', shells', inside'⟩ := stamp_bare (c := c.refile ρ) (ρ file) pos
      (by rw [loc_relocate present, bare]; rfl) ((isMissing_relocate c).trans present) n
    rw [parts_relocate, stampAll_comm fun d part m =>
      have := sizeOf_lt_of_mem_parts part
      stamp_refiled pos d m, ← inside] at inside'
    obtain ⟨same, count⟩ := Prod.mk.inj inside'
    refine Prod.ext (ext_parts ?_ ?_ ?_) count
    · rw [shells', shell_relocate, shell_relocate, shells]
    · rw [located', loc_relocate ((isMissing_of_shell shells).trans present), located]
      rfl
    · rw [same, parts_relocate]
termination_by sizeOf c

theorem stampAll_refiled (pos : Position) (cs : List Code) (n : Nat) :
    stampAll (ρ file) pos (relocateAll (Location.refiled ρ) cs) n
      = (relocateAll (Location.refiled ρ) (stampAll file pos cs n).1, (stampAll file pos cs n).2) := by
  rw [relocateAll_eq_map, relocateAll_eq_map, stampAll_comm fun c _ => stamp_refiled pos c]

/-- Code that is the same up to the names of files is located alike in files
that go by one name. -/
theorem stamp_alike {file' : Bytes} (files : ρ file = ρ file') (pos : Position) {c c' : Code}
    (same : c.refile ρ = c'.refile ρ) (n : Nat) :
    (c.stamp file pos n).1.refile ρ = (c'.stamp file' pos n).1.refile ρ
      ∧ (c.stamp file pos n).2 = (c'.stamp file' pos n).2 := by
  have left : (c.refile ρ).stamp (ρ file) pos n = _ := stamp_refiled pos c n
  have right : (c'.refile ρ).stamp (ρ file') pos n = _ := stamp_refiled pos c' n
  rw [same, files, right] at left
  exact ⟨(congrArg Prod.fst left).symm, (congrArg Prod.snd left).symm⟩

theorem identifier_stamp_alike {file' : Bytes} (files : ρ file = ρ file') (pos : Position)
    (id : Identifier) (n : Nat) :
    (id.stamp file pos n).1.relocate (Location.refiled ρ)
        = (id.stamp file' pos n).1.relocate (Location.refiled ρ)
      ∧ (id.stamp file pos n).2 = (id.stamp file' pos n).2 := by
  obtain ⟨loc, name, builtin⟩ := id
  cases loc with
  | some _ => exact ⟨rfl, rfl⟩
  | none =>
    refine ⟨congrArg (fun file => Identifier.mk (some ⟨file, pos.line, pos.column, n⟩) name builtin)
      files, rfl⟩

end Code

namespace CodeUnit

/-- **Locating a unit commutes with renaming files.** -/
theorem stamp_refiled (pos : Position) (u : CodeUnit) (n : Nat) :
    (u.refile ρ).stamp (ρ file) pos n = ((u.stamp file pos n).1.refile ρ, (u.stamp file pos n).2) := by
  obtain ⟨loc, name, source, params, locals, statements, body, imports⟩ := u
  cases loc with
  | some _ => rfl
  | none =>
    simp only [CodeUnit.stamp, CodeUnit.refile, Code.refiled_none, Code.refiled_some, Code.stamp,
      Code.bind_apply, Code.pure_apply, Code.next_apply, Code.stampAll_refiled pos params,
      Code.stampAll_refiled pos statements, Code.stamp_refiled pos body]

theorem stamp_alike {file' : Bytes} (files : ρ file = ρ file') (pos : Position) {u u' : CodeUnit}
    (same : u.refile ρ = u'.refile ρ) (n : Nat) :
    (u.stamp file pos n).1.refile ρ = (u'.stamp file' pos n).1.refile ρ
      ∧ (u.stamp file pos n).2 = (u'.stamp file' pos n).2 := by
  have left : (u.refile ρ).stamp (ρ file) pos n = _ := stamp_refiled pos u n
  have right : (u'.refile ρ).stamp (ρ file') pos n = _ := stamp_refiled pos u' n
  rw [same, files, right] at left
  exact ⟨(congrArg Prod.fst left).symm, (congrArg Prod.snd left).symm⟩

end CodeUnit

/-! ## The same names -/

theorem Location.refiled_id (loc : Option Location) : Location.refiled id loc = loc := by
  cases loc <;> rfl

theorem ImportRef.refile_id : ImportRef.refile id = id :=
  funext fun r => congrArg (fun loc => { r with loc }) (Location.refiled_id r.loc)

theorem CodeUnit.refile_id (u : CodeUnit) : u.refile id = u := by
  have code : Code.relocate (Location.refiled id) = id :=
    funext (Code.relocate_same Location.refiled_id)
  simp only [CodeUnit.refile, Location.refiled_id, Code.relocateAll_eq_map, code,
    ImportRef.refile_id, List.map_id, id]

/-- **A program whose files keep their names** stays as it is. -/
theorem Program.refile_id (p : Program) : p.refile id = p := by
  have units : CodeUnit.refile id = id := funext CodeUnit.refile_id
  simp only [Program.refile, units, ImportRef.refile_id, Option.map_id, List.map_id, id]

end TemplateCompiler
