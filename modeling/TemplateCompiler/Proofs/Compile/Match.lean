import TemplateCompiler.Proofs.Compile.Lowered

/-!
# Matching code in a world

What two corresponding compilations have made matches, in the sense of
`Lowered`, with the calls of the world they have reached (`Match`), and the
includes they have passed are compiled (`Done`). Locations never matter, so
locating matching code keeps it matching (`Related.locate`), and so does
putting matching parts together to a body (`BodyPart.code_match`).
-/

open List

namespace TemplateCompiler

/-- Locating code is quiet, and invisible without locations. -/
theorem Site.quiet_locate (site : Site) (pos : Position) (c : Code) :
    (site.locate pos c).Quiet fun c' => c'.erase = c.erase :=
  Compile.Quiet.locating fun n => Code.erase_stamp site.file pos c n

namespace Correspondence

variable {c d : Code} {cs ds : List Code} {β ι : Type}

variable (K : Correspondence) (sets : Prop)

/-- Code that matches in a world. -/
def Match (w : K.World) (c d : Code) : Prop := Lowered sets (K.Calls w) c.erase d.erase

/-- These includes have been compiled. -/
def Done (w : K.World) (is : List Inclusion) : Prop := ∀ i ∈ is, K.Met w i

/-- Code that matches, made after these includes were compiled. -/
def Lowers (is : List Inclusion) (w : K.World) (c d : Code) : Prop :=
  K.Match sets w c d ∧ K.Done w is

/-- Lists of code that match, made after these includes were compiled. -/
def LowersAll (is : List Inclusion) (w : K.World) (cs ds : List Code) : Prop :=
  List.Forall₂ (K.Match sets w) cs ds ∧ K.Done w is

variable {K sets} {v w : K.World} {is js : List Inclusion}

theorem Match.later (h : K.Match sets v c d) (later : K.Later v w) :
    K.Match sets w c d :=
  Lowered.mono h id fun _ _ => K.calls_mono later

theorem Done.later (h : K.Done v is) (later : K.Later v w) : K.Done w is :=
  fun i m => K.met_mono later (h i m)

theorem Done.append (h : K.Done w is) (h' : K.Done w js) : K.Done w (is ++ js) :=
  fun i m => (mem_append.mp m).elim (h i) (h' i)

theorem Done.nil : K.Done w [] := fun _ m => absurd m not_mem_nil

theorem Done.flatMap {f : ι → List Inclusion} {xs : List ι} {bs : List β}
    (each : List.Forall₂ (fun x _ => K.Done w (f x)) xs bs) : K.Done w (xs.flatMap f) := by
  induction each with
  | nil => exact nil
  | cons first _ ih => exact first.append ih

/-- Pairs of results, as two lists. -/
theorem forall₂_results {α : Type} {Q : α → β → Prop} {xs : List ι} {rs : List (α × β)}
    (each : List.Forall₂ (fun _ r => Q r.1 r.2) xs rs) :
    List.Forall₂ Q (rs.map Prod.fst) (rs.map Prod.snd) := by
  induction each with
  | nil => exact .nil
  | cons first _ ih => exact .cons first ih

theorem matches_later (h : List.Forall₂ (K.Match sets v) cs ds) (later : K.Later v w) :
    List.Forall₂ (K.Match sets w) cs ds :=
  h.imp fun _ _ m => m.later later

/-- Steps over a list that give matching code. -/
theorem Related.lowersAll {xs : List ι} {f g : ι → Compile Code} {is : ι → List Inclusion}
    (each : ∀ x ∈ xs, ∀ w, K.Related w (K.Lowers sets (is x)) (f x) (g x)) (w : K.World) :
    K.Related w (K.LowersAll sets (xs.flatMap is)) (xs.mapM f) (xs.mapM g) := by
  refine (mapM (R := fun v x r => K.Lowers sets (is x) v r.1 r.2)
    (fun later h => ⟨h.1.later later, h.2.later later⟩) each w).imp ?_
  rintro v _ _ - ⟨rs, all, rfl, rfl⟩
  exact ⟨forall₂_results (all.imp fun _ _ h => h.1), Done.flatMap (all.imp fun _ _ h => h.2)⟩

/-- Matching lists, as the forms of `Lowered` take them. -/
theorem zip_eraseAll (h : List.Forall₂ (K.Match sets w) cs ds) :
    (Code.eraseAll cs).length = (Code.eraseAll ds).length
      ∧ ∀ p ∈ (Code.eraseAll cs).zip (Code.eraseAll ds), Lowered sets (K.Calls w) p.1 p.2 := by
  rw [Code.eraseAll_eq_map, Code.eraseAll_eq_map]
  have mapped : List.Forall₂ (Lowered sets (K.Calls w)) (cs.map Code.erase)
      (ds.map Code.erase) := by
    rw [forall₂_map_left_iff, forall₂_map_right_iff]
    exact h
  exact ⟨mapped.length_eq, fun p m => (forall₂_iff_zip.mp mapped).2 m⟩

/-- **Locating matching code** gives matching code. -/
theorem Related.locate {site site' : Site} {pos : Position} (h : K.Lowers sets is w c d) :
    K.Related w (K.Lowers sets is) (site.locate pos c) (site'.locate pos d) := by
  refine Related.quiet (site.quiet_locate pos c) (site'.quiet_locate pos d) ?_
  intro c' d' left right
  refine ⟨?_, h.2⟩
  rw [Match, left, right]
  exact h.1

end Correspondence

/-! ## Bodies -/

namespace BodyPart

/-- Text without holes is a string, and text with holes an interpolation. -/
def mixed (parts : List BodyPart) : Code :=
  match parts.filterMap hole? with
  | [] => .str (parts.filterMap text?).flatten
  | holes => .interpolation none Script.htmlTag (runs parts) holes

/-- The code of a body, before it is located. -/
def code (parts : List BodyPart) : Code :=
  match parts with
  | [.text _ content] => .str content
  | [.hole code] => code
  | _ => mixed parts

/-- Where the code of a body is located. Text alone has a place of its own. -/
def place (pos : Position) : List BodyPart → Position
  | [.text textPos _] => textPos
  | _ => pos

/-- **Assembling a body** locates its code, unless that is the code of a
single hole. -/
theorem assemble_eq (pos : Position) (parts : List BodyPart) :
    (∃ c, parts = [.hole c])
      ∨ ∀ site, assemble site pos parts = site.locate (place pos parts) (code parts) := by
  have several (site : Site) : (match parts.filterMap hole? with
      | [] => site.locate pos (.str (parts.filterMap text?).flatten)
      | holes => site.locate pos (.interpolation none Script.htmlTag (runs parts) holes))
        = site.locate pos (mixed parts) := by
    unfold mixed
    cases parts.filterMap hole? <;> rfl
  match parts, several with
  | [], several => exact .inr several
  | [.text ..], _ => exact .inr fun _ => rfl
  | [.hole c], _ => exact .inl ⟨c, rfl⟩
  | p :: _ :: _, several => cases p <;> exact .inr several

theorem quiet_assemble (site : Site) (pos : Position) (parts : List BodyPart) :
    (assemble site pos parts).Quiet fun c => c.erase = (code parts).erase := by
  rcases assemble_eq pos parts with ⟨c, rfl⟩ | same
  · exact Compile.Quiet.pure rfl
  · rw [same]
    exact site.quiet_locate _ _

variable {K : Correspondence} {sets : Prop} {v w : K.World}

/-- Parts of bodies that match. -/
inductive Matches (K : Correspondence) (sets : Prop) (w : K.World) :
    BodyPart → BodyPart → Prop where
  | text (pos : Position) (content : Bytes) : Matches K sets w (.text pos content) (.text pos content)
  | hole {c d : Code} (h : K.Match sets w c d) : Matches K sets w (.hole c) (.hole d)

theorem Matches.later {p q : BodyPart} (h : Matches K sets v p q) (later : K.Later v w) :
    Matches K sets w p q := by
  cases h with
  | text pos content => exact .text pos content
  | hole h => exact .hole (h.later later)

/-- There is one run more than there are holes. -/
theorem length_runs (parts : List BodyPart) :
    (runs parts).length = (parts.filterMap hole?).length + 1 := by
  induction parts with
  | nil => rfl
  | cons p parts ih =>
    cases p with
    | hole c => rw [runs, length_cons, ih]; rfl
    | text pos content =>
      rw [runs]
      have rest : (parts.filterMap hole?).length + 1 = (runs parts).length := ih.symm
      cases r : runs parts with
      | nil => rw [r] at rest; exact absurd rest (by simp)
      | cons run more => rw [r] at rest; exact rest.symm

section

variable {ps qs : List BodyPart} (h : List.Forall₂ (Matches K sets w) ps qs)
include h

theorem holes_match : List.Forall₂ (K.Match sets w) (ps.filterMap hole?) (qs.filterMap hole?) := by
  induction h with
  | nil => exact .nil
  | cons head _ ih =>
    cases head with
    | text pos content => exact ih
    | hole m => exact .cons m ih

theorem texts_eq : ps.filterMap text? = qs.filterMap text? := by
  induction h with
  | nil => rfl
  | cons head _ ih =>
    cases head with
    | text pos content => exact congrArg (List.cons content) ih
    | hole m => exact ih

theorem runs_eq : runs ps = runs qs := by
  induction h with
  | nil => rfl
  | cons head _ ih =>
    cases head with
    | text pos content => rw [runs, runs, ih]
    | hole m => rw [runs, runs, ih]

/-- **Matching parts make matching bodies.** -/
theorem code_match : K.Match sets w (code ps) (code qs) := by
  have several : K.Match sets w (mixed ps) (mixed qs) := by
    rw [Correspondence.Match, mixed, mixed, ← texts_eq h, ← runs_eq h]
    have holes := holes_match h
    have count := length_runs ps
    revert holes count
    generalize ps.filterMap hole? = cs
    generalize qs.filterMap hole? = ds
    intro holes count
    cases holes with
    | nil => exact Lowered.literal (.string _) rfl
    | cons m ms =>
      obtain ⟨lengths, all⟩ := Correspondence.zip_eraseAll (List.Forall₂.cons m ms)
      refine Lowered.interpolation ?_ lengths all
      rw [count, Code.eraseAll_eq_map, length_map]
  cases h with
  | nil => exact several
  | cons head tail =>
    cases tail with
    | nil =>
      cases head with
      | text pos content => exact Lowered.literal (.string content) rfl
      | hole m => exact m
    | cons => cases head <;> exact several

/-- **Assembling matching parts** gives matching bodies. -/
theorem assemble_related {site site' : Site} {pos pos' : Position} {is : List Inclusion}
    (done : K.Done w is) :
    K.Related w (K.Lowers sets is) (assemble site pos ps) (assemble site' pos' qs) := by
  refine Correspondence.Related.quiet (quiet_assemble site pos ps) (quiet_assemble site' pos' qs) ?_
  intro c d left right
  refine ⟨?_, done⟩
  rw [Correspondence.Match, left, right]
  exact code_match h

end

end BodyPart

end TemplateCompiler
