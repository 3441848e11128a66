import TemplateCompiler.Proofs.Code.Scoping

/-!
# Lexical scope

`Code.places` walks through code in preorder and lists the pieces that it
visits, each with the parameters of the functions around it. The scope of a
piece of code is the one that lexical scoping gives along this walk
(`Scope.ofCode_lexical`).
-/

open List

namespace TemplateCompiler

namespace Code

/-- **The places in a piece of code**, in preorder: what stands there and the
parameters of the functions around it, those of the innermost one first. -/
def places (around : List (List Code)) (c : Code) : List (List (List Code) × Code) :=
  (around, c) :: c.visited.attach.flatMap fun q => q.1.2.places (q.1.1 ++ around)
termination_by sizeOf c
decreasing_by exact sizeOf_lt_of_mem_parts (mem_parts_of_visited q.2)

theorem places_eq (around : List (List Code)) (c : Code) :
    c.places around = (around, c) :: c.visited.flatMap fun q => q.2.places (q.1 ++ around) := by
  rw [places, flatMap_subtype (g := fun q => q.2.places (q.1 ++ around)) fun _ _ => rfl,
    unattach_attach]

/-- **What occurs in code** is what occurs at its places. -/
theorem occurrences_eq_places (around : List (List Code)) (c : Code) :
    c.occurrences (boundBy around)
      = (c.places around).flatMap fun q => q.2.occurrence (boundBy q.1) := by
  rw [occurrences_eq, places_eq, flatMap_cons, flatMap_assoc]
  congr 1
  refine flatMap_congr fun q mem => ?_
  have smaller := sizeOf_lt_of_mem_parts (mem_parts_of_visited mem)
  rw [← boundBy_append, occurrences_eq_places]
termination_by sizeOf c

/-- The name that is assigned at a place. -/
def assigns? : Code → Option Bytes
  | .assign _ (.identifier id) _ => some id.name
  | _ => none

/-- The name that a place refers to, if it is not one of the script's own. -/
def refers? : Code → Option Bytes
  | .identifier id => if id.builtin then none else some id.name
  | _ => none

/-- The names that `name?` finds at the places of a piece of code, each where
it comes first; those that are bound around their place or known are left
out. -/
def namesAt (name? : Code → Option Bytes) (known : List Bytes) (c : Code) : List Bytes :=
  ((c.places []).filterMap fun (around, d) =>
    (name? d).filter (· ∉ boundBy around ++ known)).eraseDups

theorem assigned?_occurrence (bound known : List Bytes) (c : Code) :
    ((c.occurrence bound).filterMap Occurrence.assigned?).filter (!known.contains ·)
      = (c.assigns?.filter (· ∉ bound ++ known)).toList := by
  unfold occurrence
  split
  · unfold reference assigns?
    split <;> rfl
  · unfold assignment assigns?
    grind [Occurrence.assigned?]
  · next assign =>
    unfold assigns?
    split
    · exact absurd rfl (assign _ _ _)
    · rfl

theorem read?_occurrence (bound known : List Bytes) (c : Code) :
    ((c.occurrence bound).filterMap Occurrence.read?).filter (!known.contains ·)
      = (c.refers?.filter (· ∉ bound ++ known)).toList := by
  unfold occurrence
  split
  · unfold reference refers?
    grind [Occurrence.read?]
  · unfold assignment refers?
    split <;> rfl
  · next identifier _ =>
    unfold refers?
    split
    · exact absurd rfl (identifier _)
    · rfl

/-- What can be told of the occurrences at each place, can be told of all. -/
theorem namesAt_eq {occurring? : Occurrence → Option Bytes} {name? : Code → Option Bytes}
    {known : List Bytes}
    (here : ∀ bound d, ((occurrence bound d).filterMap occurring?).filter (!known.contains ·)
      = ((name? d).filter (· ∉ bound ++ known)).toList) (c : Code) :
    (((c.occurrences []).filterMap occurring?).filter (!known.contains ·)).eraseDups
      = c.namesAt name? known := by
  have found := occurrences_eq_places [] c
  rw [boundBy_nil] at found
  rw [found, filterMap_flatMap, filter_flatMap, namesAt, filterMap_eq_flatMap_toList]
  simp only [here]

end Code

namespace Scope

/-- **The scope that lexical scoping gives** to a piece of code, where `known`
are the names that are never inputs. -/
structure Lexical (known : List Bytes) (c : Code) (s : Scope) : Prop where
  declared : s.declared = c.namesAt Code.assigns? known
  free : s.free = c.namesAt Code.refers? (s.declared ++ known)
  distinct : s.declared.Nodup ∧ s.free.Nodup
  disjoint : s.declared.Disjoint s.free
  unknown : ∀ name ∈ s.declared ++ s.free, name ∉ known

/-- **Scopes are lexical.** -/
theorem ofCode_lexical (reserved : List Bytes) (c : Code) :
    Lexical (reservedNames reserved) c (ofCode reserved c) where
  declared := Code.namesAt_eq (Code.assigned?_occurrence · _) c
  free := by
    rw [← Code.namesAt_eq (Code.read?_occurrence · _) c]
    show List.filter (!(ofCode reserved c).declared.contains ·) (List.eraseDups _) = _
    rw [← eraseDups_filter, List.filter_filter]
    simp only [List.contains_append, Bool.not_or]
  distinct := ⟨nodup_declared _ _, nodup_free _ _⟩
  disjoint := fun _ assigned read => (mem_free.mp read).2.2 assigned
  unknown := by
    intro name mem
    rcases List.mem_append.mp mem with assigned | read
    · exact (mem_declared.mp assigned).2
    · exact (mem_free.mp read).2.1

end Scope

end TemplateCompiler
