import TemplateCompiler.Proofs.Code.Erasure

/-!
# Scopes of code with the same needs

The names that occur in code stand in it themselves or occur in the parts that
are visited (`Code.occurrences_eq`). They do not depend on locations
(`Code.occurrences_erase`), and binding more names around the code takes their
occurrences out and changes nothing else (`Code.occurrences_append`). What a
scope declares is assigned in it, and what is free in it is read and not
assigned (`Scope.mem_declared`, `Scope.mem_free`).
-/

open List

namespace TemplateCompiler

/-! ## First occurrences -/

section

variable {α : Type} [BEq α] [LawfulBEq α]

theorem eraseDups_concat (l : List α) (a : α) :
    (l ++ [a]).eraseDups = if l.elem a then l.eraseDups else l.eraseDups ++ [a] := by
  rw [eraseDups_append, removeAll]
  by_cases old : a ∈ l <;> simp [eraseDups_cons, old]

theorem eraseDups_filter (p : α → Bool) (l : List α) :
    (l.filter p).eraseDups = l.eraseDups.filter p := by
  induction l using List.reverseRecOn with
  | nil => rfl
  | append_singleton l a ih =>
    cases keep : p a <;> by_cases old : a ∈ l <;> simp [eraseDups_concat, keep, old, ih]

theorem nodup_eraseDups (l : List α) : l.eraseDups.Nodup := by
  induction l using List.reverseRecOn with
  | nil => exact nodup_nil
  | append_singleton l a ih =>
    rw [eraseDups_concat]
    split
    · exact ih
    · next new =>
      rw [nodup_append_comm]
      exact nodup_cons.2 ⟨by simpa using new, ih⟩

theorem eraseDups_of_nodup {l : List α} (h : l.Nodup) : l.eraseDups = l := by
  induction l using List.reverseRecOn with
  | nil => rfl
  | append_singleton l a ih =>
    rw [nodup_append_comm, singleton_append, nodup_cons] at h
    simp [eraseDups_concat, h.1, ih h.2]

/-- What comes first in a list depends on what comes first in its parts. -/
theorem eraseDups_append_congr {as as' bs bs' : List α} (front : as.eraseDups = as'.eraseDups)
    (back : bs.eraseDups = bs'.eraseDups) : (as ++ bs).eraseDups = (as' ++ bs').eraseDups := by
  have same : ∀ a, as.elem a = as'.elem a := by
    intro a
    rw [Bool.eq_iff_iff, elem_iff, elem_iff, ← mem_eraseDups, front,
      mem_eraseDups]
  rw [eraseDups_append, eraseDups_append, front, List.removeAll, List.removeAll,
    eraseDups_filter, eraseDups_filter, back]
  simp only [same]

end

/-! ## What is visited

The name of a static member, a parameter and a name that is assigned are not
visited; all other parts are, in the order of `Code.parts`. -/

namespace Code

/-- The names that functions with these parameters bind. -/
def boundBy (around : List (List Code)) : List Bytes := around.flatMap (·.flatMap binders)

@[simp, grind =] theorem boundBy_nil : boundBy [] = [] := rfl

@[simp, grind =] theorem boundBy_singleton (params : List Code) :
    boundBy [params] = params.flatMap binders :=
  flatMap_singleton _ _

@[simp] theorem boundBy_append (around outer : List (List Code)) :
    boundBy (around ++ outer) = boundBy around ++ boundBy outer :=
  flatMap_append

/-- **The parts that are visited**, each with the parameters of the function
that it is in, if that is a new one. -/
def visited : Code → List (List (List Code) × Code)
  | .member _ o p computed => ([], o) :: if computed then [([], p)] else []
  | .assign _ (.identifier _) v => [([], v)]
  | .lambda _ params body block => (body :: block).map ([params], ·)
  | .function u => (u.statements ++ [u.body]).map ([u.params], ·)
  | c => c.parts.map ([], ·)

theorem mem_parts_of_visited {c : Code} {q : List (List Code) × Code} (mem : q ∈ c.visited) :
    q.2 ∈ c.parts := by
  unfold visited at mem
  split at mem
  · grind [parts]
  · grind [parts]
  · grind [parts]
  · grind [parts]
  · obtain ⟨d, part, rfl⟩ := mem_map.mp mem
    exact part

theorem occurrencesAll_eq_flatMap (bound : List Bytes) (cs : List Code) :
    occurrencesAll bound cs = cs.flatMap (occurrences bound) := by
  induction cs with
  | nil => rfl
  | cons c cs ih => rw [occurrencesAll, ih]; rfl

theorem occurrencesProps_eq (bound : List Bytes) (props : List (Bytes × Code)) :
    occurrencesProps bound props = occurrencesAll bound (props.map Prod.snd) := by
  induction props with
  | nil => rfl
  | cons p props ih =>
    obtain ⟨key, c⟩ := p
    rw [occurrencesProps, ih]
    rfl

/-- The occurrence at a place itself. -/
def occurrence (bound : List Bytes) : Code → List Occurrence
  | .identifier id => reference bound id
  | .assign _ (.identifier id) _ => assignment bound id.name
  | _ => []

/-- A name occurs in code where it stands itself, or in a part that is
visited. -/
theorem occurrences_eq (bound : List Bytes) (c : Code) :
    c.occurrences bound
      = c.occurrence bound ++ c.visited.flatMap fun q => q.2.occurrences (boundBy q.1 ++ bound) := by
  cases c with
  | member loc o p computed => cases computed <;> simp [occurrences, occurrence, visited]
  | assign loc t v => cases t <;> simp [occurrences, occurrence, visited, parts]
  | object loc props =>
    rw [occurrences, occurrencesProps_eq, occurrencesAll_eq_flatMap]
    simp [occurrence, visited, parts, flatMap_map]
  | destructure d => simp [occurrences, occurrence, visited, parts, flatMap_map]
  | function u =>
    cases u
    simp [occurrences, occurrence, visited, occurrencesAll_eq_flatMap, flatMap_map]
  | _ =>
    simp [occurrences, occurrence, visited, parts, occurrencesAll_eq_flatMap, flatMap_map]

end Code

/-! ## Binding names -/

/-- The name that is read or assigned. -/
def Occurrence.name : Occurrence → Bytes
  | .read name | .assigned name => name

/-- The occurrences that are left when names around them are bound. -/
def unbound (bound : List Bytes) (places : List Occurrence) : List Occurrence :=
  places.filter fun o => !bound.contains o.name

theorem unbound_append (bound : List Bytes) (ps qs : List Occurrence) :
    unbound bound (ps ++ qs) = unbound bound ps ++ unbound bound qs :=
  filter_append ps qs

namespace Code

theorem reference_append (xs bound : List Bytes) (id : Identifier) :
    reference (xs ++ bound) id = unbound bound (reference xs id) := by
  unfold reference unbound
  cases id.builtin <;> by_cases here : id.name ∈ xs <;> by_cases there : id.name ∈ bound <;>
    simp [here, there, Occurrence.name]

theorem assignment_append (xs bound : List Bytes) (name : Bytes) :
    assignment (xs ++ bound) name = unbound bound (assignment xs name) := by
  unfold assignment unbound
  by_cases here : name ∈ xs <;> by_cases there : name ∈ bound <;>
    simp [here, there, Occurrence.name]

theorem occurrence_append (xs bound : List Bytes) (c : Code) :
    c.occurrence (xs ++ bound) = unbound bound (c.occurrence xs) := by
  unfold occurrence
  split
  · exact reference_append xs bound _
  · exact assignment_append xs bound _
  · rfl

/-- **Binding more names** takes their occurrences out. -/
theorem occurrences_append (xs bound : List Bytes) (c : Code) :
    c.occurrences (xs ++ bound) = unbound bound (c.occurrences xs) := by
  rw [occurrences_eq, occurrences_eq xs, unbound_append, occurrence_append]
  congr 1
  rw [unbound, filter_flatMap]
  refine flatMap_congr fun q mem => ?_
  have smaller := sizeOf_lt_of_mem_parts (mem_parts_of_visited mem)
  rw [← append_assoc, occurrences_append]
  rfl
termination_by sizeOf c

/-! ## Locations -/

theorem boundBy_erase (around : List (List Code)) : boundBy (around.map eraseAll) = boundBy around := by
  simp only [boundBy, flatMap_map, eraseAll_eq_map, binders_erase]

/-- Erasing goes through the parts that are visited. -/
theorem visited_erase (c : Code) :
    c.erase.visited = c.visited.map fun q => (q.1.map eraseAll, q.2.erase) := by
  cases c with
  | member loc o p computed => cases computed <;> rfl
  | assign loc t v => cases t <;> rfl
  | lambda loc params body block => simp [erase, visited, eraseAll_eq_map, Function.comp_def]
  | function u => cases u; simp [erase, visited, eraseAll_eq_map, Function.comp_def]
  | _ =>
    simp [erase, visited, parts, eraseAll_eq_map, eraseProps_eq_map, Destructure.erase,
      Function.comp_def]

/-- **The names that code reads and assigns do not depend on locations.** -/
theorem occurrences_erase (bound : List Bytes) (c : Code) :
    c.erase.occurrences bound = c.occurrences bound := by
  have here : c.erase.occurrence bound = c.occurrence bound := by
    cases c with
    | assign loc t v => cases t <;> rfl
    | _ => rfl
  rw [occurrences_eq, occurrences_eq bound c, here, visited_erase, flatMap_map]
  congr 1
  refine flatMap_congr fun q mem => ?_
  have smaller := sizeOf_lt_of_mem_parts (mem_parts_of_visited mem)
  rw [boundBy_erase, occurrences_erase]
termination_by sizeOf c

theorem occurrencesAll_erase (bound : List Bytes) (cs : List Code) :
    occurrencesAll bound (eraseAll cs) = occurrencesAll bound cs := by
  simp only [occurrencesAll_eq_flatMap, eraseAll_eq_map, flatMap_map, occurrences_erase]

end Code

/-! ## What is in a scope -/

namespace Scope

variable {known : List Bytes} {ps : List Occurrence} {name : Bytes}

/-- The names that are assigned. -/
def assignedIn (places : List Occurrence) : List Bytes := places.filterMap Occurrence.assigned?

theorem mem_assignedIn : name ∈ assignedIn ps ↔ .assigned name ∈ ps := by
  rw [assignedIn, mem_filterMap]
  constructor
  · rintro ⟨o, mem, found⟩
    cases o with
    | assigned other => exact Option.some.inj found ▸ mem
    | read other => cases found
  · exact fun mem => ⟨_, mem, rfl⟩

theorem mem_reads : name ∈ ps.filterMap Occurrence.read? ↔ .read name ∈ ps := by
  rw [mem_filterMap]
  constructor
  · rintro ⟨o, mem, found⟩
    cases o with
    | read other => exact Option.some.inj found ▸ mem
    | assigned other => cases found
  · exact fun mem => ⟨_, mem, rfl⟩

theorem nodup_free (known : List Bytes) (ps : List Occurrence) :
    (ofOccurrences known ps).free.Nodup :=
  (nodup_eraseDups _).filter _

theorem nodup_declared (known : List Bytes) (ps : List Occurrence) :
    (ofOccurrences known ps).declared.Nodup :=
  nodup_eraseDups _

/-- What is free is read somewhere, is not known, and is not declared. -/
theorem mem_free :
    name ∈ (ofOccurrences known ps).free
      ↔ .read name ∈ ps ∧ name ∉ known ∧ name ∉ (ofOccurrences known ps).declared := by
  show name ∈ List.filter (!(ofOccurrences known ps).declared.contains ·)
    (List.eraseDups (List.filter _ _)) ↔ _
  rw [mem_filter, mem_eraseDups, mem_filter, mem_reads, and_assoc]
  simp only [Bool.not_eq_true', contains_eq_mem, decide_eq_false_iff_not]

/-- What is declared is assigned somewhere, and is not known. -/
theorem mem_declared :
    name ∈ (ofOccurrences known ps).declared ↔ .assigned name ∈ ps ∧ name ∉ known := by
  show name ∈ List.eraseDups (List.filter _ (assignedIn ps)) ↔ _
  rw [mem_eraseDups, mem_filter, mem_assignedIn]
  simp

end Scope

end TemplateCompiler
