import TemplateCompiler.Proofs.Code.Scoping
import TemplateCompiler.Proofs.Script.Names

/-!
# Scopes of code and of the template behind it

Generated code mentions more than its template does. The items of a loop are
tested before they are taken, and a value with several targets is copied from
the first one. What such mentions add makes no difference to a scope: the
names were read or assigned before. `Scope.Agree` compares lists of
occurrences up to that. It does not ask where a name is read that is assigned
in the same list, since no scope tells. This is kept when lists are put
together, and when names around them are bound.

`Scope.Spells` compares the occurrences of code with those of a template,
which uses names of its own: it says that the code agrees with the template
when the template's names are spelled as in generated code.
-/

open List

namespace TemplateCompiler

/-- What is in the front already does not come first behind it. -/
theorem eraseDups_append_of_subset {as bs : List Bytes} (h : bs ⊆ as) :
    (as ++ bs).eraseDups = as.eraseDups := by
  have nothing : bs.removeAll as = [] :=
    filter_eq_nil_iff.2 fun b mem => by simpa using h mem
  rw [eraseDups_append, nothing]
  exact append_nil _

namespace Scope

/-- The names that are read and are not among those in `assigned`, each where
it comes first. -/
def needs (known assigned : List Bytes) (places : List Occurrence) : List Bytes :=
  ((places.filterMap Occurrence.read?).filter
    fun name => !known.contains name && !assigned.contains name).eraseDups

variable {known : List Bytes} {ps ps' qs qs' rs : List Occurrence}

theorem assignedIn_append (ps qs : List Occurrence) :
    assignedIn (ps ++ qs) = assignedIn ps ++ assignedIn qs := filterMap_append

theorem assignedIn_unbound (bound : List Bytes) (ps : List Occurrence) :
    assignedIn (unbound bound ps) = (assignedIn ps).filter (!bound.contains ·) := by
  rw [assignedIn, assignedIn, unbound, filterMap_filter, filter_filterMap]
  refine filterMap_congr fun o _ => ?_
  cases o <;> simp [Occurrence.name, Occurrence.assigned?, Option.filter]

/-- A scope tells what is assigned and what is needed. -/
theorem ofOccurrences_eq (known : List Bytes) (ps : List Occurrence) :
    ofOccurrences known ps
      = ⟨(assignedIn ps).eraseDups.filter (!known.contains ·), needs known (assignedIn ps) ps⟩ := by
  rw [ofOccurrences, needs, ← eraseDups_filter, ← eraseDups_filter, filter_filter]
  refine congrArg (Scope.mk _) (congrArg List.eraseDups (filter_congr fun name _ => ?_))
  -- A name that is not known is declared if it is assigned at all.
  by_cases outside : name ∈ known <;> simp [outside, assignedIn]

/-- What is needed beside more assignments. -/
theorem needs_of_subset {assigned more : List Bytes} (h : assigned ⊆ more)
    (ps : List Occurrence) :
    needs known more ps = (needs known assigned ps).filter (!more.contains ·) := by
  rw [needs, needs, ← eraseDups_filter, filter_filter]
  refine congrArg List.eraseDups (filter_congr fun name _ => ?_)
  by_cases later : name ∈ more
  · simp [later]
  · have before : name ∉ assigned := fun mem => later (h mem)
    simp [later, before]

/-- **Lists of occurrences that agree**: they assign the same names in the
same order, and apart from those they read the same names in the same order,
each counted where it comes first. -/
structure Agree (known : List Bytes) (ps qs : List Occurrence) : Prop where
  assigned : (assignedIn ps).eraseDups = (assignedIn qs).eraseDups
  needs : needs known (assignedIn ps) ps = needs known (assignedIn qs) qs

namespace Agree

theorem refl (known : List Bytes) (ps : List Occurrence) : Agree known ps ps := ⟨rfl, rfl⟩

theorem trans (first : Agree known ps qs) (second : Agree known qs rs) : Agree known ps rs :=
  ⟨first.assigned.trans second.assigned, first.needs.trans second.needs⟩

theorem contains_assigned (h : Agree known ps qs) (name : Bytes) :
    (assignedIn ps).contains name = (assignedIn qs).contains name := by
  rw [Bool.eq_iff_iff, contains_iff_mem, contains_iff_mem, ← mem_eraseDups,
    h.assigned, mem_eraseDups]

/-- Lists that agree need the same beside any further assignments. -/
theorem needs_beside (h : Agree known ps qs) {more more' : List Bytes}
    (before : assignedIn ps ⊆ more) (before' : assignedIn qs ⊆ more')
    (same : ∀ name, more.contains name = more'.contains name) :
    Scope.needs known more ps = Scope.needs known more' qs := by
  rw [needs_of_subset before, needs_of_subset before', h.needs]
  exact filter_congr fun name _ => by rw [same]

theorem append (front : Agree known ps ps') (back : Agree known qs qs') :
    Agree known (ps ++ qs) (ps' ++ qs') := by
  have same : ∀ name, (assignedIn (ps ++ qs)).contains name
      = (assignedIn (ps' ++ qs')).contains name := by
    intro name
    rw [assignedIn_append, assignedIn_append, contains_append, contains_append,
      front.contains_assigned, back.contains_assigned]
  refine ⟨?_, ?_⟩
  · rw [assignedIn_append, assignedIn_append]
    exact eraseDups_append_congr front.assigned back.assigned
  · have first := front.needs_beside (assignedIn_append ps qs ▸ subset_append_left _ _)
      (assignedIn_append ps' qs' ▸ subset_append_left _ _) same
    have second := back.needs_beside (assignedIn_append ps qs ▸ subset_append_right _ _)
      (assignedIn_append ps' qs' ▸ subset_append_right _ _) same
    rw [Scope.needs, Scope.needs, filterMap_append, filterMap_append,
      filter_append, filter_append]
    exact eraseDups_append_congr first second

/-- **Lists that agree make the same scope.** -/
theorem scope_eq (h : Agree known ps qs) : ofOccurrences known ps = ofOccurrences known qs := by
  rw [ofOccurrences_eq, ofOccurrences_eq, h.assigned, h.needs]

/-- Lists that agree do so when names around them are bound. -/
theorem unbound (h : Agree known ps qs) (bound : List Bytes) :
    Agree known (unbound bound ps) (unbound bound qs) := by
  have left_out : ∀ xs : List Occurrence, Scope.needs known
      (assignedIn (TemplateCompiler.unbound bound xs)) (TemplateCompiler.unbound bound xs)
      = (Scope.needs known (assignedIn xs) xs).filter (!bound.contains ·) := by
    intro xs
    have reads : (TemplateCompiler.unbound bound xs).filterMap Occurrence.read?
        = (xs.filterMap Occurrence.read?).filter (!bound.contains ·) := by
      rw [TemplateCompiler.unbound, filterMap_filter, filter_filterMap]
      refine filterMap_congr fun o _ => ?_
      cases o <;> simp [Occurrence.name, Occurrence.read?, Option.filter]
    rw [Scope.needs, Scope.needs, reads, ← eraseDups_filter, filter_filter,
      filter_filter]
    refine congrArg List.eraseDups (filter_congr fun name _ => ?_)
    rw [assignedIn_unbound]
    by_cases outside : name ∈ bound <;> simp [outside]
  refine ⟨?_, ?_⟩
  · rw [assignedIn_unbound, assignedIn_unbound, eraseDups_filter, eraseDups_filter, h.assigned]
  · rw [left_out, left_out, h.needs]

/-- **What was there before adds nothing**: names that were read or assigned
already are read, or assigned ones are assigned. -/
theorem absorb (old : ∀ o ∈ qs, o ∈ ps ∨ ∃ name, o = .read name ∧ .assigned name ∈ ps) :
    Agree known (ps ++ qs) ps := by
  have assigned : assignedIn qs ⊆ assignedIn ps := by
    intro name mem
    rcases old _ (mem_assignedIn.1 mem) with here | ⟨other, read, -⟩
    · exact mem_assignedIn.2 here
    · cases read
  have erased : (assignedIn (ps ++ qs)).eraseDups = (assignedIn ps).eraseDups := by
    rw [assignedIn_append, eraseDups_append_of_subset assigned]
  have same : ∀ name, (assignedIn (ps ++ qs)).contains name = (assignedIn ps).contains name := by
    intro name
    rw [Bool.eq_iff_iff, contains_iff_mem, contains_iff_mem, ← mem_eraseDups,
      erased, mem_eraseDups]
  refine ⟨erased, ?_⟩
  simp only [Scope.needs, same]
  rw [filterMap_append, filter_append]
  refine eraseDups_append_of_subset fun name mem => ?_
  obtain ⟨mem, wanted⟩ := mem_filter.1 mem
  rcases old _ (mem_reads.1 mem) with here | ⟨other, same, assigned⟩
  · exact mem_filter.2 ⟨mem_reads.2 here, wanted⟩
  · cases same
    simp [mem_assignedIn.2 assigned] at wanted

end Agree

end Scope

namespace Code

variable {known : List Bytes} {c d : Code}

/-- Code that agrees in what it reads and assigns. -/
def Agree (known : List Bytes) (c d : Code) : Prop :=
  ∀ bound, Scope.Agree known (c.occurrences bound) (d.occurrences bound)

/-- It is enough to compare code on its own. -/
theorem Agree.of_alone (h : Scope.Agree known (c.occurrences []) (d.occurrences [])) :
    Agree known c d := by
  intro bound
  have left := occurrences_append [] bound c
  have right := occurrences_append [] bound d
  rw [nil_append] at left right
  rw [left, right]
  exact h.unbound bound

theorem occurrencesAll_agree {cs ds : List Code} (h : List.Forall₂ (Agree known) cs ds)
    (bound : List Bytes) :
    Scope.Agree known (occurrencesAll bound cs) (occurrencesAll bound ds) := by
  induction h with
  | nil => exact .refl known _
  | cons head _ ih => exact (head bound).append ih

end Code

/-- An occurrence of a name of the template, spelled as in generated code. -/
def Occurrence.spelled : Occurrence → Occurrence
  | .read name => .read (Script.bindingName name)
  | .assigned name => .assigned (Script.bindingName name)

namespace Scope

/-- **The occurrences of code spell those of a template.** The names of the
template are no stand-ins for keywords, so they stay apart. -/
structure Spells (known : List Bytes) (ps qs : List Occurrence) : Prop where
  plain : ∀ q ∈ qs, Script.templateName q.name = q.name
  agree : Agree known ps (qs.map Occurrence.spelled)

namespace Spells

variable {known : List Bytes} {ps ps' qs qs' : List Occurrence}

theorem nil (known : List Bytes) : Spells known [] [] := ⟨forall_mem_nil _, .refl known _⟩

theorem append (front : Spells known ps qs) (back : Spells known ps' qs') :
    Spells known (ps ++ ps') (qs ++ qs') := by
  refine ⟨fun q mem => (mem_append.1 mem).elim (front.plain q) (back.plain q), ?_⟩
  rw [map_append]
  exact front.agree.append back.agree

theorem of_agree (same : Agree known ps' ps) (h : Spells known ps qs) : Spells known ps' qs :=
  ⟨h.plain, same.trans h.agree⟩

theorem read {name : Bytes} (plain : Script.templateName name = name) :
    Spells known [.read (Script.bindingName name)] [.read name] :=
  ⟨forall_mem_singleton.2 plain, .refl known _⟩

theorem assigned {name : Bytes} (plain : Script.templateName name = name) :
    Spells known [.assigned (Script.bindingName name)] [.assigned name] :=
  ⟨forall_mem_singleton.2 plain, .refl known _⟩

/-- A name that is known adds nothing. -/
theorem known_read {name : Bytes} (mem : name ∈ known) : Spells known [.read name] [] := by
  refine ⟨forall_mem_nil _, rfl, ?_⟩
  simp [needs, Occurrence.read?, mem]

/-- Binding the same names around code and template. -/
theorem unbound (h : Spells known ps qs) {bound : List Bytes}
    (plain : ∀ name ∈ bound, Script.templateName name = name) :
    Spells known (unbound (bound.map Script.bindingName) ps) (unbound bound qs) := by
  refine ⟨fun q mem => h.plain q (mem_filter.1 mem).1, ?_⟩
  have spelled : (TemplateCompiler.unbound bound qs).map Occurrence.spelled
      = TemplateCompiler.unbound (bound.map Script.bindingName) (qs.map Occurrence.spelled) := by
    rw [TemplateCompiler.unbound, TemplateCompiler.unbound, filter_map]
    refine congrArg _ (filter_congr fun q mem => ?_)
    have name : q.spelled.name = Script.bindingName q.name := by cases q <;> rfl
    have same : Script.bindingName q.name ∈ bound.map Script.bindingName ↔ q.name ∈ bound := by
      refine ⟨fun inside => ?_, mem_map_of_mem⟩
      obtain ⟨other, mem', same⟩ := mem_map.1 inside
      exact Script.bindingName_inj (plain other mem') (h.plain q mem) same ▸ mem'
    simp only [Function.comp_apply, name, contains_eq_mem, same]
  rw [spelled]
  exact h.agree.unbound _

end Spells

end Scope

end TemplateCompiler
