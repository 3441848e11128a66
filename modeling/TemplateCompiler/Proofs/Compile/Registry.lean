import TemplateCompiler.Proofs.Compile.Settling
import TemplateCompiler.Proofs.Script.Names

/-!
# The registry of a session

`Session.Tracks` says that the registry of a session agrees with what has been
compiled: it holds the finished partials and those that are on their way, each
once, under unit names that differ. Every step of a compilation that touches
the registry keeps this: registering a partial, counting a reference, and
finishing a partial.
-/

open List

namespace TemplateCompiler

/-- What the registry says about a partial: its name, that of its unit, and
the unit if it is finished. -/
def RegistryEntry.known (e : RegistryEntry) : Bytes × Bytes × Option CodeUnit :=
  (e.partialName, e.unit, e.code)

/-- What it says about a finished one. -/
def Finished.known (f : Finished) : Bytes × Bytes × Option CodeUnit :=
  (f.unit.source, f.unit.name, some f.unit)

/-- What it says about one that is being compiled. -/
def pending (p : Bytes × Bytes) : Bytes × Bytes × Option CodeUnit := (p.1, p.2, none)

/-- **A session that tracks a compilation**: the partials of `w` are finished,
and those of `compiling`, each with the name of its unit, are on their way. -/
structure Session.Tracks (o : CompileOptions) (compiling : List (Bytes × Bytes))
    (w : List Finished) (t : Session) : Prop where
  units : t.units = (w.map Finished.unit).reverse
  registry : (t.registry.map RegistryEntry.known).Perm
    (w.map Finished.known ++ compiling.map pending)
  partials : (w.map (·.unit.source) ++ compiling.map Prod.fst).Nodup
  names : (w.map (·.unit.name) ++ compiling.map Prod.snd).Nodup
  taken : ∀ name ∈ w.map (·.unit.name) ++ compiling.map Prod.snd, name ∈ t.taken ∧ o.Fit name
  reserved : ∀ name ∈ o.root :: Script.helpers, name ∈ t.taken

namespace Session.Tracks

variable {name : Bytes} {e : RegistryEntry}

variable {o : CompileOptions} {compiling : List (Bytes × Bytes)} {w : List Finished}
  {t t' : Session}

theorem start (o : CompileOptions) : (Session.start o).Tracks o [] [] :=
  ⟨rfl, List.Perm.nil, nodup_nil, nodup_nil, by simp, fun _ h => h⟩

theorem of_same (h : t.Tracks o compiling w) (same : t.SameUnits t') : t'.Tracks o compiling w := by
  refine ⟨?_, ?_, h.partials, h.names, ?_, ?_⟩
  · rw [same.units, h.units]
  · rw [same.registry]
    exact h.registry
  · rw [same.taken]
    exact h.taken
  · rw [same.taken]
    exact h.reserved

/-- The partials that are finished are not those being compiled. -/
theorem avoids (h : t.Tracks o compiling w) {path : IncludePath}
    (on : path.partials = compiling.map Prod.fst) : Avoids path w := by
  intro f mem inside
  rw [on] at inside
  have apart := (nodup_append.mp h.partials).2.2
  exact apart _ (mem_map.mpr ⟨f, mem, rfl⟩) _ inside rfl

/-- What the registry says is so. -/
theorem of_mem (h : t.Tracks o compiling w) (mem : e ∈ t.registry) :
    (∃ f ∈ w, e.known = f.known) ∨ ∃ p ∈ compiling, e.known = pending p := by
  have known := h.registry.mem_iff.mp (mem_map.mpr ⟨e, mem, rfl⟩)
  rcases mem_append.mp known with found | found
  · obtain ⟨f, inside, same⟩ := mem_map.mp found
    exact .inl ⟨f, inside, same.symm⟩
  · obtain ⟨p, inside, same⟩ := mem_map.mp found
    exact .inr ⟨p, inside, same.symm⟩

/-- A partial that is found and not being compiled is finished. -/
theorem finished_of_find? (h : t.Tracks o compiling w) (met : t.find? name = some e)
    (fresh : name ∉ compiling.map Prod.fst) :
    ∃ f ∈ w, f.unit.source = name ∧ e.code = some f.unit ∧ e.unit = f.unit.name := by
  have same : e.partialName = name := by simpa using find?_some met
  rcases h.of_mem (mem_of_find?_eq_some met) with ⟨f, mem, known⟩ | ⟨p, mem, known⟩
  · exact ⟨f, mem, (congrArg (·.1) known).symm.trans same, congrArg (·.2.2) known,
      congrArg (·.2.1) known⟩
  · exact absurd (mem_map.2 ⟨p, mem, (congrArg (·.1) known).symm.trans same⟩) fresh

/-- A partial that is not in the registry is new. -/
theorem new_of_find? (h : t.Tracks o compiling w) (found : t.find? name = none) :
    name ∉ w.map (·.unit.source) ++ compiling.map Prod.fst := by
  intro mem
  have fsts : (w.map Finished.known ++ compiling.map pending).map Prod.fst
      = w.map (·.unit.source) ++ compiling.map Prod.fst := by
    simp [Finished.known, pending, Function.comp_def]
  rw [← fsts, ← (h.registry.map Prod.fst).mem_iff, map_map] at mem
  obtain ⟨e, inside, same⟩ := mem_map.mp mem
  have other := find?_eq_none.mp found e inside
  exact other (beq_iff_eq.mpr same)

/-- **Registering a new partial** puts it on its way. -/
theorem register (h : t.Tracks o compiling w) (found : t.find? name = none) :
    ∃ id t', (Compile.register o name).outcome t = (.ok id, t')
      ∧ t'.Tracks o (compiling ++ [(name, id)]) w := by
  have new := h.new_of_find? found
  refine ⟨UnitName.allocate t.taken (o.naming name).1, _, rfl, ?_⟩
  generalize same : UnitName.allocate t.taken (o.naming name).1 = id
  have free : id ∉ t.taken := same ▸ Script.fresh_not_mem _ _
  have builtin : Script.isBuiltin id = false := same ▸ UnitName.isBuiltin_allocate _ _
  have keyword : Script.isKeyword id = false := same ▸ UnitName.isKeyword_allocate _ _
  have legal : UnitName.Legal id := same ▸ UnitName.legal_allocate _ _
  refine ⟨h.units, ?_, ?_, ?_, ?_, ?_⟩
  · rw [map_append, map_append, ← append_assoc]
    exact h.registry.append_right _
  · rw [map_append, ← append_assoc, map_singleton, nodup_append_comm]
    exact nodup_cons.mpr ⟨new, h.partials⟩
  · rw [map_append, ← append_assoc, map_singleton, nodup_append_comm]
    exact nodup_cons.mpr ⟨fun mem => free (h.taken id mem).1, h.names⟩
  · intro other mem
    rw [map_append, ← append_assoc, map_singleton] at mem
    rcases mem_append.mp mem with old | here
    · exact ⟨mem_cons_of_mem _ (h.taken other old).1, (h.taken other old).2⟩
    · rw [mem_singleton.mp here]
      exact ⟨mem_cons_self, builtin, fun mem => free (h.reserved id mem), keyword, legal⟩
  · exact fun other mem => mem_cons_of_mem _ (h.reserved other mem)

/-- What the registry says after the entry of a partial was changed. -/
theorem map_known_updateEntry (t : Session) (name : Bytes) (f : RegistryEntry → RegistryEntry)
    (g : Bytes × Bytes × Option CodeUnit → Bytes × Bytes × Option CodeUnit)
    (change : ∀ e, (f e).known = g e.known) :
    (t.updateEntry name f).registry.map RegistryEntry.known
      = (t.registry.map RegistryEntry.known).map fun k => if k.1 == name then g k else k := by
  rw [Session.updateEntry, map_map, map_map]
  refine map_congr_left fun e _ => ?_
  show RegistryEntry.known (if e.partialName == name then f e else e)
    = if e.partialName == name then g e.known else e.known
  split
  · exact change e
  · rfl

/-- Counting a reference changes nothing else. -/
theorem countReference (h : t.Tracks o compiling w) (name : Bytes) :
    ∃ t', (Compile.countReference name).outcome t = (.ok (), t') ∧ t'.Tracks o compiling w := by
  generalize counted : (t.updateEntry name fun e => { e with references := e.references + 1 }) = t₁
  have tracks : t₁.Tracks o compiling w := by
    rw [← counted]
    refine ⟨h.units, ?_, h.partials, h.names, h.taken, h.reserved⟩
    rw [map_known_updateEntry t name (fun e => { e with references := e.references + 1 }) id
      fun _ => rfl]
    simpa [Function.comp_def] using h.registry
  have counts : Compile.outcome (modify fun s =>
      s.updateEntry name fun e => { e with references := e.references + 1 }) t = (.ok (), t₁) :=
    congrArg (Except.ok (), ·) counted
  have read : Compile.outcome (get : Compile Session) t₁ = (.ok t₁, t₁) := rfl
  rw [Compile.countReference, Compile.outcome_bind_ok counts, Compile.outcome_bind_ok read]
  split
  · split
    · exact ⟨_, rfl, tracks.of_same ⟨rfl, rfl, rfl⟩⟩
    · exact ⟨t₁, rfl, tracks⟩
  · exact ⟨t₁, rfl, tracks⟩

/-- **Finishing a partial** moves it from those on their way to the finished
ones. -/
theorem finish {f : Finished} (h : t.Tracks o (compiling ++ [(f.unit.source, f.unit.name)]) w) :
    ∃ t', (Compile.finish f.unit.source f.unit).outcome t = (.ok (), t')
      ∧ t'.Tracks o compiling (f :: w) := by
  have names := h.names
  have partials := h.partials
  have taken := h.taken
  simp only [map_append, map_singleton, ← append_assoc] at names partials taken
  rw [nodup_append_comm] at names partials
  refine ⟨_, rfl, ?_, ?_, partials, names, ?_, h.reserved⟩
  · show t.units ++ [f.unit] = _
    rw [h.units, map_cons, reverse_cons]
  · show ((t.updateEntry f.unit.source _).registry.map _).Perm _
    rw [map_known_updateEntry t _ _ (fun k => (k.1, k.2.1, some f.unit)) fun _ => rfl]
    refine (h.registry.map _).trans ?_
    have others : ∀ k ∈ w.map Finished.known ++ compiling.map pending, k.1 ≠ f.unit.source := by
      intro k mem same
      refine (nodup_cons.mp partials).1 ?_
      have fsts := mem_map.mpr ⟨k, mem, same⟩
      simpa [Finished.known, pending, Function.comp_def] using fsts
    have split : w.map Finished.known
        ++ (compiling ++ [(f.unit.source, f.unit.name)]).map pending
          = (w.map Finished.known ++ compiling.map pending)
            ++ [pending (f.unit.source, f.unit.name)] := by
      rw [map_append, ← append_assoc, map_singleton]
    rw [split, map_append,
      map_congr_left fun k mem => if_neg (by simpa using others k mem), map_id']
    simp only [map_singleton, pending, beq_self_eq_true, if_true]
    exact perm_append_singleton _ _
  · intro other mem
    refine taken other ?_
    simpa [or_comm, or_assoc, or_left_comm] using mem

/-- **The units that a unit imports** are found in the registry by their
names. -/
theorem entryOfUnit?_eq (h : t.Tracks o compiling w)
    (known : Script.isBuiltin name = true ∨ ∃ f ∈ w, f.unit.name = name) :
    (t.entryOfUnit? name).map (fun e => (⟨none, e.unit, e.partialName⟩ : ImportRef))
      = (w.find? (·.unit.name == name)).map Finished.ref := by
  have entry : ∀ e ∈ t.registry, e.unit ∈ w.map (·.unit.name) ++ compiling.map Prod.snd := by
    intro e mem
    rcases h.of_mem mem with ⟨f, inside, same⟩ | ⟨p, inside, same⟩
    · rw [show e.unit = f.unit.name from congrArg (·.2.1) same]
      exact mem_append_left _ (mem_map.mpr ⟨f, inside, rfl⟩)
    · rw [show e.unit = p.2 from congrArg (·.2.1) same]
      exact mem_append_right _ (mem_map.mpr ⟨p, inside, rfl⟩)
  rcases known with builtin | ⟨f, mem, rfl⟩
  · have none : ∀ other ∈ w.map (·.unit.name) ++ compiling.map Prod.snd, other ≠ name := by
      rintro other mem rfl
      rw [(h.taken other mem).2.1] at builtin
      exact absurd builtin (by decide)
    rw [Session.entryOfUnit?, find?_eq_none.mpr fun e mem => by simpa using none _ (entry e mem),
      find?_eq_none.mpr fun f mem => by
        simpa using none _ (mem_append_left _ (mem_map.mpr ⟨f, mem, rfl⟩))]
    rfl
  · obtain ⟨distinct, -, apart⟩ := nodup_append.mp h.names
    have here : f.unit.name ∈ w.map (·.unit.name) := mem_map.mpr ⟨f, mem, rfl⟩
    have only : ∀ e ∈ t.registry, e.unit = f.unit.name → e.known = f.known := by
      intro e inside same
      rcases h.of_mem inside with ⟨g, other, known⟩ | ⟨p, other, known⟩
      · have names : g.unit.name = f.unit.name := (congrArg (·.2.1) known).symm.trans same
        rw [known, inj_on_of_nodup_map distinct other mem names]
      · have names : p.2 = f.unit.name := (congrArg (·.2.1) known).symm.trans same
        exact absurd names.symm (apart _ here _ (mem_map.mpr ⟨p, other, rfl⟩))
    have found : f.known ∈ t.registry.map RegistryEntry.known :=
      h.registry.mem_iff.mpr (mem_append_left _ (mem_map.mpr ⟨f, mem, rfl⟩))
    obtain ⟨e, inside, known⟩ := mem_map.mp found
    have unit : e.unit = f.unit.name := congrArg (·.2.1) known
    rw [Session.entryOfUnit?]
    cases first : t.registry.find? (·.unit == f.unit.name) with
    | none => exact absurd (find?_eq_none.mp first e inside) (by simpa using unit)
    | some e' =>
      have known' := only e' (mem_of_find?_eq_some first) (by simpa using find?_some first)
      cases second : w.find? (·.unit.name == f.unit.name) with
      | none => exact absurd (find?_eq_none.mp second f mem) (by simp)
      | some g =>
        have same : g = f := inj_on_of_nodup_map distinct (mem_of_find?_eq_some second)
          mem (by simpa using find?_some second)
        rw [Option.map_some, Option.map_some, same, Finished.ref,
          show e'.unit = f.unit.name from congrArg (·.2.1) known',
          show e'.partialName = f.unit.source from congrArg (·.1) known']

end Session.Tracks

end TemplateCompiler
