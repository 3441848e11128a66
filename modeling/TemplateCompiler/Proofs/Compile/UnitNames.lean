import TemplateCompiler.Proofs.Compile.Programs

/-!
# The names of units

A naming function may give any names to partials, the same one to all of them
if it likes. The units are told apart all the same: each registration takes a
name that is not taken and is fit for a function, and takes it for good
(`Compile.outcome_registerAll`). So the units of partials have names of their
own in every session and in every program (`units_named_apart`).
-/

open List

namespace TemplateCompiler

namespace Compile

variable {o : CompileOptions} {s : Session}

/-- **Registering a partial** succeeds with a fit name that was free. -/
theorem outcome_register (reserved : ∀ name ∈ o.root :: Script.helpers, name ∈ s.taken)
    (name : Bytes) :
    ∃ unit t, (register o name).outcome s = (.ok unit, t) ∧ t.taken = unit :: s.taken
      ∧ unit ∉ s.taken ∧ o.Fit unit := by
  have free : UnitName.allocate s.taken (o.naming name).1 ∉ s.taken := Script.fresh_not_mem _ _
  exact ⟨_, _, rfl, rfl, free, UnitName.isBuiltin_allocate _ _, fun mem => free (reserved _ mem),
    UnitName.isKeyword_allocate _ _, UnitName.legal_allocate _ _⟩

/-- **Registering partials one after the other** gives names that differ from
each other and from those taken before. -/
theorem outcome_registerAll (reserved : ∀ name ∈ o.root :: Script.helpers, name ∈ s.taken)
    (names : List Bytes) :
    ∃ units t, (names.mapM (register o)).outcome s = (.ok units, t)
      ∧ units.length = names.length ∧ units.Nodup ∧ ∀ unit ∈ units, unit ∉ s.taken ∧ o.Fit unit := by
  induction names generalizing s with
  | nil => exact ⟨[], s, rfl, rfl, nodup_nil, by simp⟩
  | cons name names ih =>
    obtain ⟨unit, t, first, taken, free, fit⟩ := outcome_register reserved name
    have kept : ∀ name ∈ o.root :: Script.helpers, name ∈ t.taken := fun name mem =>
      taken ▸ mem_cons_of_mem unit (reserved name mem)
    obtain ⟨units, t', rest, length, apart, others⟩ := ih kept
    rw [taken] at others
    refine ⟨unit :: units, t', ?_, congrArg (· + 1) length, nodup_cons.2 ⟨?_, apart⟩, ?_⟩
    · rw [mapM_cons, outcome_bind_ok first, outcome_bind_ok rest]
      rfl
    · exact fun mem => (others unit mem).1 mem_cons_self
    · refine forall_mem_cons.2 ⟨⟨free, fit⟩, fun other mem => ?_⟩
      exact ⟨fun old => (others other mem).1 (mem_cons_of_mem _ old), (others other mem).2⟩

end Compile

/-- The units of finished partials are told apart by their names. -/
theorem Linked.names_nodup {o : CompileOptions} {lib : Library} {reached : Bytes → Prop}
    {w : List Finished} (linked : Linked o lib reached w) : (w.map (·.unit.name)).Nodup := by
  induction linked with
  | nil => exact nodup_nil
  | cons earlier sound ih =>
    refine nodup_cons.2 ⟨fun mem => ?_, ih⟩
    obtain ⟨g, inside, same⟩ := mem_map.1 mem
    exact (sound.distinct g inside).1 same

/-- The names of the units of a program. -/
theorem compile_unit_names {o : CompileOptions} {lib : Library} {src : Bytes} {p : Program}
    (compiles : (compile o lib src).1 = .ok p) :
    (p.units.map (·.name)).Nodup ∧ ∀ u ∈ p.units, o.Fit u.name := by
  obtain ⟨w, -, -, linked, -, units, -⟩ := compile_made compiles
  rw [units, map_reverse, map_map]
  refine ⟨nodup_reverse.2 linked.names_nodup, fun u mem => ?_⟩
  obtain ⟨f, inside, rfl⟩ := mem_map.1 (mem_reverse.1 mem)
  obtain ⟨v, -, sound⟩ := linked.sound_of_mem inside
  exact sound.fit

/-- **Units have fit names of their own**, whatever the naming function and the
name of the root: those that a session hands out for any partials, and those of
a program. -/
theorem units_named_apart (o : CompileOptions) (lib : Library) (src : Bytes) :
    (∀ names : List Bytes, ∃ units t,
      (names.mapM (Compile.register o)).outcome (Session.start o) = (.ok units, t)
      ∧ units.length = names.length ∧ units.Nodup ∧ ∀ unit ∈ units, o.Fit unit)
    ∧ ∀ p, (compile o lib src).1 = .ok p →
      (p.units.map (·.name)).Nodup ∧ ∀ u ∈ p.units, o.Fit u.name := by
  refine ⟨fun names => ?_, fun p compiles => compile_unit_names compiles⟩
  obtain ⟨units, t, run, length, apart, fit⟩ :=
    Compile.outcome_registerAll (s := Session.start o) (fun _ mem => mem) names
  exact ⟨units, t, run, length, apart, fun unit mem => (fit unit mem).2⟩

/-- A naming that calls every partial by a keyword, under a root whose name is
the one that the second partial would get. -/
private def stubborn : CompileOptions :=
  { moduleMode := true, rootName := "_if_2", naming := fun _ => ("-if-", []) }

private def twoParts : Library := ⟨[("a", "x"), ("b", "y")]⟩

private def bothParts : Bytes := "\x7b% include \"a\" %\x7d\x7b% include \"b\" %\x7d"

private def partNames : List Bytes := ["_if", "_if_3"]

theorem stubborn_named_apart :
    ∃ p, (compile stubborn twoParts bothParts).1 = .ok p ∧ p.units.map (·.name) = partNames
      ∧ (p.units.map (·.name)).Nodup ∧ ∀ u ∈ p.units, stubborn.Fit u.name := by
  have found : (compile stubborn twoParts bothParts).1.toOption.map (fun p => p.units.map (·.name))
      = some partNames := by cbv
  cases compiles : (compile stubborn twoParts bothParts).1 with
  | error e =>
    rw [compiles] at found
    cases found
  | ok p =>
    rw [compiles] at found
    exact ⟨p, rfl, Option.some.inj found, (units_named_apart stubborn twoParts bothParts).2 p compiles⟩

end TemplateCompiler
