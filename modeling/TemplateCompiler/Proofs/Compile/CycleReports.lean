import TemplateCompiler.Proofs.Compile.Attribution
import TemplateCompiler.Proofs.Template.Includes

/-!
# What a report of an include cycle says

An include cycle is reported as the part of the include path from the first
file with the name of the include on. The partials on the path are distinct,
and each includes the next, so that part is a cycle of partials which passes no
partial twice. But the path starts with the name of the root file, which need
not be one of a partial. If it happens to be the name of the include, the report
starts there and goes on with the whole way to the cycle: `compile_cycle` says
this, and that nothing else can happen.
-/

open List

namespace TemplateCompiler

/-- The text of a file includes a partial. -/
def Template.Includes (src name : Bytes) : Prop :=
  ∃ tree, Template.parse src = .ok tree ∧ ∃ i ∈ tree.includes, i.name = name

/-- A partial of the library includes another. -/
def Library.Includes (lib : Library) (name other : Bytes) : Prop :=
  ∃ src, lib.source? name = some src ∧ Template.Includes src other

/-- **A minimal cycle of includes**: distinct partials, each of which includes
the next and the last the first, which is listed once more. -/
def Library.IsCycle (lib : Library) (chain : List Bytes) : Prop :=
  ∃ name between, chain = name :: between ++ [name] ∧ (name :: between).Nodup
    ∧ chain.IsChain lib.Includes

/-! ## The include path -/

/-- **The path to a file**: distinct partials from one that the root includes
to the file itself, each including the next. -/
structure IncludePath.LeadsTo (lib : Library) (root src : Bytes) (path : IncludePath) : Prop where
  once : path.partials.Nodup
  linked : path.partials.IsChain lib.Includes
  start : ∀ name ∈ path.partials.head?, Template.Includes root name
  text : match path.partials.getLast? with
    | none => src = root
    | some name => lib.source? name = some src

/-- The includes that lead back to a partial: a way from the root to the
partial, and from there a cycle. -/
structure LeadsBack (lib : Library) (root : Bytes) (way : List Bytes) (name : Bytes)
    (between : List Bytes) : Prop where
  start : ∀ first ∈ (way ++ [name]).head?, Template.Includes root first
  once : (way ++ name :: between).Nodup
  linked : (way ++ name :: between ++ [name]).IsChain lib.Includes

theorem LeadsBack.isCycle {lib : Library} {root name : Bytes} {way between : List Bytes}
    (h : LeadsBack lib root way name between) : lib.IsCycle (name :: between ++ [name]) := by
  refine ⟨name, between, rfl, (nodup_append.1 h.once).2.1, ?_⟩
  have linked := h.linked
  rw [append_assoc] at linked
  exact linked.right_of_append

namespace IncludePath

variable {lib : Library} {root src : Bytes} {path : IncludePath}

theorem LeadsTo.nil (file : Bytes) : LeadsTo lib root root { root := file } :=
  ⟨nodup_nil, .nil, nofun, rfl⟩

/-- The file at the end of the path goes on to a partial that it includes. -/
theorem LeadsTo.extend (leads : path.LeadsTo lib root src) {name : Bytes}
    (includes : Template.Includes src name) :
    (path.partials ++ [name]).IsChain lib.Includes
      ∧ ∀ first ∈ (path.partials ++ [name]).head?, Template.Includes root first := by
  obtain ⟨-, linked, start, text⟩ := leads
  refine ⟨linked.append (.singleton name) fun last here next same => ?_, ?_⟩
  · cases same
    rw [here] at text
    exact ⟨src, text, includes⟩
  · revert start text
    cases path.partials with
    | nil =>
      rintro - rfl first same
      cases same
      exact includes
    | cons first others => exact fun start _ => start

theorem LeadsTo.push (leads : path.LeadsTo lib root src) {name inner : Bytes}
    (includes : Template.Includes src name) (found : lib.source? name = some inner)
    (fresh : name ∉ path.partials) : (path.push name).LeadsTo lib root inner := by
  obtain ⟨linked, start⟩ := leads.extend includes
  refine ⟨?_, linked, start, ?_⟩
  · exact nodup_append.2 ⟨leads.once, nodup_singleton name, by grind⟩
  · simpa [IncludePath.push] using found

/-- An include of a partial on the path leads back to it, and that is what is
reported, unless the root file has the name of the partial. -/
theorem LeadsTo.cycle (leads : path.LeadsTo lib root src) {name : Bytes}
    (includes : Template.Includes src name) (mem : name ∈ path.partials) :
    ∃ way between, LeadsBack lib root way name between
      ∧ path.cycle name = if path.root = name then path.root :: way ++ name :: between ++ [name]
          else name :: between ++ [name] := by
  obtain ⟨way, between, split⟩ := append_of_mem mem
  obtain ⟨linked, start⟩ := leads.extend includes
  have once := leads.once
  rw [split] at linked start once
  have before : ∀ n ∈ way, n ≠ name := fun n here =>
    (nodup_append.1 once).2.2 n here name mem_cons_self
  refine ⟨way, between, ⟨fun first here => start first ?_, once, linked⟩, ?_⟩
  · cases way <;> exact here
  · have passed : (way ++ name :: between).dropWhile (· != name) = name :: between := by
      rw [dropWhile_append_of_pos (by simpa using before)]
      simp
    rw [IncludePath.cycle, split]
    split
    · next same => simp [same]
    · next other => rw [dropWhile_cons_of_pos (by simpa using other), passed]

end IncludePath

/-! ## The faults of a file -/

/-- An include that is met in the text of a file is one of its includes. -/
theorem Template.includes_of_met {src : Bytes} {tree : Node} (parsed : Template.parse src = .ok tree)
    {pos place : Position} {name : Bytes} {optional : Bool}
    (met : .node (.embed pos (.literal place (.string name)) optional) ∈ tree.met) :
    Template.Includes src name := by
  obtain ⟨-, inside⟩ := (sourced_of_parse parsed).from _ met
  exact ⟨tree, parsed, ⟨pos, name, optional⟩, mem_filterMap.2 ⟨_, inside, rfl⟩, rfl⟩

/-- If the first fault of a file is a cycle, the include that closes it leads
back to the path at that point. -/
theorem leadsBack_of_fault {o : CompileOptions} {lib : Library} (reader : o.parse = Template.parse)
    {root src : Bytes} {path : IncludePath} (leads : path.LeadsTo lib root src) {tree : Node}
    (parsed : Template.parse src = .ok tree) {chain : List Bytes}
    (fault : (tree.faults (includedFaults o lib path)).head? = some (.includeCycle chain)) :
    ∃ way name between, LeadsBack lib root way name between
      ∧ chain = if path.root = name then path.root :: way ++ name :: between ++ [name]
          else name :: between ++ [name] := by
  have sourced := sourced_of_parse parsed
  rw [Node.head?_faults sourced, Node.firstError_eq_some] at fault
  obtain ⟨before, c, after, split, error, -⟩ := fault
  have met : c ∈ tree.met := by rw [split]; simp
  obtain ⟨own, -⟩ | ⟨pos, place, name, optional, -, rfl⟩ :=
    Construct.own_or_include (sourced.from c met) (mem_of_mem_head? error)
  · cases own
  have includes := Template.includes_of_met parsed met
  have error : (includedFaults o lib path ⟨pos, name, optional⟩).head? = some (.includeCycle chain) :=
    error
  cases found : lib.source? name with
  | none =>
    rw [includedFaults_missing found] at error
    cases optional <;> cases error
  | some inner =>
    by_cases cycle : name ∈ path.partials
    · rw [includedFaults_cycle found cycle] at error
      cases error
      obtain ⟨way, between, back, reported⟩ := leads.cycle includes cycle
      exact ⟨way, name, between, back, reported⟩
    have room := IncludePath.room_push_lt found cycle
    cases parsed' : Template.parse inner with
    | error malformed =>
      rw [includedFaults_malformed found cycle (by rw [reader]; exact parsed')] at error
      cases error
    | ok tree' =>
      rw [includedFaults_fresh found cycle (by rw [reader]; exact parsed'), head?_map] at error
      obtain ⟨e, fault, left⟩ := Option.map_eq_some_iff.1 error
      -- A cycle leaves the partials that it is found in as it is.
      have same : e = .includeCycle chain := by
        cases e with
        | includeCycle => exact left
        | inPartial =>
          rw [CompileError.leaving] at left
          split at left <;> cases left
        | _ => cases left
      rw [same] at fault
      exact leadsBack_of_fault reader (leads.push includes found cycle) parsed' fault
termination_by path.room lib

/-- **A reported include cycle ends with a minimal one.** If a template fails
with a cycle, in either mode, includes of its root lead to a partial that
includes itself through others. The report is that cycle, unless the root file
has the name of the partial: then it is the name, the way to the partial and
the cycle. -/
theorem compile_cycle {o : CompileOptions} {lib : Library} {src : Bytes} {chain : List Bytes}
    (reader : o.parse = Template.parse) (fails : (compile o lib src).1 = .error (.includeCycle chain)) :
    ∃ way name between, LeadsBack lib src way name between
      ∧ lib.IsCycle (name :: between ++ [name])
      ∧ chain = if o.file = name then o.file :: way ++ name :: between ++ [name]
          else name :: between ++ [name] := by
  cases parsed : Template.parse src with
  | error malformed =>
    rw [compile_fst, Compile.program_malformed (by rw [reader]; exact parsed)] at fails
    cases fails
  | ok tree =>
    rw [compile_eq_error_iff (by rw [reader]; exact parsed)] at fails
    obtain ⟨way, name, between, back, reported⟩ :=
      leadsBack_of_fault reader (.nil o.file) parsed fails
    exact ⟨way, name, between, back, back.isCycle, reported⟩

/-- A page and its navigation, which include each other. -/
private def entangled : Library :=
  ⟨[("page", "\x7b% include 'nav' %\x7d"), ("nav", "<a>\x7b% include 'page' %\x7d</a>")]⟩

theorem entangled_cycle :
    (compile { moduleMode := true, fileName := "site" } entangled "\x7b% include 'page' %\x7d").1
        = .error (.includeCycle ["page", "nav", "page"])
      ∧ entangled.IsCycle ["page", "nav", "page"] := by
  have fails : (compile { moduleMode := true, fileName := "site" } entangled
      "\x7b% include 'page' %\x7d").1 = .error (.includeCycle ["page", "nav", "page"]) := by
    cbv
  obtain ⟨way, name, between, -, cycle, reported⟩ := compile_cycle rfl fails
  refine ⟨fails, ?_⟩
  split at reported
  · exact absurd (List.cons.inj reported).1 (by decide)
  · rwa [← reported] at cycle

/-- A partial with the name that the root file has by default. -/
private def namesake : Library := ⟨[("template", "\x7b% include 'template' %\x7d")]⟩

/-- **The root file in a report.** The partial is reported to include itself
through itself. -/
theorem namesake_cycle :
    (compile {} namesake "\x7b% include 'template' %\x7d").1
        = .error (.includeCycle ["template", "template", "template"])
      ∧ ¬ namesake.IsCycle ["template", "template", "template"] := by
  refine ⟨by cbv, ?_⟩
  rintro ⟨name, between, split, once, -⟩
  obtain ⟨rfl, split⟩ := List.cons.inj split
  rcases between with _ | ⟨_, _ | ⟨_, others⟩⟩
  · cases split
  · cases split
    exact absurd once (by decide)
  · exact absurd (congrArg List.length split) (by simp)

end TemplateCompiler
