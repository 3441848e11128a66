import TemplateCompiler.Proofs.Compile.Constructs
import TemplateCompiler.Proofs.Compile.InPlace

/-!
# Where compile errors belong

A template fails to compile in one of its files: that file is malformed, or
lowering meets a construct in it that cannot be compiled, or an include of a
partial that does not exist. `Arises` says in which file that is, and by which
includes lowering gets there. The main statement, `compile_attributed`, is that
an error which is no include cycle tells exactly that: its wrapping spells out
the includes, and `CompileError.locate` gives the file and a position that lies
in the text of the file.
-/

open List

namespace TemplateCompiler

/-! ## Errors of constructs -/

/-- An error that a construct has by itself, at a position in `P`. -/
inductive CompileError.Own (P : Position → Prop) : CompileError → Prop where
  | unsupported {kind pos reason} (here : P pos) : Own P (.unsupported kind (some pos) reason)
  | chainedComparison {ops pos} (here : P pos) : Own P (.chainedComparison ops pos)
  | dynamicInclude {kind pos} (here : P pos) : Own P (.dynamicInclude kind pos)

namespace Node

open CompileError (Own)

variable {P : Position → Prop} {n : Node} {e : CompileError}

theorem Sourced.unsupported (h : n.Sourced P) (reason : Bytes) : Own P (n.unsupported reason) := by
  have here := h.pos
  cases h <;> exact .unsupported here

theorem unsupported_of_binding {name : Bytes} (mem : e ∈ Compile.errorsOf (n.binding name)) :
    ∃ reason, e = n.unsupported reason := by
  unfold binding at mem
  dsimp only at mem
  split at mem
  · cases mem
  · exact ⟨_, mem_singleton.1 mem⟩

theorem unsupported_of_variables {taken : List Bytes} {ns : List Node}
    (mem : e ∈ variableFaults taken ns) : ∃ m ∈ ns, ∃ reason, e = m.unsupported reason := by
  induction ns generalizing taken with
  | nil => cases mem
  | cons n ns ih =>
    unfold variableFaults at mem
    split at mem
    · rcases mem_append.1 mem with bound | mem
      · exact ⟨_, mem_cons_self, unsupported_of_binding bound⟩
      rcases mem_append.1 mem with repeated | later
      · split at repeated
        · exact ⟨_, mem_cons_self, _, mem_singleton.1 repeated⟩
        · cases repeated
      · obtain ⟨m, inside, same⟩ := ih later
        exact ⟨m, mem_cons_of_mem _ inside, same⟩
    · exact ⟨_, mem_cons_self, _, mem_singleton.1 mem⟩

theorem Sourced.own_binding (h : n.Sourced P) {name : Bytes}
    (mem : e ∈ Compile.errorsOf (n.binding name)) : Own P e := by
  obtain ⟨reason, rfl⟩ := unsupported_of_binding mem
  exact h.unsupported reason

theorem Sourced.own_loopFaults (h : n.Sourced P) (mem : e ∈ n.loopFaults) : Own P e := by
  unfold loopFaults at mem
  split at mem
  · exact h.own_binding mem
  · cases h with | array pos all =>
    obtain ⟨m, inside, reason, rfl⟩ := unsupported_of_variables mem
    exact (all m inside).unsupported reason
  · cases mem_singleton.1 mem
    exact h.unsupported _

end Node

/-- **Errors of a construct** are its own, whatever includes give, unless it is
an include that names its partial. -/
theorem Construct.own_or_include {P : Position → Prop} {n : Node} {c : Construct}
    (h : c.From P n) {f : Inclusion → List CompileError} {e : CompileError}
    (mem : e ∈ c.errors f) :
    (e.Own P ∧ ∀ g, c.errors g = c.errors f)
      ∨ ∃ pos place name optional, P pos
        ∧ c = .node (.embed pos (.literal place (.string name)) optional) := by
  cases c with
  | binder vars => exact .inl ⟨h.1.own_loopFaults mem, fun _ => rfl⟩
  | key k =>
    refine .inl ⟨?_, fun _ => rfl⟩
    have mem : e ∈ Compile.errorsOf k.dictKey := mem
    unfold Node.dictKey at mem
    split at mem
    · cases mem
    · cases mem
    · cases mem_singleton.1 mem
      exact Node.Sourced.unsupported h _
  | node n =>
    obtain ⟨sourced, -⟩ := h
    unfold Construct.errors at mem
    dsimp only at mem
    split at mem
    · next pos target optional =>
      cases sourced with
      | embed here template =>
        have place := template.pos
        cases template with
        | @literal q v _ _ =>
          cases v with
          | string name => exact .inr ⟨pos, q, name, optional, here, rfl⟩
          | _ =>
            cases mem_singleton.1 mem
            exact .inl ⟨.dynamicInclude place, fun _ => rfl⟩
        | _ =>
          cases mem_singleton.1 mem
          exact .inl ⟨.dynamicInclude place, fun _ => rfl⟩
    · exact .inl ⟨sourced.own_binding mem, fun _ => rfl⟩
    · cases mem_singleton.1 mem
      exact .inl ⟨sourced.unsupported _, fun _ => rfl⟩
    · cases mem_singleton.1 mem
      exact .inl ⟨sourced.unsupported _, fun _ => rfl⟩
    · cases mem_singleton.1 mem
      exact .inl ⟨sourced.unsupported _, fun _ => rfl⟩
    · cases mem_singleton.1 mem
      exact .inl ⟨.chainedComparison sourced.pos, fun _ => rfl⟩
    · cases mem

/-! ## The file in which an error arises -/

/-- The error of an include whose partial does not exist. It belongs to the
file of the include. -/
def absent (lib : Library) (file : Bytes) (i : Inclusion) : List CompileError :=
  if lib.source? i.name = none ∧ i.optional = false then [.missingPartial i.name file i.pos] else []

/-- **The file in which an error arises**. Compiling `src`, the file at the end
of `path`, fails with `e` in the file with the text `text`, and the includes
that lead there from `src` are those of `names`. -/
inductive Arises (o : CompileOptions) (lib : Library) :
    (path : IncludePath) → (src : Bytes) → (names : List Bytes) → (text : Bytes) →
      CompileError → Prop where
  /-- The file is malformed. -/
  | malformed {path src e} (failed : Template.parse src = .error e) :
    Arises o lib path src [] src (.malformed e)
  /-- A construct of the file is refused, and nothing that is met before it
  fails. -/
  | refused {path src tree before c after e} (parsed : Template.parse src = .ok tree)
    (met : tree.met = before ++ c :: after)
    (earlier : ∀ b ∈ before, b.errors (includedFaults o lib path) = [])
    (error : (c.errors (absent lib path.file)).head? = some e) :
    Arises o lib path src [] src e
  /-- The file includes one that leads to the error, and nothing that is met
  before the include fails. -/
  | included {path src tree before pos place name optional after inner names text e}
    (parsed : Template.parse src = .ok tree)
    (met : tree.met
      = before ++ .node (.embed pos (.literal place (.string name)) optional) :: after)
    (earlier : ∀ b ∈ before, b.errors (includedFaults o lib path) = [])
    (found : lib.source? name = some inner)
    (further : Arises o lib (path.push name) inner names text e) :
    Arises o lib path src (name :: names) text e

namespace CompileError

variable {e : CompileError}

/-- The partials that an error is wrapped in, the outermost first. -/
def partials (e : CompileError) : List Bytes :=
  e.chain.filterMap fun
    | .inPartial name _ => some name
    | _ => none

/-- An error that no partial wraps yet. -/
theorem Own.unwrapped {P : Position → Prop} (h : e.Own P) :
    e.chain = [e] ∧ e.partials = [] ∧ ∃ pos, P pos ∧ ∀ file, e.locate file = (file, some pos) := by
  cases h with
  | unsupported here | chainedComparison here | dynamicInclude here =>
    exact ⟨rfl, rfl, _, here, fun _ => rfl⟩

/-- An error leaves a partial with a wrapping, unless it is a cycle or wrapped
for it already. -/
theorem leaving_eq {name : Bytes} (open_ : ∀ cycle, e ≠ .includeCycle cycle)
    (new : name ∉ e.partials) : e.leaving name = .inPartial name e := by
  cases e with
  | includeCycle cycle => exact absurd rfl (open_ cycle)
  | inPartial inner cause =>
    have other : inner ≠ name := fun same => new (same ▸ mem_cons_self)
    exact if_neg (by simpa using other)
  | _ => rfl

end CompileError

/-- **What an error tells**: compiling `src`, the file at the end of `path`,
fails with `e`, and `e` has the includes that lead to the file where it arises,
and a position there. -/
structure Attributed (o : CompileOptions) (lib : Library) (path : IncludePath) (src : Bytes)
    (e : CompileError) (names : List Bytes) (text : Bytes) (pos : Position) : Prop where
  arises : ∃ cause, e.chain.getLast? = some cause ∧ Arises o lib path src names text cause
  partials : e.partials = names
  once : names.Nodup
  located : e.locate path.file = (names.getLastD path.file, some pos)
  inside : pos.Inside text

section

variable {src : Bytes} {e : CompileError} {tree : Node}

variable {o : CompileOptions} {lib : Library}

/-- The syntax error of a file lies in it. -/
theorem inside_of_malformed {error : SyntaxError} (failed : Template.parse src = .error error) :
    error.pos.Inside src := by
  have told := Template.parse_tells src
  rw [failed] at told
  exact told.inside

theorem sourced_of_parse (parsed : Template.parse src = .ok tree) :
    tree.Sourced (Stands src []) := by
  have told := Template.parse_tells src
  rwa [parsed] at told

/-- The first fault of a file is attributed, with partials that are not on the
path to the file. -/
theorem attributed_of_fault (reader : o.parse = Template.parse) {path : IncludePath} {src : Bytes}
    {tree : Node} {e : CompileError} (parsed : Template.parse src = .ok tree)
    (fault : (tree.faults (includedFaults o lib path)).head? = some e)
    (open_ : ∀ cycle, e ≠ .includeCycle cycle) :
    ∃ names text pos, Attributed o lib path src e names text pos
      ∧ ∀ name ∈ names, name ∉ path.partials := by
  have sourced := sourced_of_parse parsed
  rw [Node.head?_faults sourced, Node.firstError_eq_some] at fault
  obtain ⟨before, c, after, met, error, earlier⟩ := fault
  have mem : c ∈ tree.met := by rw [met]; simp
  have inside := mem_of_mem_head? error
  obtain ⟨own, same⟩ | ⟨pos, place, name, optional, here, rfl⟩ :=
    Construct.own_or_include (sourced.from c mem) inside
  · obtain ⟨chain, partials, pos, here, located⟩ := own.unwrapped
    refine ⟨[], src, pos, ⟨⟨e, by rw [chain]; rfl, ?_⟩, partials, nodup_nil, located _, here.inside⟩,
      forall_mem_nil _⟩
    exact .refused parsed met earlier (by rw [same]; exact error)
  · have error : (includedFaults o lib path ⟨pos, name, optional⟩).head? = some e := error
    cases found : lib.source? name with
    | none =>
      rw [includedFaults_missing found] at error
      cases optional with
      | true => cases error
      | false =>
        cases error
        refine ⟨[], src, pos, ⟨⟨_, rfl, ?_⟩, rfl, nodup_nil, rfl, here.inside⟩, forall_mem_nil _⟩
        exact .refused parsed met earlier (congrArg List.head? (if_pos ⟨found, rfl⟩))
    | some inner =>
      by_cases cycle : name ∈ path.partials
      · rw [includedFaults_cycle found cycle] at error
        cases error
        exact absurd rfl (open_ _)
      have room := IncludePath.room_push_lt found cycle
      have file := path.file_push name
      cases parsed' : Template.parse inner with
      | error malformed =>
        rw [includedFaults_malformed found cycle (by rw [reader]; exact parsed')] at error
        cases error
        refine ⟨[name], inner, malformed.pos, ⟨⟨_, rfl, ?_⟩, rfl, nodup_singleton name, rfl,
          inside_of_malformed parsed'⟩, forall_mem_singleton.2 cycle⟩
        exact .included parsed met earlier found (.malformed parsed')
      | ok tree' =>
        rw [includedFaults_fresh found cycle (by rw [reader]; exact parsed'), head?_map] at error
        obtain ⟨e', fault, rfl⟩ := Option.map_eq_some_iff.1 error
        have open' : ∀ cycle, e' ≠ .includeCycle cycle := by
          rintro cycle rfl
          exact open_ cycle rfl
        obtain ⟨names, text, pos', told, others⟩ := attributed_of_fault reader parsed' fault open'
        obtain ⟨⟨cause, last, arises⟩, partials, once, located, inside'⟩ := told
        have outside : name ∉ names ∧ ∀ n ∈ names, n ∉ path.partials := by
          simp only [IncludePath.push, mem_append, mem_singleton, not_or] at others
          exact ⟨fun mem => (others name mem).2 rfl, fun n mem => (others n mem).1⟩
        rw [CompileError.leaving_eq open' (partials ▸ outside.1)]
        refine ⟨name :: names, text, pos', ⟨⟨cause, ?_, ?_⟩, ?_, ?_, ?_, inside'⟩, ?_⟩
        · rw [CompileError.chain, getLast?_cons, last]; rfl
        · exact .included parsed met earlier found arises
        · exact congrArg (name :: ·) partials
        · exact nodup_cons.2 ⟨outside.1, once⟩
        · rw [file] at located
          rw [getLastD_cons]
          exact located
        · exact forall_mem_cons.2 ⟨cycle, outside.2⟩
termination_by path.room lib

end

/-- **Compile errors are attributed to the right file and position.** An error
that is no include cycle is wrapped once for each include on the way to the
file in which it arises, and `locate` gives that file and a position inside its
text. -/
theorem compile_attributed {o : CompileOptions} {lib : Library} {src : Bytes} {e : CompileError}
    (reader : o.parse = Template.parse) (fails : (compile o lib src).1 = .error e)
    (open_ : ∀ cycle, e ≠ .includeCycle cycle) :
    ∃ names text pos, Attributed o lib { root := o.file } src e names text pos := by
  cases parsed : Template.parse src with
  | error malformed =>
    rw [compile_fst, Compile.program_malformed (by rw [reader]; exact parsed)] at fails
    cases fails
    exact ⟨[], src, malformed.pos, ⟨_, rfl, .malformed parsed⟩, rfl, List.nodup_nil, rfl,
      inside_of_malformed parsed⟩
  | ok tree =>
    rw [compile_eq_error_iff (by rw [reader]; exact parsed)] at fails
    obtain ⟨names, text, pos, told, -⟩ := attributed_of_fault reader parsed fails open_
    exact ⟨names, text, pos, told⟩

/-- A row with a comparison that cannot be compiled, two includes deep. -/
def tables : Library :=
  ⟨[("table", "\x7b% include 'row' %\x7d"), ("row", "<td>\n\x7b\x7b a < b < c \x7d\x7d")]⟩

theorem tables_attributed :
    (compile { moduleMode := true, fileName := "page" } tables "\x7b% include 'table' %\x7d").1
        = .error (.inPartial "table" (.inPartial "row" (.chainedComparison ["<", "<"] ⟨2, 4⟩)))
      ∧ ∃ names text pos, Attributed { moduleMode := true, fileName := "page" } tables
        { root := "page" } "\x7b% include 'table' %\x7d"
        (.inPartial "table" (.inPartial "row" (.chainedComparison ["<", "<"] ⟨2, 4⟩)))
        names text pos := by
  have fails : (compile { moduleMode := true, fileName := "page" } tables
      "\x7b% include 'table' %\x7d").1
      = .error (.inPartial "table" (.inPartial "row" (.chainedComparison ["<", "<"] ⟨2, 4⟩))) := by
    cbv
  exact ⟨fails, compile_attributed rfl fails (by rintro _ ⟨⟩)⟩

end TemplateCompiler
