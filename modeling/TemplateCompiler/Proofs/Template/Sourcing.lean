import TemplateCompiler.Proofs.Template.Assembling

/-!
# Where trees come from

The parser takes every position that it reports from the source: a node stands
where its first word or its tag does, and an error where reading stopped
(`Template.parse_tells`). The tree also has no parts missing but those that a
statement may lack, names where a loop binds them, and something that can be
assigned to where an assignment asks for it (`Node.Sourced`).
-/

namespace TemplateCompiler

namespace Node

variable {n : Node} {P : Position → Prop}

/-- Names as a loop binds them: one, or several in an array. -/
def BindsNames : Node → Prop
  | .symbol .. => True
  | .array _ items => ∀ n ∈ items, ∃ p name, n = .symbol p name
  | _ => False

/-- **A tree that was read from source**: its positions are in `P`, and each
construct has its parts. -/
inductive Sourced (P : Position → Prop) : Node → Prop where
  | list {p ns} (pos : P p) (all : ∀ n ∈ ns, Sourced P n) : Sourced P (.list p ns)
  | output {p ns} (pos : P p) (all : ∀ n ∈ ns, Sourced P n) : Sourced P (.output p ns)
  | text {p content} (pos : P p) : Sourced P (.text p content)
  | ifElse {p c b a} (pos : P p) (condition : Sourced P c) (body : Sourced P b)
    (alternative : a.isMissing = false → Sourced P a) : Sourced P (.ifElse p c b a)
  | choice {p c b a} (pos : P p) (condition : Sourced P c) (body : Sourced P b)
    (alternative : a.isMissing = false → Sourced P a) : Sourced P (.choice p c b a)
  | forEach {p v i b a} (pos : P p) (names : v.BindsNames) (vars : Sourced P v)
    (items : Sourced P i) (body : Sourced P b)
    (alternative : a.isMissing = false → Sourced P a) : Sourced P (.forEach p v i b a)
  | assign {p ts v} (pos : P p) (targets : ∀ t ∈ ts, t.isTarget = true)
    (all : ∀ t ∈ ts, Sourced P t) (value : Sourced P v) : Sourced P (.assign p ts v .missing)
  | capture {p ts b} (pos : P p) (targets : ∀ t ∈ ts, t.isTarget = true)
    (all : ∀ t ∈ ts, Sourced P t) (body : Sourced P b) : Sourced P (.assign p ts .missing b)
  | embed {p t optional} (pos : P p) (template : Sourced P t) : Sourced P (.embed p t optional)
  | inherit {p t} (pos : P p) (template : Sourced P t) : Sourced P (.inherit p t)
  | block {p name b} (pos : P p) (body : Sourced P b) : Sourced P (.block p name b)
  | lookup {p t k} (pos : P p) (target : Sourced P t) (key : Sourced P k) :
    Sourced P (.lookup p t k)
  | symbol {p name} (pos : P p) : Sourced P (.symbol p name)
  | call {p c args} (pos : P p) (callee : Sourced P c) (all : ∀ n ∈ args, Sourced P n) :
    Sourced P (.call p c args)
  | literal {p v} (pos : P p) (spelled : ∀ items, v ≠ .words items) : Sourced P (.literal p v)
  | compare {p first links} (pos : P p) (head : Sourced P first) (some_ : links ≠ [])
    (all : ∀ l ∈ links, Sourced P l.2) : Sourced P (.compare p first links)
  | not {p t} (pos : P p) (operand : Sourced P t) : Sourced P (.not p t)
  | neg {p t} (pos : P p) (operand : Sourced P t) : Sourced P (.neg p t)
  | binary {p op l r} (pos : P p) (known : ∀ name, op ≠ .other name) (left : Sourced P l)
    (right : Sourced P r) : Sourced P (.binary p op l r)
  | array {p ns} (pos : P p) (all : ∀ n ∈ ns, Sourced P n) : Sourced P (.array p ns)
  | dict {p pairs} (pos : P p) (keys : ∀ e ∈ pairs, Sourced P e.1)
    (values : ∀ e ∈ pairs, Sourced P e.2) : Sourced P (.dict p pairs)
  | group {p ns} (pos : P p) (all : ∀ n ∈ ns, Sourced P n) : Sourced P (.group p ns)

theorem Sourced.pos (h : n.Sourced P) : P n.pos := by
  cases h <;> assumption

theorem Sourced.isMissing (h : n.Sourced P) :
    n.isMissing = false := by
  cases h <;> rfl

theorem Sourced.of_or (h : n = .missing ∨ n.Sourced P) (present : n.isMissing = false) :
    n.Sourced P := by
  obtain rfl | sourced := h
  · cases present
  · exact sourced

end Node

variable {P : Position → Prop}

namespace Expression

theorem constant?_eq {name : Bytes} {v : Literal} (h : constant? name = some v) :
    v = .null ∨ ∃ b, v = .bool b := by
  unfold constant? at h
  split at h
  · cases h; exact .inr ⟨_, rfl⟩
  split at h
  · cases h; exact .inr ⟨_, rfl⟩
  split at h
  · cases h; exact .inl rfl
  · cases h

/-- **Building keeps trees that were read.** -/
theorem builds_sourced {stop : Position} {ts : List Token} (stops : P stop)
    (words : ∀ t ∈ ts, P t.pos) : Builds P (fun _ n => n.Sourced P) stop ts where
  stop := stops
  words := words
  mono sourced _ := sourced
  symbol mem := .symbol (words _ mem)
  filter left pos all := .call pos
    (.symbol (words _ (left.subset (List.mem_cons_of_mem _ List.mem_cons_self)))) all
  string mem := .literal (words _ mem) (by simp)
  int pos _ := .literal pos (by simp)
  float mem _ := .literal (words _ mem) (by simp)
  constant pos found := .literal pos (by obtain rfl | ⟨b, rfl⟩ := constant?_eq found <;> simp)
  group pos all := .group pos all
  array pos all := .array pos all
  dict pos all := .dict pos (fun e mem => (all e mem).1) fun e mem => (all e mem).2
  call pos head all := .call pos head all
  lookup pos head index := .lookup pos head index
  member pos head mem := .lookup pos head (.literal (words _ mem) (by simp))
  negate {p n} pos operand := by
    unfold negate
    split
    · exact .literal pos (by simp)
    · exact .literal pos (by simp)
    · exact .neg pos operand
  power pos base exponent := .binary pos (by simp) base exponent
  join {us l r c j} left found onLeft onRight := by
    obtain ⟨inChain, -, ⟨t, mem, same⟩, -⟩ := joint?_spec found
    have pos : P j.pos := same ▸ words t (left.subset mem)
    have known : ∀ name, j.op ≠ .other name := by
      intro name other
      rw [other] at inChain
      cases inChain
    unfold Joint.join
    split
    · exact .not pos (.binary pos known onLeft onRight)
    · exact .binary pos known onLeft onRight
  compare pos head some_ all := .compare pos head some_ fun l mem => (all l mem).2
  test pos left right :=
    ⟨.binary pos (by simp) left right, .not pos (.binary pos (by simp) left right)⟩
  not pos operand := .not pos operand
  choice pos condition body alternative := .choice pos condition body (.of_or alternative)

end Expression

/-- **Parsing keeps trees that were read.** -/
theorem assembles_sourced (src : Bytes) :
    Assembles src (·.Sourced (Stands src [])) (·.Sourced (Stands src [])) where
  expression stop words :=
    (Expression.builds_sourced stop fun t mem => (words t mem).here).ofTokens_tells
  list tag all := .list tag.here all
  text pos := .output pos (List.forall_mem_singleton.2 (.text pos))
  trimmed sourced := by
    cases sourced with
    | output pos inside =>
      have text := (List.forall_mem_singleton.1 inside).pos
      exact .output pos (List.forall_mem_singleton.2 (.text text))
  output tag value := .output tag.here (List.forall_mem_singleton.2 value)
  ifElse tag condition body alternative := .ifElse tag.here condition body (.of_or alternative)
  forEach tag names items body alternative := by
    have vars : ∀ {v : Node}, v.Binds src → v.BindsNames ∧ v.Sourced (Stands src []) := by
      rintro _ (here | ⟨here, all⟩)
      · exact ⟨trivial, .symbol here.2.here⟩
      · refine ⟨fun n mem => ?_, .array here fun n mem => ?_⟩ <;>
          obtain ⟨q, w, there, rfl⟩ := all n mem
        · exact ⟨q, w, rfl⟩
        · exact .symbol there.2.here
    exact .forEach tag.here (vars names).1 (vars names).2 items body (.of_or alternative)
  assign tag _ targets value :=
    .assign tag.here (fun t mem => (targets t mem).1) (fun t mem => (targets t mem).2) value
  capture tag _ targets body :=
    .capture tag.here (fun t mem => (targets t mem).1) (fun t mem => (targets t mem).2) body
  embed tag template := .embed tag.here template
  inherit tag template := .inherit tag.here template
  block tag body := .block tag.here body

/-- **Trees and syntax errors have their positions from the source.** -/
theorem Template.parse_tells (src : Bytes) :
    Tells (Stands src []) (·.Sourced (Stands src [])) (Template.parse src) := by
  refine (assembles_sourced src).parse_tells.tells.mono ?_
  rintro _ ⟨ns, rfl, all⟩
  exact .list (Stands.whole src).here all

end TemplateCompiler
