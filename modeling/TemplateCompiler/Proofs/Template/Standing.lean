import TemplateCompiler.Proofs.Template.Sourcing
import TemplateCompiler.Terminal.Caret

/-!
# What stands where a node does

The position of a node is more than some place of the source: it is the place
of the word or the tag that introduces the node (`Node.Introduced`). A
statement and the lists between its tags stand where a tag opens, a string
where its quote is, and a name where it is spelled. `Node.Standing` says so of
a whole tree. The main statement, `Template.parse_standing`, is that reading
any source gives such a tree, or an error at a place of the source, and that a
line and a column are as good as an offset.
-/

open List

namespace TemplateCompiler

namespace Node

/-- What introduces the node stands where the node does. A name with dots is
that of a filter, which may be spelled with blanks around them. -/
def Introduced (src : Bytes) : Node → Prop
  | .missing => True
  | .list p _ | .ifElse p .. | .forEach p .. | .assign p .. | .embed p .. | .inherit p _
  | .block p .. => Stands src Delimiter.statement.opening p
  | .output p [.text ..] => Stands src [] p
  | .output p _ => Stands src Delimiter.output.opening p
  | .literal p (.string _) => Stands src [Byte.quote] p ∨ Stands src [Byte.apostrophe] p
  | .symbol p name => Stands src (name.takeWhile (· != Byte.dot)) p
  | n => Stands src [] n.pos

/-- **Every node of the tree is introduced where it stands.** The key of a
member is introduced by the name itself, which has no quotes. -/
inductive Standing (src : Bytes) : Node → Prop where
  | node {n} (here : n.Introduced src) (parts : ∀ m ∈ n.parts, Standing src m) : Standing src n
  | member {p q t name} (here : Stands src [] p) (target : Standing src t)
    (key : Stands src name q) : Standing src (.lookup p t (.literal q (.string name)))

namespace Standing

variable {src : Bytes} {n : Node}

theorem leaf (here : n.Introduced src) (none : n.parts = []) : n.Standing src :=
  .node here (by simp [none])

theorem of_or (h : n = .missing ∨ n.Standing src) : n.Standing src :=
  h.elim (fun same => same ▸ leaf trivial rfl) id

/-- A name stands at what it is spelled with up to the first dot. -/
theorem symbol {p : Position} {first more : Bytes} (here : Stands src first p)
    (dotted : more.takeWhile (· != Byte.dot) = []) :
    (Node.symbol p (first ++ more)).Standing src := by
  refine leaf (?_ : Stands src ((first ++ more).takeWhile (· != Byte.dot)) p) rfl
  rw [takeWhile_append, dotted, append_nil]
  split
  · exact here
  · exact here.front takeWhile_append_dropWhile

theorem name {p : Position} {word : Bytes} (here : Stands src word p) :
    (Node.symbol p word).Standing src :=
  append_nil word ▸ symbol here rfl

end Standing

end Node

namespace Expression

/-- The parts of a dotted name behind the first start with a dot. -/
theorem dotted_eq_append (name : Bytes) (ts : List Token) :
    ∃ more, (dotted name ts).1 = name ++ more ∧ more.takeWhile (· != Byte.dot) = [] := by
  fun_induction dotted name ts with
  | case1 name p part q rest ih =>
    obtain ⟨more, same, -⟩ := ih
    exact ⟨Byte.dot :: (part ++ more), by simp [same], rfl⟩
  | case2 => exact ⟨[], (append_nil _).symm, rfl⟩

open Node.Standing in
/-- **Building keeps trees whose nodes are introduced.** -/
theorem builds_standing {src : Bytes} {stop : Position} {ts : List Token}
    (stops : Stands src [] stop) (words : ∀ t ∈ ts, t.Placed src) :
    Builds (Stands src []) (fun _ n => n.Standing src) stop ts where
  stop := stops
  words t mem := (words t mem).here
  mono standing _ := standing
  symbol mem := name (words _ mem).2
  filter {name p q after r args} left here all := by
    obtain ⟨more, same, dotted⟩ := dotted_eq_append name after
    have word := (words _ (left.subset (mem_cons_of_mem _ mem_cons_self))).2
    exact .node here (forall_mem_cons.2 ⟨same ▸ symbol word dotted, all⟩)
  string mem := leaf (words _ mem) rfl
  int here _ := leaf here rfl
  float mem _ := leaf (words _ mem) rfl
  constant here found := by
    obtain rfl | ⟨b, rfl⟩ := constant?_eq found
    · exact leaf here rfl
    · exact leaf here rfl
  group here all := .node here all
  array here all := .node here all
  dict here all := by
    refine .node here fun m mem => ?_
    obtain ⟨e, inside, side⟩ := mem_flatMap.1 mem
    obtain rfl | rfl : m = e.1 ∨ m = e.2 := by simpa using side
    · exact (all e inside).1
    · exact (all e inside).2
  call here head all := .node here (forall_mem_cons.2 ⟨head, all⟩)
  lookup here head index := .node here (by simp [Node.parts, head, index])
  member here head mem := .member here head (words _ mem).2
  negate here operand := by
    unfold negate
    split
    · exact leaf here rfl
    · exact leaf here rfl
    · exact .node here (forall_mem_singleton.2 operand)
  power here base exponent := .node here (by simp [Node.parts, base, exponent])
  join {us l r c j} left found onLeft onRight := by
    obtain ⟨-, -, ⟨t, mem, same⟩, -⟩ := joint?_spec found
    have here : Stands src [] j.pos := same ▸ (words t (left.subset mem)).here
    have binary : (Node.binary j.pos j.op l r).Standing src :=
      .node here (by simp [Node.parts, onLeft, onRight])
    unfold Joint.join
    split
    · exact .node here (forall_mem_singleton.2 binary)
    · exact binary
  compare here head _ all :=
    .node here (forall_mem_cons.2 ⟨head, forall_mem_map.2 fun l mem => (all l mem).2⟩)
  test {p l r} here left right := by
    have binary : (Node.binary p .is l r).Standing src :=
      .node here (by simp [Node.parts, left, right])
    exact ⟨binary, .node here (forall_mem_singleton.2 binary)⟩
  not here operand := .node here (forall_mem_singleton.2 operand)
  choice here condition body alternative :=
    .node here (by simp [Node.parts, condition, body, of_or alternative])

end Expression

open Node.Standing in
/-- **Parsing keeps trees whose nodes are introduced.** -/
theorem assembles_standing (src : Bytes) : Assembles src (·.Standing src) (·.Standing src) where
  expression stop words := (Expression.builds_standing stop words).ofTokens_tells
  list tag all := .node tag all
  text here := .node here (forall_mem_singleton.2 (leaf here rfl))
  trimmed standing := by
    cases standing with
    | node here inside =>
      cases forall_mem_singleton.1 inside with
      | node text _ => exact .node here (forall_mem_singleton.2 (leaf text rfl))
  output {p n} tag value := by
    refine .node ?_ (forall_mem_singleton.2 value)
    cases n with
    | text => exact tag.here
    | _ => exact tag
  ifElse tag condition body alternative :=
    .node tag (by simp [Node.parts, condition, body, of_or alternative])
  forEach tag names items body alternative := by
    have vars : ∀ {v : Node}, v.Binds src → v.Standing src := by
      rintro _ (there | ⟨here, all⟩)
      · exact name there.2
      · refine .node here fun n mem => ?_
        obtain ⟨q, w, there, rfl⟩ := all n mem
        exact name there.2
    exact .node tag (by simp [Node.parts, vars names, items, body, of_or alternative])
  assign tag _ targets value := by
    refine .node tag (forall_mem_append.2 ⟨fun t mem => (targets t mem).2, ?_⟩)
    exact forall_mem_cons.2 ⟨value, forall_mem_singleton.2 (of_or (.inl rfl))⟩
  capture tag _ targets body := by
    refine .node tag (forall_mem_append.2 ⟨fun t mem => (targets t mem).2, ?_⟩)
    exact forall_mem_cons.2 ⟨of_or (.inl rfl), forall_mem_singleton.2 body⟩
  embed tag template := .node tag (forall_mem_singleton.2 template)
  inherit tag template := .node tag (forall_mem_singleton.2 template)
  block tag body := .node tag (forall_mem_singleton.2 body)

/-- **Reading never fails to answer, and every position it reports is that of
what introduces the node.** Any source is read as a tree or refused at a place
in it. What stands at a position stands behind as many bytes as the position's
line and column say, and that line exists. -/
theorem Template.parse_standing (src : Bytes) :
    Tells (Stands src []) (fun tree => ∃ ns, tree = .list .start ns ∧ ∀ n ∈ ns, n.Standing src)
        (Template.parse src)
      ∧ Tells (Stands src []) (·.Standing src) (Template.parseExpression src)
      ∧ ∀ text p, Stands src text p →
        (sourceLine? src p.line).isSome = true ∧ p.offset src ≤ src.length
          ∧ Position.start.after (src.take (p.offset src)) = p
          ∧ text <+: src.drop (p.offset src) := by
  have expression : Tells (Stands src []) (·.Standing src) (Template.parseExpression src) :=
    (Token.scan_tells (.whole src)).bind fun _ words =>
      ((assembles_standing src).expression (Stands.whole src).stop words).tells
  refine ⟨(assembles_standing src).parse_tells.tells, expression, ?_⟩
  rintro text p ⟨before, after, rfl, rfl⟩
  have start : before <+: before ++ (text ++ after) := List.prefix_append _ _
  obtain ⟨⟨first, -, line, found, -⟩, offset⟩ := Position.place_of_prefix start
  obtain ⟨k, same⟩ := Nat.exists_eq_add_of_le' first
  rw [offset, List.take_left, List.drop_left, same]
  rw [same, Nat.add_sub_cancel] at found
  exact ⟨by simp [sourceLine?, found], start.length_le, rfl, List.prefix_append _ _⟩

end TemplateCompiler
