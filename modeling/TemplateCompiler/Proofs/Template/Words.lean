import TemplateCompiler.Proofs.Script.Names
import TemplateCompiler.Proofs.Template.Assembling

/-!
# The names of a tree

The names in a tree that was parsed are identifiers. Only a filter has a name
with dots in it, and the words between these are identifiers. Every assignment
has a target (`Template.worded_of_parse`).
-/

open List

namespace TemplateCompiler

theorem Bytes.splitOn_append_cons (sep : UInt8) (bs cs : Bytes) :
    splitOn sep (bs ++ sep :: cs) = splitOn sep bs ++ splitOn sep cs := by
  induction bs with
  | nil => exact splitOn_cons sep cs
  | cons b bs ih =>
    rw [cons_append, splitOn, splitOn, ih]
    split
    · rfl
    · cases pieces : splitOn sep bs with
      | nil => exact absurd pieces (splitOn_ne_nil sep bs)
      | cons piece more => rfl

/-- An identifier has no dot in it. -/
theorem Script.splitOn_dot {name : Bytes} (word : isIdentifier name = true) :
    Bytes.splitOn Byte.dot name = [name] := by
  have apart : Byte.dot ∉ name := by
    cases name with
    | nil => exact not_mem_nil
    | cons b bs =>
      rw [isIdentifier, Bool.and_eq_true, all_eq_true] at word
      intro mem
      obtain rfl | mem := mem_cons.1 mem
      · exact absurd word.1 (by decide)
      · exact absurd (word.2 _ mem) (by decide)
  have whole := Bytes.splitOn_append apart []
  rw [append_nil] at whole
  rw [whole, Bytes.splitOn, modifyHead_cons, append_nil]

namespace Node

/-- An assignment without targets, for which a value is computed in vain. -/
def assignsNothing : Node → Bool
  | .assign _ [] _ _ => true
  | _ => false

/-- **A tree that can be compiled as it is meant**: its words are identifiers,
and every assignment in it has a target. -/
inductive Worded : Node → Prop where
  | node {n : Node} (own : ∀ word ∈ n.ownWords, Script.isIdentifier word = true)
    (targeted : n.assignsNothing = false) (below : ∀ m ∈ n.operands, Worded m) : Worded n

namespace Worded

variable {n : Node}

theorem own (h : n.Worded) : ∀ word ∈ n.ownWords, Script.isIdentifier word = true := by
  cases h with | node own _ _ => exact own

theorem bindingName {name : Bytes} (h : n.Worded) (named : n.ownWords = [name]) :
    Script.isIdentifier (Script.bindingName name) = true :=
  Script.isIdentifier_bindingName (h.own name (by simp [named]))

theorem targeted (h : n.Worded) : n.assignsNothing = false := by
  cases h with | node _ targeted _ => exact targeted

theorem operand (h : n.Worded) : ∀ m ∈ n.operands, m.Worded := by
  cases h with | node _ _ below => exact below

theorem inner (below : ∀ m ∈ n.operands, m.Worded) (targeted : n.assignsNothing = false := by rfl)
    (plain : n.ownWords = [] := by rfl) : n.Worded := .node (by simp [plain]) targeted below

theorem leaf (alone : n.operands = [] := by rfl) (targeted : n.assignsNothing = false := by rfl)
    (plain : n.ownWords = [] := by rfl) : n.Worded := inner (by simp [alone]) targeted plain

theorem of_or (h : n = .missing ∨ n.Worded) : n.Worded := h.elim (fun same => same ▸ leaf) id

theorem symbol {p : Position} {name : Bytes} (word : Script.isIdentifier name = true) :
    (Node.symbol p name).Worded :=
  .node (forall_mem_singleton.2 word) rfl (forall_mem_nil _)

theorem assign {p : Position} {ts : List Node} {v b : Node} (some_ : ts ≠ [])
    (targets : ∀ t ∈ ts, t.Worded) (value : v.Worded) (body : b.Worded) :
    (Node.assign p ts v b).Worded := by
  refine inner (forall_mem_append.2 ⟨targets, by simp [value, body]⟩) ?_
  cases ts with
  | nil => exact absurd rfl some_
  | cons => rfl

end Worded

end Node

open Node.Worded

namespace Expression

theorem isIdentifier_of_dotted {name : Bytes} {ts : List Token}
    (names : ∀ word ∈ Bytes.splitOn Byte.dot name, Script.isIdentifier word = true)
    (words : ∀ word p, ⟨.name word, p⟩ ∈ ts → Script.isIdentifier word = true) :
    ∀ word ∈ Bytes.splitOn Byte.dot (dotted name ts).1, Script.isIdentifier word = true := by
  fun_induction dotted name ts with
  | case1 name p part q rest ih =>
    have first : Script.isIdentifier part = true := words part q (by simp)
    refine ih ?_ fun word r mem => words word r (by simp [mem])
    rw [Bytes.splitOn_append_cons, Script.splitOn_dot first]
    exact forall_mem_append.2 ⟨names, forall_mem_singleton.2 first⟩
  | case2 => exact names

/-- **Building keeps the words.** -/
theorem builds_worded {src : Bytes} {stop : Position} {ts : List Token}
    (stops : Stands src [] stop) (words : ∀ t ∈ ts, t.Placed src) :
    Builds (Stands src []) (fun _ n => n.Worded) stop ts where
  stop := stops
  words t mem := (words t mem).here
  mono worded _ := worded
  symbol mem := symbol (words _ mem).1
  filter left _ all := by
    have word (name : Bytes) (p : Position) (mem : ⟨.name name, p⟩ ∈ ts) :
        Script.isIdentifier name = true := (Token.Placed.name (words _ mem) rfl).1
    have first := word _ _ (left.subset (mem_cons_of_mem _ mem_cons_self))
    refine .node (isIdentifier_of_dotted ?_ fun name p mem => word name p (left.subset ?_)) rfl all
    · rw [Script.splitOn_dot first]
      exact forall_mem_singleton.2 first
    · exact mem_cons_of_mem _ (mem_cons_of_mem _ mem)
  string _ := leaf
  int _ _ := leaf
  float _ _ := leaf
  constant _ _ := leaf
  group _ all := inner all
  array _ all := inner all
  dict _ all := by
    refine inner fun m mem => ?_
    obtain ⟨e, inside, side⟩ := mem_flatMap.1 mem
    obtain rfl | rfl : m = e.1 ∨ m = e.2 := by simpa using side
    · exact (all e inside).1
    · exact (all e inside).2
  call {p f args} _ head all := by
    cases f with
    | symbol q name =>
      have word := head.own name (mem_singleton_self name)
      refine .node (fun w mem => ?_) rfl all
      rw [Node.ownWords, Script.splitOn_dot word] at mem
      exact mem_singleton.1 mem ▸ word
    | _ => exact inner (forall_mem_cons.2 ⟨head, all⟩)
  lookup _ head index := inner (by simp [Node.operands, Node.parts, head, index])
  member _ head _ := inner
    (forall_mem_cons.2 ⟨head, forall_mem_singleton.2 leaf⟩)
  negate _ operand := by
    unfold negate
    split
    · exact leaf
    · exact leaf
    · exact inner (forall_mem_singleton.2 operand)
  power _ base exponent := inner (by simp [Node.operands, Node.parts, base, exponent])
  join _ _ onLeft onRight := by
    have binary (p : Position) (op : BinaryOp) : (Node.binary p op _ _).Worded :=
      inner (forall_mem_cons.2 ⟨onLeft, forall_mem_singleton.2 onRight⟩)
    unfold Joint.join
    split
    · exact inner (forall_mem_singleton.2 (binary _ _))
    · exact binary _ _
  compare _ head _ all := inner
    (forall_mem_cons.2 ⟨head, forall_mem_map.2 fun l mem => (all l mem).2⟩)
  test {p l r} _ left right := by
    have binary : (Node.binary p .is l r).Worded :=
      inner (by simp [Node.operands, Node.parts, left, right])
    exact ⟨binary, inner (forall_mem_singleton.2 binary)⟩
  not _ operand := inner (forall_mem_singleton.2 operand)
  choice _ condition body alternative :=
    inner (by simp [Node.operands, Node.parts, condition, body, of_or alternative])

end Expression

/-- **Parsing keeps the words.** -/
theorem assembles_worded (src : Bytes) : Assembles src (·.Worded) (·.Worded) where
  expression stop words := (Expression.builds_worded stop words).ofTokens_tells
  list _ all := inner all
  text _ := inner (forall_mem_singleton.2 leaf)
  trimmed _ := inner (forall_mem_singleton.2 leaf)
  output _ value := inner (forall_mem_singleton.2 value)
  ifElse _ condition body alternative :=
    inner (by simp [Node.operands, Node.parts, condition, body, of_or alternative])
  forEach {p v i b a} _ names items body alternative := by
    have vars : v.Worded := by
      cases names with
      | name word => exact symbol word.1
      | names _ all =>
        refine inner fun n mem => ?_
        obtain ⟨q, w, word, rfl⟩ := all n mem
        exact symbol word.1
    exact inner
      (by simp [Node.operands, Node.parts, vars, items, body, of_or alternative])
  assign _ some_ targets value := .assign some_ (fun t mem => (targets t mem).2) value leaf
  capture _ some_ targets body := .assign some_ (fun t mem => (targets t mem).2) leaf body
  embed _ template := inner (forall_mem_singleton.2 template)
  inherit _ template := inner (forall_mem_singleton.2 template)
  block _ body := inner (forall_mem_singleton.2 body)

theorem Template.worded_of_parse {src : Bytes} {tree : Node}
    (parsed : Template.parse src = .ok tree) : tree.Worded := by
  have told := (assembles_worded src).parse_tells
  rw [parsed] at told
  obtain ⟨ns, rfl, all⟩ := told
  exact inner all

end TemplateCompiler
