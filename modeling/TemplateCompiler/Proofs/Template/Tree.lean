import TemplateCompiler.Compile.Unit
import Mathlib

/-!
# What stands in a template tree

Two readings of a tree that its compilation depends on. `Node.inclusions`
lists the includes of a tree in the order in which they are compiled, and
`Node.SetFree` says that no assignment stands in it. Both are taken apart
along the tree: what a node holds is what its parts hold.
-/

open List

namespace TemplateCompiler.Node

variable {m n : Node}

/-! ## The walk, node by node

`Node.preorder` is the walk with its depths left out, so the depth at which
a part is visited does not matter. -/

mutual

/-- The walk visits the same nodes at every depth. -/
theorem levels_map_snd (depth : Nat) (n : Node) :
    (n.levels depth).map Prod.snd = n.preorder := by
  unfold preorder
  cases n with
  | missing | text | symbol | literal | named => rfl
  | list p ns | output p ns | array p ns | group p ns =>
    simp [levels, levelsOf_map_snd _ ns]
  | ifElse p c b a | choice p c b a =>
    simp [levels, levels_map_snd _ c, levels_map_snd _ b, levels_map_snd _ a]
  | forEach p v i b a =>
    simp [levels, levels_map_snd _ v, levels_map_snd _ i, levels_map_snd _ b,
      levels_map_snd _ a]
  | assign p ts v b =>
    simp [levels, levelsOf_map_snd _ ts, levels_map_snd _ v, levels_map_snd _ b]
  | embed p t o => simp [levels, levels_map_snd _ t]
  | inherit p t | not p t | neg p t => simp [levels, levels_map_snd _ t]
  | block p n t => simp [levels, levels_map_snd _ t]
  | lookup p l r | binary p op l r => simp [levels, levels_map_snd _ l, levels_map_snd _ r]
  | call p c args => simp [levels, levels_map_snd _ c, levelsOf_map_snd _ args]
  | compare p first links =>
    simp [levels, levels_map_snd _ first, levelsOfLinks_map_snd _ links]
  | dict p pairs => simp [levels, levelsOfPairs_map_snd _ pairs]

theorem levelsOf_map_snd (depth : Nat) (ns : List Node) :
    (levelsOf depth ns).map Prod.snd = ns.flatMap preorder := by
  cases ns with
  | nil => rfl
  | cons n ns =>
    rw [levelsOf, map_append, levels_map_snd depth n, levelsOf_map_snd depth ns,
      flatMap_cons]

theorem levelsOfLinks_map_snd (depth : Nat) (links : List (Bytes × Node)) :
    (levelsOfLinks depth links).map Prod.snd = links.flatMap fun l => l.2.preorder := by
  cases links with
  | nil => rfl
  | cons link links =>
    obtain ⟨op, n⟩ := link
    rw [levelsOfLinks, map_append, levels_map_snd depth n,
      levelsOfLinks_map_snd depth links, flatMap_cons]

theorem levelsOfPairs_map_snd (depth : Nat) (pairs : List (Node × Node)) :
    (levelsOfPairs depth pairs).map Prod.snd
      = pairs.flatMap fun p => p.1.preorder ++ p.2.preorder := by
  cases pairs with
  | nil => rfl
  | cons pair pairs =>
    obtain ⟨k, v⟩ := pair
    rw [levelsOfPairs, map_append, map_append, levels_map_snd depth k,
      levels_map_snd depth v, levelsOfPairs_map_snd depth pairs, flatMap_cons]

end

/-- The nodes directly below a node. -/
def parts : Node → List Node
  | .missing | .text .. | .symbol .. | .literal .. | .named .. => []
  | .list _ ns | .output _ ns | .array _ ns | .group _ ns => ns
  | .ifElse _ c b a | .choice _ c b a => [c, b, a]
  | .forEach _ v i b a => [v, i, b, a]
  | .assign _ ts v b => ts ++ [v, b]
  | .embed _ t _ | .inherit _ t | .not _ t | .neg _ t | .block _ _ t => [t]
  | .lookup _ l r | .binary _ _ l r => [l, r]
  | .call _ c args => c :: args
  | .compare _ first links => first :: links.map Prod.snd
  | .dict _ pairs => pairs.flatMap fun p => [p.1, p.2]

/-- The words that a node itself has: its name, or those in the name of the
filter that it calls. -/
def ownWords : Node → List Bytes
  | .symbol _ name | .named _ name => [name]
  | .call _ (.symbol _ name) _ => Bytes.splitOn Byte.dot name
  | _ => []

/-- The parts of a node, the name of a filter apart. -/
def operands : Node → List Node
  | .call _ (.symbol ..) args => args
  | n => n.parts

theorem mem_parts_of_operand (mem : m ∈ n.operands) : m ∈ n.parts := by
  cases n with
  | call p f args => cases f <;> first | exact mem | exact mem_cons_of_mem _ mem
  | _ => exact mem

/-- **The walk through a node** visits it and then walks through its parts. -/
theorem preorder_eq (n : Node) (present : n.isMissing = false) :
    n.preorder = n :: n.parts.flatMap preorder := by
  rw [preorder]
  cases n with
  | missing => exact absurd present (by decide)
  | text | symbol | literal | named => rfl
  | list p ns | output p ns | array p ns | group p ns =>
    rw [levels, map_cons, levelsOf_map_snd]
    rfl
  | ifElse | choice | forEach | embed | inherit | not | neg | block | lookup | binary =>
    simp [levels, parts, levels_map_snd]
  | assign | call => simp [levels, parts, levels_map_snd, levelsOf_map_snd]
  | compare =>
    simp [levels, parts, levels_map_snd, levelsOfLinks_map_snd, flatMap_map]
  | dict =>
    simp [levels, parts, levelsOfPairs_map_snd, flatMap_assoc]

/-- What is collected along the walk: what a node gives, then what its parts
give. -/
theorem filterMap_preorder {α : Type} {f : Node → Option α} (absent : f .missing = none) (n : Node) :
    n.preorder.filterMap f = (f n).toList ++ n.parts.flatMap fun m => m.preorder.filterMap f := by
  cases missing : n.isMissing with
  | true =>
    cases n with
    | missing => rw [absent]; rfl
    | _ => cases missing
  | false =>
    rw [preorder_eq n missing, filterMap_cons, filterMap_flatMap]
    cases f n <;> rfl

theorem mem_preorder_self (present : n.isMissing = false) : n ∈ n.preorder := by
  rw [preorder_eq n present]
  exact mem_cons_self

theorem mem_preorder_of_part {k : Node} (part : m ∈ n.parts) (below : k ∈ m.preorder) :
    k ∈ n.preorder := by
  have present : n.isMissing = false := by cases n <;> first | rfl | cases part
  rw [preorder_eq n present]
  exact mem_cons_of_mem _ (mem_flatMap.2 ⟨m, part, below⟩)

/-- A part of a node takes less of the walk than the node. -/
theorem length_preorder_lt (part : m ∈ n.parts) : m.preorder.length < n.preorder.length := by
  have present : n.isMissing = false := by cases n <;> first | rfl | cases part
  rw [preorder_eq n present, length_cons, Nat.lt_succ_iff]
  exact (sublist_flatten_of_mem (mem_map.2 ⟨m, part, rfl⟩)).length_le

/-- What holds of a node and below its parts holds all through the walk. -/
theorem forall_mem_preorder {P : Node → Prop} (here : P n)
    (below : ∀ m ∈ n.parts, ∀ k ∈ m.preorder, P k) : ∀ k ∈ n.preorder, P k := by
  cases present : n.isMissing with
  | true => cases n <;> first | exact forall_mem_nil _ | cases present
  | false =>
    rw [preorder_eq n present]
    exact forall_mem_cons.2 ⟨here, forall_mem_flatMap.2 below⟩

/-- What passes from a node to its parts passes on through the walk. -/
theorem forall_mem_preorder_of_parts {P : Node → Prop}
    (down : ∀ n m, P n → m ∈ n.parts → m.isMissing = false → P m) {n : Node} (here : P n) :
    ∀ m ∈ n.preorder, P m := by
  refine forall_mem_preorder here fun m part => ?_
  cases present : m.isMissing with
  | true => cases m <;> first | exact forall_mem_nil _ | cases present
  | false =>
    have := length_preorder_lt part
    exact forall_mem_preorder_of_parts down (down n m here part present)
termination_by n.preorder.length

/-- No assignment stands anywhere in the tree. -/
def SetFree (n : Node) : Prop := ∀ m ∈ n.preorder, m.isAssignment = false

instance (n : Node) : Decidable n.SetFree := inferInstanceAs (Decidable (∀ _ ∈ _, _))

/-- A tree without assignments is none itself. -/
theorem SetFree.isAssignment (h : n.SetFree) : n.isAssignment = false := by
  cases present : n.isMissing with
  | true => cases n <;> first | rfl | simp [isMissing] at present
  | false => exact h n (mem_preorder_self present)

/-- The parts of a tree without assignments have none. -/
theorem SetFree.part (h : n.SetFree) (part : m ∈ n.parts) : m.SetFree :=
  fun k below => h k (mem_preorder_of_part part below)

/-! ## Includes

Only includes that name a partial are listed; any other include fails when it
is compiled. -/

mutual

/-- **The includes of a tree**, in the order in which they are compiled. -/
def inclusions : Node → List Inclusion
  | .list _ ns | .output _ ns | .array _ ns | .group _ ns => inclusionsOf ns
  | .ifElse _ c b a | .choice _ c b a => c.inclusions ++ b.inclusions ++ a.inclusions
  | .forEach _ _ items body alt => items.inclusions ++ body.inclusions ++ alt.inclusions
  | .assign _ targets value body =>
    (if value.isMissing then body.inclusions else value.inclusions) ++ inclusionsOf targets
  | .embed pos (.literal _ (.string name)) optional => [⟨pos, name, optional⟩]
  | .lookup _ l r | .binary _ _ l r => l.inclusions ++ r.inclusions
  | .call _ callee args => inclusionsOf args ++ callee.inclusions
  | .compare _ first links => first.inclusions ++ inclusionsOfLinks links
  | .not _ t | .neg _ t => t.inclusions
  | .dict _ pairs => inclusionsOfPairs pairs
  | _ => []

/-- `inclusions` of each node in turn. -/
def inclusionsOf : List Node → List Inclusion
  | [] => []
  | n :: ns => n.inclusions ++ inclusionsOf ns

/-- `inclusions` of the operands of a comparison. -/
def inclusionsOfLinks : List (Bytes × Node) → List Inclusion
  | [] => []
  | (_, n) :: links => n.inclusions ++ inclusionsOfLinks links

/-- `inclusions` of the values of a dictionary. -/
def inclusionsOfPairs : List (Node × Node) → List Inclusion
  | [] => []
  | (_, v) :: pairs => v.inclusions ++ inclusionsOfPairs pairs

end

theorem inclusionsOf_eq (ns : List Node) : inclusionsOf ns = ns.flatMap inclusions := by
  induction ns with
  | nil => rfl
  | cons n ns ih => rw [inclusionsOf, ih, flatMap_cons]

theorem inclusionsOfLinks_eq (links : List (Bytes × Node)) :
    inclusionsOfLinks links = links.flatMap fun l => l.2.inclusions := by
  induction links with
  | nil => rfl
  | cons link links ih => rw [inclusionsOfLinks, ih, flatMap_cons]

theorem inclusionsOfPairs_eq (pairs : List (Node × Node)) :
    inclusionsOfPairs pairs = pairs.flatMap fun p => p.2.inclusions := by
  induction pairs with
  | nil => rfl
  | cons pair pairs ih => rw [inclusionsOfPairs, ih, flatMap_cons]

theorem inclusionsOf_append (ns ms : List Node) :
    inclusionsOf (ns ++ ms) = inclusionsOf ns ++ inclusionsOf ms := by
  rw [inclusionsOf_eq, inclusionsOf_eq, inclusionsOf_eq, flatMap_append]

end TemplateCompiler.Node
