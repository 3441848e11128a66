import TemplateCompiler.Code.Stamp
import TemplateCompiler.Code.Walk
import Mathlib

/-!
# The parts of code

`Code.parts` lists the pieces directly below a piece of code. What the piece
is without them and without its location is its shell, and the three together
make it up (`Code.ext_parts`). So a function that goes through code is known
by what it does to shells, locations and parts, and two of them are compared
part by part.
-/

open List

namespace TemplateCompiler.Code

variable {f : Code → Code} {cs : List Code} {c : Code}

/-- The pieces directly below a piece of code, in the order of the walk. -/
def parts : Code → List Code
  | .missing | .literal .. | .identifier _ | .importRef _ => []
  | .member _ o p _ => [o, p]
  | .call _ f args => f :: args
  | .unary _ _ a => [a]
  | .binary _ _ l r | .logical _ _ l r | .assign _ l r => [l, r]
  | .conditional _ t a b => [t, a, b]
  | .array _ es | .sequence _ es | .interpolation _ _ _ es => es
  | .object _ props => props.map Prod.snd
  | .lambda _ params body block => params ++ body :: block
  | .destructure d => d.names.map .identifier
  | .function u => u.params ++ (u.statements ++ [u.body])

/-- The pieces of a list of code are those of its members. -/
theorem inspectAll_eq_flatMap (cs : List Code) :
    inspectAll (fun _ => true) cs = cs.flatMap preorder := by
  induction cs with
  | nil => rfl
  | cons c cs ih => rw [inspectAll, ih]; rfl

theorem inspectProps_eq_flatMap (props : List (Bytes × Code)) :
    inspectProps (fun _ => true) props = props.flatMap fun p => p.2.preorder := by
  induction props with
  | nil => rfl
  | cons p props ih => obtain ⟨key, c⟩ := p; rw [inspectProps, ih]; rfl

/-- **The walk through code** visits a piece and then walks through its
parts. -/
theorem preorder_eq (c : Code) (present : c.isMissing = false) :
    c.preorder = c :: c.parts.flatMap preorder := by
  cases c with
  | missing => cases present
  | literal | identifier | importRef => rfl
  | array | sequence | interpolation =>
    rw [preorder, inspect, partsOf, if_pos rfl, inspectAll_eq_flatMap]
    rfl
  | object loc props =>
    rw [preorder, inspect, partsOf, if_pos rfl, inspectProps_eq_flatMap, parts, flatMap_map]
  | destructure d =>
    rw [preorder, inspect, partsOf, if_pos rfl, parts, flatMap_map]
    congr 1
    exact map_eq_flatMap
  | function u => cases u; simp [preorder, inspect, partsOf, parts, inspectAll_eq_flatMap]
  | _ => simp [preorder, inspect, partsOf, parts, inspectAll_eq_flatMap]

/-- What holds of code and of all pieces of its parts holds of all its pieces. -/
theorem forall_mem_preorder {P : Code → Prop} (here : P c)
    (below : ∀ d ∈ c.parts, ∀ e ∈ d.preorder, P e) : ∀ e ∈ c.preorder, P e := by
  cases c with
  | missing => exact forall_mem_nil _
  | _ =>
    rw [preorder_eq _ rfl, forall_mem_cons]
    exact ⟨here, forall_mem_flatMap.2 below⟩

theorem mem_preorder_of_part {c d e : Code} (part : d ∈ c.parts) (mem : e ∈ d.preorder) :
    e ∈ c.preorder := by
  cases c with
  | missing => cases part
  | _ => rw [preorder_eq _ rfl]; exact mem_cons_of_mem _ (mem_flatMap_of_mem part mem)

theorem sizeOf_lt_of_mem_parts {c d : Code} (part : d ∈ c.parts) : sizeOf d < sizeOf c := by
  cases c with
  | missing | literal | identifier | importRef => cases part
  | call loc f args =>
    rcases mem_cons.1 part with rfl | mem
    · simp; omega
    · have := sizeOf_lt_of_mem mem
      simp; omega
  | array loc es | sequence loc es | interpolation loc tag runs es =>
    have inside : sizeOf d < sizeOf es := sizeOf_lt_of_mem part
    simp; omega
  | object loc props =>
    obtain ⟨p, mem, rfl⟩ := mem_map.1 part
    have := sizeOf_lt_of_mem mem
    obtain ⟨key, c⟩ := p
    simp at this ⊢; omega
  | lambda loc params body block =>
    rcases mem_append.1 part with mem | mem
    · have := sizeOf_lt_of_mem mem
      simp; omega
    · rcases mem_cons.1 mem with rfl | mem
      · simp; omega
      · have := sizeOf_lt_of_mem mem
        simp; omega
  | destructure d =>
    obtain ⟨id, mem, rfl⟩ := mem_map.1 part
    have := sizeOf_lt_of_mem mem
    obtain ⟨loc, names, keys⟩ := d
    simp at this ⊢; omega
  | function u =>
    cases u
    simp only [parts, mem_append, mem_singleton] at part
    rcases part with mem | mem | rfl
    · have := sizeOf_lt_of_mem mem
      simp; omega
    · have := sizeOf_lt_of_mem mem
      simp; omega
    · simp; omega
  | _ =>
    simp only [parts, mem_cons, not_mem_nil, or_false] at part
    obtain rfl | rfl | rfl := part <;> simp <;> omega

/-! ## Shells -/

/-- **A piece of code without its location** and with nothing in place of its
parts. -/
def shell : Code → Code
  | .missing => .missing
  | .literal _ kind value => .literal none kind value
  | .identifier id => .identifier { id with loc := none }
  | .member _ _ _ computed => .member none .missing .missing computed
  | .call _ _ args => .call none .missing (args.map fun _ => .missing)
  | .unary _ op _ => .unary none op .missing
  | .binary _ op _ _ => .binary none op .missing .missing
  | .logical _ op _ _ => .logical none op .missing .missing
  | .conditional .. => .conditional none .missing .missing .missing
  | .array _ es => .array none (es.map fun _ => .missing)
  | .object _ props => .object none (props.map fun p => (p.1, .missing))
  | .sequence _ es => .sequence none (es.map fun _ => .missing)
  | .interpolation _ tag runs es => .interpolation none tag runs (es.map fun _ => .missing)
  | .assign .. => .assign none .missing .missing
  | .lambda _ params _ block =>
    .lambda none (params.map fun _ => .missing) .missing (block.map fun _ => .missing)
  | .destructure d => .destructure { names := d.names.map fun _ => { name := [] }, keys := d.keys }
  | .function u =>
    .function { u with
      loc := none
      params := u.params.map fun _ => .missing
      statements := u.statements.map fun _ => .missing
      body := .missing }
  | .importRef r => .importRef { r with loc := none }

theorem isMissing_of_shell {c d : Code} (same : c.shell = d.shell) : c.isMissing = d.isMissing := by
  have kept (c : Code) : c.shell.isMissing = c.isMissing := by cases c <;> rfl
  rw [← kept c, same, kept]

/-- **Code is made up** of its shell, its location and its parts. -/
theorem ext_parts {c d : Code} (shells : c.shell = d.shell) (locs : c.loc = d.loc)
    (below : c.parts = d.parts) : c = d := by
  cases c <;> cases d <;> first | (cases shells; done) | skip
  case identifier.identifier a b | importRef.importRef a b =>
    cases a
    cases b
    simp_all [shell, loc]
  case object.object l props l' props' =>
    have zipped (ps : List (Bytes × Code)) : (ps.map Prod.fst).zip (ps.map Prod.snd) = ps := by
      simp [zip_map']
    simp only [shell, object.injEq, true_and] at shells
    have keys := congrArg (List.map Prod.fst) shells
    simp only [map_map, Function.comp_def] at keys
    simp only [parts] at below
    rw [show l = l' from locs, ← zipped props, keys, below, zipped]
  case lambda.lambda =>
    have sides := append_inj below (by simp_all [shell])
    simp_all [loc]
  case destructure.destructure a b =>
    cases a
    cases b
    have names := map_injective_iff.2 (fun _ _ => identifier.inj) below
    simp_all [shell, loc]
  case function.function a b =>
    cases a
    cases b
    have sides := append_inj below (by simp_all [shell])
    have last := append_inj' sides.2 rfl
    simp_all [shell, loc]
  all_goals simp_all [shell, loc, parts]

/-- Functions that go through code are the same if they do the same to shells
and locations. -/
theorem eq_of_parts {f g : Code → Code} (shells : ∀ c, (f c).shell = (g c).shell)
    (locs : ∀ c, (f c).loc = (g c).loc) (left : ∀ c, (f c).parts = c.parts.map f)
    (right : ∀ c, (g c).parts = c.parts.map g) (c : Code) : f c = g c := by
  refine ext_parts (shells c) (locs c) ?_
  rw [left, right]
  exact map_congr_left fun d part =>
    have := sizeOf_lt_of_mem_parts part
    eq_of_parts shells locs left right d
termination_by sizeOf c

/-- The walk goes along with a function that goes through code. -/
theorem preorder_map (kept : ∀ c, (f c).isMissing = c.isMissing)
    (through : ∀ c, (f c).parts = c.parts.map f) (c : Code) :
    (f c).preorder = c.preorder.map f := by
  have none {c : Code} (missing : c.isMissing = true) : c.preorder = [] := by
    cases c <;> first | rfl | cases missing
  cases present : c.isMissing with
  | true => rw [none present, none ((kept c).trans present), map_nil]
  | false =>
    have inside : ∀ d ∈ c.parts, (f d).preorder = d.preorder.map f := fun d part =>
      have := sizeOf_lt_of_mem_parts part
      preorder_map kept through d
    rw [preorder_eq _ ((kept c).trans present), preorder_eq c present, through, map_cons,
      map_flatMap, flatMap_map]
    exact congrArg _ (flatMap_congr inside)
termination_by sizeOf c

/-! ## Locating, part by part -/

/-- A step and what follows it, run from a count. -/
theorem bind_apply {α β : Type} (x : StateM Nat α) (f : α → StateM Nat β) (n : Nat) :
    (x >>= f) n = f (x n).1 (x n).2 := rfl

theorem pure_apply {α : Type} (a : α) (n : Nat) : (pure a : StateM Nat α) n = (a, n) := rfl

theorem next_apply (file : Bytes) (pos : Position) (n : Nat) :
    Location.next file pos n = (⟨file, pos.line, pos.column, n⟩, n + 1) := rfl

section

variable {file : Bytes} {pos : Position}

/-- Code that has a location is passed over, and so is code that is not
there. -/
theorem stamp_done (done : c.isMissing = true ∨ c.loc.isSome = true) (n : Nat) :
    c.stamp file pos n = (c, n) := by
  rcases done with missing | located
  · cases c with
    | missing => rfl
    | _ => cases missing
  · cases c with
    | missing => rfl
    | identifier part | destructure part | function part | importRef part =>
      obtain ⟨loc, _⟩ := part
      cases loc with
      | none => cases located
      | some loc => rfl
    | literal loc | member loc | call loc | unary loc | binary loc | logical loc | conditional loc
    | array loc | object loc | sequence loc | interpolation loc | assign loc | lambda loc =>
      cases loc with
      | none => cases located
      | some loc => rfl

theorem done_or_bare (c : Code) :
    (c.isMissing = true ∨ c.loc.isSome = true) ∨ c.isMissing = false ∧ c.loc = none := by
  cases c.isMissing <;> cases c.loc <;> simp

theorem stampAll_append (xs ys : List Code) (n : Nat) :
    stampAll file pos (xs ++ ys) n
      = ((stampAll file pos xs n).1 ++ (stampAll file pos ys (stampAll file pos xs n).2).1,
        (stampAll file pos ys (stampAll file pos xs n).2).2) := by
  induction xs generalizing n with
  | nil => rfl
  | cons x xs ih =>
    rw [cons_append]
    simp only [stampAll, bind_apply, pure_apply, ih, cons_append]

theorem stampProps_eq (props : List (Bytes × Code)) (n : Nat) :
    ((stampProps file pos props n).1.map Prod.snd, (stampProps file pos props n).2)
      = stampAll file pos (props.map Prod.snd) n := by
  induction props generalizing n with
  | nil => rfl
  | cons p props ih =>
    obtain ⟨key, c⟩ := p
    simp only [stampProps, stampAll, bind_apply, pure_apply, map_cons, ← ih]

theorem keys_stampProps (props : List (Bytes × Code)) (n : Nat) :
    (stampProps file pos props n).1.map (fun p => (p.1, missing))
      = props.map fun p => (p.1, missing) := by
  induction props generalizing n with
  | nil => rfl
  | cons p props ih =>
    obtain ⟨key, c⟩ := p
    simp only [stampProps, bind_apply, pure_apply, map_cons, ih]

theorem stampNames_eq (names : List Identifier) (n : Nat) :
    (((names.mapM (·.stamp file pos) : StateM Nat (List Identifier)) n).1.map identifier,
        ((names.mapM (·.stamp file pos) : StateM Nat (List Identifier)) n).2)
      = stampAll file pos (names.map .identifier) n := by
  induction names generalizing n with
  | nil => rfl
  | cons id names ih =>
    rw [mapM_cons]
    simp only [stampAll, stamp, bind_apply, pure_apply, map_cons, ← ih]

@[simp] theorem length_stampAll (cs : List Code) (n : Nat) :
    (stampAll file pos cs n).1.length = cs.length := by
  induction cs generalizing n with
  | nil => rfl
  | cons c cs ih => simp only [stampAll, bind_apply, pure_apply, length_cons, ih]

/-- **Locating a piece that has no location**: it gets the next one, and its
parts are located in turn. -/
theorem stamp_bare (file : Bytes) (pos : Position) (bare : c.loc = none)
    (present : c.isMissing = false) (n : Nat) :
    (c.stamp file pos n).1.loc = some ⟨file, pos.line, pos.column, n⟩
      ∧ (c.stamp file pos n).1.shell = c.shell
      ∧ ((c.stamp file pos n).1.parts, (c.stamp file pos n).2)
        = stampAll file pos c.parts (n + 1) := by
  cases c with
  | missing => cases present
  | identifier id =>
    obtain ⟨loc, name, builtin⟩ := id
    cases bare
    exact ⟨rfl, rfl, rfl⟩
  | destructure d =>
    obtain ⟨loc, names, keys⟩ := d
    cases bare
    have located := @stampNames_eq file pos names (n + 1)
    have count := congrArg (·.1.length) located
    simp only [length_map, length_stampAll] at count
    exact ⟨rfl, by simp only [stamp, shell, bind_apply, pure_apply, next_apply, map_const',
      count], located⟩
  | function u =>
    cases u
    cases bare
    refine ⟨rfl, by simp only [stamp, shell, bind_apply, pure_apply, map_const', length_stampAll], ?_⟩
    rw [parts, stampAll_append, stampAll_append]
    rfl
  | importRef r =>
    obtain ⟨loc, unit, source⟩ := r
    cases bare
    exact ⟨rfl, rfl, rfl⟩
  | object loc props =>
    cases bare
    exact ⟨rfl, congrArg (object none) (keys_stampProps props (n + 1)), stampProps_eq props (n + 1)⟩
  | lambda loc params body block =>
    cases bare
    refine ⟨rfl, by simp only [stamp, shell, bind_apply, pure_apply, map_const', length_stampAll], ?_⟩
    rw [parts, stampAll_append]
    rfl
  | literal | member | call | unary | binary | logical | conditional | array | sequence
  | interpolation | assign =>
    cases bare
    exact ⟨rfl, by simp only [stamp, shell, bind_apply, pure_apply, map_const', length_stampAll], rfl⟩

theorem map_stampAll {α : Type} {f g : Code → α} {n : Nat}
    (each : ∀ c ∈ cs, ∀ n, f (c.stamp file pos n).1 = g c) :
    (stampAll file pos cs n).1.map f = cs.map g := by
  induction cs generalizing n with
  | nil => rfl
  | cons c cs ih =>
    obtain ⟨first, others⟩ := forall_mem_cons.1 each
    simp only [stampAll, bind_apply, pure_apply, map_cons, first, ih others]

theorem stampAll_comm {file' : Bytes} (each : ∀ c ∈ cs, ∀ n, (f c).stamp file' pos n
      = (f (c.stamp file pos n).1, (c.stamp file pos n).2)) (n : Nat) :
    stampAll file' pos (cs.map f) n
      = ((stampAll file pos cs n).1.map f, (stampAll file pos cs n).2) := by
  induction cs generalizing n with
  | nil => rfl
  | cons c cs ih =>
    obtain ⟨first, others⟩ := forall_mem_cons.1 each
    simp only [map_cons, stampAll, bind_apply, pure_apply, first, ih others]

/-- What is located piece by piece. -/
theorem mem_stampAll {n : Nat} {e : Code} (mem : e ∈ (stampAll file pos cs n).1) :
    ∃ d ∈ cs, ∃ m, e = (d.stamp file pos m).1 := by
  induction cs generalizing n with
  | nil => cases mem
  | cons c cs ih =>
    rcases mem_cons.1 mem with here | rest
    · exact ⟨c, mem_cons_self, n, here⟩
    · obtain ⟨d, inside, m, same⟩ := ih rest
      exact ⟨d, mem_cons_of_mem _ inside, m, same⟩

end

end TemplateCompiler.Code
