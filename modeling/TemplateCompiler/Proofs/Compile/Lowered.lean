import TemplateCompiler.Proofs.Code.Names
import TemplateCompiler.Proofs.Compile.Correspondence
import TemplateCompiler.Proofs.Script.Printing

/-!
# The code that templates give

`Lowered` says once what compiled templates look like. It relates two pieces
of code without locations that are made by the same steps and differ only in
what stands for a partial: the partial's code in place, or a call. Read with
one piece of code twice it is a predicate: the forms it lists are all there
is, and every property of generated code is proved by induction on them.

The parameter `sets` says whether assignments may stand in the code, and
`calls` says which code in place and which call belong together.
-/

open List

namespace TemplateCompiler

/-- The pattern of a loop that takes its items apart by these names. -/
def loopPattern (names : List Bytes) : Destructure :=
  names.foldl (fun d n => d.add n { name := Script.bindingName n }) { names := [] }

/-- The names of the pattern of a loop. -/
theorem names_loopPattern (ns : List Bytes) :
    (loopPattern ns).names = ns.map fun n => { name := Script.bindingName n } :=
  Destructure.names_foldl_add id _ ns { names := [] }

/-- **The path of a filter** is made of members, one behind the other. -/
theorem Node.filterPath_induction {P : Code → Prop} (start : P (.ident Script.filterNamespace))
    (name : Bytes) (step : ∀ c, ∀ word ∈ Bytes.splitOn Byte.dot name,
      P c → P (.member none c (.ident word) false)) : P (filterPath name) := by
  unfold filterPath
  generalize Bytes.splitOn Byte.dot name = words, Code.ident Script.filterNamespace = c at start step
  induction words generalizing c with
  | nil => exact start
  | cons word words ih =>
    obtain ⟨first, rest⟩ := forall_and.1 fun c => forall_mem_cons.1 (step c)
    exact ih _ (first c start) rest

/-- What a loop binds: one name or several, none of them a stand-in for a
keyword and no two the same. -/
inductive LoopParam : Code → Prop where
  | name (n : Bytes) (plain : Script.templateName n = n) :
    LoopParam (.ident (Script.bindingName n))
  | names (ns : List Bytes) (plain : ∀ n ∈ ns, Script.templateName n = n)
    (distinct : (ns.map Script.bindingName).Nodup) : LoopParam (.destructure (loopPattern ns))

/-- **What a piece of generated code can be**, calls of units apart. The only
known name is `Array`, static members are names, text has the tag of the
runtime and runs around its holes, and functions are those of loops or take
nothing. A sign is a minus sign or a negation. -/
def Code.Form : Code → Prop
  | .literal _ _ value => ∀ n, value ≠ .plain n
  | .unary _ op _ => op = "!" ∨ op = "-"
  | .identifier id => id.builtin = true → id.name = "Array"
  | .member _ _ p computed => computed = false → ∃ key, p = .ident key
  | .call _ f _ => f.callee? = none
  | .interpolation _ tag runs holes => tag = Script.htmlTag ∧ runs.length = holes.length + 1
  | .lambda _ params _ _ => params = []
    ∨ ∃ param, LoopParam param ∧ params = [param, .ident (Node.loopCounter param.binders)]
  | .function _ => False
  | _ => True

/-- Code that is an expression, and of which all pieces have `P`. -/
def Code.Consists (P : Code → Prop) (c : Code) : Prop :=
  c.isExpression = true ∧ ∀ e ∈ c.preorder, P e

/-- **Code made by the same steps**, up to what stands for partials. -/
inductive Lowered (sets : Prop) (calls : Code → Code → Prop) : Code → Code → Prop where
  /-- A value of the template, or text. -/
  | literal (value : Literal) {c : Code} (h : Code.ofLiteral? value = some c) :
    Lowered sets calls c c
  /-- A name of the template. -/
  | name (n : Bytes) (plain : Script.templateName n = n) :
    Lowered sets calls (.ident (Script.bindingName n)) (.ident (Script.bindingName n))
  /-- A partial. -/
  | included {c d : Code} (h : calls c d) : Lowered sets calls c d
  | field {o o' : Code} (key : Bytes) (object : Lowered sets calls o o') :
    Lowered sets calls (.member none o (.ident key) false) (.member none o' (.ident key) false)
  | index {o o' p p' : Code} (object : Lowered sets calls o o')
    (property : Lowered sets calls p p') :
    Lowered sets calls (.member none o p true) (.member none o' p' true)
  /-- A filter, or any other call by name. -/
  | filter (path : Bytes) {xs ys : List Code} (lengths : xs.length = ys.length)
    (args : ∀ p ∈ xs.zip ys, Lowered sets calls p.1 p.2) :
    Lowered sets calls (.call none (Node.filterPath path) xs)
      (.call none (Node.filterPath path) ys)
  | call {f f' : Code} {xs ys : List Code} (callee : Lowered sets calls f f')
    (lengths : xs.length = ys.length) (args : ∀ p ∈ xs.zip ys, Lowered sets calls p.1 p.2) :
    Lowered sets calls (.call none f xs) (.call none f' ys)
  | unary {a a' : Code} (op : Bytes) (known : op = "!" ∨ op = "-") (arg : Lowered sets calls a a') :
    Lowered sets calls (.unary none op a) (.unary none op a')
  | binary {l l' r r' : Code} (op : Bytes) (left : Lowered sets calls l l')
    (right : Lowered sets calls r r') :
    Lowered sets calls (.binary none op l r) (.binary none op l' r')
  | logical {l l' r r' : Code} (op : Bytes) (left : Lowered sets calls l l')
    (right : Lowered sets calls r r') :
    Lowered sets calls (.logical none op l r) (.logical none op l' r')
  | conditional {t t' a a' b b' : Code} (test : Lowered sets calls t t')
    (consequent : Lowered sets calls a a') (alternate : Lowered sets calls b b') :
    Lowered sets calls (.conditional none t a b) (.conditional none t' a' b')
  | array {xs ys : List Code} (lengths : xs.length = ys.length)
    (elements : ∀ p ∈ xs.zip ys, Lowered sets calls p.1 p.2) :
    Lowered sets calls (.array none xs) (.array none ys)
  | object {ps qs : List (Bytes × Code)} (keys : ps.map Prod.fst = qs.map Prod.fst)
    (values : ∀ p ∈ ps.zip qs, Lowered sets calls p.1.2 p.2.2) :
    Lowered sets calls (.object none ps) (.object none qs)
  | sequence {xs ys : List Code} (lengths : xs.length = ys.length)
    (exprs : ∀ p ∈ xs.zip ys, Lowered sets calls p.1 p.2) :
    Lowered sets calls (.sequence none xs) (.sequence none ys)
  /-- A body with holes. -/
  | interpolation {runs : List Bytes} {xs ys : List Code} (count : runs.length = xs.length + 1)
    (lengths : xs.length = ys.length) (holes : ∀ p ∈ xs.zip ys, Lowered sets calls p.1 p.2) :
    Lowered sets calls (.interpolation none Script.htmlTag runs xs)
      (.interpolation none Script.htmlTag runs ys)
  /-- A loop without an alternative. -/
  | loop {i i' b b' : Code} {param : Code} (items : Lowered sets calls i i')
    (binds : LoopParam param) (body : Lowered sets calls b b') :
    Lowered sets calls (Node.loop i param b none) (Node.loop i' param b' none)
  /-- A loop with one. -/
  | loopElse {i i' b b' a a' : Code} {param : Code} (items : Lowered sets calls i i')
    (binds : LoopParam param) (body : Lowered sets calls b b')
    (alternate : Lowered sets calls a a') :
    Lowered sets calls (Node.loop i param b (some a)) (Node.loop i' param b' (some a'))
  /-- An assignment to a name. -/
  | assignName (allowed : sets) (n : Bytes) (plain : Script.templateName n = n) {v v' : Code}
    (value : Lowered sets calls v v') :
    Lowered sets calls (.assign none (.ident (Script.bindingName n)) v)
      (.assign none (.ident (Script.bindingName n)) v')
  /-- An assignment to a member. -/
  | assignMember (allowed : sets) {o o' p p' v v' : Code} {computed : Bool}
    (target : Lowered sets calls (.member none o p computed) (.member none o' p' computed))
    (value : Lowered sets calls v v') :
    Lowered sets calls (.assign none (.member none o p computed) v)
      (.assign none (.member none o' p' computed) v')
  /-- Assignments in the place of an expression. -/
  | block (allowed : sets) {xs ys : List Code} (lengths : xs.length = ys.length)
    (statements : ∀ p ∈ xs.zip ys, Lowered sets calls p.1 p.2) :
    Lowered sets calls (.call none (.lambda none [] .missing xs) [])
      (.call none (.lambda none [] .missing ys) [])

namespace Lowered

variable {sets sets' : Prop} {calls calls' : Code → Code → Prop} {c d : Code}

/-- **Matching code still matches** when more is allowed. -/
theorem mono (h : Lowered sets calls c d) (hs : sets → sets')
    (hc : ∀ c d, calls c d → calls' c d) : Lowered sets' calls' c d := by
  induction h with
  | literal value h => exact .literal value h
  | name n plain => exact .name n plain
  | included h => exact .included (hc _ _ h)
  | field key _ object => exact .field key object
  | index _ _ object property => exact .index object property
  | filter path lengths _ args => exact .filter path lengths args
  | call _ lengths _ callee args => exact .call callee lengths args
  | unary op known _ arg => exact .unary op known arg
  | binary op _ _ left right => exact .binary op left right
  | logical op _ _ left right => exact .logical op left right
  | conditional _ _ _ test consequent alternate =>
    exact .conditional test consequent alternate
  | array lengths _ elements => exact .array lengths elements
  | object keys _ values => exact .object keys values
  | sequence lengths _ exprs => exact .sequence lengths exprs
  | interpolation count lengths _ holes => exact .interpolation count lengths holes
  | loop _ binds _ items body => exact .loop items binds body
  | loopElse _ binds _ _ items body alternate => exact .loopElse items binds body alternate
  | assignName allowed n plain _ value => exact .assignName (hs allowed) n plain value
  | assignMember allowed _ _ target value => exact .assignMember (hs allowed) target value
  | block allowed lengths _ statements => exact .block (hs allowed) lengths statements

/-! ## Callees -/

theorem callee?_filterPath (path : Bytes) : (Node.filterPath path).callee? = none := by
  exact Node.filterPath_induction (P := fun c => c.callee? = none) rfl path fun _ _ _ _ => rfl

/-- **Code that comes from a template** is no name of a unit. -/
theorem callee?_eq_none (h : Lowered sets calls c d)
    (hc : ∀ c d, calls c d → d.callee? = none) : d.callee? = none := by
  cases h with
  | literal value h => cases value <;> cases h <;> rfl
  | included h => exact hc _ _ h
  | loop | loopElse => rfl
  | _ => rfl

/-- Every member of the second list stands beside one of the first. -/
theorem exists_of_mem {α β : Type} {R : α → β → Prop} {xs : List α} {ys : List β}
    (h : List.Forall₂ R xs ys) {y : β} (mem : y ∈ ys) : ∃ x, R x y := by
  induction h with
  | nil => cases mem
  | cons head _ ih =>
    rcases mem_cons.1 mem with rfl | mem
    · exact ⟨_, head⟩
    · exact ih mem

/-- Objects with the same keys have as many entries. -/
theorem length_eq_of_keys {ps qs : List (Bytes × Code)}
    (keys : ps.map Prod.fst = qs.map Prod.fst) : ps.length = qs.length := by
  have lengths := congrArg List.length keys
  rwa [length_map, length_map] at lengths

/-- One of several pieces of code that match. -/
theorem of_mem {cs ds : List Code} (h : List.Forall₂ (Lowered sets calls) cs (Code.eraseAll ds))
    (mem : d ∈ ds) : ∃ c, Lowered sets calls c d.erase := by
  have inside : d.erase ∈ Code.eraseAll ds := by
    rw [Code.eraseAll_eq_map]
    exact mem_map_of_mem mem
  exact exists_of_mem h inside

variable {known : Bytes → Prop}

/-! ## What stands in generated code -/

/-- **Induction on the pieces of code that matches.** What holds of calls, and of
pieces with the same shell whose parts have it, holds of code that matches. The
second piece is of one of the forms, and what is printed with it is an
expression. -/
theorem rec_parts {R : Code → Code → Prop} (h : Lowered sets calls c d)
    (hc : ∀ c d, calls c d → d.callee? = none ∧ d.isExpression = true ∧ R c d)
    (hf : ∀ c d : Code, c.shell = d.shell → c.loc = d.loc → d.Form →
      (∀ s ∈ d.slots, s.2.isExpression = true) → List.Forall₂ R c.parts d.parts → R c d) :
    d.isExpression = true ∧ R c d := by
  let Q (c d : Code) : Prop := d.isExpression = true ∧ R c d
  have whole {c d : Code} (kind : d.isExpression = true) (shells : c.shell = d.shell)
      (form : d.Form) (below : List.Forall₂ Q c.parts d.parts) (locs : c.loc = d.loc := by rfl) :
      Q c d := by
    refine ⟨kind, hf c d shells locs form (fun s slot => ?_) (below.imp fun _ _ h => h.2)⟩
    obtain ⟨x, held⟩ := exists_of_mem below (Code.mem_parts_of_slot slot)
    exact held.1
  have ident (name : Bytes) : Q (.ident name) (.ident name) := whole rfl rfl (by rintro ⟨⟩) .nil
  have field {o o' : Code} (key : Bytes) (object : Q o o') :
      Q (.member none o (.ident key) false) (.member none o' (.ident key) false) :=
    whole rfl rfl (fun _ => ⟨key, rfl⟩) (.cons object (.cons (ident key) .nil))
  have path (name : Bytes) : Q (Node.filterPath name) (Node.filterPath name) :=
    Node.filterPath_induction (P := fun c => Q c c) (ident _) name
      fun c word _ object => field word object
  have three {a a' b b' c c' : Code} (first : Q a a') (second : Q b b') (third : Q c c') :
      Q (.conditional none a b c) (.conditional none a' b' c') :=
    whole rfl rfl trivial (.cons first (.cons second (.cons third .nil)))
  have array : Q (.identifier { name := "Array", builtin := true })
      (.identifier { name := "Array", builtin := true }) := whole rfl rfl (fun _ => rfl) .nil
  have isArray {i i' : Code} (items : Q i i') : Q (.call none (.member none
      (.identifier { name := "Array", builtin := true }) (.ident "isArray") false) [i])
      (.call none (.member none
        (.identifier { name := "Array", builtin := true }) (.ident "isArray") false) [i']) :=
    whole rfl rfl rfl (.cons (field _ array) (.cons items .nil))
  have binder {param : Code} (binds : LoopParam param) : R param param := by
    cases binds with
    | name n => exact (ident _).2
    | names ns =>
      refine hf _ _ rfl rfl trivial (by rintro _ ⟨⟩) ?_
      rw [Code.parts, names_loopPattern, map_map]
      exact forall₂_same.2 (forall_mem_map.2 fun n _ => (ident _).2)
  have mapped {i i' p b b' : Code} (items : Q i i') (binds : LoopParam p) (body : Q b b') :
      Q (.call none (.member none i (.ident "map") false)
          [.lambda none [p, .ident (Node.loopCounter p.binders)] b []])
        (.call none (.member none i' (.ident "map") false)
          [.lambda none [p, .ident (Node.loopCounter p.binders)] b' []]) := by
    refine whole rfl rfl rfl (.cons (field _ items) (.cons ⟨rfl, ?_⟩ .nil))
    refine hf _ _ rfl rfl (.inr ⟨p, binds, rfl⟩) (fun s slot => ?_)
      (.cons (binder binds) (.cons (ident _).2 (.cons body.2 .nil)))
    rw [Code.slots] at slot
    split at slot
    · cases slot
    · rw [mem_singleton.1 slot]
      exact body.1
  have blank {xs ys : List Code} (lengths : xs.length = ys.length) :
      (xs.map fun _ => Code.missing) = ys.map fun _ => .missing := by
    rw [map_const', map_const', lengths]
  have all {xs ys : List Code} (lengths : xs.length = ys.length)
      (each : ∀ p ∈ xs.zip ys, Q p.1 p.2) : List.Forall₂ Q xs ys :=
    forall₂_iff_zip.2 ⟨lengths, fun mem => each _ mem⟩
  induction h with
  | literal value h => cases value <;> cases h <;> exact whole rfl rfl (by rintro _ ⟨⟩) .nil
  | name n plain => exact ident _
  | included h => exact (hc _ _ h).2
  | field key _ object => exact field key object
  | index _ _ object property => exact whole rfl rfl (by rintro ⟨⟩) (.cons object (.cons property .nil))
  | filter name lengths _ args =>
    exact whole rfl (congrArg (Code.call none .missing) (blank lengths)) (callee?_filterPath name)
      (.cons (path name) (all lengths args))
  | call callee lengths _ hf args =>
    exact whole rfl (congrArg (Code.call none .missing) (blank lengths))
      (callee.callee?_eq_none fun c d h => (hc c d h).1) (.cons hf (all lengths args))
  | unary op known _ arg => exact whole rfl rfl known (.cons arg .nil)
  | binary op _ _ left right | logical op _ _ left right =>
    exact whole rfl rfl trivial (.cons left (.cons right .nil))
  | conditional _ _ _ test consequent alternate => exact three test consequent alternate
  | array lengths _ elements =>
    exact whole rfl (congrArg (Code.array none) (blank lengths)) trivial (all lengths elements)
  | @object ps qs keys _ values =>
    have shells := congrArg (List.map fun key => (key, Code.missing)) keys
    rw [map_map, map_map] at shells
    refine whole rfl (congrArg (Code.object none) shells) trivial ?_
    refine forall₂_map_left_iff.2 (forall₂_map_right_iff.2 ?_)
    exact forall₂_iff_zip.2 ⟨length_eq_of_keys keys, fun mem => values _ mem⟩
  | sequence lengths _ exprs =>
    exact whole rfl (congrArg (Code.sequence none) (blank lengths)) trivial (all lengths exprs)
  | interpolation count lengths _ holes =>
    exact whole rfl (congrArg (Code.interpolation none _ _) (blank lengths))
      ⟨rfl, lengths ▸ count⟩ (all lengths holes)
  | loop _ binds _ items body =>
    exact three (isArray items) (mapped items binds body) (whole rfl rfl (by rintro _ ⟨⟩) .nil)
  | loopElse _ binds _ _ items body alternate =>
    exact three (whole rfl rfl trivial (.cons (isArray items) (.cons (field _ items) .nil)))
      (mapped items binds body) alternate
  | assignName allowed n plain _ value =>
    exact whole rfl rfl trivial (.cons (ident _) (.cons value .nil))
  | assignMember allowed _ _ target value =>
    exact whole rfl rfl trivial (.cons target (.cons value .nil))
  | block allowed lengths _ statements =>
    have each := all lengths statements
    have none : R .missing .missing := hf _ _ rfl rfl trivial (by rintro _ ⟨⟩) .nil
    refine whole rfl rfl rfl (.cons ⟨rfl, ?_⟩ .nil)
    refine hf _ _ (congrArg (Code.lambda _ _ _) (blank lengths)) rfl (.inl rfl) ?_
      (.cons none (each.imp fun _ _ h => h.2))
    refine forall_mem_map.2 fun c mem => ?_
    obtain ⟨x, held⟩ := exists_of_mem each mem
    exact held.1

/-- **Where partials do not stand for others, matching code is the same code.** -/
theorem eq (h : Lowered sets (fun _ _ => False) c d) : c = d :=
  (h.rec_parts (fun _ _ => False.elim) fun _ _ shells locs _ _ below =>
    Code.ext_parts shells locs (forall₂_eq_eq_eq ▸ below)).2

/-- **What holds of all these forms and of calls** holds of all pieces of
generated code. What is printed with a piece is an expression. -/
theorem consists {P : Code → Prop} (h : Lowered sets calls c d)
    (hc : ∀ c d, calls c d → d.callee? = none ∧ d.Consists P)
    (hf : ∀ e : Code, e.Form → (∀ s ∈ e.slots, s.2.isExpression = true) → P e) :
    d.Consists P := by
  refine h.rec_parts (R := fun _ d => ∀ e ∈ d.preorder, P e) hc fun c d _ _ form slots below => ?_
  refine Code.forall_mem_preorder (hf d form slots) fun e part => ?_
  obtain ⟨x, held⟩ := exists_of_mem below part
  exact held

/-- Loops bind names of the template only. -/
theorem knows_loopParam {param : Code} (h : LoopParam param) : param.Knows known := by
  intro id mem builtin
  cases h with
  | name n plain => rw [mem_singleton.1 mem] at builtin; cases builtin
  | names ns plain distinct =>
    rw [Code.names_destructure, names_loopPattern] at mem
    obtain ⟨n, -, rfl⟩ := mem_map.1 mem
    cases builtin

/-- **The names known to the script** in generated code are `Array` and those
of calls. -/
theorem knows (h : Lowered sets calls c d) (array : known "Array")
    (hc : ∀ c d, calls c d → (d.callee? = none ∧ d.isExpression = true) ∧ d.Knows known) :
    d.Knows known := by
  refine Code.knows_iff.2 (h.consists (fun c d call => ?_) fun e form _ => ?_).2
  · obtain ⟨⟨callee, kind⟩, knows⟩ := hc c d call
    exact ⟨callee, kind, Code.knows_iff.1 knows⟩
  · rintro id rfl builtin
    exact form builtin ▸ array

end Lowered

end TemplateCompiler
