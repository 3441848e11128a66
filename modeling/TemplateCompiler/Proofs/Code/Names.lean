import TemplateCompiler.Proofs.Code.Erasure

/-!
# The names in code

`Code.names` lists the identifiers that stand anywhere in a piece of code, in
the order of the walk. Unlike `Code.occurrences` it counts every one of them,
also parameters, static members and names known to the script.
-/

open List

namespace TemplateCompiler

/-- Names are added to a pattern one after the other. -/
theorem Destructure.names_foldl_add {α : Type} (key : α → Bytes) (id : α → Identifier)
    (xs : List α) (d : Destructure) :
    (xs.foldl (fun d x => d.add (key x) (id x)) d).names = d.names ++ xs.map id := by
  induction xs generalizing d with
  | nil => exact (append_nil _).symm
  | cons x xs ih =>
    rw [foldl_cons, ih, map_cons]
    exact append_assoc _ [id x] _

theorem Destructure.names_bindings (d : Destructure) : d.bindings.map Prod.snd = d.names := by
  obtain ⟨loc, names, keys⟩ := d
  show (Destructure.pairUp names keys).map Prod.snd = names
  induction names generalizing keys with
  | nil => rfl
  | cons id names ih =>
    cases keys with
    | nil => exact congrArg (List.cons id) (ih [])
    | cons key keys => exact congrArg (List.cons id) (ih keys)

namespace Code

/-- The identifier that a piece of code is. -/
def identifier? : Code → Option Identifier
  | .identifier id => some id
  | _ => none

/-- The unit that a callee names. -/
def callee? : Code → Option Bytes
  | .identifier id => if id.builtin then some id.name else none
  | _ => none

theorem callee?_erase (c : Code) : c.erase.callee? = c.callee? := by cases c <;> rfl

/-- **The identifiers in a piece of code.** -/
def names (c : Code) : List Identifier := c.preorder.filterMap identifier?

/-- The identifiers in several pieces of code. -/
def namesAll (cs : List Code) : List Identifier := cs.flatMap names

theorem mem_names {c : Code} {id : Identifier} : id ∈ c.names ↔ .identifier id ∈ c.preorder := by
  simp only [names, mem_filterMap]
  constructor
  · rintro ⟨d, mem, found⟩
    cases d with
    | identifier other => exact Option.some.inj found ▸ mem
    | _ => exact absurd found (by simp [identifier?])
  · exact fun mem => ⟨_, mem, rfl⟩

/-- The identifiers in code are those in its parts, and the code if it is one. -/
theorem names_eq (c : Code) : c.names = c.identifier?.toList ++ namesAll c.parts := by
  cases c with
  | missing => rfl
  | _ =>
    rw [names, preorder_eq _ rfl, filterMap_cons, filterMap_flatMap]
    rfl

@[simp] theorem namesAll_nil : namesAll [] = [] := rfl

@[simp] theorem namesAll_cons (c : Code) (cs : List Code) :
    namesAll (c :: cs) = c.names ++ namesAll cs := rfl

section

variable (loc : Option Location)

attribute [local simp] names_eq identifier? parts

@[simp, grind =] theorem names_missing : missing.names = [] := rfl

@[simp, grind =] theorem names_literal (kind : LiteralKind) (value : Literal) :
    (literal loc kind value).names = [] := rfl

@[simp, grind =] theorem names_identifier (id : Identifier) : (identifier id).names = [id] := rfl

@[simp, grind =] theorem names_member (o p : Code) (computed : Bool) :
    (member loc o p computed).names = o.names ++ p.names := by simp

@[simp, grind =] theorem names_call (f : Code) (args : List Code) :
    (call loc f args).names = f.names ++ namesAll args := by simp

@[simp, grind =] theorem names_unary (op : Bytes) (a : Code) :
    (unary loc op a).names = a.names := by simp

@[simp, grind =] theorem names_binary (op : Bytes) (l r : Code) :
    (binary loc op l r).names = l.names ++ r.names := by simp

@[simp, grind =] theorem names_logical (op : Bytes) (l r : Code) :
    (logical loc op l r).names = l.names ++ r.names := by simp

@[simp, grind =] theorem names_assign (t v : Code) :
    (assign loc t v).names = t.names ++ v.names := by simp

@[simp, grind =] theorem names_conditional (t a b : Code) :
    (conditional loc t a b).names = t.names ++ a.names ++ b.names := by simp

@[simp, grind =] theorem names_array (es : List Code) :
    (array loc es).names = namesAll es := by simp

@[simp, grind =] theorem names_sequence (es : List Code) :
    (sequence loc es).names = namesAll es := by simp

@[simp, grind =] theorem names_interpolation (tag : Bytes) (runs : List Bytes) (es : List Code) :
    (interpolation loc tag runs es).names = namesAll es := by simp

@[simp, grind =] theorem names_object (props : List (Bytes × Code)) :
    (object loc props).names = namesAll (props.map Prod.snd) := names_eq _

@[simp, grind =] theorem names_lambda (params block : List Code) (body : Code) :
    (lambda loc params body block).names = namesAll params ++ body.names ++ namesAll block := by
  simp [namesAll]

@[simp, grind =] theorem names_destructure (d : Destructure) : (destructure d).names = d.names := by
  simp [namesAll, flatMap_map]

@[simp, grind =] theorem names_function (u : CodeUnit) :
    (function u).names = namesAll u.params ++ namesAll u.statements ++ u.body.names := by
  simp [namesAll]

end

/-- Erasing goes through the names. -/
theorem names_erase (c : Code) : c.erase.names = c.names.map Identifier.erase := by
  rw [names, preorder_erase, filterMap_map, names, map_filterMap]
  congr 1
  funext d
  cases d <;> rfl

/-- Erasing goes through the names of several pieces. -/
theorem namesAll_erase (cs : List Code) :
    namesAll (eraseAll cs) = (namesAll cs).map Identifier.erase := by
  rw [eraseAll_eq_map, namesAll, flatMap_map, namesAll, map_flatMap]
  exact congrArg (List.flatMap · _) (funext names_erase)

/-! ## Names known to the script -/

/-- Every known name in the code is one of `known`. -/
def Knows (known : Bytes → Prop) (c : Code) : Prop :=
  ∀ id ∈ c.names, id.builtin = true → known id.name

section

variable {known : Bytes → Prop}

theorem knows_iff {c : Code} : c.Knows known
    ↔ ∀ e ∈ c.preorder, ∀ id, e = .identifier id → id.builtin = true → known id.name := by
  simp only [Knows, mem_names]
  exact ⟨fun h e mem id same => h id (same ▸ mem), fun h id mem => h _ mem id rfl⟩

theorem knows_all {cs : List Code} :
    (∀ id ∈ namesAll cs, id.builtin = true → known id.name) ↔ ∀ c ∈ cs, c.Knows known := by
  simp only [namesAll, mem_flatMap, Knows]
  exact ⟨fun h c mem id inside => h id ⟨c, mem, inside⟩,
    fun h id ⟨c, mem, inside⟩ => h c mem id inside⟩

theorem knows_erase {c : Code} : c.erase.Knows known ↔ c.Knows known := by
  rw [Knows, names_erase]
  simp [Knows]

end

end Code

end TemplateCompiler
