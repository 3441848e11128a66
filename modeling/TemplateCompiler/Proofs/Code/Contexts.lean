import TemplateCompiler.Proofs.Code.Scoping
import TemplateCompiler.Proofs.Code.Names

/-!
# Code in its context

`Code.operands` lists the parts of a piece of code in which names refer to
something. Going down along them, `c.Contains around d` says that `d` stands
somewhere in `c`, inside functions with the parameters of `around`. A name that
refers to something and is bound by no function around it occurs in the code,
as scopes have it (`Code.Contains.occurs`).

A static member name is no operand and neither is a parameter, as they refer
to nothing. The target of an assignment is one.
-/

open List

namespace TemplateCompiler

variable {id : Identifier} {around : List (List Code)} {inner : List (List Code)}

namespace Code

variable {c d e : Code}

/-- **The parts in which names refer to something**, each with the parameters
of the function that it is in, if that is a new one. -/
def operands : Code → List (List (List Code) × Code)
  | .missing | .literal .. | .identifier _ | .importRef _ => []
  | .member _ o p computed => ([], o) :: if computed then [([], p)] else []
  | .call _ f args => (f :: args).map ([], ·)
  | .unary _ _ a => [([], a)]
  | .binary _ _ l r | .logical _ _ l r | .assign _ l r => [([], l), ([], r)]
  | .conditional _ t a b => [([], t), ([], a), ([], b)]
  | .array _ es | .sequence _ es | .interpolation _ _ _ es => es.map ([], ·)
  | .object _ props => props.map fun p => ([], p.2)
  | .lambda _ params body block => (body :: block).map ([params], ·)
  | .destructure d => d.names.map fun id => ([], .identifier id)
  | .function u => (u.statements ++ [u.body]).map ([u.params], ·)

/-- **Code that stands in other code**, with the parameters of the functions
around it there, those of the innermost one first. -/
inductive Contains : Code → List (List Code) → Code → Prop where
  | self (c : Code) : Contains c [] c
  | part {c d e : Code} {inner around : List (List Code)} (operand : (inner, d) ∈ c.operands)
    (inside : Contains d around e) : Contains c (around ++ inner) e

theorem mem_parts_of_operand {q : List (List Code) × Code} (mem : q ∈ c.operands) :
    q.2 ∈ c.parts := by
  cases c with
  | missing | literal | identifier | importRef => exact absurd mem not_mem_nil
  | member loc o p computed => cases computed <;> simp [operands] at mem <;> grind [parts]
  | object | destructure => simp [operands] at mem; grind [parts]
  | _ => simp [operands] at mem; grind [parts]

/-- What is contained is a piece of the code. -/
theorem Contains.mem_preorder (h : c.Contains around e) (present : e.isMissing = false) :
    e ∈ c.preorder := by
  induction h with
  | self c => rw [preorder_eq c present]; exact mem_cons_self
  | part operand _ ih => exact mem_preorder_of_part (mem_parts_of_operand operand) (ih present)

/-! ## Names

An identifier in a piece of code stands where names refer to something, or it
is a parameter or the name of a static member. -/

/-- The identifiers that refer to nothing: parameters and static members. -/
def margin : Code → List Identifier
  | .member _ _ p false => p.names
  | .lambda _ params _ _ => namesAll params
  | .function u => namesAll u.params
  | _ => []

theorem mem_names_cases (mem : id ∈ c.names) :
    c = .identifier id ∨ id ∈ c.margin ∨ ∃ q ∈ c.operands, id ∈ q.2.names := by
  cases c with
  | missing | literal => simp at mem
  | importRef r => exact absurd mem not_mem_nil
  | identifier other => simp_all
  | member loc o p computed =>
    cases computed with
    | false => simp_all [operands, margin, or_comm]
    | true => simp_all [operands]
  | _ => simp_all [operands, margin, namesAll]

/-- The identifiers of operands are in the code. -/
theorem mem_names_of_operand (operand : (inner, d) ∈ c.operands) (mem : id ∈ d.names) :
    id ∈ c.names := by
  rw [names_eq]
  exact mem_append_right _ (mem_flatMap_of_mem (mem_parts_of_operand operand) mem)

/-- What is contained is in the code. -/
theorem Contains.mem_names (h : c.Contains around e) (mem : id ∈ e.names) : id ∈ c.names := by
  induction h with
  | self c => exact mem
  | part operand _ ih => exact mem_names_of_operand operand (ih mem)

/-- **Every identifier is contained**, unless it refers to nothing. -/
theorem contains_of_mem_names (c : Code) (mem : id ∈ c.names) :
    (∃ around, c.Contains around (.identifier id))
      ∨ ∃ around e, c.Contains around e ∧ id ∈ e.margin := by
  rcases mem_names_cases mem with rfl | here | ⟨⟨inner, d⟩, operand, inside⟩
  · exact .inl ⟨[], .self _⟩
  · exact .inr ⟨[], c, .self c, here⟩
  · have smaller := sizeOf_lt_of_mem_parts (mem_parts_of_operand operand)
    rcases contains_of_mem_names d inside with ⟨around, found⟩ | ⟨around, e, found, here⟩
    · exact .inl ⟨around ++ inner, .part operand found⟩
    · exact .inr ⟨around ++ inner, e, .part operand found, here⟩
termination_by sizeOf c

/-! ## Occurrences -/

/-- Operands are visited, but for a name that is assigned. -/
theorem visited_or_assigned (operand : (inner, d) ∈ c.operands) :
    (inner, d) ∈ c.visited
      ∨ inner = [] ∧ ∃ loc id v, d = .identifier id ∧ c = .assign loc (.identifier id) v := by
  cases c with
  | assign loc t v =>
    cases t with
    | identifier => simp_all [operands, visited, or_comm]
    | _ => exact .inl operand
  | object | destructure => exact .inl (by simpa [operands, visited, parts] using operand)
  | _ => exact .inl operand

/-- The names that occur in an operand occur in the code, if they are not
bound for the operand. -/
theorem occurs_of_operand (operand : (inner, d) ∈ c.operands) (bound : List Bytes) {p : Occurrence}
    (occurs : p ∈ d.occurrences (boundBy inner ++ bound)) :
    ∃ q ∈ c.occurrences bound, q.name = p.name := by
  rw [occurrences_eq]
  rcases visited_or_assigned operand with visited | ⟨rfl, loc, id, v, rfl, rfl⟩
  · exact ⟨p, mem_append_right _ (mem_flatMap.mpr ⟨_, visited, occurs⟩), rfl⟩
  · -- A name that is assigned is not read, but it occurs all the same.
    rw [occurrences, boundBy_nil, nil_append, reference] at occurs
    split at occurs
    · exact absurd occurs not_mem_nil
    · refine ⟨.assigned id.name, mem_append_left _ ?_, ?_⟩
      · simp_all [occurrence, assignment]
      · rw [mem_singleton.mp occurs]
        rfl

/-- **A name that nothing around it binds occurs** in the code. -/
theorem Contains.occurs (h : c.Contains around (.identifier id)) (bound : List Bytes)
    (plain : id.builtin = false) (free : id.name ∉ boundBy around ++ bound) :
    ∃ p ∈ c.occurrences bound, p.name = id.name := by
  generalize target : Code.identifier id = e at h
  induction h generalizing bound with
  | self c =>
    cases target
    refine ⟨.read id.name, ?_, rfl⟩
    rw [occurrences, reference, plain, if_neg (by simpa using free)]
    exact mem_singleton_self _
  | part operand _ ih =>
    rw [boundBy_append, append_assoc] at free
    obtain ⟨p, occurs, same⟩ := ih _ free target
    obtain ⟨q, found, same'⟩ := occurs_of_operand operand bound occurs
    exact ⟨q, found, same'.trans same⟩

end Code

end TemplateCompiler
