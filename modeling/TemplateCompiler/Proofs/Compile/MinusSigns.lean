import TemplateCompiler.Proofs.Compile.Binders
import TemplateCompiler.Proofs.Compile.ModuleLinks
import TemplateCompiler.Proofs.Script.Braces
import TemplateCompiler.Proofs.Script.PropertyNames

/-!
# Minus signs next to each other

The printer parts a minus sign from an operand that starts with a sign, and puts
a base with a sign in parentheses. A sign is seen by the value of a literal, and
a negative zero is not below zero, but its text has the sign. So the text behind
a minus sign starts with another one exactly if a negative zero stands at the
left end of the operand, and so it is with the bases of powers
(`compile_minus_signs`); templates can have both (`negated_minusZero`).
-/

open List

namespace TemplateCompiler

/-! ## Numbers -/

/-- **The text of a number** starts with a minus sign if its sign is set. -/
theorem Double.head?_text (d : Double) :
    ∃ b, d.text.head? = some b ∧ (b = Byte.minus ↔ d.signBit = true ∧ d.isNaN = false) := by
  cases nan : d.isNaN with
  | true => exact ⟨_, by rw [text, nan]; rfl, iff_of_false (by decide) (by simp)⟩
  | false =>
    cases sign : d.signBit with
    | true =>
      refine ⟨Byte.minus, ?_, by simp⟩
      simp only [text, nan, sign, Bool.false_eq_true, if_false, if_true]
      split
      · rfl
      · split <;> rfl
    | false =>
      by_cases finite : d.exponentField < 2047
      · have reads := Script.numeral?_text finite sign
        cases first : d.text with
        | nil => rw [first] at reads; cases reads
        | cons b bs =>
          refine ⟨b, rfl, iff_of_false ?_ (by simp)⟩
          rintro rfl
          rw [first, Script.numeral?_minus] at reads
          cases reads
      · have infinite : d.isInfinite = true := by
          have bound : d.exponentField < 2 ^ 11 := Nat.mod_lt _ (by decide)
          simp_all [isNaN, isInfinite]
          omega
        exact ⟨_, by rw [text, nan, infinite, sign]; rfl, iff_of_false (by decide) (by simp)⟩

/-- Whether a literal is the negative zero. -/
def Literal.isMinusZero : Literal → Bool
  | .float d => d.signBit && d.isZero
  | _ => false

/-- **The text of a literal** starts with a minus sign if it is negative, and if
it is the negative zero. -/
theorem Literal.head?_script {value : Literal} (kept : ∀ n, value ≠ .plain n) :
    ∃ b, value.script.head? = some b
      ∧ (b = Byte.minus ↔ value.isNegative = true ∨ value.isMinusZero = true) := by
  cases value with
  | plain n => exact absurd rfl (kept n)
  | string s => exact ⟨_, rfl, iff_of_false (by decide) nofun⟩
  | null => exact ⟨_, rfl, by decide⟩
  | words items => exact ⟨_, rfl, iff_of_false (by decide) nofun⟩
  | bool b => cases b <;> exact ⟨_, rfl, by decide⟩
  | int n =>
    cases n with
    | negSucc n => exact ⟨Byte.minus, rfl, by simp [isNegative]⟩
    | ofNat n =>
      have some_ := Bytes.decimal_ne_nil n
      have digit := Bytes.isDigit_of_mem_decimal (head_mem some_)
      refine ⟨_, head?_eq_some_head some_, iff_of_false (fun same => ?_) ?_⟩
      · rw [same] at digit
        cases digit
      · simp [isNegative, isMinusZero]
  | float d =>
    obtain ⟨b, first, minus⟩ := d.head?_text
    refine ⟨b, first, minus.trans ?_⟩
    have zero : d.isZero = true → d.isNaN = false := by
      simp only [Double.isZero, Double.isNaN, Bool.and_eq_true, beq_iff_eq]
      rintro ⟨exponent, -⟩
      rw [exponent]
      rfl
    simp only [isNegative, isMinusZero, Double.isNegative]
    cases d.signBit <;> cases isZero : d.isZero <;> simp_all

/-! ## The left ends of operands -/

namespace Code

variable {least : Precedence} {c e : Code} {d : Doc}

def isMinusZero : Code → Bool
  | .literal _ _ value => value.isMinusZero
  | _ => false

theorem precedence_of_startsWithSign (sign : c.startsWithSign = true) : c.precedence = .unary := by
  cases c with
  | unary => rfl
  | literal => exact if_pos sign
  | _ => cases sign

/-- What has a sign leads itself, and is no zero. -/
theorem not_leads_of_startsWithSign (sign : c.startsWithSign = true) :
    ¬ ∃ e, c.leader .unary = some e ∧ e.isMinusZero = true := by
  rintro ⟨e, leads, zero⟩
  rw [leader, precedence_of_startsWithSign sign, if_neg (Nat.lt_irrefl _)] at leads
  cases c with
  | unary => cases leads; cases zero
  | literal loc kind value =>
    cases leads
    cases value with
    | float d => simp_all [startsWithSign, isMinusZero, Literal.isNegative, Literal.isMinusZero,
        Double.isNegative]
    | _ => cases zero
  | _ => cases sign

/-- Of what binds as tightly as an operand, members and calls have a part at
their left end, and ask it to bind as they do. -/
theorem call_le_of_left? {s : Precedence × Code} (tight : .unary ≤ c.precedence)
    (left : c.left? = some s) : .call ≤ s.1 := by
  have loose (op : Bytes) : ¬ Precedence.unary ≤ .ofBinary op
      ∧ ¬ Precedence.unary ≤ .ofLogical op := by
    unfold Precedence.ofBinary Precedence.ofLogical
    constructor <;> split_ifs <;> decide
  cases c with
  | member loc o p computed =>
    have level : Precedence.call ≤ o.memberLevel := by
      unfold memberLevel
      split <;> decide
    cases computed <;> cases left <;> exact level
  | call => cases left; exact Nat.le_refl _
  | binary loc op => exact absurd tight (loose op).1
  | logical loc op => exact absurd tight (loose op).2
  | conditional | assign | sequence => exact absurd tight (by simp only [precedence]; decide)
  | _ => cases left

/-- A piece of code whose text starts with a minus sign just if it has a sign,
or is the negative zero. Pieces that start with one of their parts, and those
that bind less tightly than operands, do not matter. -/
def Opens (e : Code) : Prop :=
  e.isExpression = true → e.left? = none → .unary ≤ e.precedence → ∃ b, e.opening.head? = some b
    ∧ (b = Byte.minus ↔ e.startsWithSign = true ∨ e.isMinusZero = true)

/-- **What leads an operand** is the operand itself, or binds more tightly than
a sign. -/
theorem leader_spec {least : Precedence} {c e : Code} (leads : c.leader least = some e)
    (tight : .unary ≤ least) (h : c.Consists fun e => e.Printable ∧ e.Opens) :
    (∃ b, e.opening.head? = some b
      ∧ (b = Byte.minus ↔ e.startsWithSign = true ∨ e.isMinusZero = true))
      ∧ (e = c ∧ least ≤ c.precedence ∨ .call ≤ e.precedence) := by
  obtain ⟨printable, opens⟩ := h.2 c (mem_preorder_self h.1)
  rw [leader] at leads
  split at leads
  · cases leads
  next binds =>
  have reaches := Nat.le_of_not_lt binds
  split at leads
  · next alone =>
    cases leads
    exact ⟨opens h.1 alone (Nat.le_trans tight reaches), .inl ⟨rfl, reaches⟩⟩
  · next s left =>
    obtain ⟨others, same⟩ := slots_of_left? left
    have slot : s ∈ c.slots := same ▸ mem_cons_self
    have := sizeOf_lt_of_mem_parts (mem_parts_of_slot slot)
    have level := call_le_of_left? (Nat.le_trans tight reaches) left
    obtain ⟨first, whole⟩ :=
      leader_spec leads (Nat.le_trans (by decide) level) (h.of_slot printable slot)
    refine ⟨first, .inr ?_⟩
    obtain ⟨rfl, high⟩ | high := whole
    · exact Nat.le_trans level high
    · exact high
termination_by sizeOf c

theorem text_unary (loc : Option Location) (op : Bytes) (printed : c.doc .unary = .ok d) :
    ∃ whole, (unary loc op c).doc .unary = .ok whole
      ∧ whole.text = op ++ (if c.startsWithSign then [Byte.space] else []) ++ d.text := by
  refine ⟨_, doc_ok_iff.2 ⟨rfl, [d], .cons printed .nil, rfl⟩, ?_⟩
  rw [text_enclosed, precedence, if_neg (Nat.lt_irrefl _), shape]
  split
  · simp
    rfl
  · simp

theorem text_binary (loc : Option Location) (op : Bytes) {x y : Doc}
    (left : c.doc (operandLevels op).1 = .ok x) (right : e.doc (operandLevels op).2 = .ok y) :
    ∃ whole, (binary loc op c e).doc (.ofBinary op) = .ok whole
      ∧ whole.text = x.text ++ (" " ++ op ++ " ") ++ y.text := by
  refine ⟨_, doc_ok_iff.2 ⟨rfl, [x, y], .cons left (.cons right .nil), rfl⟩, ?_⟩
  rw [text_enclosed, precedence, if_neg (Nat.lt_irrefl _)]
  simp [shape]

/-- **An operand without a sign** starts with a minus sign exactly if a negative
zero leads it. -/
theorem text_minus (printed : c.doc least = .ok d) (tight : .unary ≤ least)
    (unsigned : c.startsWithSign = true → c.precedence < least)
    (h : c.Consists fun e => e.Printable ∧ e.Opens) :
    d.text.head? = some Byte.minus ↔ ∃ e, c.leader least = some e ∧ e.isMinusZero = true := by
  have starts := text_leader printed
  cases leads : c.leader least with
  | none =>
    rw [leads] at starts
    obtain ⟨rest, same⟩ := starts
    have first : d.text.head? = some 0x28 := same ▸ rfl
    have other : (0x28 : UInt8) ≠ Byte.minus := by decide
    simp [first, other]
  | some e =>
    rw [leads] at starts
    obtain ⟨rest, same⟩ := starts
    obtain ⟨⟨b, first, minus⟩, whole⟩ := leader_spec leads tight h
    have plain : e.startsWithSign = false := by
      refine Bool.eq_false_iff.2 fun sign => ?_
      obtain ⟨rfl, high⟩ | high := whole
      · exact Nat.not_le_of_lt (unsigned sign) high
      · rw [precedence_of_startsWithSign sign] at high
        exact absurd high (by decide)
    rw [← same, Option.elim, head?_append, first]
    simpa [plain] using minus

end Code

/-! ## Compiled code -/

section

variable {o : CompileOptions} {lib : Library} {src : Bytes} {p : Program} {u : CodeUnit}
  {c e : Code}

/-- The names in compiled code do not start with a sign. -/
theorem compile_name (reader : o.parse = Template.parse)
    (compiles : (compile o lib src).1 = .ok p) (unit : u ∈ p.allUnits) (code : c ∈ u.code)
    {id : Identifier} (inside : .identifier id ∈ c.preorder) :
    ∃ b, id.name.head? = some b ∧ b ≠ Byte.minus := by
  cases known : id.builtin with
  | false =>
    have piece := Code.mem_preorder_of_part (show c ∈ (Code.function u).parts from
      mem_append_right _ code) inside
    have word := (compile_placed reader compiles unit _ piece).2.2 known
    cases name : id.name with
    | nil => rw [name] at word; cases word
    | cons b bs =>
      refine ⟨b, rfl, ?_⟩
      rintro rfl
      rw [name] at word
      cases word
  | true =>
    obtain ⟨v, w, sets, d, linked, earlier, -, made⟩ := compile_made_unit compiles unit
    have named : id ∈ Code.namesAll u.statements ++ u.body.names := by
      rcases mem_append.1 code with mem | mem
      · exact mem_append_left _ (mem_flatMap_of_mem mem (Code.mem_names.2 inside))
      · exact mem_append_right _ (Code.mem_names.2 (mem_singleton.1 mem ▸ inside))
    rcases made.knows named known with name | ⟨f, mem, name⟩
    · exact ⟨0x41, by rw [name]; rfl, by decide⟩
    · obtain ⟨_, -, sound⟩ := linked.sound_of_mem (earlier.subset mem)
      have legal := name ▸ sound.fit.2.2.2
      obtain ⟨first, rest, points, -⟩ := legal.2.2
      have some_ : id.name ≠ [] := by
        intro none
        rw [none] at points
        exact absurd points (by simp [Utf8.points, Utf8.runes])
      refine ⟨_, head?_eq_some_head some_, fun minus => ?_⟩
      exact legal.not_mem (b := Byte.minus) (by decide) (by decide +kernel)
        (minus ▸ head_mem some_)

/-- **What pieces of compiled code start with.** -/
theorem compile_opens (reader : o.parse = Template.parse)
    (compiles : (compile o lib src).1 = .ok p) (unit : u ∈ p.allUnits) (code : c ∈ u.code)
    (inside : e ∈ c.preorder) : e.Opens := by
  intro kind alone high
  obtain ⟨v, w, sets, d, -, -, -, made⟩ := compile_made_unit compiles unit
  have regular := made.regular_of_mem code inside
  cases e with
  | literal loc kind value => exact Literal.head?_script regular
  | identifier id =>
    obtain ⟨b, first, other⟩ := compile_name reader compiles unit code inside
    exact ⟨b, first, iff_of_false other nofun⟩
  | unary loc op arg =>
    obtain rfl | rfl : op = "!" ∨ op = "-" := regular
    · exact ⟨_, rfl, iff_of_false (by decide) nofun⟩
    · exact ⟨_, rfl, iff_of_true (by decide) (.inl rfl)⟩
  | interpolation loc tag runs holes =>
    obtain rfl : tag = Script.htmlTag := regular.1
    exact ⟨_, rfl, iff_of_false (by decide) nofun⟩
  | array | object | lambda => exact ⟨_, rfl, iff_of_false (by decide) nofun⟩
  | sequence => exact absurd high (by simp only [Code.precedence]; decide)
  | member loc o p computed => cases computed <;> cases alone
  | call | binary | logical | conditional | assign => cases alone
  | missing | destructure | function | importRef => cases kind

/-- **Where minus signs run together.** The text of a minus sign in a compiled
program is the sign and then that of the operand, and this goes on with another
minus sign exactly if a negative zero leads the operand. The base of a power
starts with a minus sign exactly if a negative zero leads it. -/
theorem compile_minus_signs (reader : o.parse = Template.parse)
    (compiles : (compile o lib src).1 = .ok p) (unit : u ∈ p.allUnits) (code : c ∈ u.code) :
    (∀ loc arg, Code.unary loc "-" arg ∈ c.preorder →
      ∃ d rest, (Code.unary loc "-" arg).doc .unary = .ok d ∧ d.text = Byte.minus :: rest
        ∧ (rest.head? = some Byte.minus
          ↔ ∃ e, arg.leader .unary = some e ∧ e.isMinusZero = true))
    ∧ ∀ loc base power, Code.binary loc "**" base power ∈ c.preorder →
      ∃ d b rest, (Code.binary loc "**" base power).doc .exponent = .ok d
        ∧ base.doc (Code.operandLevels "**").1 = .ok b ∧ d.text = b.text ++ " ** " ++ rest
        ∧ (b.text.head? = some Byte.minus
          ↔ ∃ e, base.leader (Code.operandLevels "**").1 = some e ∧ e.isMinusZero = true) := by
  obtain ⟨v, w, sets, d, -, -, -, made⟩ := compile_made_unit compiles unit
  have pieces : ∀ e ∈ c.preorder, e.Printable ∧ e.Opens := fun e inside =>
    ⟨(made.printable code).2 e inside, compile_opens reader compiles unit code inside⟩
  have operand {e : Code} (inside : e ∈ c.preorder) (kind : e.isExpression = true)
      {s : Precedence × Code} (mem : s ∈ e.slots) :
      s.2.Consists (fun e => e.Printable ∧ e.Opens) ∧ ∃ d, s.2.doc s.1 = .ok d := by
    have whole : e.Consists fun e => e.Printable ∧ e.Opens :=
      ⟨kind, fun x below => pieces x (Code.mem_preorder_trans inside below)⟩
    have part := whole.of_slot (pieces e inside).1 mem
    exact ⟨part, Code.Consists.doc_free ⟨part.1, fun e mem => (part.2 e mem).1⟩ s.1⟩
  constructor
  · intro loc arg inside
    obtain ⟨part, x, printed⟩ := operand inside rfl (s := (.unary, arg)) mem_cons_self
    obtain ⟨whole, doc, text⟩ := Code.text_unary loc "-" printed
    refine ⟨whole, _, doc, text, ?_⟩
    cases sign : arg.startsWithSign with
    | true => exact iff_of_false nofun (Code.not_leads_of_startsWithSign sign)
    | false => exact Code.text_minus printed (Nat.le_refl _) (by simp [sign]) part
  · intro loc base power inside
    obtain ⟨part, x, left⟩ := operand inside rfl mem_cons_self
    obtain ⟨-, y, right⟩ := operand inside rfl (mem_cons_of_mem _ mem_cons_self)
    obtain ⟨whole, doc, text⟩ := Code.text_binary loc "**" left right
    refine ⟨whole, x, y.text, doc, left, text, ?_⟩
    exact Code.text_minus left (by decide)
      (fun sign => Code.precedence_of_startsWithSign sign ▸ by decide) part

end

/-- A negative zero behind a minus sign, and as the base of a power. -/
private def negatedZero : Bytes := "\x7b\x7b -(-0.0) + (-0.0) ** 2 \x7d\x7d"

/-- The operands of minus signs. -/
private def operands (c : Code) : List (Option Location × Code) :=
  c.preorder.filterMap fun
    | .unary loc op arg => if op = "-" then some (loc, arg) else none
    | _ => none

theorem negatedZero_signs : ∃ p, (compile {} ⟨[]⟩ negatedZero).1 = .ok p ∧ ∃ u ∈ p.allUnits,
    ∃ loc arg d rest, (loc, arg) ∈ operands u.body ∧ (Code.unary loc "-" arg).doc .unary = .ok d
      ∧ d.text = Byte.minus :: rest ∧ rest.head? = some Byte.minus := by
  have found : (compile {} ⟨[]⟩ negatedZero).1.toOption.map (fun p => p.allUnits.any fun u =>
      (operands u.body).any fun x => (x.2.leader .unary).any Code.isMinusZero) = some true := by cbv
  cases compiles : (compile {} ⟨[]⟩ negatedZero).1 with
  | error e => rw [compiles] at found; cases found
  | ok p =>
    rw [compiles] at found
    obtain ⟨u, unit, found⟩ := any_eq_true.1 (Option.some.inj found)
    obtain ⟨⟨loc, arg⟩, mem, zero⟩ := any_eq_true.1 found
    obtain ⟨e, leads, zero⟩ := (Option.any_eq_true _ _).1 zero
    have inside : Code.unary loc "-" arg ∈ u.body.preorder := by
      obtain ⟨x, inside, same⟩ := mem_filterMap.1 mem
      split at same
      · split at same
        · next sign => cases same; exact sign ▸ inside
        · cases same
      · cases same
    have signs := compile_minus_signs rfl compiles unit (mem_append_right _ mem_cons_self)
    obtain ⟨d, rest, doc, text, goesOn⟩ := signs.1 loc arg inside
    exact ⟨p, rfl, u, unit, loc, arg, d, rest, mem, doc, text, goesOn.2 ⟨e, leads, zero⟩⟩

/-- **Minus signs can run together.** -/
theorem negated_minusZero : (compile {} ⟨[]⟩ negatedZero).1.toOption.map
    (fun p => p.allUnits.map fun u => (u.body.doc .assign).toOption.map Doc.text)
      = some [some (Bytes.ofString "--0 + -0 ** 2")] := by cbv

end TemplateCompiler
