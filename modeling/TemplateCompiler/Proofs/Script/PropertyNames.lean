import TemplateCompiler.Proofs.Compile.Steps
import TemplateCompiler.Proofs.Number.Digits
import TemplateCompiler.Proofs.Script.Literals
import TemplateCompiler.Proofs.Text.Pieces
import TemplateCompiler.Script.Printer
import TemplateCompiler.Template.Expression

/-!
# Names of properties

The same literal may be the key of a dictionary and the key of a lookup. What
property it names is said from the script's side: `Script.key?` reads the key of
an object, and `Code.accessed?` reads what a member is looked up by, where a
number stands for its text in the script (`Script.numberText`).

The two agree unless the script writes the number in another way
(`Literal.names_alike`).
-/

open List

namespace TemplateCompiler

namespace Script

open Double (ofDecimal? pointed positional scientific)

/-! ## Numbers in a script -/

/-- The value of digits with a point among them, times a power of ten. -/
def mantissa? (text : Bytes) (power : Int) : Option Double :=
  match Bytes.splitOn Byte.dot text with
  | whole :: rest =>
    let digits := whole ++ rest.flatten
    if rest.length ≤ 1 ∧ (∀ b ∈ digits, Byte.isDigit b)
        ∧ (whole = [Byte.zero] ∨ ∃ b ∈ whole.head?, b ≠ Byte.zero) then
      ofDecimal? false (Bytes.digitsValue digits) (power - rest.flatten.length)
    else none
  | [] => none

/-- An exponent with its sign. -/
def power? : Bytes → Option Int
  | sign :: digits =>
    if digits.isEmpty || !digits.all Byte.isDigit then none
    else if sign == Byte.plus then some (Bytes.digitsValue digits)
    else if sign == Byte.minus then some (-Bytes.digitsValue digits)
    else none
  | [] => none

/-- The value of a decimal literal. -/
def numeral? (text : Bytes) : Option Double :=
  match Bytes.splitOn 0x65 text with
  | [text] => mantissa? text 0
  | [text, power] => (power? power).bind (mantissa? text)
  | _ => none

/-- The text of a finite number that is not negative. -/
def numberText (d : Double) : Bytes :=
  if d.isZero then "0"
  else if d.shown.2 < -6 ∨ 21 ≤ d.shown.2 then scientific 1 d.shown.1 d.shown.2
  else positional d.shown.1 d.shown.2

/-- The digits in front of the point have no leading zeros. -/
def Leads (digits : Bytes) (n : Nat) : Prop :=
  digits.take n = [Byte.zero] ∨ 0 < n ∧ ∃ b, digits.head? = some b ∧ b ≠ Byte.zero

section

variable {ds : Bytes} {n : Nat}

theorem mantissa?_pointed (digits : ∀ b ∈ ds, Byte.isDigit b = true) (leads : Leads ds n)
    (power : Int) : mantissa? (pointed ds n) power
      = ofDecimal? false (Bytes.digitsValue ds) (power - (ds.length - n : Nat)) := by
  have apart : Byte.dot ∉ ds := fun mem => absurd (digits _ mem) (by decide)
  have split : ∃ rest, Bytes.splitOn Byte.dot (pointed ds n) = ds.take n :: rest
      ∧ rest.length ≤ 1 ∧ rest.flatten = ds.drop n := by
    rw [pointed]
    split
    · next short =>
      refine ⟨[], ?_, by simp, (drop_of_length_le short).symm⟩
      rw [take_of_length_le short]
      simpa using Bytes.splitOn_flatMap apart (forall_mem_nil _)
    · refine ⟨[ds.drop n], ?_, by simp, by simp⟩
      simpa using Bytes.splitOn_flatMap (fun mem => apart (mem_of_mem_take mem))
        (forall_mem_singleton.2 fun mem => apart (mem_of_mem_drop mem))
  obtain ⟨rest, split, one, flat⟩ := split
  rw [mantissa?, split]
  dsimp only
  have fit := leads.imp_right fun ⟨pos, b, first, other⟩ =>
    show ∃ b ∈ (ds.take n).head?, b ≠ Byte.zero from
      ⟨b, by rwa [head?_take, if_neg (Nat.ne_of_gt pos)], other⟩
  rw [flat, take_append_drop, length_drop, if_pos ⟨one, digits, fit⟩]

theorem plain_pointed (digits : ∀ b ∈ ds, Byte.isDigit b = true) : 0x65 ∉ pointed ds n := by
  have apart : 0x65 ∉ ds := fun mem => absurd (digits _ mem) (by decide)
  rw [pointed]
  split
  · exact apart
  · rw [← take_append_drop n ds, mem_append, not_or] at apart
    simpa only [mem_append, mem_cons, not_or] using ⟨apart.1, by decide, apart.2⟩

theorem numeral?_pointed (digits : ∀ b ∈ ds, Byte.isDigit b = true) (leads : Leads ds n) :
    numeral? (pointed ds n)
      = ofDecimal? false (Bytes.digitsValue ds) (-(ds.length - n : Nat)) := by
  have split : Bytes.splitOn 0x65 (pointed ds n) = [pointed ds n] := by
    simpa using Bytes.splitOn_flatMap (plain_pointed digits) (forall_mem_nil _)
  rw [numeral?, split]
  exact (mantissa?_pointed digits leads 0).trans (by rw [Int.zero_sub])

theorem numeral?_decimal (n : Nat) : numeral? (Bytes.decimal n) = ofDecimal? false n 0 := by
  have leads : Leads (Bytes.decimal n) (Bytes.decimal n).length := by
    rcases Nat.eq_zero_or_pos n with rfl | pos
    · exact .inl (by rw [Bytes.decimal]; rfl)
    · exact .inr ⟨length_pos_of_ne_nil (Bytes.decimal_ne_nil n), Bytes.head?_decimal pos⟩
  simpa [pointed, Bytes.digitsValue_decimal] using
    numeral?_pointed (fun _ => Bytes.isDigit_of_mem_decimal) leads

theorem digits_zeros (k : Nat) : ∀ b ∈ List.replicate k Byte.zero, Byte.isDigit b = true :=
  fun _ mem => eq_of_mem_replicate mem ▸ rfl

theorem power?_power (width : Nat) (x : Int) :
    0x65 ∉ Double.power width x ∧ power? (Double.power width x) = some x := by
  rw [Double.power]
  generalize zeros : List.replicate _ Byte.zero = front
  have digits : ∀ b ∈ front ++ Bytes.decimal x.natAbs, Byte.isDigit b = true :=
    forall_mem_append.2 ⟨zeros ▸ digits_zeros _, fun _ => Bytes.isDigit_of_mem_decimal⟩
  have apart : 0x65 ∉ front ++ Bytes.decimal x.natAbs := fun mem => absurd (digits _ mem) (by decide)
  have filled : front ++ Bytes.decimal x.natAbs ≠ [] :=
    append_ne_nil_of_right_ne_nil _ (Bytes.decimal_ne_nil _)
  have value : Bytes.digitsValue (front ++ Bytes.decimal x.natAbs) = x.natAbs := by
    rw [← zeros, Bytes.digitsValue_zeros, Bytes.digitsValue_decimal]
  rw [power?, isEmpty_eq_false_iff.2 filled, all_eq_true.2 digits, value]
  split
  · exact ⟨not_mem_cons_of_ne_of_not_mem (by decide) apart, congrArg some (by omega)⟩
  · exact ⟨not_mem_cons_of_ne_of_not_mem (by decide) apart, congrArg some (by omega)⟩

theorem numeral?_scientific (pos : 0 < n) (width : Nat) (x : Int) :
    numeral? (scientific width (Bytes.decimal n) x)
      = ofDecimal? false n (x - Double.digitCount n + 1) := by
  obtain ⟨apart, reads⟩ := power?_power width x
  have digits : ∀ b ∈ Bytes.decimal n, Byte.isDigit b = true :=
    fun _ => Bytes.isDigit_of_mem_decimal
  have split : Bytes.splitOn 0x65 (scientific width (Bytes.decimal n) x)
      = [pointed (Bytes.decimal n) 1, Double.power width x] := by
    simpa [scientific] using
      Bytes.splitOn_flatMap (plain_pointed digits) (forall_mem_singleton.2 apart)
  rw [numeral?, split]
  dsimp only
  rw [reads, Option.bind_some, mantissa?_pointed digits (.inr ⟨Nat.one_pos, Bytes.head?_decimal pos⟩),
    Bytes.digitsValue_decimal, Double.digitCount]
  have length := length_pos_of_ne_nil (Bytes.decimal_ne_nil n)
  congr 1
  omega

theorem numeral?_positional (pos : 0 < n) {x : Int} (small : x ≤ 20) :
    numeral? (positional (Bytes.decimal n) x)
      = ofDecimal? false n (x - Double.digitCount n + 1) := by
  have length := length_pos_of_ne_nil (Bytes.decimal_ne_nil n)
  obtain ⟨b, first, other⟩ := Bytes.head?_decimal pos
  have leads (rest : Bytes) :
      Leads (List.replicate (-x).toNat Byte.zero ++ Bytes.decimal n ++ rest) (x.toNat + 1) := by
    by_cases negative : x < 0
    · obtain ⟨k, zeros⟩ := Nat.exists_eq_add_of_lt (show 0 < (-x).toNat by omega)
      rw [zeros, show x.toNat = 0 by omega]
      exact .inl rfl
    · rw [show (-x).toNat = 0 by omega]
      exact .inr ⟨Nat.succ_pos _, b, by simp [first], other⟩
  have digits (k : Nat) : ∀ b ∈ List.replicate (-x).toNat Byte.zero ++ Bytes.decimal n
      ++ List.replicate k Byte.zero, Byte.isDigit b = true :=
    forall_mem_append.2 ⟨forall_mem_append.2
      ⟨digits_zeros _, fun _ => Bytes.isDigit_of_mem_decimal⟩, digits_zeros _⟩
  rw [positional, numeral?_pointed (digits _) (leads _), Bytes.digitsValue_shift,
    Bytes.digitsValue_zeros, Bytes.digitsValue_decimal, Double.digitCount]
  simp only [length_append, length_replicate]
  generalize filler : x.toNat + 1 - ((-x).toNat + (Bytes.decimal n).length) = k
  rcases Nat.eq_zero_or_pos k with rfl | more
  · rw [Nat.pow_zero, Nat.mul_one]
    congr 1
    omega
  · refine Eq.trans ?_ ((Double.ofDecimal?_shift false pos (show k ≤ 400 by omega)).trans ?_)
    · congr 1
      omega
    · congr 1
      omega

end

section

variable {d : Double}

theorem text_eq (finite : d.exponentField < 2047) (positive : d.signBit = false) :
    d.text = if d.isZero then [Byte.zero] else Double.layout d.shown.1 d.shown.2 := by
  have number : d.isNaN = false ∧ d.isInfinite = false := by
    simp [Double.isNaN, Double.isInfinite]; omega
  simp only [Double.text, number, positive, Bool.false_eq_true, if_false]
  rfl

/-- **The text of a number** is a literal of the number. -/
theorem numeral?_text (finite : d.exponentField < 2047) (positive : d.signBit = false) :
    numeral? d.text = some d := by
  rw [text_eq finite positive]
  cases zero : d.isZero with
  | true =>
    have fields := Double.ofFields_fields d
    simp only [Double.isZero, Bool.and_eq_true, beq_iff_eq] at zero
    rw [positive, zero.1, zero.2] at fields
    have spelled := numeral?_decimal 0
    rw [Bytes.decimal] at spelled
    exact spelled.trans (congrArg some fields)
  | false =>
    obtain ⟨pos, reads⟩ := Double.ofDecimal?_shortest finite (Double.significand_pos zero)
    have exponent : d.shown.2 - Double.digitCount d.shortest.1 + 1 = d.shortest.2 := by
      simp only [Double.shown]; omega
    simp only [Bool.false_eq_true, if_false, Double.layout]
    rw [← reads, positive, ← exponent]
    split
    · exact numeral?_scientific pos 2 d.shown.2
    · exact numeral?_positional pos (by omega)

/-- Whole numbers below `2 ^ 53` are written in full. -/
theorem numberText_whole {n : Nat} (pos : 0 < n) (small : n < 2 ^ 53) (zero : d.isZero = false)
    (whole : d.whole? = some n) : numberText d = Bytes.decimal n := by
  obtain ⟨k, few, exponent, -, digits⟩ := Double.dropZeros_small pos small
  have shortest : d.shortest = Double.dropZeros n 0 := by rw [Double.shortest, whole]
  have length := Bytes.length_decimal (show n < 10 ^ (16 + 1) by omega)
  have filled := length_pos_of_ne_nil (Bytes.decimal_ne_nil (Double.dropZeros n 0).1)
  have shown : d.shown = (Bytes.decimal (Double.dropZeros n 0).1,
      (k : Int) + (Bytes.decimal (Double.dropZeros n 0).1).length - 1) := by
    rw [← exponent, ← shortest]; rfl
  rw [digits, length_append, length_replicate] at length
  rw [numberText, zero, if_neg (by decide), shown, digits]
  generalize Bytes.decimal (Double.dropZeros n 0).1 = ds at *
  rw [if_neg (by omega), positional, show (-((k : Int) + ds.length - 1)).toNat = 0 by omega,
    show ((k : Int) + ds.length - 1).toNat + 1 = ds.length + k by omega]
  simp [pointed]

theorem power_eq {x : Int} (long : 10 ≤ x.natAbs) : Double.power 1 x = Double.power 2 x := by
  have length : 2 ≤ (Bytes.decimal x.natAbs).length := by
    have filled := length_pos_of_ne_nil (Bytes.decimal_ne_nil (x.natAbs / 10))
    rw [Bytes.decimal, if_neg (by omega), length_append]
    exact Nat.succ_le_succ filled
  rw [Double.power, Double.power, Nat.sub_eq_zero_of_le length,
    Nat.sub_eq_zero_of_le (Nat.le_of_succ_le length)]

/-- **Where the script writes a number** as it is written in a template. -/
theorem numberText_eq (finite : d.exponentField < 2047) (positive : d.signBit = false)
    (range : d.isZero ∨ (-4 ≤ d.shown.2 ∧ d.shown.2 ≤ 5) ∨ d.shown.2 ≤ -10 ∨ 21 ≤ d.shown.2) :
    numberText d = d.text := by
  rw [text_eq finite positive, numberText]
  split
  · rfl
  · next zero =>
    rw [Double.layout]
    rcases range.resolve_left zero with near | far
    · rw [if_neg (by omega), if_neg (by omega)]
    · rw [if_pos (by omega), if_pos (by omega), scientific, power_eq (by omega)]
      rfl

end

/-! ## Keys -/

/-- The name of the property that the key of an object stands for. -/
def key? (text : Bytes) : Option (List Nat) :=
  if isIdentifier text then some (Utf8.points text) else string? (Utf8.points text)

/-- The text of the number that a literal with or without a minus sign is. -/
def numberName? (text : Bytes) : Option Bytes :=
  match numeral? text with
  | some d => some (numberText d)
  | none =>
    if text.head? != some Byte.minus then none
    else (numeral? text.tail).map fun d => if d.isZero then "0" else Byte.minus :: numberText d

/-- The name of the property that is accessed by a literal in brackets. -/
def subscript? (kind : LiteralKind) (text : Bytes) : Option (List Nat) :=
  match kind with
  | .string => string? (Utf8.points text)
  | .number => (numberName? text).map Utf8.points
  | .boolean | .null => some (Utf8.points text)
  | .unknown => none

theorem key?_keyText (key : Bytes) : key? (Code.keyText key) = some (Utf8.points key) := by
  rw [Code.keyText]
  cases name : isIdentifier key with
  | true => simp [key?, name]
  | false =>
    have quoted : isIdentifier (quote key) = false := rfl
    simp [key?, quoted, string?_quote]

theorem numeral?_small {n : Nat} (small : n < 2 ^ 53) :
    ∃ d, numeral? (Bytes.decimal n) = some d ∧ d.isZero = (n == 0)
      ∧ numberText d = Bytes.decimal n := by
  rcases Nat.eq_zero_or_pos n with rfl | pos
  · exact ⟨Double.ofFields false 0 0, by rw [numeral?_decimal]; rfl, by decide,
      by rw [Bytes.decimal]; rfl⟩
  · obtain ⟨d, reads, zero, whole⟩ := Double.exists_whole pos small
    exact ⟨d, (numeral?_decimal n).trans reads, by simp [zero]; omega,
      numberText_whole pos small zero whole⟩

theorem mantissa?_minus (text : Bytes) (power : Int) :
    mantissa? (Byte.minus :: text) power = none := by
  have split : Bytes.splitOn Byte.dot (Byte.minus :: text) = _ :=
    Bytes.splitOn_append (show Byte.dot ∉ [Byte.minus] by decide) text
  rw [mantissa?, split]
  cases Bytes.splitOn Byte.dot text with
  | nil => rfl
  | cons whole rest => exact if_neg fun h => absurd (h.2.1 Byte.minus mem_cons_self) (by decide)

/-- A sign is no part of a numeral. -/
theorem numeral?_minus (text : Bytes) : numeral? (Byte.minus :: text) = none := by
  have split : Bytes.splitOn 0x65 (Byte.minus :: text) = _ :=
    Bytes.splitOn_append (show 0x65 ∉ [Byte.minus] by decide) text
  rw [numeral?, split]
  rcases Bytes.splitOn 0x65 text with _ | ⟨first, _ | ⟨power, _ | ⟨_, _⟩⟩⟩
  · rfl
  · exact mantissa?_minus first 0
  · exact Option.bind_eq_none_iff.2 fun n _ => mantissa?_minus first n
  · rfl

theorem numberName?_integer {n : Int} (small : n.natAbs < 2 ^ 53) :
    numberName? (Bytes.integer n) = some (Bytes.integer n) := by
  cases n with
  | ofNat n =>
    obtain ⟨d, reads, -, text⟩ := numeral?_small (n := n) small
    rw [Bytes.integer, numberName?, reads]
    exact congrArg some text
  | negSucc n =>
    obtain ⟨d, reads, zero, text⟩ := numeral?_small (n := n + 1) small
    rw [Bytes.integer, numberName?, numeral?_minus]
    dsimp only
    rw [head?_cons, tail_cons, reads, if_neg (by decide), Option.map_some, text, zero,
      if_neg (by simp)]

end Script

/-- The name of the property that a member accesses, by the text of what it is
looked up by. -/
def Code.accessed? : Code → Option (List Nat)
  | .member _ _ (.identifier id) false => some (Utf8.points id.name)
  | .member _ _ (.literal _ kind value) true => Script.subscript? kind value.script
  | _ => none

/-- Whether a literal is written by the script as it is written as a key. -/
def Literal.Agrees : Literal → Prop
  | .string s => ∀ n, Node.canonicalInt? s = some n → n.natAbs < 2 ^ 53
  | .int n => n.natAbs < 2 ^ 53
  | .float d => d.exponentField < 2047 ∧ d.signBit = false
    ∧ (d.isZero ∨ (-4 ≤ d.shown.2 ∧ d.shown.2 ≤ 5) ∨ d.shown.2 ≤ -10 ∨ 21 ≤ d.shown.2)
  | .bool _ | .null => True
  | .plain _ | .words _ => False

/-- What a lookup by a literal is made with: the code in it, and whether it
stands in brackets. -/
def Literal.property (k : Literal) : Code × Bool :=
  (Node.literal default k).memberKey?.getD ((Code.ofLiteral? k).getD .missing, true)

theorem Node.lower_lookup {k : Literal} (plain : (Code.ofLiteral? k).isSome) (site : Site)
    (pos place : Position) (target : Node) :
    (lookup pos target (.literal place k)).lower site = (do
      let object ← target.lower site
      let property ← site.locate place k.property.1
      site.locate pos (.member none object property k.property.2)) := by
  obtain ⟨code, known⟩ := Option.isSome_iff_exists.1 plain
  have same : (Node.literal place k).memberKey? = (Node.literal default k).memberKey? := by
    cases k <;> rfl
  rw [lower_eq_steps site _ rfl rfl, Literal.property, ← same]
  cases named : (Node.literal place k).memberKey? with
  | some p => simp [steps, keyStep, named, form, Step.run, Node.pos]
  | none =>
    have literal := lower_eq_steps site (.literal place k) rfl rfl
    simp [steps, keyStep, named, form, Step.run, Node.pos, literal, known, checked]

theorem Literal.accessed?_property {k : Literal} (agrees : k.Agrees) (object : Code) :
    (Code.member none object k.property.1 k.property.2).accessed?
      = some (Utf8.points k.keyText) := by
  have ofInt {n : Int} (small : n.natAbs < 2 ^ 53) :
      (Code.member none object (.int n) true).accessed? = some (Utf8.points (Bytes.integer n)) :=
    congrArg (Option.map Utf8.points) (Script.numberName?_integer small)
  cases k with
  | string s =>
    simp only [property, Node.memberKey?]
    cases canonical : Node.canonicalInt? s with
    | some n =>
      have spelled : Bytes.integer n = s := by
        simp only [Node.canonicalInt?, Option.ite_none_right_eq_some, Bool.and_eq_true] at canonical
        exact Option.some.inj canonical.2 ▸ eq_of_beq canonical.1.1.1.2
      exact spelled ▸ ofInt (agrees n canonical)
    | none =>
      dsimp only
      split
      · rfl
      · exact Script.string?_quote s
  | int n => exact ofInt agrees
  | float d =>
    obtain ⟨finite, positive, range⟩ := agrees
    have name : Script.numberName? d.text = some d.text := by
      rw [Script.numberName?, Script.numeral?_text finite positive]
      exact congrArg some (Script.numberText_eq finite positive range)
    exact congrArg (Option.map Utf8.points) name
  | bool | null => rfl
  | plain | words => exact agrees.elim

/-- **A literal names one property**, in dictionaries and in lookups, if the
script writes it as it is written in a template. -/
theorem Literal.names_alike {k : Literal} (agrees : k.Agrees) :
    (∀ site pos place target, (Node.lookup pos target (.literal place k)).lower site = (do
        let object ← target.lower site
        let property ← site.locate place k.property.1
        site.locate pos (.member none object property k.property.2)))
      ∧ (∀ site place value pairs, Node.lowerPairs site ((.literal place k, value) :: pairs) = (do
        let code ← value.lower site
        let props ← Node.lowerPairs site pairs
        pure ((k.keyText, code) :: props)))
      ∧ ∃ name, Script.key? (Code.keyText k.keyText) = some name
        ∧ ∀ object, (Code.member none object k.property.1 k.property.2).accessed? = some name := by
  refine ⟨Node.lower_lookup ?_, ?_, _, Script.key?_keyText _, accessed?_property agrees⟩
  · cases k <;> first | rfl | exact agrees.elim
  · intro site place value pairs
    rw [Node.lowerPairs]
    rfl

/-- A number with a fraction, near where numbers get an exponent. -/
theorem Literal.names_alike_fraction : (Literal.float ⟨0x40fe240000000000⟩).Agrees
    ∧ (Code.member none (.ident "a") (Literal.float ⟨0x40fe240000000000⟩).property.1 true).accessed?
      = Script.key? (Code.keyText (Literal.float ⟨0x40fe240000000000⟩).keyText) := by
  have agrees : (Literal.float ⟨0x40fe240000000000⟩).Agrees := ⟨by decide, by decide, by decide +kernel⟩
  obtain ⟨-, -, name, key, accessed⟩ := Literal.names_alike agrees
  exact ⟨agrees, (accessed _).trans key.symm⟩

/-- A million with a fraction is looked up by another name than it is entered
under. -/
theorem Literal.million_names_two : Expression.fraction? "1000000.0" = some ⟨0x412e848000000000⟩
    ∧ Script.key? (Code.keyText (Literal.float ⟨0x412e848000000000⟩).keyText)
      = some (Utf8.points "1e+06")
    ∧ (Code.member none (.ident "a") (Literal.float ⟨0x412e848000000000⟩).property.1 true).accessed?
      = some (Utf8.points "1000000") := by
  refine ⟨by decide +kernel, by cbv, by decide +kernel⟩

end TemplateCompiler
