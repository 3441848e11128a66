import TemplateCompiler.Proofs.Template.Reading
import TemplateCompiler.Proofs.Template.Spelling

/-!
# Integers with signs

Digits behind any number of signs are read as one integer, negated once for each
minus sign. The digits alone have to be in range, before any sign is looked at
(`Template.parseExpression_signs`). So the least integer of 64 bits cannot be
written, although it is in range with its sign.
-/

open List

namespace TemplateCompiler

namespace Expression

/-- Signs as they are written, where `true` is a minus sign. -/
def signText (signs : List Bool) : Bytes :=
  signs.map fun minus => if minus then Byte.minus else Byte.plus

/-- The words of digits behind signs, the first of which stands at `pos`. -/
def signTokens (pos : Position) (digits : Bytes) : List Bool → List Token
  | [] => [⟨.int digits, pos⟩]
  | minus :: signs =>
    ⟨.op (if minus then .minus else .plus), pos⟩
      :: signTokens (pos.after (signText [minus])) digits signs

/-- What digits behind signs stand for: an integer at the first minus sign or
else at the digits, if the digits are in range. -/
def signedInteger (pos : Position) (digits : Bytes) (signs : List Bool) :
    Except SyntaxError Node :=
  if Bytes.digitsValue digits ≤ maxInteger then
    .ok (.literal (pos.after (signText (signs.takeWhile (!·))))
      (.int ((-1) ^ signs.count true * Bytes.digitsValue digits)))
  else .error ⟨pos.after (signText signs), .integerRange digits⟩

variable {stop : Position} {ts : List Token}

/-! ## One number alone -/

/-- Every level reads what the reader of signs does, if nothing is left. -/
theorem level_eq_signed (halts : Halts 26 (signed stop ts)) (start : takeWord? "not" ts = none)
    (l : Level) : level stop l ts = signed stop ts := by
  have loose : l.rank ≤ 26 := le_trans l.rank_le (by decide)
  by_cases unary : l = .unary
  · rw [unary]
    exact unary_eq_signed fun r read => (halts r read).mono (by decide)
  · have lt := tighter_lt unary
    have below := level_eq_signed halts start (tighter l)
    rw [level_eq_tighter (fun r read => (halts r (below ▸ read)).mono loose) fun _ => start, below]
termination_by l.rank

/-- What a reader has taken, and the words that are left. -/
def taken (x : Except SyntaxError (Parsed Node ts)) : Except SyntaxError (Node × List Token) :=
  x.map fun r => (r.value, r.rest)

/-- A reader that comes to the end of the words gives the whole expression. -/
theorem ofTokens_eq {t : Token} {x : Except SyntaxError Node}
    (read : taken (signed stop (t :: ts)) = x.map (·, []))
    (start : takeWord? "not" (t :: ts) = none) : ofTokens stop (t :: ts) = x := by
  have halts : Halts 26 (signed stop (t :: ts)) := by
    intro r same
    rw [same] at read
    cases x with
    | error e => cases read
    | ok n =>
      injection read with read
      rw [(Prod.mk.inj read).2]
      exact stops_nil _
  have whole := level_eq_signed halts start .or
  rw [ofTokens, conditional_eq_level (whole ▸ halts), whole]
  · cases found : signed stop (t :: ts) with
    | error e =>
      rw [found] at read
      cases x with
      | error e' => cases read; rfl
      | ok n => cases read
    | ok r =>
      obtain ⟨value, rest, shorter⟩ := r
      rw [found] at read
      cases x with
      | error e => cases read
      | ok n => cases read; rfl
  · exact nofun

/-! ## The words -/

/-- A sign is a word, whatever follows it. -/
theorem scan_sign (minus : Bool) {pos : Position} {tail : Bytes} {ts : List Token}
    (after : Token.scan (pos.after (signText [minus])) tail = .ok ts) :
    Token.scan pos (signText [minus] ++ tail)
      = .ok (⟨.op (if minus then .minus else .plus), pos⟩ :: ts) := by
  have lexed : ∃ word : Token.Lexed _,
      Token.lex pos (if minus then Byte.minus else Byte.plus) tail = .ok word
        ∧ word.lexeme = .op (if minus then .minus else .plus) ∧ word.taken = signText [minus]
        ∧ word.rest = tail := by
    cases minus <;> exact ⟨_, rfl, rfl, rfl, rfl⟩
  have solid : Byte.isBlank (if minus then Byte.minus else Byte.plus) = false := by
    cases minus <;> rfl
  obtain ⟨word, lexed, lexeme, taken, rest⟩ := lexed
  show Token.scan pos ((if minus then Byte.minus else Byte.plus) :: tail) = _
  rw [Token.scan]
  simp only [solid, lexed, lexeme, taken, rest, after, Bool.false_eq_true, if_false]

theorem scan_signs {digits : Bytes} (some_ : digits ≠ [])
    (all : ∀ b ∈ digits, Byte.isDigit b = true) (signs : List Bool) (pos : Position) :
    Token.scan pos (signText signs ++ digits) = .ok (signTokens pos digits signs) := by
  induction signs generalizing pos with
  | nil =>
    have nothing : Token.scan (pos.after digits) [] = .ok [] := by rw [Token.scan]
    have word := Lexeme.scan_word (w := .int digits) ⟨some_, all⟩ Lexeme.ends_nil nothing
    rwa [append_nil] at word
  | cons minus signs ih => exact scan_sign minus (ih _)

/-- A minus sign negates what is read behind it, and a plus sign changes
nothing. -/
theorem signed_sign (minus : Bool) (pos : Position) (ts : List Token) :
    taken (signed stop (⟨.op (if minus then .minus else .plus), pos⟩ :: ts))
      = (taken (signed stop ts)).map fun r => (if minus then negate pos r.1 else r.1, r.2) := by
  rw [signed]
  cases minus <;> cases read : signed stop ts <;>
    simp [takeOp?, bind, Except.bind, read, taken, Except.map, frontPos]

theorem signed_signs (digits : Bytes) (signs : List Bool) (pos : Position) :
    taken (signed stop (signTokens pos digits signs))
      = (signedInteger pos digits signs).map (·, []) := by
  by_cases small : Bytes.digitsValue digits ≤ maxInteger
  · have value : integer? digits = some (Bytes.digitsValue digits : Int) := if_pos small
    induction signs generalizing pos with
    | nil =>
      rw [signTokens, signed, signedInteger, if_pos small]
      simp [takeOp?, primary, value, bind, Except.bind, members_stop _ (stops_nil 2), taken,
        Except.map, signText, Position.after]
    | cons minus signs ih =>
      rw [signTokens, signed_sign, ih, signedInteger, signedInteger, if_pos small, if_pos small]
      cases minus <;> simp [Except.map, negate, Int.pow_succ, signText, Position.after]
  · have value : integer? digits = none := if_neg small
    induction signs generalizing pos with
    | nil =>
      rw [signTokens, signed, signedInteger, if_neg small]
      simp [takeOp?, primary, value, bind, Except.bind, taken, Except.map, signText, Position.after]
    | cons minus signs ih =>
      rw [signTokens, signed_sign, ih, signedInteger, signedInteger, if_neg small, if_neg small]
      rfl

theorem parse_signs {digits : Bytes} (some_ : digits ≠ [])
    (all : ∀ b ∈ digits, Byte.isDigit b = true) (signs : List Bool) (pos : Position) :
    parse pos (signText signs ++ digits) = signedInteger pos digits signs := by
  rw [parse, scan_signs some_ all]
  show ofTokens _ (signTokens pos digits signs) = _
  have read (stop : Position) : taken (signed stop (signTokens pos digits signs)) = _ :=
    signed_signs digits signs pos
  cases signs with
  | nil => exact ofTokens_eq (read _) rfl
  | cons minus signs => exact ofTokens_eq (read _) rfl

/-- A sign does not matter to whether digits are in range. -/
theorem magnitude_iff (k n : Nat) :
    (-2 ^ 63 < (-1 : Int) ^ k * n ∧ (-1 : Int) ^ k * n < 2 ^ 63) ↔ n ≤ maxInteger := by
  rw [maxInteger]
  obtain one | minus := neg_one_pow_eq_or Int k
  · rw [one]
    omega
  · rw [minus]
    omega

end Expression

open Expression (signText)

/-- **Digits behind signs are read as the integer they stand for**, negated by
each minus sign, or are out of range: in range are the integers of 64 bits but
for the least one. -/
theorem Template.parseExpression_signs {digits : Bytes} (some_ : digits ≠ [])
    (all : ∀ b ∈ digits, Byte.isDigit b = true) (signs : List Bool) :
    parseExpression (signText signs ++ digits)
      = if -2 ^ 63 < (-1 : Int) ^ signs.count true * Bytes.digitsValue digits
          ∧ (-1 : Int) ^ signs.count true * Bytes.digitsValue digits < 2 ^ 63 then
        .ok (.literal (Position.start.after (signText (signs.takeWhile (!·))))
          (.int ((-1) ^ signs.count true * Bytes.digitsValue digits)))
      else .error ⟨Position.start.after (signText signs), .integerRange digits⟩ := by
  simp only [Expression.magnitude_iff]
  exact Expression.parse_signs some_ all signs .start

/-- Three signs in front of the greatest integer. -/
theorem Template.parseExpression_minusGreatest :
    (∀ b ∈ ("9223372036854775807" : Bytes), Byte.isDigit b = true)
      ∧ parseExpression (signText [true, true, true] ++ "9223372036854775807")
        = .ok (.literal .start (.int (-9223372036854775807))) := by
  have all : ∀ b ∈ ("9223372036854775807" : Bytes), Byte.isDigit b = true := by decide
  exact ⟨all, Template.parseExpression_signs (by decide) all [true, true, true]⟩

/-- The least integer of 64 bits is not read. -/
theorem Template.parseExpression_least : parseExpression "-9223372036854775808"
    = .error ⟨⟨1, 2⟩, .integerRange "9223372036854775808"⟩ := by
  have all : ∀ b ∈ ("9223372036854775808" : Bytes), Byte.isDigit b = true := by decide
  exact Expression.parse_signs (by decide) all [true] .start

end TemplateCompiler
