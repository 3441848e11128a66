import TemplateCompiler.Proofs.Template.Readers

/-!
# Quotes that are closed

Strings are recognised twice: when a tag is cut out, so that a delimiter in a
string does not end it, and when its content is cut into words. Both agree. What
is cut out holds only strings that are closed in it (`Piece.spanTag_closed`),
and text with this property is cut into words without a string that does not
end (`Token.scan_closed`).
-/

open List

namespace TemplateCompiler

variable {rest : Bytes} {b : UInt8}

def isQuote (b : UInt8) : Bool := b == Byte.quote || b == Byte.apostrophe

/-- Whether every string of a text ends in it. `string` is the quote of the
string that is open at its start. -/
def closes (string : Option UInt8) : Bytes → Bool
  | [] => string.isNone
  | c :: rest =>
    match string with
    | some q =>
      if c == Byte.backslash then
        match rest with
        | [] => false
        | _ :: more => closes (some q) more
      else closes (if c == q then none else some q) rest
    | none => closes (if isQuote c then some c else none) rest

/-- **Every quote is closed.** -/
def QuotesClosed (text : Bytes) : Prop := closes none text = true

theorem quotesClosed_append {run : Bytes} (plain : ∀ b ∈ run, isQuote b = false) :
    QuotesClosed (run ++ rest) ↔ QuotesClosed rest := by
  induction run with
  | nil => rfl
  | cons c run ih =>
    obtain ⟨first, others⟩ := forall_mem_cons.1 plain
    rw [← ih others, QuotesClosed, cons_append, closes, first]
    rfl

theorem QuotesClosed.dropWhile {p : UInt8 → Bool} {text : Bytes} (closed : QuotesClosed text)
    (plain : ∀ b, p b = true → isQuote b = false) : QuotesClosed (text.dropWhile p) := by
  rw [← takeWhile_append_dropWhile (p := p) (l := text)] at closed
  exact (quotesClosed_append fun b mem => plain b (all_eq_true.1 all_takeWhile b mem)).1 closed

theorem isQuote_of_isNamePart (part : Byte.isNamePart b = true) : isQuote b = false := by
  grind [Byte.isNamePart, Byte.isNameStart, Byte.isLower, Byte.isUpper, Byte.isDigit, isQuote]

theorem isQuote_of_isDigit (digit : Byte.isDigit b = true) : isQuote b = false :=
  isQuote_of_isNamePart (by rw [Byte.isNamePart, digit, Bool.or_true])

theorem isQuote_of_isBlank (blank : Byte.isBlank b = true) : isQuote b = false := by
  grind [Byte.isBlank, isQuote]

theorem closes_inside {c q : UInt8} (plain : c ≠ Byte.backslash) :
    closes (some q) (c :: rest) = closes (if c == q then none else some q) rest := by
  cases rest <;> simp [closes, plain]

/-- **What is cut out as a tag has its quotes closed**, unless it is a
comment. -/
theorem Piece.spanTag_closed {kind : Delimiter} (quoting : kind ≠ .comment) {q : Option UInt8}
    {src body : Bytes} {trim : Bool} (h : spanTag kind q src = some (body, trim, rest)) :
    closes q body = true := by
  fun_induction spanTag kind q src generalizing body with
  | case1 | case2 => cases h
  | case3 c q escape e more ih =>
    obtain ⟨inner, found, rfl⟩ := keep_eq_some h
    simpa [closes, escape] using ih found
  | case4 c rest q plain ih =>
    obtain ⟨inner, found, rfl⟩ := keep_eq_some h
    exact (closes_inside (by simpa using plain)).trans (ih found)
  | case5 c _ opens ih =>
    obtain ⟨inner, found, rfl⟩ := keep_eq_some h
    have quote : isQuote c = true := (Bool.and_eq_true_iff.1 opens).2
    simpa [closes, quote] using ih found
  | case6 =>
    cases h
    rfl
  | case7 c _ plain _ ih =>
    obtain ⟨inner, found, rfl⟩ := keep_eq_some h
    have quote : isQuote c = false := by simpa [quoting, isQuote] using plain
    simpa [closes, quote] using ih found

/-- The arguments of a statement are closed where its content is, if its name
is a word. -/
theorem Tag.closed_args {t : Tag} (closed : QuotesClosed t.body)
    (word : ∀ b ∈ t.statement.name, isQuote b = false) : QuotesClosed t.statement.args := by
  have rest := closed.dropWhile fun _ => isQuote_of_isBlank
  rw [← takeWhile_append_dropWhile (p := fun b => !Byte.isBlank b)
    (l := t.body.dropWhile Byte.isBlank)] at rest
  exact (quotesClosed_append word).1 rest

namespace Token

variable {rest : Bytes} {pos : Position} {c : UInt8}

theorem spanString_of_closes {q : UInt8} {src : Bytes} (closed : closes (some q) src = true) :
    ∃ value taken rest, spanString q src = some (value, taken, rest) ∧ QuotesClosed rest := by
  -- a backslash at the very end escapes nothing, and leaves the string open
  have plain {c : UInt8} {rest : Bytes}
      (single : ∀ e more, c = Byte.backslash → rest = e :: more → False)
      (closed : closes (some q) (c :: rest) = true) : c ≠ Byte.backslash := by
    rintro rfl
    cases rest with
    | nil => cases closed
    | cons e more => exact single e more rfl rfl
  fun_induction spanString q src with
  | case1 => cases closed
  | case2 e rest ih =>
    obtain ⟨value, taken, after, found, ends⟩ := ih closed
    exact ⟨_, _, after, by rw [found]; rfl, ends⟩
  | case3 c rest single same =>
    rw [closes_inside (plain single closed), if_pos same] at closed
    exact ⟨_, _, rest, rfl, closed⟩
  | case4 c rest single other ih =>
    rw [closes_inside (plain single closed), if_neg other] at closed
    obtain ⟨value, taken, after, found, ends⟩ := ih closed
    exact ⟨_, _, after, by rw [found]; rfl, ends⟩

theorem number_closed (closed : QuotesClosed rest) :
    QuotesClosed (number c rest).rest := by
  have digits := closed.dropWhile fun _ => isQuote_of_isDigit
  unfold number
  dsimp only
  split
  · next d more found =>
    split
    · next digit =>
      rw [found] at digits
      have run : ∀ b ∈ [Byte.dot, d], isQuote b = false := by
        simpa using ⟨rfl, isQuote_of_isDigit digit⟩
      exact ((quotesClosed_append run).1 digits).dropWhile fun _ => isQuote_of_isDigit
    · exact digits
  · exact digits

/-- **A word at the front of closed text ends**, and what follows it is
closed. -/
theorem lex_closed (closed : QuotesClosed (c :: rest)) :
    Gives (·.fault ≠ .unterminatedString) (fun w => QuotesClosed w.rest) (lex pos c rest) := by
  unfold lex
  split
  · next quoted =>
    rw [QuotesClosed, closes, isQuote, if_pos quoted] at closed
    obtain ⟨value, taken, after, found, ends⟩ := spanString_of_closes closed
    split
    · next same =>
      rw [found] at same
      cases same
      exact ends
    · next none_ =>
      rw [found] at none_
      cases none_
  next plain =>
  have single : ∀ b ∈ [c], isQuote b = false :=
    forall_mem_singleton.2 (Bool.eq_false_of_not_eq_true plain)
  have behind : QuotesClosed rest := (quotesClosed_append single).1 closed
  split
  · exact number_closed behind
  split
  · exact behind.dropWhile fun _ => isQuote_of_isNamePart
  split
  · next op found =>
    have starts : op.text <+: c :: rest := isPrefixOf_iff_prefix.1 (find?_some found :)
    have run : ∀ b ∈ op.text, isQuote b = false := by cases op <;> decide
    rw [prefix_iff_eq_append.1 starts |>.symm] at closed
    exact (quotesClosed_append run).1 closed
  · rintro ⟨⟩

/-- **QuotesClosed text is cut into words** without a string that does not end. -/
theorem scan_closed {text : Bytes} (closed : QuotesClosed text) (p : Position) :
    scan pos text ≠ .error ⟨p, .unterminatedString⟩ := by
  fun_induction scan pos text with
  | case1 => exact nofun
  | case2 pos c rest blank ih =>
    exact ih ((quotesClosed_append (forall_mem_singleton.2 (isQuote_of_isBlank blank))).1 closed)
  | case3 pos c rest _ e failed =>
    have given : Gives _ _ (lex pos c rest) := lex_closed closed
    rw [failed] at given
    rintro ⟨⟩
    exact given rfl
  | case4 pos c rest _ word found e failed ih =>
    have given : Gives _ _ (lex pos c rest) := lex_closed closed
    rw [found] at given
    rw [← failed]
    exact ih given
  | case5 => exact nofun

end Token

end TemplateCompiler
