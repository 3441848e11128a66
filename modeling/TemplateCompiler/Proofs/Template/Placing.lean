import TemplateCompiler.Proofs.Template.Quotes
import TemplateCompiler.Proofs.Text.Pieces

/-!
# Where words and tags stand

Cutting loses nothing: a word or a tag and what is left behind it make up what
was cut, so the position of each is reached by walking along the source.
`Stands src text p` says that `text` is what stands at `p`, and each step hands
it on to the parts of the text: to words (`Token.scan_tells`), to tags
(`Piece.scan_placed`), and to the arguments of statements
(`Tag.Placed.statement`).
-/

open List

namespace TemplateCompiler

variable {kind : Delimiter} {rest : Bytes}

/-! ## Lines and columns -/

namespace Position

/-- A position on a line of the text, at one of its bytes or behind the
last. -/
def Inside (text : Bytes) (p : Position) : Prop :=
  1 ≤ p.line ∧ 1 ≤ p.column ∧
    ∃ line, (Bytes.splitOn Byte.newline text)[p.line - 1]? = some line
      ∧ p.column ≤ line.length + 1

/-- How many bytes come before the position, as its line and column tell. -/
def offset (text : Bytes) (p : Position) : Nat :=
  (((Bytes.splitOn Byte.newline text).take (p.line - 1)).map (·.length + 1)).sum + p.column - 1

/-- Behind `before`, in a text that starts at `q`: so many lines further, and
on the first of them not before the start. -/
theorem after_line (q : Position) (before after : Bytes) :
    ∃ k line, (q.after before).line = q.line + k
      ∧ (Bytes.splitOn Byte.newline (before ++ after))[k]? = some line
      ∧ (if k = 0 then q.column else 1) ≤ (q.after before).column
      ∧ (q.after before).column ≤ (if k = 0 then q.column else 1) + line.length
      ∧ (((Bytes.splitOn Byte.newline (before ++ after)).take k).map (·.length + 1)).sum
        + (q.after before).column = before.length + if k = 0 then q.column else 1 := by
  induction before generalizing q with
  | nil =>
    obtain ⟨line, more, same⟩ := exists_cons_of_ne_nil (Bytes.splitOn_ne_nil _ after)
    refine ⟨0, line, rfl, by rw [nil_append, same]; rfl, Nat.le_refl _,
      Nat.le_add_right _ _, ?_⟩
    simp [Position.after]
  | cons b before ih =>
    obtain ⟨k, line, lines, found, low, high, sum⟩ := ih (q.step b)
    have walk : q.after (b :: before) = (q.step b).after before := rfl
    rw [walk, lines, cons_append, Bytes.splitOn]
    split
    · next newline =>
      have next : q.step b = ⟨q.line + 1, 1⟩ := if_pos newline
      rw [next, ite_self] at low high sum
      dsimp only at low high sum
      refine ⟨k + 1, line, by rw [next]; dsimp only; omega, found, ?_⟩
      simp only [next, if_neg (Nat.succ_ne_zero k), take_succ_cons, map_cons,
        sum_cons, length_nil, length_cons]
      exact ⟨low, high, by omega⟩
    · next other =>
      have next : q.step b = ⟨q.line, q.column + 1⟩ := if_neg other
      rw [next] at low high sum ⊢
      obtain ⟨piece, more, same⟩ :=
        exists_cons_of_ne_nil (Bytes.splitOn_ne_nil Byte.newline (before ++ after))
      rw [same] at found sum ⊢
      cases k with
      | zero =>
        cases found
        exact ⟨0, b :: line, rfl, rfl, by grind, by grind, by grind⟩
      | succ k => exact ⟨k + 1, line, rfl, found, low, high, by grind⟩

/-- **A place along a text lies inside it**, and its line and column tell how
much comes before it. -/
theorem place_of_prefix {text before : Bytes} (start : before <+: text) :
    (Position.start.after before).Inside text
      ∧ (Position.start.after before).offset text = before.length := by
  obtain ⟨after, rfl⟩ := start
  obtain ⟨k, line, lines, found, low, high, sum⟩ := after_line .start before after
  have one : (if k = 0 then Position.start.column else 1) = 1 := ite_self 1
  have lines : (Position.start.after before).line = k + 1 := lines.trans (Nat.add_comm 1 k)
  rw [one] at low high sum
  rw [Inside, offset, lines]
  exact ⟨⟨by omega, low, line, found, by omega⟩, by rw [Nat.add_sub_cancel]; omega⟩

end Position

/-- `text` stands at `p` in the source: `p` is the position behind what comes
before it. -/
def Stands (src text : Bytes) (p : Position) : Prop :=
  ∃ before after, before ++ (text ++ after) = src ∧ Position.start.after before = p

namespace Stands

variable {src text as bs : Bytes} {p : Position}

theorem whole (src : Bytes) : Stands src src .start := ⟨[], [], append_nil src, rfl⟩

theorem front (stands : Stands src text p) (cut : as ++ bs = text) : Stands src as p := by
  obtain ⟨before, after, rfl, rfl⟩ := stands
  exact ⟨before, bs ++ after, by rw [← cut, append_assoc], rfl⟩

theorem behind (stands : Stands src text p) (cut : as ++ bs = text) :
    Stands src bs (p.after as) := by
  obtain ⟨before, after, rfl, rfl⟩ := stands
  exact ⟨before ++ as, after, by simp [← cut], Position.after_append ..⟩

theorem here (stands : Stands src text p) : Stands src [] p := stands.front (nil_append text)

theorem stop (stands : Stands src text p) : Stands src [] (p.after text) :=
  stands.behind (append_nil text)

theorem inside (stands : Stands src text p) : p.Inside src := by
  obtain ⟨before, after, rfl, rfl⟩ := stands
  exact (Position.place_of_prefix (prefix_append _ _)).1

end Stands

/-! ## Words -/

namespace Token

/-- The word stands in the source: a name, which is an identifier, as it is
spelled, and a string from its quote on. -/
def Placed (src : Bytes) (t : Token) : Prop :=
  match t.lexeme with
  | .name word => Script.isIdentifier word = true ∧ Stands src word t.pos
  | .string _ => Stands src [Byte.quote] t.pos ∨ Stands src [Byte.apostrophe] t.pos
  | _ => Stands src [] t.pos

theorem Placed.here {src : Bytes} {t : Token} (placed : t.Placed src) : Stands src [] t.pos := by
  unfold Placed at placed
  split at placed
  · exact placed.2.here
  · exact placed.elim Stands.here Stands.here
  · exact placed

theorem Placed.name {src word : Bytes} {t : Token} (placed : t.Placed src)
    (same : t.lexeme = .name word) : Script.isIdentifier word = true ∧ Stands src word t.pos := by
  rwa [Placed, same] at placed

variable {src : Bytes} {pos : Position}

theorem number_spec (c : UInt8) (rest : Bytes) (here : Stands src [] pos) :
    (number c rest).taken ++ (number c rest).rest = c :: rest
      ∧ Placed src ⟨(number c rest).lexeme, pos⟩ := by
  have digits : rest.takeWhile Byte.isDigit ++ rest.dropWhile Byte.isDigit = rest :=
    takeWhile_append_dropWhile
  have plain : c :: rest.takeWhile Byte.isDigit ++ rest.dropWhile Byte.isDigit = c :: rest := by
    rw [cons_append, digits]
  unfold number
  dsimp only
  split
  · next d more found =>
    split
    · have fraction : more.takeWhile Byte.isDigit ++ more.dropWhile Byte.isDigit = more :=
        takeWhile_append_dropWhile
      rw [found] at digits
      simp only [append_assoc, cons_append, fraction]
      exact ⟨congrArg (c :: ·) digits, here⟩
    · exact ⟨plain, here⟩
  · exact ⟨plain, here⟩

/-- A word and what follows it make up the source. -/
theorem lex_tells {c : UInt8} (stands : Stands src (c :: rest) pos) :
    Tells (Stands src []) (fun w => w.taken ++ w.rest = c :: rest ∧ Placed src ⟨w.lexeme, pos⟩)
      (lex pos c rest) := by
  unfold lex
  split
  · next quoted =>
    split
    · next found =>
      have first : Stands src [c] pos := stands.front singleton_append
      refine ⟨congrArg (c :: ·) (spanString_append found), ?_⟩
      rw [Bool.or_eq_true, beq_iff_eq, beq_iff_eq] at quoted
      obtain rfl | rfl := quoted
      · exact .inl first
      · exact .inr first
    · exact stands.here
  split
  · exact number_spec c rest stands.here
  split
  · next starts =>
    have cut : rest.takeWhile Byte.isNamePart ++ rest.dropWhile Byte.isNamePart = rest :=
      takeWhile_append_dropWhile
    refine ⟨congrArg (c :: ·) cut, ?_, stands.front (congrArg (c :: ·) cut)⟩
    rw [Script.isIdentifier, starts, Bool.true_and]
    exact all_takeWhile
  split
  · next op found =>
    unfold operator? at found
    have starts : op.text <+: c :: rest := isPrefixOf_iff_prefix.1 (find?_some found :)
    exact ⟨prefix_iff_eq_append.1 starts, stands.here⟩
  · exact stands.here

/-- Words stand along the source. -/
theorem scan_tells {text : Bytes} (stands : Stands src text pos) :
    Tells (Stands src []) (fun ts => ∀ t ∈ ts, t.Placed src) (scan pos text) := by
  fun_induction scan pos text with
  | case1 => exact forall_mem_nil _
  | case2 pos c rest _ ih => exact ih (stands.behind (singleton_append (x := c)))
  | case3 pos c rest _ e failed =>
    have told := lex_tells stands
    rwa [failed] at told
  | case4 pos c rest _ word found e failed ih =>
    have told := lex_tells stands
    rw [found] at told
    have later := ih (stands.behind told.1)
    rwa [failed] at later
  | case5 pos c rest _ word found more others ih =>
    have told := lex_tells stands
    rw [found] at told
    have later := ih (stands.behind told.1)
    rw [others] at later
    exact forall_mem_cons.2 ⟨told.2, later⟩

end Token

/-! ## Tags -/

/-- What opens a tag. -/
def Delimiter.opening (kind : Delimiter) : Bytes := [Byte.openBrace, kind.mark]

/-- The tag stands in the source, and the strings in it are closed. -/
structure Tag.Placed (src : Bytes) (kind : Delimiter) (t : Tag) : Prop where
  pos : Stands src kind.opening t.pos
  body : Stands src t.body t.bodyPos
  closed : kind ≠ .comment → QuotesClosed t.body

namespace Piece

variable {pos : Position} {src : Bytes}

/-- The piece stands in the source. -/
def Placed (src : Bytes) : Piece → Prop
  | .text pos _ => Stands src [] pos
  | .tag kind t => t.Placed src kind
  | .raw _ pos _ => Stands src [] pos
  | .broken e => Stands src [] e.pos ∧ e.fault ≠ .unterminatedString

theorem opening?_mark {c : UInt8}
    (h : opening? (c :: rest) = some kind) : ∃ more, c :: rest = kind.opening ++ more := by
  unfold opening? at h
  split at h
  · next same => cases h; cases same; exact ⟨_, rfl⟩
  · next same => cases h; cases same; exact ⟨_, rfl⟩
  · next same => cases h; cases same; exact ⟨_, rfl⟩
  · cases h

/-- An opening delimiter, with its minus sign, and the rest. -/
theorem opener_append {c : UInt8} (h : opening? (c :: rest) = some kind) {opener : Bytes}
    (known : opener = c :: kind.mark :: trimMark ((rest.drop 1).head? == some Byte.minus)) :
    opener ++ (c :: rest).drop opener.length = c :: rest := by
  obtain ⟨more, same⟩ := opening?_mark h
  cases same
  subst known
  cases more with
  | nil => rfl
  | cons b more =>
    by_cases minus : b = Byte.minus
    · subst minus; rfl
    · have other : (some b == some Byte.minus) = false := by simpa using minus
      simp [trimMark, other]

/-- **Pieces stand along the source.** -/
theorem scan_placed {text : Bytes} (stands : Stands src text pos) :
    ∀ x ∈ scan pos text, x.Placed src := by
  fun_induction scan pos text with
  | case1 => exact forall_mem_nil _
  | case2 pos c rest opened _ content ih =>
    exact forall_mem_cons.2 ⟨stands.here, ih (stands.behind (spanText_append _))⟩
  | case3 pos c rest kind opened trimBefore opener unclosed =>
    exact forall_mem_singleton.2 ⟨stands.here, nofun⟩
  | case4 =>
    exact forall_mem_singleton.2 ⟨stands.here, nofun⟩
  | case5 =>
    rename_i raw _ opened opener found _ tag tagEnd _ _ ih
    have inner := stands.behind (opener_append opened rfl)
    have behind : Stands src _ tagEnd := (inner.behind (spanTag_append found)).behind rfl
    have last := (behind.behind (spanRaw_append raw)).behind rfl
    exact forall_mem_cons.2 ⟨behind.here, ih last⟩
  | case6 =>
    rename_i opened opener found _ tag tagEnd _ _ ih
    have inner := stands.behind (opener_append opened rfl)
    have behind : Stands src _ tagEnd := (inner.behind (spanTag_append found)).behind rfl
    obtain ⟨more, same⟩ := opening?_mark opened
    have placed : tag.Placed src _ := ⟨stands.front same.symm, inner.front (spanTag_append found),
      fun quoting => spanTag_closed quoting found⟩
    exact forall_mem_cons.2 ⟨placed, ih behind⟩

end Piece

/-- The arguments of a statement are the end of its tag's content. -/
theorem Tag.Placed.statement {src : Bytes} {t : Tag}
    (placed : t.Placed src kind) : Stands src t.statement.args t.statement.argsPos :=
  (placed.body.behind takeWhile_append_dropWhile).behind takeWhile_append_dropWhile

end TemplateCompiler
