import TemplateCompiler.Proofs.Template.Spelling

/-!
# Written tags are cut out whole

A tag whose content is made of words and single spaces ends at the delimiter
that is written behind it: no word holds a closing delimiter, except within
the quotes of a string, and a space stands between any two words. So the
scanner of templates finds the tag and goes on behind it. A raw block ends at
its own end tag, if its content has none.
-/

open List

namespace TemplateCompiler

variable {kind : Delimiter}

namespace Piece

variable {after name rest src taken text value : Bytes} {ws : List Lexeme}

/-! ## Inside a tag -/

theorem keep_nil (found : Option (Bytes × Bool × Bytes)) : keep [] found = found := by
  cases found <;> rfl

theorem keep_keep (front back : Bytes) (found : Option (Bytes × Bool × Bytes)) :
    keep front (keep back found) = keep (front ++ back) found := by
  cases found with
  | none => rfl
  | some found => simp [keep]

/-- Bytes that neither start a string nor begin a closing delimiter. -/
def isHarmless (b : UInt8) : Bool :=
  b != Byte.quote && b != Byte.apostrophe && b != Byte.minus && b != Byte.percent
    && b != Byte.closeBrace

/-- The delimiters that end with a string in quotes hiding them. -/
def Quoting (kind : Delimiter) : Prop := kind = .output ∨ kind = .statement

theorem closing?_harmless (quoting : Quoting kind) {c : UInt8}
    (harmless : isHarmless c = true) (rest : Bytes) : closing? kind (c :: rest) = none := by
  simp only [isHarmless, Bool.and_eq_true, bne_iff_ne, ne_eq] at harmless
  obtain ⟨⟨⟨⟨-, -⟩, minus⟩, percent⟩, brace⟩ := harmless
  have noMinus : (Byte.minus == c) = false := beq_eq_false_iff_ne.2 (Ne.symm minus)
  have noPercent : (Byte.percent == c) = false := beq_eq_false_iff_ne.2 (Ne.symm percent)
  have noBrace : (Byte.closeBrace == c) = false := beq_eq_false_iff_ne.2 (Ne.symm brace)
  obtain rfl | rfl := quoting
  · have other : Bytes.dropPrefix? (Delimiter.closing .output) (c :: rest) = none :=
      if_neg (by simp [noBrace])
    simp [closing?, Bytes.dropPrefix?, noMinus, other]
  · have other : Bytes.dropPrefix? (Delimiter.closing .statement) (c :: rest) = none :=
      if_neg (by simp [noPercent])
    simp [closing?, Bytes.dropPrefix?, noMinus, other]

theorem spanTag_harmless (quoting : Quoting kind) {run : Bytes}
    (harmless : ∀ b ∈ run, isHarmless b = true) (tail : Bytes) :
    spanTag kind none (run ++ tail) = keep run (spanTag kind none tail) := by
  induction run with
  | nil => exact (keep_nil _).symm
  | cons c run ih =>
    obtain ⟨first, others⟩ := forall_mem_cons.1 harmless
    have plain : (c == Byte.quote || c == Byte.apostrophe) = false := by
      simp only [isHarmless, Bool.and_eq_true, bne_iff_ne, ne_eq] at first
      simp [first]
    rw [cons_append, spanTag]
    simp only [plain, Bool.and_false, Bool.false_eq_true, if_false,
      closing?_harmless quoting first, ih others, keep_keep]
    rfl

/-- **A string that ends as a word is passed over in a tag.** -/
theorem spanTag_string {q : UInt8} (h : Token.spanString q src = some (value, taken, after))
    (kind : Delimiter) :
    spanTag kind (some q) src = keep taken (spanTag kind none after) := by
  fun_induction Token.spanString q src generalizing value taken after with
  | case1 => cases h
  | case2 e rest ih =>
    obtain ⟨⟨v, t, r⟩, inner, same⟩ := Option.map_eq_some_iff.1 h
    cases same
    rw [spanTag, if_pos (by decide), ih inner, keep_keep]
    rfl
  | case3 c rest single same =>
    cases h
    rw [spanTag.eq_def]
    by_cases escape : c = Byte.backslash
    · obtain _ | ⟨e, more⟩ := rest
      · simp [escape, spanTag, keep]
      · exact (single e more escape rfl).elim
    · simp [escape, same]
  | case4 c rest single other ih =>
    obtain ⟨⟨v, t, r⟩, inner, same⟩ := Option.map_eq_some_iff.1 h
    cases same
    rw [spanTag.eq_def]
    by_cases escape : c = Byte.backslash
    · obtain _ | ⟨e, more⟩ := rest
      · cases inner
      · exact (single e more escape rfl).elim
    · simp [escape, other, ih inner, keep_keep]

/-- A string inside a tag, behind its opening quote. -/
theorem spanTag_quote (quoting : Quoting kind)
    (h : Token.spanString Byte.quote src = some (value, taken, after)) :
    spanTag kind none (Byte.quote :: src) = keep (Byte.quote :: taken) (spanTag kind none after) := by
  have opens : kind != .comment
      && (Byte.quote == Byte.quote || Byte.quote == Byte.apostrophe) := by
    obtain rfl | rfl := quoting <;> rfl
  rw [spanTag]
  simp only [opens, if_true, spanTag_string h, keep_keep]
  rfl

theorem isHarmless_of_isNamePart {b : UInt8} (h : Byte.isNamePart b = true) :
    isHarmless b = true := by
  grind [Byte.isNamePart, Byte.isNameStart, Byte.isLower, Byte.isUpper, Byte.isDigit, isHarmless]

/-- The scanner passes over a word. -/
theorem spanTag_word (quoting : Quoting kind) {w : Lexeme}
    (writable : w.IsWritable) (tail : Bytes) :
    spanTag kind none (w.spelling ++ Byte.space :: tail)
      = keep w.spelling (spanTag kind none (Byte.space :: tail)) := by
  cases w with
  | float text => exact writable.elim
  | name text =>
    exact spanTag_harmless quoting (fun b mem =>
      isHarmless_of_isNamePart (Lexeme.isNamePart_of_mem writable b mem)) _
  | int digits =>
    refine spanTag_harmless quoting (fun b mem => isHarmless_of_isNamePart ?_) _
    rw [Byte.isNamePart, writable.2 b mem, Bool.or_true]
  | string value =>
    show spanTag kind none (Byte.quote :: (value.flatMap Lexeme.escape ++ [Byte.quote])
      ++ Byte.space :: tail) = _
    rw [cons_append, append_assoc, singleton_append,
      spanTag_quote quoting (Lexeme.spanString_quoted Lexeme.spells_escape value _)]
    rfl
  | op symbol =>
    cases symbol with
    | minus | percent | closeBrace => obtain rfl | rfl := quoting <;> rfl
    | _ => exact spanTag_harmless quoting (all_eq_true.1 rfl) _

/-- The content of a tag, up to its closing delimiter. -/
theorem spanTag_led (quoting : Quoting kind) (writable : ∀ w ∈ ws, w.IsWritable) (rest : Bytes) :
    spanTag kind none (Lexeme.led ws ++ Byte.space :: (kind.closing ++ rest))
      = some (Lexeme.led ws ++ [Byte.space], false, rest) := by
  induction ws with
  | nil => obtain rfl | rfl := quoting <;> rfl
  | cons w ws ih =>
    obtain ⟨first, others⟩ := forall_mem_cons.1 writable
    have space : ∀ tail, spanTag kind none (Byte.space :: tail)
        = keep [Byte.space] (spanTag kind none tail) := fun tail =>
      spanTag_harmless quoting (forall_mem_singleton.2 (by decide)) tail
    have after : ∃ tail, Lexeme.led ws ++ Byte.space :: (kind.closing ++ rest)
        = Byte.space :: tail := by
      cases ws with
      | nil => exact ⟨_, rfl⟩
      | cons v ws => exact ⟨_, rfl⟩
    obtain ⟨tail, same⟩ := after
    show spanTag kind none (Byte.space :: (w.spelling ++ Lexeme.led ws)
      ++ Byte.space :: (kind.closing ++ rest)) = _
    rw [cons_append, append_assoc, space, same, spanTag_word quoting first, ← same,
      ih others]
    simp [keep, Lexeme.led]

/-! ## Whole tags -/

/-- A tag with words in it, as it is written. -/
def tagText (kind : Delimiter) (ws : List Lexeme) : Bytes :=
  Byte.openBrace :: kind.mark :: (Lexeme.led ws ++ Byte.space :: kind.closing)

/-- That tag, as the scanner describes it. -/
def tagOf (kind : Delimiter) (ws : List Lexeme) (pos : Position) : Tag :=
  ⟨pos, false, pos.after [Byte.openBrace, kind.mark], Lexeme.led ws ++ [Byte.space], false⟩

theorem opening?_tag (quoting : Quoting kind) (rest : Bytes) :
    opening? (Byte.openBrace :: kind.mark :: rest) = some kind := by
  obtain rfl | rfl := quoting <;> rfl

/-- No tag that is written trims. -/
theorem head?_led (ws : List Lexeme) (rest : Bytes) :
    ((Lexeme.led ws ++ Byte.space :: rest).head? == some Byte.minus) = false := by
  cases ws <;> rfl

/-- Where the text behind a tag starts. -/
def tagEnd (kind : Delimiter) (t : Tag) : Position :=
  (t.bodyPos.after t.body).after (trimMark t.trimAfter ++ kind.closing)

/-- The pieces from a tag on: the tag, or the raw block that it opens, and what
follows. -/
def piecesFrom (kind : Delimiter) (t : Tag) (rest : Bytes) : List Piece :=
  match kind, RawWord.ofText? t.statement.name with
  | .statement, some word =>
    match spanRaw word rest with
    | none => [.broken ⟨t.pos, .unterminatedRaw word⟩]
    | some (content, ending, more) =>
      .raw t (tagEnd kind t) content :: scan (((tagEnd kind t).after content).after ending) more
  | _, _ => .tag kind t :: scan (tagEnd kind t) rest

/-- **The scanner finds a tag** that does not trim. -/
theorem scan_tag (quoting : Quoting kind) {body : Bytes}
    (plain : (text.head? == some Byte.minus) = false)
    (content : spanTag kind none text = some (body, false, rest)) (pos : Position) :
    scan pos (Byte.openBrace :: kind.mark :: text)
      = piecesFrom kind ⟨pos, false, pos.after [Byte.openBrace, kind.mark], body, false⟩ rest := by
  rw [scan]
  split
  · next none_ => rw [opening?_tag quoting] at none_; cases none_
  · next found some_ =>
    rw [opening?_tag quoting] at some_
    cases some_
    simp only [drop_one, tail_cons, plain, trimMark, Bool.false_eq_true, if_false]
    split
    · next broken =>
      simp only [drop_one, tail_cons, plain, Bool.false_eq_true, if_false] at broken
      cases content.symm.trans broken
    · next body' trim after span =>
      simp only [drop_one, tail_cons, plain, Bool.false_eq_true, if_false] at span
      cases content.symm.trans span
      obtain rfl | rfl := quoting
      · rfl
      · unfold piecesFrom
        split
        · next raw =>
          rw [show RawWord.ofText? (Tag.statement ⟨pos, false, _, body, false⟩).name = _ from raw]
          simp only
          split
          · next unterminated => rw [unterminated]
          · next ended => rw [ended]; rfl
        · next plain =>
          cases raw : RawWord.ofText? (Tag.statement ⟨pos, false, _, body, false⟩).name with
          | none => rfl
          | some word => exact (plain word _ _ rfl raw HEq.rfl HEq.rfl).elim

/-- **The scanner finds a written tag.** -/
theorem scan_tagText (quoting : Quoting kind) (writable : ∀ w ∈ ws, w.IsWritable) (pos : Position)
    (rest : Bytes) :
    scan pos (tagText kind ws ++ rest) = piecesFrom kind (tagOf kind ws pos) rest := by
  rw [tagText, cons_append, cons_append, append_assoc, cons_append]
  exact scan_tag quoting (head?_led ws _) (spanTag_led quoting writable rest) pos

/-! ## Raw blocks -/

/-- No end tag of a raw block stands in a text. -/
def RawFree (text : Bytes) : Prop := ∀ tail, tail <:+ text → rawEnd? .raw tail = none

instance (text : Bytes) : Decidable (RawFree text) :=
  decidable_of_iff (∀ tail ∈ text.tails, rawEnd? .raw tail = none)
    (by simp only [RawFree, mem_tails])

/-- A prefix without an opening brace is not completed by one. -/
theorem dropPrefix?_brace {start bs found : Bytes} (plain : Byte.openBrace ∉ start)
    (h : Bytes.dropPrefix? start (bs ++ Byte.openBrace :: rest) = some found) :
    ∃ more, Bytes.dropPrefix? start bs = some more ∧ found = more ++ Byte.openBrace :: rest := by
  induction start generalizing bs with
  | nil =>
    cases h
    exact ⟨bs, rfl, rfl⟩
  | cons s start ih =>
    rw [mem_cons, not_or] at plain
    cases bs with
    | nil =>
      rw [nil_append, Bytes.dropPrefix?, if_neg (by simpa using Ne.symm plain.1)] at h
      cases h
    | cons b bs =>
      rw [cons_append, Bytes.dropPrefix?] at h
      split at h
      · next same =>
        obtain ⟨more, found, rfl⟩ := ih plain.2 h
        exact ⟨more, by rw [Bytes.dropPrefix?, if_pos same, found], rfl⟩
      · cases h

theorem dropWhile_brace {p : UInt8 → Bool} (plain : p Byte.openBrace = false) (bs rest : Bytes) :
    (bs ++ Byte.openBrace :: rest).dropWhile p = bs.dropWhile p ++ Byte.openBrace :: rest := by
  induction bs with
  | nil => rw [nil_append, dropWhile_cons_of_neg (by simp [plain])]; rfl
  | cons b bs ih =>
    rw [cons_append, dropWhile_cons, dropWhile_cons]
    split
    · exact ih
    · rfl

theorem dropMinus_brace (bs rest : Bytes) :
    dropMinus (bs ++ Byte.openBrace :: rest) = dropMinus bs ++ Byte.openBrace :: rest := by
  unfold dropMinus
  cases found : Bytes.dropPrefix? [Byte.minus] (bs ++ Byte.openBrace :: rest) with
  | none =>
    cases bs with
    | nil => rfl
    | cons b bs =>
      rw [cons_append, Bytes.dropPrefix?] at found
      split at found
      · cases found
      · next other => rw [Bytes.dropPrefix?, if_neg other]; rfl
  | some more =>
    obtain ⟨more', found', rfl⟩ := dropPrefix?_brace (by decide) found
    rw [found']
    rfl

/-- **An end tag of a raw block does not straddle an opening brace**: if it
starts in front of the brace, it ends there. -/
theorem rawEnd?_brace (ne : text ≠ []) (free : rawEnd? .raw text = none) :
    rawEnd? .raw (text ++ Byte.openBrace :: rest) = none := by
  by_contra found
  obtain ⟨after, found⟩ := Option.ne_none_iff_exists'.1 found
  simp only [rawEnd?, Option.bind_eq_bind, Option.bind_eq_some_iff] at found
  obtain ⟨afterOpen, open_, afterWord, word, close⟩ := found
  have inside : ∃ more, Bytes.dropPrefix? [Byte.openBrace, Byte.percent] text = some more
      ∧ afterOpen = more ++ Byte.openBrace :: rest := by
    obtain _ | ⟨b, text⟩ := text
    · exact absurd rfl ne
    rw [cons_append, Bytes.dropPrefix?] at open_
    split at open_
    · next same =>
      obtain ⟨more, found, rfl⟩ := dropPrefix?_brace (by decide) open_
      exact ⟨more, by rw [Bytes.dropPrefix?, if_pos same, found], rfl⟩
    · cases open_
  obtain ⟨more, found, rfl⟩ := inside
  rw [dropMinus_brace, dropWhile_brace (by decide)] at word
  obtain ⟨more', found', rfl⟩ := dropPrefix?_brace (by decide) word
  rw [dropWhile_brace (by decide), dropMinus_brace] at close
  obtain ⟨more'', found'', rfl⟩ := dropPrefix?_brace (by decide) close
  simp [rawEnd?, found, found', found''] at free

/-- The content of a raw block without an end tag is taken whole. -/
theorem spanRaw_text (free : RawFree text) (rest : Bytes) :
    ∃ ending, spanRaw .raw (text ++ (tagText .statement [.name "endraw"] ++ rest))
      = some (text, ending, rest) := by
  induction text with
  | nil => exact ⟨_, rfl⟩
  | cons c text ih =>
    obtain ⟨ending, inner⟩ := ih fun tail suffix =>
      free tail (suffix.trans (suffix_cons c text))
    refine ⟨ending, ?_⟩
    have here : rawEnd? .raw (c :: text ++ (tagText .statement [.name "endraw"] ++ rest)) = none :=
      rawEnd?_brace (cons_ne_nil c text) (free _ (suffix_refl _))
    rw [cons_append] at here ⊢
    rw [spanRaw, here, inner]
    rfl

/-- **A raw block is cut out whole.** -/
theorem scan_raw (free : RawFree text) (pos : Position) (rest : Bytes) :
    ∃ pos₁ pos₂, scan pos (tagText .statement [.name "raw"]
        ++ (text ++ (tagText .statement [.name "endraw"] ++ rest)))
      = .raw (tagOf .statement [.name "raw"] pos) pos₁ text :: scan pos₂ rest := by
  obtain ⟨ending, content⟩ := spanRaw_text free rest
  rw [scan_tagText (.inr rfl) (forall_mem_singleton.2 (by decide))]
  have word : RawWord.ofText? (tagOf .statement [.name "raw"] pos).statement.name = some .raw := by
    rfl
  unfold piecesFrom
  simp only [word, content]
  exact ⟨_, _, rfl⟩

/-! ## Statements -/

theorem isBlank_of_mem (identifier : Script.isIdentifier name = true) :
    ∀ b ∈ name, Byte.isBlank b = false := by
  intro b mem
  have part := Lexeme.isNamePart_of_mem identifier b mem
  rw [Byte.isNamePart, Bool.or_eq_true] at part
  obtain start | digit := part
  · exact (Lexeme.isNameStart_front start).1
  · exact (Lexeme.isDigit_front digit).1

/-- The statement of a written tag: its name, and its other words as
arguments. -/
theorem statement_tagOf (identifier : Script.isIdentifier name = true) (ws : List Lexeme)
    (pos : Position) :
    ∃ argsPos, (tagOf .statement (.name name :: ws) pos).statement
      = ⟨name, argsPos, Lexeme.led ws ++ [Byte.space]⟩ := by
  have body : (tagOf .statement (.name name :: ws) pos).body
      = Byte.space :: (name ++ (Lexeme.led ws ++ [Byte.space])) := by
    show (Byte.space :: (name ++ Lexeme.led ws)) ++ [Byte.space] = _
    rw [cons_append, append_assoc]
  have visible : ∀ b ∈ name, (!Byte.isBlank b) = true := fun b mem => by
    rw [isBlank_of_mem identifier b mem]
    rfl
  have ends : Lexeme.Ends (Lexeme.led ws ++ [Byte.space]) :=
    Lexeme.ends_led ws (Lexeme.ends_space [])
  obtain ⟨taken, dropped⟩ := Lexeme.takeWhile_run visible ends (by decide)
  have first : (Byte.space :: (name ++ (Lexeme.led ws ++ [Byte.space]))).dropWhile Byte.isBlank
      = name ++ (Lexeme.led ws ++ [Byte.space]) := by
    rw [dropWhile_cons_of_pos (by decide)]
    exact Lexeme.dropWhile_front (isBlank_of_mem identifier) (by rintro rfl; cases identifier) _
  unfold Tag.statement
  rw [body, first]
  simp only [taken, dropped]
  exact ⟨_, rfl⟩

end Piece

end TemplateCompiler
