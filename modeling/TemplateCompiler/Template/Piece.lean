import TemplateCompiler.Template.SyntaxError

/-!
# Cutting templates into text and tags

A template is literal text with tags in it: outputs, statements and comments.
`Piece.scan` cuts a source into these. A quoted string inside an output or a
statement hides the closing delimiter; in a comment nothing does. A minus
sign next to a delimiter, on the inside, asks for the blanks outside to be
trimmed; the scanner only records it.

The content of a raw block is copied up to its end tag, so it is cut out here
as well. Where a tag or a raw block never ends, the last piece says so.
-/

namespace TemplateCompiler

/-- A tag: where it starts, what stands in it, and the trimming it asks
for. -/
structure Tag where
  pos : Position
  trimBefore : Bool
  /-- Where the content starts. -/
  bodyPos : Position
  body : Bytes
  trimAfter : Bool
deriving DecidableEq, Repr, Inhabited

/-- A statement: its name and its arguments. -/
structure Statement where
  name : Bytes
  /-- Where the arguments start. -/
  argsPos : Position
  args : Bytes
deriving DecidableEq, Repr, Inhabited

/-- The first word of a tag is the statement's name. -/
def Tag.statement (t : Tag) : Statement :=
  let blanks := t.body.takeWhile Byte.isBlank
  let rest := t.body.dropWhile Byte.isBlank
  let name := rest.takeWhile fun b => !Byte.isBlank b
  ⟨name, (t.bodyPos.after blanks).after name, rest.dropWhile fun b => !Byte.isBlank b⟩

/-- A stretch of a template. -/
inductive Piece where
  /-- Literal text. -/
  | text (pos : Position) (content : Bytes)
  /-- A tag of any kind. -/
  | tag (kind : Delimiter) (tag : Tag)
  /-- A raw block: its opening tag and its content. -/
  | raw (tag : Tag) (pos : Position) (content : Bytes)
  /-- The rest of the source cannot be cut. -/
  | broken (error : SyntaxError)
deriving DecidableEq, Repr, Inhabited

namespace Piece

/-- The tag that opens at the front of a text. -/
def opening? : Bytes → Option Delimiter
  | Byte.openBrace :: Byte.openBrace :: _ => some .output
  | Byte.openBrace :: Byte.percent :: _ => some .statement
  | Byte.openBrace :: Byte.hash :: _ => some .comment
  | _ => none

/-- Text up to the next opening delimiter, and the rest from there on. -/
def spanText : Bytes → Bytes × Bytes
  | [] => ([], [])
  | c :: rest =>
    match opening? (c :: rest) with
    | some _ => ([], c :: rest)
    | none => (c :: (spanText rest).1, (spanText rest).2)

/-- The bytes behind the closing delimiter of a tag, if one stands at the
front, and whether it carries a minus sign. -/
def closing? (kind : Delimiter) (src : Bytes) : Option (Bool × Bytes) :=
  match Bytes.dropPrefix? (Byte.minus :: kind.closing) src with
  | some rest => some (true, rest)
  | none => (Bytes.dropPrefix? kind.closing src).map fun rest => (false, rest)

/-- A minus sign where a delimiter trims, nothing otherwise. -/
def trimMark (trim : Bool) : Bytes := if trim then [Byte.minus] else []

/-- The content of a tag with `taken` in front of it. -/
def keep (taken : Bytes) (found : Option (Bytes × Bool × Bytes)) : Option (Bytes × Bool × Bytes) :=
  found.map fun (body, trim, after) => (taken ++ body, trim, after)

/-- The content of a tag up to its closing delimiter, whether the delimiter
trims, and the bytes behind it. `string` is the quote of the string that the
scanner is in. -/
def spanTag (kind : Delimiter) (string : Option UInt8) :
    Bytes → Option (Bytes × Bool × Bytes)
  | [] => none
  | c :: rest =>
    match string with
    | some q =>
      if c == Byte.backslash then
        match rest with
        | [] => none
        | e :: more => keep [c, e] (spanTag kind (some q) more)
      else keep [c] (spanTag kind (if c == q then none else some q) rest)
    | none =>
      if kind != .comment && (c == Byte.quote || c == Byte.apostrophe) then
        keep [c] (spanTag kind (some c) rest)
      else match closing? kind (c :: rest) with
        | some (trim, after) => some ([], trim, after)
        | none => keep [c] (spanTag kind none rest)

/-- The blanks that may stand in the end tag of a raw block. -/
def isRawBlank (b : UInt8) : Bool := Byte.isBlank b || b == Byte.formFeed

/-- `src` without a minus sign at its front. -/
def dropMinus (src : Bytes) : Bytes := (Bytes.dropPrefix? [Byte.minus] src).getD src

/-- The bytes behind the end tag of a raw block, if it stands at the front. -/
def rawEnd? (word : RawWord) (src : Bytes) : Option Bytes := do
  let afterOpen ← Bytes.dropPrefix? [Byte.openBrace, Byte.percent] src
  let afterWord ← Bytes.dropPrefix? word.ending ((dropMinus afterOpen).dropWhile isRawBlank)
  Bytes.dropPrefix? [Byte.percent, Byte.closeBrace] (dropMinus (afterWord.dropWhile isRawBlank))

/-- The content of a raw block, its end tag, and the bytes behind that. -/
def spanRaw (word : RawWord) : Bytes → Option (Bytes × Bytes × Bytes)
  | [] => none
  | c :: rest =>
    match rawEnd? word (c :: rest) with
    | some after => some ([], (c :: rest).take (rest.length + 1 - after.length), after)
    | none => (spanRaw word rest).map fun (content, ending, after) => (c :: content, ending, after)

end Piece

/-! ### The scanner loses nothing and makes progress -/

/-- A dropped start and the rest make up the whole. -/
theorem Bytes.append_of_dropPrefix? {start bs rest : Bytes}
    (h : Bytes.dropPrefix? start bs = some rest) : start ++ rest = bs := by
  fun_induction Bytes.dropPrefix? start bs with
  | case1 bs => exact Option.some.inj h.symm
  | case2 => cases h
  | case3 s start b bs same ih => rw [List.cons_append, ih h, LawfulBEq.eq_of_beq same]
  | case4 => cases h

namespace Piece

variable {src : Bytes}

/-- Text and the rest make up the source. -/
theorem spanText_append (src : Bytes) : (spanText src).1 ++ (spanText src).2 = src := by
  fun_induction spanText src with
  | case1 => rfl
  | case2 => rfl
  | case3 c rest _ ih => simp [ih]

theorem closing?_append {kind : Delimiter} {rest : Bytes} {trim : Bool}
    (h : closing? kind src = some (trim, rest)) :
    (trimMark trim ++ kind.closing) ++ rest = src := by
  unfold closing? at h
  split at h
  · next found =>
    cases h
    exact Bytes.append_of_dropPrefix? found
  · obtain ⟨r, found, same⟩ := Option.map_eq_some_iff.1 h
    cases same
    exact Bytes.append_of_dropPrefix? found

/-- What is kept in front of a content does not change what follows it. -/
theorem keep_eq_some {taken body rest : Bytes} {trim : Bool}
    {found : Option (Bytes × Bool × Bytes)} (h : keep taken found = some (body, trim, rest)) :
    ∃ inner, found = some (inner, trim, rest) ∧ body = taken ++ inner := by
  obtain ⟨⟨b, t, r⟩, hs, he⟩ := Option.map_eq_some_iff.1 h
  simp only [Prod.mk.injEq] at he
  obtain ⟨rfl, rfl, rfl⟩ := he
  exact ⟨b, hs, rfl⟩

/-- The content of a tag, its closing delimiter and the rest make up the
source. -/
theorem spanTag_append {kind : Delimiter} {q : Option UInt8} {body rest : Bytes} {trim : Bool}
    (h : spanTag kind q src = some (body, trim, rest)) :
    body ++ ((trimMark trim ++ kind.closing) ++ rest) = src := by
  fun_induction spanTag kind q src generalizing body trim rest with
  | case1 | case2 => cases h
  | case3 | case4 | case5 | case7 =>
    rename_i ih
    obtain ⟨inner, found, rfl⟩ := keep_eq_some h
    rw [List.append_assoc, ih found]
    rfl
  | case6 =>
    rename_i found
    cases h
    exact closing?_append found

theorem spanTag_length {kind : Delimiter} {q : Option UInt8} {body rest : Bytes} {trim : Bool}
    (h : spanTag kind q src = some (body, trim, rest)) : rest.length ≤ src.length := by
  have := congrArg List.length (spanTag_append h)
  simp only [List.length_append] at this
  omega

theorem rawEnd?_suffix {word : RawWord} {rest : Bytes} (h : rawEnd? word src = some rest) :
    rest <:+ src := by
  have dropped {start bs rest : Bytes} (h : Bytes.dropPrefix? start bs = some rest) : rest <:+ bs :=
    ⟨start, Bytes.append_of_dropPrefix? h⟩
  have minus (bs : Bytes) : dropMinus bs <:+ bs := by
    unfold dropMinus
    cases found : Bytes.dropPrefix? [Byte.minus] bs with
    | none => exact List.suffix_rfl
    | some rest => exact dropped found
  simp only [rawEnd?, Option.bind_eq_bind, Option.bind_eq_some_iff] at h
  obtain ⟨afterOpen, opened, afterWord, named, closed⟩ := h
  have afterWord := (dropped named).trans ((List.dropWhile_suffix _).trans (minus afterOpen))
  have afterEnd := (dropped closed).trans ((minus _).trans (List.dropWhile_suffix _))
  exact afterEnd.trans (afterWord.trans (dropped opened))

/-- The content of a raw block, its end tag and the rest make up the
source. -/
theorem spanRaw_append {word : RawWord} {content ending rest : Bytes}
    (h : spanRaw word src = some (content, ending, rest)) : content ++ (ending ++ rest) = src := by
  fun_induction spanRaw word src generalizing content ending rest with
  | case1 => cases h
  | case2 c more after found =>
    cases h
    exact (List.suffix_iff_eq_append.1 (rawEnd?_suffix found))
  | case3 c more _ ih =>
    obtain ⟨⟨k, e, r⟩, found, same⟩ := Option.map_eq_some_iff.1 h
    cases same
    rw [List.cons_append, ih found]

/-- Where no tag opens, text takes at least one byte. -/
theorem spanText_length {c : UInt8} {rest : Bytes} (h : opening? (c :: rest) = none) :
    (spanText (c :: rest)).2.length < (c :: rest).length := by
  have := congrArg List.length (spanText_append rest)
  simp only [List.length_append] at this
  simp only [spanText, h, List.length_cons]
  omega

/-- The pieces of `src`, which starts at `pos`. -/
def scan (pos : Position) (src : Bytes) : List Piece :=
  match src with
  | [] => []
  | c :: rest =>
    match ho : opening? (c :: rest) with
    | none =>
      have := spanText_length ho
      let content := (spanText (c :: rest)).1
      .text pos content :: scan (pos.after content) (spanText (c :: rest)).2
    | some kind =>
      let trimBefore := (rest.drop 1).head? == some Byte.minus
      let opener := c :: kind.mark :: trimMark trimBefore
      match ht : spanTag kind none ((c :: rest).drop opener.length) with
      | none => [.broken ⟨pos, .unterminatedTag kind⟩]
      | some (body, trimAfter, after) =>
        have := spanTag_length ht
        let tag : Tag := ⟨pos, trimBefore, pos.after opener, body, trimAfter⟩
        let tagEnd := (tag.bodyPos.after body).after (trimMark trimAfter ++ kind.closing)
        match kind, RawWord.ofText? tag.statement.name with
        | .statement, some word =>
          match hr : spanRaw word after with
          | none => [.broken ⟨pos, .unterminatedRaw word⟩]
          | some (content, ending, more) =>
            have := congrArg List.length (spanRaw_append hr)
            .raw tag tagEnd content :: scan ((tagEnd.after content).after ending) more
        | kind, _ => .tag kind tag :: scan tagEnd after
termination_by src.length
decreasing_by
  · assumption
  all_goals
    have : 0 < opener.length := Nat.succ_pos _
    simp only [List.length_append, List.length_drop, List.length_cons] at *
    omega

end Piece

end TemplateCompiler
