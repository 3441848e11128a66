import TemplateCompiler.Proofs.Text.Runes
import TemplateCompiler.Script.Quote

/-!
# Literals of the script, read back

The characters of a string or of a run of an interpolation are read one code
point at a time, as the script itself reads them: `Script.value?` gives the
text they stand for, and nothing if one of them cannot stand there or if the
last escape is not complete. A string literal is read by `Script.string?`.

Reading a string literal gives the text that was quoted, code point for code
point (`Script.quote_readBack`).
-/

open List

namespace TemplateCompiler

namespace Script

/-! ## Characters -/

/-- Whether a code point ends a line of the script. -/
def isLineEnd (c : Nat) : Bool := c == 0x0a || c == 0x0d || c == 0x2028 || c == 0x2029

/-- The value of a hexadecimal digit. -/
def digit? (c : Nat) : Option Nat := if c < 0x80 then Byte.hexValue? (UInt8.ofNat c) else none

/-- Where a reader of a literal stands. -/
inductive Place where
  /-- Between two characters. -/
  | between
  /-- Behind a dollar sign. -/
  | dollar
  /-- Behind a carriage return, whose line feed may follow. -/
  | returned
  /-- Behind a backslash. -/
  | escape
  /-- Behind the escape of the null character, which no digit may follow. -/
  | null
  /-- Behind the escape by number, before its first digit. -/
  | unicode
  /-- Inside an escape by number: before a digit that `more` digits follow. -/
  | digits (more value : Nat)
  /-- Inside the braces of an escape by number. -/
  | braces (value : Option Nat)
deriving DecidableEq

/-- Whether a literal may end there: all escapes are complete. -/
def Place.isComplete : Place → Bool
  | .between | .dollar | .returned | .null => true
  | _ => false

/-- What a code point does to a reader: the place it goes to and the characters
that it gains. -/
abbrev Move := Option (Place × List Nat)

/-- A code point behind a backslash. -/
def escaped (c : Nat) : Move :=
  match c with
  | 0x62 => some (.between, [0x08])
  | 0x66 => some (.between, [0x0c])
  | 0x6e => some (.between, [0x0a])
  | 0x72 => some (.between, [0x0d])
  | 0x74 => some (.between, [0x09])
  | 0x76 => some (.between, [0x0b])
  | 0x30 => some (.null, [0])
  | 0x78 => some (.digits 1 0, [])
  | 0x75 => some (.unicode, [])
  | 0x0d => some (.returned, [])
  | _ =>
    if 0x31 ≤ c && c ≤ 0x39 then none
    else some (.between, if isLineEnd c then [] else [c])

/-- A digit of an escape by number. -/
def byNumber (value c : Nat) : Nat → Move
  | 0 => (digit? c).map fun d => (.between, [16 * value + d])
  | more + 1 => (digit? c).map fun d => (.digits more (16 * value + d), [])

/-- One code point. `bare` says what becomes of those that no escape takes. -/
def move (bare : Nat → Move) (c : Nat) : Place → Move
  | .between => bare c
  | .dollar => if c = 0x7b then none else bare c
  | .returned => if c = 0x0a then some (.between, []) else bare c
  | .null => if (digit? c).any (· < 10) then none else bare c
  | .escape => escaped c
  | .unicode => if c = 0x7b then some (.braces none, []) else byNumber 0 c 3
  | .digits more value => byNumber value c more
  | .braces value =>
    if c = 0x7d then value.bind fun v => if v ≤ 0x10ffff then some (.between, [v]) else none
    else (digit? c).map fun d => (.braces (some (16 * value.getD 0 + d)), [])

/-- The way through several code points. -/
def walk (bare : Nat → Move) : Place → List Nat → Move
  | p, [] => some (p, [])
  | p, c :: cs =>
    (move bare c p).bind fun m => (walk bare m.1 cs).map fun w => (w.1, m.2 ++ w.2)

/-- **The text that characters of a literal stand for.** -/
def value? (bare : Nat → Move) (cs : List Nat) : Option (List Nat) :=
  (walk bare .between cs).bind fun w => if w.1.isComplete then some w.2 else none

theorem walk_append {bare : Nat → Move} {p q : Place} {cs gained : List Nat}
    (first : walk bare p cs = some (q, gained)) (ds : List Nat) :
    walk bare p (cs ++ ds) = (walk bare q ds).map fun w => (w.1, gained ++ w.2) := by
  induction cs generalizing p gained with
  | nil =>
    obtain ⟨rfl, rfl⟩ := Prod.mk.inj (Option.some.inj first)
    exact Option.map_id'.symm
  | cons c cs ih =>
    obtain ⟨⟨r, one⟩, moved, rest⟩ := Option.bind_eq_some_iff.1 first
    obtain ⟨⟨q', more⟩, walked, same⟩ := Option.map_eq_some_iff.1 rest
    obtain ⟨rfl, rfl⟩ := Prod.mk.inj same
    rw [cons_append, walk, moved, Option.bind_some, ih walked, Option.map_map]
    exact congrArg (Option.map · _) (funext fun _ => by simp)

/-! ## Strings -/

/-- A code point of a string that no escape takes: no quote, and no end of a
line. -/
def bareString (c : Nat) : Move :=
  if c = 0x5c then some (.escape, [])
  else if c = 0x22 || isLineEnd c then none
  else some (.between, [c])

/-- **The text of a string literal**: its characters stand between double
quotes. -/
def string? : List Nat → Option (List Nat)
  | 0x22 :: cs => if cs.getLast? = some 0x22 then value? bareString cs.dropLast else none
  | _ => none

/-- A number in four digits, and one in braces; an escape that is not complete,
one by an octal number, and a quote that ends the string early. -/
example : string? [0x22, 0x5c, 0x75, 0x30, 0x30, 0x34, 0x31, 0x22] = some [0x41]
    ∧ string? [0x22, 0x5c, 0x75, 0x7b, 0x34, 0x31, 0x7d, 0x22] = some [0x41]
    ∧ string? [0x22, 0x5c, 0x75, 0x30, 0x30, 0x34, 0x22] = none
    ∧ string? [0x22, 0x5c, 0x31, 0x22] = none
    ∧ string? [0x22, 0x22, 0x41, 0x22] = none := by decide

section

variable {s : Bytes} {code : Nat}

/-- The code points that are quoted by an escape. -/
def specials : List Nat := [0x22, 0x5c, 0x7f, 0x2028, 0x2029] ++ List.range 0x20

/-- A quoted code point is an escape in ASCII, or itself. -/
theorem quotePoint_cases (code : Nat) :
    (code ∈ specials ∧ ∀ b ∈ quotePoint code, b < 0x80)
      ∨ (code ∉ specials ∧ quotePoint code = Utf8.encode code) := by
  by_cases special : code ∈ specials
  · refine .inl ⟨special, ?_⟩
    revert code
    decide +kernel
  · refine .inr ⟨special, ?_⟩
    simp only [specials, mem_append, mem_cons, mem_range, not_mem_nil] at special
    unfold quotePoint
    split <;> simp_all <;> omega

theorem isValid_quotePoint (mem : code ∈ Utf8.points s) : Utf8.isValid (quotePoint code) = true := by
  rcases quotePoint_cases code with ⟨-, ascii⟩ | ⟨-, same⟩
  · exact Utf8.isValid_of_ascii ascii
  · rw [same]
    exact Utf8.isValid_encode mem

/-- **One code point of a string** is read back. -/
theorem walk_quotePoint (mem : code ∈ Utf8.points s) :
    walk bareString .between (Utf8.points (quotePoint code)) = some (.between, [code]) := by
  rcases quotePoint_cases code with ⟨special, ascii⟩ | ⟨plain, same⟩
  · rw [Utf8.points_of_ascii ascii]
    clear mem ascii
    revert code
    decide
  · rw [same, Utf8.points_encode mem]
    have bare : bareString code = some (.between, [code]) := by
      have line : isLineEnd code = false := by grind [isLineEnd, specials]
      grind [bareString, specials]
    simp [walk, move, bare]

/-- No line ends inside a string. -/
theorem isLineEnd_quotePoint (mem : code ∈ Utf8.points s) :
    ∀ c ∈ Utf8.points (quotePoint code), isLineEnd c = false := by
  rcases quotePoint_cases code with ⟨special, ascii⟩ | ⟨plain, same⟩
  · rw [Utf8.points_of_ascii ascii]
    clear mem ascii
    revert code
    decide
  · rw [same, Utf8.points_encode mem]
    grind [isLineEnd, specials]

theorem isValid_flatMap_quotePoint {codes : List Nat} (mem : ∀ code ∈ codes, code ∈ Utf8.points s) :
    Utf8.isValid (codes.flatMap quotePoint) = true := by
  induction codes with
  | nil => exact Utf8.isValid_of_ascii (by simp)
  | cons code codes ih =>
    obtain ⟨first, rest⟩ := forall_mem_cons.1 mem
    exact Utf8.isValid_append (isValid_quotePoint first) (ih rest)

theorem points_flatMap_quotePoint {codes : List Nat} (mem : ∀ code ∈ codes, code ∈ Utf8.points s) :
    Utf8.points (codes.flatMap quotePoint) = codes.flatMap (Utf8.points ∘ quotePoint) := by
  induction codes with
  | nil => exact Utf8.points_of_ascii (by simp)
  | cons code codes ih =>
    obtain ⟨first, rest⟩ := forall_mem_cons.1 mem
    rw [flatMap_cons, Utf8.points_append (Utf8.closed_of_isValid (isValid_quotePoint first)),
      ih rest]
    rfl

/-- The characters of a string are read back one after the other. -/
theorem walk_quoted {codes : List Nat} (mem : ∀ code ∈ codes, code ∈ Utf8.points s) :
    walk bareString .between (codes.flatMap (Utf8.points ∘ quotePoint)) = some (.between, codes) := by
  induction codes with
  | nil => rfl
  | cons code codes ih =>
    obtain ⟨first, rest⟩ := forall_mem_cons.1 mem
    rw [flatMap_cons, Function.comp_apply, walk_append (walk_quotePoint first), ih rest]
    rfl

/-- The code points of a string literal. -/
theorem points_quote (s : Bytes) : Utf8.points (quote s)
    = 0x22 :: (Utf8.points s).flatMap (Utf8.points ∘ quotePoint) ++ [0x22] := by
  have mark : Utf8.points "\"" = [0x22] := Utf8.points_of_ascii (by decide +kernel)
  have closed : Utf8.Closed "\"" :=
    Utf8.closed_of_isValid (Utf8.isValid_of_ascii (by decide +kernel))
  have inner := Utf8.closed_of_isValid (isValid_flatMap_quotePoint (s := s) fun _ => id)
  rw [quote, Utf8.points_append (closed.append inner), Utf8.points_append closed, mark,
    points_flatMap_quotePoint (s := s) fun _ => id]
  rfl

theorem string?_quote (s : Bytes) : string? (Utf8.points (quote s)) = some (Utf8.points s) := by
  rw [points_quote, cons_append, string?, getLast?_concat, if_pos rfl,
    dropLast_concat, value?, walk_quoted (s := s) fun _ => id]
  rfl

end

/-- **String literals survive quoting.** Any text in quotes is a string literal
whose text is the code points of the text, where a byte that is no UTF-8 counts
as the replacement mark. No line ends inside it. Of a text that is UTF-8 not a
byte is lost, so no two such texts are quoted alike. -/
theorem quote_readBack (s : Bytes) :
    string? (Utf8.points (quote s)) = some (Utf8.points s)
      ∧ (∀ c ∈ Utf8.points (quote s), isLineEnd c = false)
      ∧ Utf8.isValid (quote s) = true
      ∧ (Utf8.isValid s = true →
        (string? (Utf8.points (quote s))).map Utf8.ofPoints = some s
          ∧ ∀ t, Utf8.isValid t = true → quote s = quote t → s = t) := by
  have read := string?_quote s
  refine ⟨read, fun c mem => ?_, ?_, fun valid => ⟨?_, fun t valid' same => ?_⟩⟩
  · rw [points_quote] at mem
    rcases List.mem_append.1 mem with mem | mem
    · rcases List.mem_cons.1 mem with rfl | mem
      · rfl
      · obtain ⟨code, here, inside⟩ := List.mem_flatMap.1 mem
        exact isLineEnd_quotePoint here c inside
    · rw [List.mem_singleton.1 mem]
      rfl
  · have mark : Utf8.isValid "\"" = true := Utf8.isValid_of_ascii (by decide +kernel)
    exact Utf8.isValid_append
      (Utf8.isValid_append mark (isValid_flatMap_quotePoint (s := s) fun _ => id)) mark
  · rw [read, Option.map_some, Utf8.ofPoints_points valid]
  · have codes : Utf8.points s = Utf8.points t :=
      Option.some.inj (read.symm.trans (same ▸ string?_quote t))
    rw [← Utf8.ofPoints_points valid, codes, Utf8.ofPoints_points valid']

/-- A quote, a separator of lines and a backslash. -/
theorem quote_readBack_separator : Utf8.isValid [0x22, 0xe2, 0x80, 0xa8, 0x5c] = true
    ∧ (string? (Utf8.points (quote [0x22, 0xe2, 0x80, 0xa8, 0x5c]))).map Utf8.ofPoints
      = some [0x22, 0xe2, 0x80, 0xa8, 0x5c] := by
  have valid : Utf8.isValid [0x22, 0xe2, 0x80, 0xa8, 0x5c] = true := by
    simp [Utf8.isValid, Utf8.runes, Utf8.point?, Utf8.isContinuation]
  exact ⟨valid, ((quote_readBack _).2.2.2 valid).1⟩

end Script

end TemplateCompiler
