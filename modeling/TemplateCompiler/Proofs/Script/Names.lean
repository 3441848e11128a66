import TemplateCompiler.Compile.UnitName
import TemplateCompiler.Proofs.Text.Digits
import TemplateCompiler.Proofs.Text.Runes

/-!
# Names of generated code

Template names go to generated code and back (`Script.templateName_bindingName`),
a fresh name is never taken (`Script.fresh_not_mem`), and a name handed out
for a unit is none that the script itself has a use for
(`UnitName.allocate_not_word`) and is a name of the script
(`UnitName.legal_allocate`).
-/

open List

namespace TemplateCompiler

namespace Script

/-! ## Spellings -/

theorem dropPrefix?_append (start rest : Bytes) :
    Bytes.dropPrefix? start (start ++ rest) = some rest := by
  induction start with
  | nil => rfl
  | cons s start ih => rw [cons_append, Bytes.dropPrefix?, if_pos (by simp), ih]

theorem dropSuffix?_append (front tail : Bytes) :
    Bytes.dropSuffix? tail (front ++ tail) = some front := by
  rw [Bytes.dropSuffix?, reverse_append, dropPrefix?_append, Option.map_some,
    reverse_reverse]

/-- **Spelling a template's name and reading it back** gives the name, if it
is no stand-in for a keyword. -/
theorem templateName_bindingName {name : Bytes} (plain : templateName name = name) :
    templateName (bindingName name) = name := by
  rw [bindingName]
  split
  · next keyword =>
    rw [templateName, dropSuffix?_append]
    simp [keyword]
  · exact plain

/-- Names that are no stand-ins are spelled differently if they differ. -/
theorem bindingName_inj {a b : Bytes} (ha : templateName a = a) (hb : templateName b = b)
    (same : bindingName a = bindingName b) : a = b := by
  rw [← templateName_bindingName ha, same, templateName_bindingName hb]

/-! ## Fresh names -/

theorem numbered_injective (base : Bytes) : Function.Injective (numbered base) := by
  intro m n same
  exact Bytes.decimal_injective (append_cancel_left same)

/-- A numbered name is longer than the name. -/
theorem numbered_ne (base : Bytes) (n : Nat) : numbered base n ≠ base := by
  intro same
  have lengths := congrArg List.length same
  have digits := length_pos_iff.mpr (Bytes.decimal_ne_nil n)
  rw [numbered, length_append, length_append] at lengths
  omega

theorem nodup_candidates (base : Bytes) (n : Nat) : (candidates base n).Nodup := by
  refine nodup_cons.mpr ⟨?_, ?_⟩
  · intro mem
    obtain ⟨i, -, same⟩ := mem_map.mp mem
    exact numbered_ne base _ same
  · refine nodup_range.map fun i j same => ?_
    have := numbered_injective base same
    omega

/-- Some candidate is free: there is one more than there are names taken. -/
theorem exists_candidate (taken : List Bytes) (base : Bytes) :
    ∃ name ∈ candidates base taken.length, name ∉ taken := by
  by_contra none
  have all : candidates base taken.length ⊆ taken := by
    intro name mem
    by_contra free
    exact none ⟨name, mem, free⟩
  have count := ((nodup_candidates base taken.length).subperm all).length_le
  rw [candidates, length_cons, length_map, length_range] at count
  omega

/-- **A fresh name** is a candidate that is not taken. -/
theorem fresh_spec (taken : List Bytes) (base : Bytes) :
    fresh taken base ∈ candidates base taken.length ∧ fresh taken base ∉ taken := by
  obtain ⟨name, mem, free⟩ := exists_candidate taken base
  cases found : (candidates base taken.length).find? (!taken.contains ·) with
  | none => exact absurd (find?_eq_none.mp found name mem) (by simpa using free)
  | some first =>
    rw [fresh, found, Option.getD_some]
    exact ⟨mem_of_find?_eq_some found, by simpa using find?_some found⟩

theorem fresh_not_mem (taken : List Bytes) (base : Bytes) : fresh taken base ∉ taken :=
  (fresh_spec taken base).2

/-- The name asked for is taken unless it is in use. -/
theorem fresh_eq_base (taken : List Bytes) (base : Bytes) :
    fresh taken base = base ↔ base ∉ taken := by
  constructor
  · intro same
    rw [← same]
    exact fresh_not_mem taken base
  · intro free
    rw [fresh, candidates, find?_cons_of_pos (by simpa using free)]
    rfl

/-- A fresh name is the name asked for or a numbered form of it. -/
theorem fresh_cases (taken : List Bytes) (base : Bytes) :
    fresh taken base = base ∨ ∃ n, fresh taken base = numbered base n := by
  rcases mem_cons.mp (fresh_spec taken base).1 with same | mem
  · exact .inl same
  · obtain ⟨i, -, same⟩ := mem_map.mp mem
    exact .inr ⟨i + 2, same.symm⟩

/-! ## Identifiers -/

theorem isIdentifier_append {name more : Bytes} (word : isIdentifier name = true)
    (parts : ∀ b ∈ more, Byte.isNamePart b = true) : isIdentifier (name ++ more) = true := by
  cases name with
  | nil => cases word
  | cons b bs =>
    rw [isIdentifier, Bool.and_eq_true] at word
    rw [cons_append, isIdentifier, all_append, word.1, word.2, all_eq_true.2 parts]
    rfl

theorem isIdentifier_bindingName {name : Bytes} (word : isIdentifier name = true) :
    isIdentifier (bindingName name) = true := by
  rw [bindingName]
  split
  · exact isIdentifier_append word (by decide)
  · exact word

theorem isIdentifier_fresh {base : Bytes} (word : isIdentifier base = true) (taken : List Bytes) :
    isIdentifier (fresh taken base) = true := by
  obtain same | ⟨n, same⟩ := fresh_cases taken base <;> rw [same]
  · exact word
  · refine isIdentifier_append (isIdentifier_append word (by decide)) fun b mem => ?_
    rw [Byte.isNamePart, Bytes.isDigit_of_mem_decimal mem, Bool.or_true]

end Script

namespace UnitName

/-! ## Unit names -/

/-- A numbered name ends in a digit. -/
theorem isDigit_getLast?_numbered {base : Bytes} {n : Nat} {b : UInt8}
    (last : (Script.numbered base n).getLast? = some b) : Byte.isDigit b = true := by
  rw [Script.numbered, getLast?_append_of_ne_nil _ (Bytes.decimal_ne_nil n)] at last
  exact Bytes.isDigit_of_mem_decimal (mem_of_getLast? last)

/-- No keyword or global of the script ends in a digit. -/
theorem numbered_not_word (base : Bytes) (n : Nat) :
    Script.numbered base n ∉ Script.keywords ++ Script.builtins := by
  have last : ∀ word ∈ Script.keywords ++ Script.builtins,
      ∃ b, word.getLast? = some b ∧ Byte.isDigit b = false := by
    decide +kernel
  intro mem
  obtain ⟨b, found, other⟩ := last _ mem
  rw [isDigit_getLast?_numbered found] at other
  exact absurd other (by decide)

/-- What units are named after is no keyword or global of the script. -/
theorem base_not_word (given : Bytes) : base given ∉ Script.keywords ++ Script.builtins := by
  have first : ∀ word ∈ Script.keywords ++ Script.builtins, word.head? ≠ some Byte.underscore := by
    decide +kernel
  rw [base]
  split
  · exact fun mem => first _ mem rfl
  · next free =>
    rw [Script.isKeyword, Script.isBuiltin] at free
    simpa using free

/-- **No unit is named like a keyword or a global of the script.** -/
theorem allocate_not_word (taken : List Bytes) (given : Bytes) :
    allocate taken given ∉ Script.keywords ++ Script.builtins := by
  rcases Script.fresh_cases taken (base given) with same | ⟨n, same⟩
  · rw [allocate, same]
    exact base_not_word given
  · rw [allocate, same]
    exact numbered_not_word _ n

theorem isBuiltin_allocate (taken : List Bytes) (given : Bytes) :
    Script.isBuiltin (allocate taken given) = false := by
  have free := allocate_not_word taken given
  rw [mem_append, not_or] at free
  simpa [Script.isBuiltin] using free.2

theorem isKeyword_allocate (taken : List Bytes) (given : Bytes) :
    Script.isKeyword (allocate taken given) = false := by
  have free := allocate_not_word taken given
  rw [mem_append, not_or] at free
  simpa [Script.isKeyword] using free.1

/-! ## What unit names are made of -/

/-- **A name of the script**: underscores, dollar signs, letters and decimal
digits in UTF-8, of which a digit is not the first. -/
def Legal (name : Bytes) : Prop :=
  Utf8.isValid name = true
    ∧ (∀ code ∈ Utf8.points name,
        code = 0x5f ∨ code = 0x24 ∨ isLetter code = true ∨ isDecimalDigit code = true)
    ∧ ∃ first rest, Utf8.points name = first :: rest ∧ isDecimalDigit first = false

/-- Code points of some text that can be parts of a name. -/
def Parts (codes : List Nat) : Prop :=
  ∀ code ∈ codes, isPart code = true ∧ ∃ bs, code ∈ Utf8.points bs

theorem parts_of_ascii {bs : Bytes} (ascii : ∀ b ∈ bs, b < 0x80 ∧ isPart b.toNat = true) :
    Parts (bs.map UInt8.toNat) := by
  intro code mem
  obtain ⟨b, inside, rfl⟩ := mem_map.1 mem
  refine ⟨(ascii b inside).2, bs, ?_⟩
  rw [Utf8.points_of_ascii fun b mem => (ascii b mem).1]
  exact mem

theorem ofPoints_of_ascii {bs : Bytes} (ascii : ∀ b ∈ bs, b < 0x80) :
    Utf8.ofPoints (bs.map UInt8.toNat) = bs := by
  rw [← Utf8.points_of_ascii ascii]
  exact Utf8.ofPoints_points (Utf8.isValid_of_ascii ascii)

theorem legal_ofPoints {first : Nat} {rest : List Nat} (parts : Parts (first :: rest))
    (start : isDecimalDigit first = false) : Legal (Utf8.ofPoints (first :: rest)) := by
  have runes := Utf8.runes_ofPoints fun code mem => (parts code mem).2
  have points : Utf8.points (Utf8.ofPoints (first :: rest)) = first :: rest := by
    rw [Utf8.points, runes, map_map]
    exact map_id _
  refine ⟨?_, ?_, first, rest, points, start⟩
  · rw [Utf8.isValid, runes]
    simp
  · intro code mem
    have part := (parts code (points ▸ mem)).1
    simpa [isPart, or_assoc] using part

theorem mem_intercalate {sep c : Nat} {runs : List (List Nat)} (mem : c ∈ [sep].intercalate runs) :
    c = sep ∨ ∃ run ∈ runs, c ∈ run := by
  induction runs with
  | nil => cases mem
  | cons run runs ih =>
    cases runs with
    | nil => exact .inr ⟨run, mem_cons_self, by simpa [List.intercalate] using mem⟩
    | cons next runs =>
      simp only [List.intercalate, List.intersperse, flatten_cons, mem_append] at mem ih
      rcases mem with first | under | later
      · exact .inr ⟨run, mem_cons_self, first⟩
      · exact .inl (mem_singleton.1 under)
      · exact (ih later).imp_right fun ⟨run, inside, here⟩ => ⟨run, mem_cons_of_mem _ inside, here⟩

/-- What a name keeps of a text. -/
theorem parts_runs (name : Bytes) : Parts ([0x5f].intercalate (runs (Utf8.points name))) := by
  intro code mem
  rcases mem_intercalate mem with rfl | ⟨run, inside, here⟩
  · exact ⟨by decide, "_", by rw [Utf8.points_of_ascii (by decide)]; decide⟩
  · obtain ⟨piece, parts⟩ := mem_filter.1 inside
    refine ⟨all_eq_true.1 parts code here, name, ?_⟩
    rw [← flatten_splitBy (fun a b => isPart a == isPart b) (Utf8.points name)]
    exact mem_flatten.2 ⟨run, piece, here⟩

theorem parts_underscore : Parts [0x5f] :=
  parts_of_ascii (forall_mem_singleton.2 (by decide : Byte.underscore < 0x80 ∧ _))

/-- A name made fit has a first part, which is no digit. -/
theorem sanitize_spec (given : Bytes) :
    ∃ first rest, sanitize given = Utf8.ofPoints (first :: rest) ∧ Parts (first :: rest)
      ∧ isDecimalDigit first = false := by
  have parts := parts_runs given
  unfold sanitize
  cases codes : [0x5f].intercalate (runs (Utf8.points given)) with
  | nil => exact ⟨0x5f, [], rfl, parts_underscore, by decide⟩
  | cons c cs =>
    rw [codes] at parts
    dsimp only
    split
    · exact ⟨0x5f, c :: cs, rfl, forall_mem_cons.2 ⟨parts_underscore _ mem_cons_self, parts⟩, by decide⟩
    · next start => exact ⟨c, cs, rfl, parts, eq_false_of_ne_true start⟩

/-- **A unit's name is a name of the script**, whatever it is named after. -/
theorem legal_allocate (taken : List Bytes) (given : Bytes) : Legal (allocate taken given) := by
  obtain ⟨first, rest, same, parts, start⟩ :
      ∃ first rest, base given = Utf8.ofPoints (first :: rest) ∧ Parts (first :: rest)
        ∧ isDecimalDigit first = false := by
    obtain ⟨first, rest, same, parts, start⟩ := sanitize_spec given
    unfold base
    dsimp only
    rw [same]
    split
    · exact ⟨0x5f, first :: rest, rfl,
        forall_mem_cons.2 ⟨parts_underscore _ mem_cons_self, parts⟩, by decide⟩
    · exact ⟨first, rest, rfl, parts, start⟩
  rcases Script.fresh_cases taken (base given) with plain | ⟨n, numbered⟩
  · rw [allocate, plain, same]
    exact legal_ofPoints parts start
  · have ascii : ∀ b ∈ Byte.underscore :: Bytes.decimal n, b < 0x80 ∧ isPart b.toNat = true := by
      refine forall_mem_cons.2 ⟨by decide, fun b mem => ?_⟩
      have digit := Bytes.isDigit_of_mem_decimal mem
      rw [Byte.isDigit, Bool.and_eq_true, decide_eq_true_eq, decide_eq_true_eq,
        UInt8.le_iff_toNat_le, UInt8.le_iff_toNat_le] at digit
      have range : 0x30 ≤ b.toNat ∧ b.toNat ≤ 0x39 := digit
      refine ⟨UInt8.lt_iff_toNat_lt.2 (by simpa using by omega), ?_⟩
      simp [isPart, isDecimalDigit, show b.toNat < 128 by omega, range.1, range.2]
    have text : Script.numbered (base given) n
        = Utf8.ofPoints (first :: (rest ++ (Byte.underscore :: Bytes.decimal n).map UInt8.toNat)) := by
      have digits := ofPoints_of_ascii fun b mem => (ascii b mem).1
      rw [Utf8.ofPoints] at digits
      rw [Script.numbered, same, ← cons_append, Utf8.ofPoints, Utf8.ofPoints,
        flatMap_append, digits, append_assoc]
      rfl
    rw [allocate, numbered, text]
    refine legal_ofPoints (fun code mem => ?_) start
    rw [← cons_append] at mem
    rcases mem_append.1 mem with old | new
    · exact parts code old
    · exact parts_of_ascii ascii code new

end UnitName

end TemplateCompiler
