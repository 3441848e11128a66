import TemplateCompiler.Proofs.Script.Names
import TemplateCompiler.Proofs.Template.Sourcing
import TemplateCompiler.Template.Assign

/-!
# Heads of assign tags

The heads of assign tags are cut out of a text, and the head of a set tag is put
in the place of each (`Template.Cuts`). The blanks of a head go with it, and
line ends among them: a place behind is then on an earlier line than in the
text itself, by as many lines as were lost before it
(`Template.assignToSet_lines`).
-/

open List

namespace TemplateCompiler

namespace Template

/-- The head of an assign tag: its opening with a minus sign or without, blanks
and the word. -/
def assignHead (minus : Bool) (blanks : Bytes) : Bytes :=
  [Byte.openBrace, Byte.percent] ++ (if minus then [Byte.minus] else []) ++ blanks ++ "assign"

/-- The text starts with the head of an assign tag, and its word ends there. -/
structure Heads (minus : Bool) (blanks rest text : Bytes) : Prop where
  blank : ∀ b ∈ blanks, isTagBlank b = true
  ends : endsWord rest = true
  text_eq : text = assignHead minus blanks ++ rest

/-- A byte of a text, or the head of an assign tag in it. -/
inductive Cut where
  | byte (b : UInt8)
  | head (minus : Bool) (blanks : Bytes)

namespace Cut

def source : Cut → Bytes
  | byte b => [b]
  | head minus blanks => assignHead minus blanks

/-- What stands there when assign tags are set tags. -/
def target : Cut → Bytes
  | byte b => [b]
  | head minus _ => setHead minus

/-- The line ends that go with the blanks of a head. -/
def lost : Cut → Nat
  | byte _ => 0
  | head _ blanks => blanks.count Byte.newline

end Cut

/-- **The heads of assign tags in a text**, and the bytes between them. -/
inductive Cuts : Bytes → List Cut → Prop
  | nil : Cuts [] []
  | byte {b text cs} (none : ∀ minus blanks rest, ¬ Heads minus blanks rest (b :: text))
    (rest : Cuts text cs) : Cuts (b :: text) (.byte b :: cs)
  | head {minus blanks rest text cs} (here : Heads minus blanks rest text) (rest : Cuts rest cs) :
    Cuts text (.head minus blanks :: cs)

/-! ## The rewriting -/

theorem afterAssign?_eq_some {bs rest : Bytes} : afterAssign? bs = some rest
    ↔ ∃ blanks, (∀ b ∈ blanks, isTagBlank b = true) ∧ bs = blanks ++ ("assign" ++ rest)
      ∧ endsWord rest = true := by
  constructor
  · intro h
    unfold afterAssign? at h
    split at h
    · next found =>
      obtain ⟨ends, same⟩ := Option.ite_none_right_eq_some.1 h
      cases same
      refine ⟨bs.takeWhile isTagBlank, fun b => mem_takeWhile_imp, ?_, ends⟩
      rw [Bytes.append_of_dropPrefix? found, takeWhile_append_dropWhile]
    · cases h
  · rintro ⟨blanks, blank, rfl, ends⟩
    have word : (blanks ++ (("assign" : Bytes) ++ rest)).dropWhile isTagBlank = "assign" ++ rest := by
      rw [dropWhile_append_of_pos blank]
      rfl
    simp only [afterAssign?, word, Script.dropPrefix?_append, ends, if_true]

theorem assignTag?_eq_some {minus : Bool} {rest text : Bytes} :
    assignTag? text = some (minus, rest) ↔ ∃ blanks, Heads minus blanks rest text := by
  constructor
  · intro h
    unfold assignTag? at h
    split at h
    · obtain ⟨_, found, same⟩ := Option.map_eq_some_iff.1 h
      cases same
      obtain ⟨blanks, blank, rfl, ends⟩ := afterAssign?_eq_some.1 found
      exact ⟨blanks, blank, ends, by simp [assignHead]⟩
    · obtain ⟨_, found, same⟩ := Option.map_eq_some_iff.1 h
      cases same
      obtain ⟨blanks, blank, rfl, ends⟩ := afterAssign?_eq_some.1 found
      exact ⟨blanks, blank, ends, by simp [assignHead]⟩
    · cases h
  · rintro ⟨blanks, blank, ends, rfl⟩
    have found := afterAssign?_eq_some.2 ⟨blanks, blank, rfl, ends⟩
    have opened : assignHead minus blanks ++ rest = Byte.openBrace :: Byte.percent ::
        ((if minus then [Byte.minus] else []) ++ (blanks ++ ("assign" ++ rest))) := by
      simp [assignHead]
    rw [opened]
    cases minus with
    | true => exact congrArg (Option.map (true, ·)) found
    | false =>
      rw [if_neg Bool.false_ne_true, nil_append]
      unfold assignTag?
      split
      · next bs same =>
        -- Without a minus sign, a blank or the word comes next.
        cases blanks with
        | nil => cases same
        | cons b blanks =>
          injection same with _ same
          injection same with _ same
          injection same with same _
          exact absurd (same ▸ blank b mem_cons_self) (by decide)
      · next same =>
        cases same
        rw [found, Option.map_some]
      · next none => exact absurd rfl (none _)

theorem exists_cuts (s : Bytes) : ∃ cs, Cuts s cs := by
  fun_induction assignToSet s with
  | case1 => exact ⟨[], .nil⟩
  | case2 b rest minus after found _ ih =>
    obtain ⟨cs, cut⟩ := ih
    obtain ⟨blanks, here⟩ := assignTag?_eq_some.1 found
    exact ⟨_, .head here cut⟩
  | case3 b rest none ih =>
    obtain ⟨cs, cut⟩ := ih
    refine ⟨_, .byte (fun minus blanks after here => ?_) cut⟩
    rw [assignTag?_eq_some.2 ⟨blanks, here⟩] at none
    cases none

namespace Cuts

variable {s : Bytes} {cs : List Cut}

theorem source_eq (cut : Cuts s cs) : cs.flatMap Cut.source = s := by
  induction cut with
  | nil => rfl
  | byte _ _ ih => rw [flatMap_cons, ih]; rfl
  | head here _ ih => rw [flatMap_cons, ih, here.text_eq]; rfl

theorem target_eq (cut : Cuts s cs) : cs.flatMap Cut.target = assignToSet s := by
  induction cut with
  | nil => rw [assignToSet]; rfl
  | @byte b text cs none _ ih =>
    rw [assignToSet]
    split
    · next found =>
      obtain ⟨blanks, here⟩ := assignTag?_eq_some.1 found
      exact absurd here (none _ _ _)
    · rw [flatMap_cons, ih]; rfl
  | @head minus blanks rest text cs here _ ih =>
    have found := assignTag?_eq_some.2 ⟨blanks, here⟩
    obtain ⟨b, more, rfl⟩ : ∃ b more, text = b :: more := ⟨_, _, here.text_eq⟩
    rw [assignToSet]
    split
    · next found' =>
      cases found.symm.trans found'
      rw [flatMap_cons, ih]; rfl
    · next none => cases found.symm.trans none

end Cuts

/-! ## Lines -/

theorem line_after (p : Position) (bs : Bytes) :
    (p.after bs).line = p.line + bs.count Byte.newline := by
  induction bs generalizing p with
  | nil => rfl
  | cons b bs ih =>
    show ((p.step b).after bs).line = _
    rw [ih, count_cons, Position.step]
    split <;> dsimp only <;> omega

namespace Cut

theorem count_source (c : Cut) :
    c.source.count Byte.newline = c.target.count Byte.newline + c.lost := by
  cases c with
  | byte b => rfl
  | head minus blanks =>
    have word : ("assign" : Bytes).count Byte.newline = 0 := by decide
    have opening : ([Byte.openBrace, Byte.percent] ++ if minus then [Byte.minus] else []).count
        Byte.newline = 0 := by cases minus <;> decide
    have bare : (setHead minus).count Byte.newline = 0 := by cases minus <;> decide
    rw [source, assignHead, count_append, count_append, opening, word, target, bare, lost]
    omega

/-- A place behind some cuts is as many lines further down in the text itself
as were lost in them. -/
theorem line_source (before : List Cut) : (Position.start.after (before.flatMap source)).line
    = (Position.start.after (before.flatMap target)).line + (before.map lost).sum := by
  rw [line_after, line_after]
  induction before with
  | nil => rfl
  | cons c before ih =>
    simp only [flatMap_cons, count_append, count_source, map_cons, sum_cons]
    omega

/-- A place in the rewritten text: behind some cuts, and maybe further on the
same line, in the head that follows. -/
theorem prefix_target {cs : List Cut} {u v : Bytes} (split : u ++ v = cs.flatMap target) :
    ∃ before after part, cs = before ++ after ∧ part <+: after.flatMap target
      ∧ Byte.newline ∉ part ∧ u = before.flatMap target ++ part := by
  induction cs generalizing u with
  | nil =>
    obtain ⟨rfl, rfl⟩ := append_eq_nil_iff.1 split
    exact ⟨[], [], [], rfl, prefix_rfl, not_mem_nil, rfl⟩
  | cons c cs ih =>
    rw [flatMap_cons, append_eq_append_iff] at split
    obtain ⟨as, same, rest⟩ | ⟨more, rfl, rest⟩ := split
    · cases c with
      | head minus blanks =>
        refine ⟨[], _, u, rfl, ⟨v, ?_⟩, fun mem => ?_, rfl⟩
        · rw [flatMap_cons, same, append_assoc, ← rest]
        · have bare : Byte.newline ∉ setHead minus := by cases minus <;> decide
          have whole : setHead minus = u ++ as := same
          exact bare (whole ▸ mem_append_left as mem)
      | byte b =>
        obtain ⟨rfl, -⟩ | ⟨rfl, rfl⟩ := append_eq_singleton_iff.1 same.symm
        · exact ⟨[], _, [], rfl, nil_prefix, not_mem_nil, rfl⟩
        · exact ⟨[.byte b], cs, [], rfl, nil_prefix, not_mem_nil, rfl⟩
    · obtain ⟨before, after, part, rfl, front, bare, rfl⟩ := ih rest.symm
      exact ⟨c :: before, after, part, rfl, front, bare, by rw [flatMap_cons, append_assoc]⟩

/-- The position stands in the rewritten text behind some cuts or in the head
that follows, and the text itself has that place further down by the lines
lost before it. -/
def Shifts (cs : List Cut) (p : Position) : Prop :=
  ∃ before after part, cs = before ++ after ∧ part <+: after.flatMap target
    ∧ p = Position.start.after (before.flatMap target ++ part)
    ∧ (Position.start.after (before.flatMap source)).line = p.line + (before.map lost).sum

theorem shifts_of_stands {cs : List Cut} {p : Position} (here : Stands (cs.flatMap target) [] p) :
    Shifts cs p := by
  obtain ⟨u, v, split, rfl⟩ := here
  obtain ⟨before, after, part, same, front, bare, rfl⟩ := prefix_target split
  refine ⟨before, after, part, same, front, rfl, ?_⟩
  rw [line_source, Position.after_append, line_after _ part, count_eq_zero.2 bare, Nat.add_zero]

end Cut

/-- **Lines move up by the line ends in heads of assign tags.** Behind any of
the cuts, and so at every byte outside the heads, the line is the same in both
texts exactly if no head before it has a line end among its blanks. The tree of
the rewritten text and its syntax errors have their positions at such places. -/
theorem assignToSet_lines (s : Bytes) : (∃ cs, Cuts s cs) ∧ ∀ cs, Cuts s cs →
    cs.flatMap Cut.source = s ∧ cs.flatMap Cut.target = assignToSet s
      ∧ (∀ before after, cs = before ++ after →
        (Position.start.after (before.flatMap Cut.source)).line
            = (Position.start.after (before.flatMap Cut.target)).line + (before.map Cut.lost).sum
          ∧ ((Position.start.after (before.flatMap Cut.target)).line
              = (Position.start.after (before.flatMap Cut.source)).line
            ↔ ∀ c ∈ before, c.lost = 0))
      ∧ (∀ p, Stands (assignToSet s) [] p → Cut.Shifts cs p)
      ∧ Tells (Stands (assignToSet s) []) (·.Sourced (Stands (assignToSet s) []))
        (parse (assignToSet s)) := by
  refine ⟨exists_cuts s, fun cs cut => ⟨cut.source_eq, cut.target_eq, fun before after _ => ?_,
    fun p here => ?_, parse_tells _⟩⟩
  · have lines := Cut.line_source before
    refine ⟨lines, ?_⟩
    rw [lines, Nat.left_eq_add, List.sum_eq_zero_iff_forall_eq_nat, forall_mem_map]
  · rw [← cut.target_eq] at here
    exact Cut.shifts_of_stands here

/-- A line end between the opening of a tag and its word is lost. -/
theorem assignToSet_loses_line : assignToSet "\x7b%\nassign x = 1 %\x7d\n" = "\x7b% set x = 1 %\x7d\n"
    ∧ (Position.start.after "\x7b%\nassign x = 1 %\x7d\n").line = 3
    ∧ (Position.start.after "\x7b% set x = 1 %\x7d\n").line = 2 := by
  refine ⟨by cbv, by decide, by decide⟩

end Template

end TemplateCompiler
