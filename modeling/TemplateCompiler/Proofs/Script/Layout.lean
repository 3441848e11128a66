import TemplateCompiler.Proofs.Code.Names
import TemplateCompiler.Proofs.Script.Marks
import TemplateCompiler.Proofs.Text.Runes

/-!
# Where code stands in what is printed

`Code.printed` lists the pieces of code that are printed, in the order in which
their texts start: an expression before its operands, a function before its
parameters, statements and body. In the document that printing gives, each of
them has its own text, behind its own mark (`Doc.Layout`); and the marks are
those of the located pieces, in the same order.

A place is counted piece of text by piece of text. That gives the place of the
whole text in front, because no two neighbouring pieces share a code point
(`Doc.Neat`).
-/

open List

namespace TemplateCompiler

variable {lists : List (List Code)} {ds : List Doc} {parts : List Code} {bs : Bytes} {front : Doc}

namespace Doc

variable {d e : Doc}

/-! ## Places -/

/-- The place behind a document that starts at `p`. -/
def pass (p : Place) (d : Doc) : Place :=
  d.foldl (fun p item => match item with | .text bs => p.after bs | .mark _ => p) p

theorem pass_append (p : Place) (d e : Doc) : pass p (d ++ e) = pass (pass p d) e :=
  foldl_append

@[simp] theorem pass_mark (p : Place) (loc : Option Location) : pass p (mark loc) = p := by
  cases loc <;> rfl

theorem marksFrom_append (p : Place) (d e : Doc) :
    marksFrom p (d ++ e) = marksFrom p d ++ marksFrom (pass p d) e := by
  induction d generalizing p with
  | nil => rfl
  | cons item d ih =>
    cases item with
    | text bs => exact ih (p.after bs)
    | mark loc => exact congrArg (List.cons _) (ih p)

theorem marksFrom_mark (p : Place) (loc : Option Location) :
    marksFrom p (mark loc) = loc.toList.map fun l => (p, l) := by
  cases loc <;> rfl

/-- The texts of a document, without the empty ones. -/
def pieces (d : Doc) : List Bytes :=
  d.filterMap fun
    | .text bs => if bs.isEmpty then none else some bs
    | .mark _ => none

@[simp] theorem pieces_append (d e : Doc) : pieces (d ++ e) = d.pieces ++ e.pieces :=
  filterMap_append

@[simp] theorem pieces_mark (loc : Option Location) : pieces (mark loc) = [] := by
  cases loc <;> rfl

/-- Whether two texts side by side share no code point: nothing runs into the
first one, or the second one has a start of its own. -/
def Apart (a b : Bytes) : Prop := Utf8.Closed a ∨ Utf8.starts b = true

/-- **A document whose neighbouring texts share no code point.** -/
def Neat (d : Doc) : Prop := d.pieces.IsChain Apart

/-- Texts that share no code point are stepped through one by one. -/
theorem runes_flatten {texts : List Bytes} (apart : texts.IsChain Apart) (filled : [] ∉ texts) :
    Utf8.runes texts.flatten = texts.flatMap Utf8.runes := by
  induction texts with
  | nil => rw [flatten_nil, Utf8.runes]; rfl
  | cons a texts ih =>
    have rest := ih apart.tail (not_mem_of_not_mem_cons filled)
    rw [flatten_cons, flatMap_cons, ← rest]
    cases texts with
    | nil => simp [Utf8.runes]
    | cons b texts =>
      rcases (isChain_cons_cons.1 apart).1 with closed | starts
      · exact closed _
      · refine Utf8.runes_append_of_start ?_ a
        cases b with
        | nil => cases starts
        | cons c b => exact starts

theorem flatten_pieces (d : Doc) : d.pieces.flatten = d.text := by
  induction d with
  | nil => rfl
  | cons item d ih =>
    cases item with
    | mark loc => exact ih
    | text bs =>
      rw [text, flatMap_cons, ← text, ← ih]
      cases bs <;> rfl

theorem nil_not_mem_pieces (d : Doc) : [] ∉ d.pieces := by
  intro mem
  obtain ⟨item, -, some⟩ := mem_filterMap.1 mem
  cases item with
  | mark => cases some
  | text bs => cases bs <;> cases some

theorem pass_eq_foldl (p : Place) (d : Doc) :
    pass p d = (d.pieces.flatMap Utf8.runes).foldl Place.step p := by
  induction d generalizing p with
  | nil => rfl
  | cons item d ih =>
    cases item with
    | mark loc => exact ih p
    | text bs =>
      refine (ih (p.after bs)).trans ?_
      cases bs with
      | nil =>
        have none : p.after [] = p := by rw [Place.after, Utf8.runes]; rfl
        rw [none]
        rfl
      | cons b bs =>
        show _ = ((b :: bs) :: pieces d |>.flatMap Utf8.runes).foldl _ _
        rw [flatMap_cons, foldl_append]
        rfl

/-- **The place behind a neat document** is that behind its whole text. -/
theorem Neat.pass (neat : d.Neat) (p : Place) : d.pass p = p.after d.text := by
  rw [pass_eq_foldl, ← runes_flatten neat d.nil_not_mem_pieces, flatten_pieces]
  rfl

theorem Neat.left (neat : (d ++ e).Neat) : d.Neat := by
  rw [Neat, pieces_append] at neat
  exact neat.left_of_append

theorem neat_ofText (bs : Bytes) : (ofText bs).Neat := by
  cases bs with
  | nil => exact isChain_nil
  | cons b bs => exact isChain_singleton _

/-- More text that has a start of its own. -/
theorem Neat.text (neat : d.Neat) (starts : Utf8.starts bs = true) :
    (d ++ ofText bs).Neat := by
  rw [Neat, pieces_append]
  refine isChain_append.2 ⟨neat, neat_ofText bs, fun a _ b last => .inr ?_⟩
  cases bs with
  | nil => cases starts
  | cons c bs =>
    cases Option.some.inj last
    exact starts

/-- A document behind a text that nothing runs into. -/
theorem Neat.after (neat : (d ++ ofText bs).Neat) (filled : bs ≠ []) (closed : Utf8.Closed bs)
    (rest : e.Neat) : (d ++ ofText bs ++ e).Neat := by
  rw [Neat, pieces_append]
  refine isChain_append.2 ⟨neat, rest, fun a last b _ => .inl ?_⟩
  cases bs with
  | nil => exact absurd rfl filled
  | cons c bs =>
    have piece : pieces (ofText (c :: bs)) = [c :: bs] := rfl
    rw [pieces_append, piece, getLast?_append, getLast?_singleton] at last
    cases Option.some.inj last
    exact closed

end Doc

/-! ## What is printed -/

namespace Code

mutual

/-- The pieces of code that are printed with a piece of code, in the order in
which their texts start. A function expression with a body has no block. -/
def printed (c : Code) : List Code :=
  match c with
  | .missing => []
  | .literal .. | .identifier .. | .importRef .. => [c]
  | .member _ o p _ => c :: (o.printed ++ p.printed)
  | .call _ f args => c :: (f.printed ++ printedAll args)
  | .unary _ _ a => c :: a.printed
  | .binary _ _ l r | .logical _ _ l r | .assign _ l r => c :: (l.printed ++ r.printed)
  | .conditional _ t a b => c :: (t.printed ++ a.printed ++ b.printed)
  | .array _ es | .sequence _ es | .interpolation _ _ _ es => c :: printedAll es
  | .object _ props => c :: printedProps props
  | .lambda _ params body block =>
    c :: (printedAll params ++ (if body.isMissing then printedAll block else body.printed))
  | .destructure d => c :: d.names.map .identifier
  | .function ⟨_, _, _, params, _, statements, body, _⟩ =>
    c :: (printedAll params ++ printedAll statements ++ body.printed)

/-- `printed` of each piece in turn. -/
def printedAll : List Code → List Code
  | [] => []
  | c :: cs => c.printed ++ printedAll cs

/-- `printed` of the values of an object. -/
def printedProps : List (Bytes × Code) → List Code
  | [] => []
  | (_, c) :: props => c.printed ++ printedProps props

end

theorem printedAll_eq (cs : List Code) : printedAll cs = (cs.map printed).flatten := by
  induction cs with
  | nil => rfl
  | cons c cs ih => rw [printedAll, ih]; rfl

theorem printedProps_eq (props : List (Bytes × Code)) :
    printedProps props = (props.map fun p => p.2.printed).flatten := by
  induction props with
  | nil => rfl
  | cons p props ih => rw [printedProps, ih]; rfl

/-- **The text of a piece of code by itself**, with its own mark in front of it
and no parentheses around it. -/
def ownDoc (indent : Bytes) (exported : Bool) (c : Code) : Except PrintError Doc :=
  match c with
  | .function u => CodeUnit.doc indent exported u
  | .importRef r => .ok r.doc
  | .destructure _ => c.paramDoc
  | _ => c.doc 0

/-- **A piece of code is printed as a document**; functions may be exported. -/
def PrintsAs (indent : Bytes) (c : Code) (d : Doc) : Prop :=
  ∃ exported, c.ownDoc indent exported = .ok d

/-- Whether the operator of a unary operation is UTF-8. One that is not may end
inside a code point, and its operand may go on with it. -/
def operatorValid : Code → Bool
  | .unary _ op _ => Utf8.isValid op
  | _ => true

end Code

namespace Doc

/-- **Where pieces of code stand in a document**: each with the document in
front of it. The text of each piece follows there, and the marks of the
document are those of the located pieces, at their places. -/
structure Layout (indent : Bytes) (d : Doc) (placed : List (Doc × Code)) : Prop where
  stands : ∀ x ∈ placed, ∃ own rest, x.2.PrintsAs indent own ∧ d = x.1 ++ own ++ rest
  marks : ∀ p, d.marksFrom p = placed.filterMap fun x => x.2.loc.map fun loc => (x.1.pass p, loc)
  inOrder : placed.Pairwise fun x y => x.1 <+: y.1

namespace Layout

variable {indent : Bytes} {d e : Doc} {placed placed' : List (Doc × Code)} {c : Code}

theorem nil (indent : Bytes) (bs : Bytes) : Layout indent (ofText bs) [] :=
  ⟨forall_mem_nil _, fun _ => rfl, .nil⟩

theorem append (first : Layout indent d placed) (second : Layout indent e placed') :
    Layout indent (d ++ e) (placed ++ placed'.map fun x => (d ++ x.1, x.2)) := by
  refine ⟨forall_mem_append.2 ⟨fun x mem => ?_, fun x mem => ?_⟩, fun p => ?_, ?_⟩
  · obtain ⟨own, rest, prints, rfl⟩ := first.stands x mem
    exact ⟨own, rest ++ e, prints, by rw [append_assoc _ rest]⟩
  · obtain ⟨y, mem', rfl⟩ := mem_map.1 mem
    obtain ⟨own, rest, prints, rfl⟩ := second.stands y mem'
    exact ⟨own, rest, prints, by simp only [append_assoc]⟩
  · rw [marksFrom_append, first.marks p, second.marks, filterMap_append, filterMap_map]
    simp only [Function.comp_def, pass_append]
  · refine pairwise_append.2 ⟨first.inOrder, ?_, fun x mem y mem' => ?_⟩
    · refine pairwise_map.2 (second.inOrder.imp fun {x y} h => ?_)
      exact (prefix_append_right_inj d).2 h
    · obtain ⟨z, -, rfl⟩ := mem_map.1 mem'
      obtain ⟨own, rest, -, rfl⟩ := first.stands x mem
      simp only [append_assoc]
      exact prefix_append _ _

/-- A piece of code around others. -/
theorem node (prints : c.PrintsAs indent (mark c.loc ++ d)) (inner : Layout indent d placed) :
    Layout indent (mark c.loc ++ d) (([], c) :: placed.map fun x => (mark c.loc ++ x.1, x.2)) := by
  refine ⟨forall_mem_cons.2 ⟨⟨_, [], prints, by simp⟩, fun x mem => ?_⟩, fun p => ?_, ?_⟩
  · obtain ⟨y, mem', rfl⟩ := mem_map.1 mem
    obtain ⟨own, rest, prints', rfl⟩ := inner.stands y mem'
    exact ⟨own, rest, prints', by simp only [append_assoc]⟩
  · rw [marksFrom_append, marksFrom_mark, pass_mark, inner.marks p, filterMap_cons,
      filterMap_map]
    simp only [Function.comp_def, pass_append, pass_mark]
    cases c.loc <;> rfl
  · refine pairwise_cons.2 ⟨fun x _ => nil_prefix, ?_⟩
    refine pairwise_map.2 (inner.inOrder.imp fun {x y} h => ?_)
    exact (prefix_append_right_inj _).2 h

end Layout

/-- **A neat document in which pieces of code stand.** -/
def Lays (indent : Bytes) (d : Doc) (parts : List Code) : Prop :=
  d.Neat ∧ ∃ placed, placed.map Prod.snd = parts ∧ Layout indent d placed

namespace Lays

variable {indent bs : Bytes} {d e : Doc} {parts parts' : List Code} {c : Code}

theorem ofText (indent bs : Bytes) : Lays indent (ofText bs) [] :=
  ⟨neat_ofText bs, [], rfl, .nil indent bs⟩

theorem join_placed (first : Lays indent d parts) (second : Lays indent e parts')
    (neat : (d ++ e).Neat) : Lays indent (d ++ e) (parts ++ parts') := by
  obtain ⟨-, placed, rfl, layout⟩ := first
  obtain ⟨-, placed', rfl, layout'⟩ := second
  refine ⟨neat, _, ?_, layout.append layout'⟩
  rw [map_append, map_map]
  rfl

/-- More text that has a start of its own. -/
theorem text (lays : Lays indent d parts) (starts : Utf8.starts bs = true) :
    Lays indent (d ++ Doc.ofText bs) parts := by
  have both := lays.join_placed (ofText indent bs) (lays.1.text starts)
  rwa [append_nil] at both

/-- A document behind a text that nothing runs into. -/
theorem after (lays : Lays indent (d ++ Doc.ofText bs) parts) (filled : bs ≠ [])
    (closed : Utf8.Closed bs) (rest : Lays indent e parts') :
    Lays indent (d ++ Doc.ofText bs ++ e) (parts ++ parts') :=
  lays.join_placed rest (lays.1.after filled closed rest.1)

/-- Two documents with a text between them that shares no code point with
either. -/
theorem across (lays : Lays indent d parts) (starts : Utf8.starts bs = true)
    (closed : Utf8.Closed bs) (rest : Lays indent e parts') :
    Lays indent (d ++ Doc.ofText bs ++ e) (parts ++ parts') := by
  refine (lays.text starts).after ?_ closed rest
  rintro rfl
  cases starts

/-- Two documents with a seam between them. -/
theorem between (lays : Lays indent d parts) (seam : Utf8.isSeam bs = true)
    (rest : Lays indent e parts') : Lays indent (d ++ Doc.ofText bs ++ e) (parts ++ parts') :=
  lays.across (Utf8.isSeam.starts seam) (Utf8.isSeam.closed seam) rest

/-- A document behind a first text that nothing runs into. -/
theorem behind (closed : Utf8.Closed bs) (rest : Lays indent e parts) :
    Lays indent (Doc.ofText bs ++ e) parts := by
  cases bs with
  | nil => exact (ofText indent []).join_placed rest rest.1
  | cons b bs => exact after (d := []) (ofText indent _) (cons_ne_nil b bs) closed rest

/-- A document behind a seam. -/
theorem behindSeam (seam : Utf8.isSeam bs = true) (rest : Lays indent e parts) :
    Lays indent (Doc.ofText bs ++ e) parts :=
  rest.behind (Utf8.isSeam.closed seam)

theorem nil (indent : Bytes) : Lays indent [] [] :=
  ⟨isChain_nil, [], rfl, forall_mem_nil _, fun _ => rfl, .nil⟩

/-- Documents with a seam between neighbours. -/
theorem join (seam : Utf8.isSeam bs = true)
    (each : List.Forall₂ (Lays indent) ds lists) : Lays indent (Doc.join bs ds) lists.flatten := by
  induction each with
  | nil => exact nil indent
  | @cons d parts ds lists first rest ih =>
    cases rest with
    | nil =>
      rw [flatten_singleton]
      exact first
    | cons second rest => exact first.between seam ih

/-- A piece of code around others. -/
theorem node (prints : c.PrintsAs indent (mark c.loc ++ d)) (inner : Lays indent d parts) :
    Lays indent (mark c.loc ++ d) (c :: parts) := by
  obtain ⟨neat, placed, rfl, layout⟩ := inner
  refine ⟨?_, _, ?_, layout.node prints⟩
  · rwa [Neat, pieces_append, pieces_mark, nil_append]
  · rw [map_cons, map_map]
    rfl

end Lays

end Doc

namespace Code

variable {c : Code} {least : Precedence}

open Doc (Lays)

variable {indent : Bytes} {d : Doc}

/-! ## Parameters -/

theorem mark_own (c : Code) (inner : Doc) : enclosed 0 c inner = Doc.mark c.loc ++ inner :=
  if_neg (Nat.not_lt_zero _)

/-- A piece of code with its parentheses. -/
theorem lays_enclosed {inner : Doc} (expression : c.ownDoc indent false = c.doc 0)
    (own : c.doc 0 = .ok (enclosed 0 c inner)) (lays : Lays indent inner parts) :
    Lays indent (enclosed least c inner) (c :: parts) := by
  have prints := expression.trans (own.trans (congrArg Except.ok (mark_own c inner)))
  have marked := lays.node ⟨false, prints⟩
  unfold enclosed
  split
  · have opened : Lays indent (Doc.ofText "(" ++ (Doc.mark c.loc ++ inner)) (c :: parts) :=
      marked.behindSeam rfl
    rw [append_assoc (Doc.ofText "(")]
    exact opened.text rfl
  · exact marked

theorem lays_name (indent : Bytes) (id : Identifier) :
    Lays indent (Doc.mark id.loc ++ Doc.ofText id.name) [.identifier id] := by
  refine Lays.node (c := .identifier id) ⟨false, ?_⟩ (.ofText indent id.name)
  exact congrArg Except.ok (mark_own _ _)

theorem lays_binding (indent key : Bytes) (id : Identifier) :
    Lays indent (bindingDoc key id) [.identifier id] := by
  have own := lays_name indent id
  unfold bindingDoc
  split
  · exact own
  · rw [append_assoc]
    have ends : (key ++ Bytes.ofString ": ").getLast? = some Byte.space := by
      rw [getLast?_append]
      rfl
    refine own.behind (Utf8.closed_of_endsAscii ?_)
    rw [Utf8.endsAscii, ends]
    rfl

theorem lays_bindings (indent : Bytes) (d : Destructure) :
    Lays indent (Doc.join ", " (d.bindings.map fun b => bindingDoc b.1 b.2))
      (d.names.map .identifier) := by
  have each : List.Forall₂ (Lays indent) (d.bindings.map fun b => bindingDoc b.1 b.2)
      (d.bindings.map fun b => [Code.identifier b.2]) := by
    refine forall₂_map_left_iff.2 (forall₂_map_right_iff.2 (forall₂_same.2 ?_))
    exact fun b _ => lays_binding indent b.1 b.2
  have joined : Lays indent (Doc.join ", " (d.bindings.map fun b => bindingDoc b.1 b.2)) _ :=
    Lays.join rfl each
  rw [← flatMap_def, ← map_eq_flatMap] at joined
  rw [← d.names_bindings, map_map]
  exact joined

theorem paramDoc_lays (h : c.paramDoc = .ok d) : Lays indent d c.printed := by
  cases c with
  | identifier id =>
    cases h
    exact lays_name indent id
  | destructure pattern =>
    cases id h
    rw [append_assoc, append_assoc]
    refine Lays.node (c := .destructure pattern) ⟨false, ?_⟩ ?_
    · rw [← append_assoc, ← append_assoc]
      exact h
    · rw [← append_assoc]
      exact ((lays_bindings indent pattern).behindSeam rfl).text rfl
  | _ => cases h

theorem paramsDoc_lays {params : List Code} (h : paramsDoc params = .ok d) :
    Lays indent d (printedAll params) := by
  obtain ⟨ds, each, h⟩ := PrintError.bind_ok_iff.1 h
  cases h
  rw [printedAll_eq]
  refine Lays.join rfl (forall₂_map_right_iff.2 ?_)
  exact (PrintError.mapM_ok_iff.1 each).flip.imp fun d c read => paramDoc_lays read

/-! ## Expressions -/

theorem isSeam_spaced (op : Bytes) :
    Utf8.isSeam (Bytes.ofString " " ++ op ++ Bytes.ofString " ") = true := by
  have last : (Bytes.ofString " " ++ op ++ Bytes.ofString " ").getLast? = some Byte.space := by
    rw [getLast?_append]
    rfl
  rw [Utf8.isSeam, Utf8.endsAscii, last]
  rfl

/-- Runs of text and holes. Whatever stands in front ends with a seam. -/
theorem lays_interleave {runs : List Bytes} (count : runs.length = ds.length + 1)
    (each : List.Forall₂ (Lays indent) ds lists)
    (opened : ∀ bs, Lays indent (front ++ Doc.ofText bs) parts) :
    Lays indent (front ++ interleave runs ds ++ Doc.ofText [Byte.backquote])
      (parts ++ lists.flatten) := by
  induction each generalizing runs front parts with
  | nil =>
    obtain ⟨run, rfl⟩ := length_eq_one_iff.1 count
    have run : interleave [run] [] = Doc.ofText (Script.escapeRun run) := append_nil _
    rw [run, flatten_nil, append_nil]
    exact (opened _).text rfl
  | @cons d list ds lists first rest ih =>
    match runs, count with
    | run :: runs, count =>
      have hole : Lays indent (front ++ Doc.ofText (Script.escapeRun run) ++ Doc.ofText "$\x7b" ++ d)
          (parts ++ list) := (opened _).between rfl first
      have more : Lays indent (front ++ Doc.ofText (Script.escapeRun run) ++ Doc.ofText "$\x7b" ++ d
          ++ Doc.ofText "\x7d" ++ interleave runs ds ++ Doc.ofText [Byte.backquote])
          (parts ++ list ++ lists.flatten) := by
        refine ih (Nat.succ.inj count) fun bs => ?_
        have next : Lays indent (_ ++ Doc.ofText "\x7d" ++ Doc.ofText bs) _ :=
          hole.between rfl (.ofText indent bs)
        rwa [append_nil] at next
      simp only [interleave, flatten_cons, append_assoc] at more ⊢
      exact more

/-- Documents, each with a space behind it. -/
theorem lays_spaced (each : List.Forall₂ (Lays indent) ds lists) (seam : Utf8.isSeam bs = true)
    (lays : Lays indent (front ++ Doc.ofText bs) parts) :
    Lays indent (front ++ Doc.ofText bs ++ ds.flatMap (· ++ Doc.ofText " "))
      (parts ++ lists.flatten) := by
  induction each generalizing front bs parts with
  | nil => simpa using lays
  | @cons d list ds lists first rest ih =>
    have next : Lays indent (front ++ Doc.ofText bs ++ d ++ Doc.ofText " ") (parts ++ list) :=
      (lays.after (by rintro rfl; cases seam) (Utf8.isSeam.closed seam) first).text rfl
    have more := ih (show Utf8.isSeam " " = true from rfl) next
    simp only [flatMap_cons, flatten_cons, append_assoc] at more ⊢
    exact more

/-- Documents, each behind a text. -/
theorem lays_lines (each : List.Forall₂ (Lays indent) ds lists)
    (starts : Utf8.starts bs = true) (closed : Utf8.Closed bs) (lays : Lays indent front parts) :
    Lays indent (front ++ ds.flatMap (Doc.ofText bs ++ ·)) (parts ++ lists.flatten) := by
  induction each generalizing front parts with
  | nil => simpa using lays
  | @cons d list ds lists first rest ih =>
    have more := ih (lays.across starts closed first)
    simp only [flatMap_cons, flatten_cons, append_assoc] at more ⊢
    exact more

theorem lays_braced
    (each : List.Forall₂ (Lays indent) ds lists) : Lays indent (braced ds) lists.flatten := by
  cases each with
  | nil => exact .ofText indent _
  | cons first rest => exact (Lays.behindSeam rfl (.join rfl (.cons first rest))).text rfl

theorem lays_block
    (each : List.Forall₂ (Lays indent) ds lists) : Lays indent (blockDoc ds) lists.flatten := by
  cases each with
  | nil => exact .ofText indent _
  | @cons d list ds lists first rest =>
    have opened : Lays indent ([] ++ Doc.ofText "\x7b " ++ _) ([] ++ _) :=
      lays_spaced (.cons first rest) rfl (.ofText indent _)
    exact opened.text rfl

theorem mem_printed_of_slot {x : Code} {s : Precedence × Code} (slot : s ∈ c.slots)
    (mem : x ∈ s.2.printed) : x ∈ c.printed := by
  cases c with
  | member loc o p computed =>
    cases computed <;> simp only [slots, mem_cons] at slot <;> grind [printed]
  | lambda loc params body block =>
    rw [slots] at slot
    rw [printed]
    split at slot <;> grind [printedAll_eq]
  | object loc props => grind [slots, printed, printedProps_eq]
  | missing | literal | identifier | destructure | function | importRef => cases slot
  | _ =>
    simp only [slots, mem_cons, mem_map, not_mem_nil, or_false] at slot
    grind [printed, printedAll_eq]

theorem lays_slots {ss : List (Precedence × Code)}
    (each : List.Forall₂ (fun s d => (∀ x ∈ s.2.printed, x.operatorValid = true) →
      Lays indent d s.2.printed) ss ds)
    (valid : ∀ s ∈ ss, ∀ x ∈ s.2.printed, x.operatorValid = true) :
    List.Forall₂ (Lays indent) ds (ss.map fun s => s.2.printed) := by
  induction each with
  | nil => exact .nil
  | cons first rest ih =>
    obtain ⟨here, there⟩ := forall_mem_cons.1 valid
    exact .cons (first here) (ih there)

theorem lays_props {props : List (Bytes × Code)}
    (each : List.Forall₂ (Lays indent) ds (props.map fun p => p.2.printed)) :
    List.Forall₂ (Lays indent) (List.zipWith propDoc props ds) (props.map fun p => p.2.printed) := by
  induction props generalizing ds with
  | nil =>
    cases each
    exact .nil
  | cons p props ih =>
    obtain _ | ⟨value, rest⟩ := each
    refine .cons ?_ (ih rest)
    unfold propDoc
    split
    · exact value
    · exact (Lays.ofText indent (keyText p.1)).between rfl value

theorem lays_statements (each : List.Forall₂ (Lays indent) ds lists) :
    List.Forall₂ (Lays indent) (ds.map (· ++ Doc.ofText ";")) lists :=
  forall₂_map_left_iff.2 (each.imp fun _ _ lays => lays.text rfl)

/-- **The pieces of an expression stand where they are printed.** -/
theorem doc_lays {d : Doc} (h : c.doc least = .ok d)
    (valid : ∀ x ∈ c.printed, x.operatorValid = true) : Lays indent d c.printed := by
  refine doc_induction (P := fun _ c d => (∀ x ∈ c.printed, x.operatorValid = true) →
    Lays indent d c.printed) (fun least c ds sound each valid => ?_) h valid
  have own : c.doc 0 = .ok (enclosed 0 c (c.shape ds)) :=
    doc_ok_iff.2 ⟨sound, ds, each.imp fun _ _ h => h.1, rfl⟩
  have laid := lays_slots (each.imp fun _ _ h => h.2)
    fun s slot x mem => valid x (mem_printed_of_slot slot mem)
  cases c with
  | missing | destructure | function | importRef => cases sound
  | literal | identifier => exact lays_enclosed rfl own (.ofText indent _)
  | member loc o p computed =>
    refine lays_enclosed rfl own ?_
    cases computed with
    | true =>
      obtain _ | ⟨left, _ | ⟨right, _ | _⟩⟩ := laid
      exact (left.between rfl right).text rfl
    | false =>
      obtain _ | ⟨left, _ | _⟩ := laid
      cases p with
      | identifier id =>
        rw [shape, append_assoc _ (Doc.mark id.loc)]
        exact left.between rfl (lays_name indent id)
      | _ => cases sound
  | call loc callee args =>
    obtain _ | ⟨left, right⟩ := laid
    refine lays_enclosed rfl own ?_
    rw [printedAll_eq]
    rw [map_map] at right
    exact (left.between rfl (.join rfl right)).text rfl
  | unary loc op arg =>
    obtain _ | ⟨right, _ | _⟩ := laid
    refine lays_enclosed rfl own ?_
    rw [shape]
    split
    · exact (Lays.ofText indent op).between rfl right
    · rw [append_nil]
      exact right.behind (Utf8.closed_of_isValid (valid _ mem_cons_self))
  | binary loc op left right | logical loc op left right =>
    obtain _ | ⟨left, _ | ⟨right, _ | _⟩⟩ := laid
    exact lays_enclosed rfl own (left.between (isSeam_spaced op) right)
  | conditional loc test consequent alternate =>
    obtain _ | ⟨first, _ | ⟨second, _ | ⟨third, _ | _⟩⟩⟩ := laid
    refine lays_enclosed rfl own ?_
    exact (first.between rfl second).between rfl third
  | array loc elements =>
    refine lays_enclosed rfl own ?_
    rw [slots, map_map] at laid
    rw [printedAll_eq]
    exact (Lays.behindSeam rfl (.join rfl laid)).text rfl
  | object loc props =>
    refine lays_enclosed rfl own ?_
    rw [printedProps_eq]
    rw [slots, map_map] at laid
    exact lays_braced (lays_props laid)
  | sequence loc exprs =>
    refine lays_enclosed rfl own ?_
    rw [slots, map_map] at laid
    rw [printedAll_eq]
    exact .join rfl laid
  | interpolation loc tag runs holes =>
    refine lays_enclosed rfl own ?_
    rw [slots, map_map] at laid
    have lengths : ds.length = holes.length := by simpa using laid.length_eq
    have count : runs.length = holes.length + 1 := by simpa [Code.sound] using sound
    have ends : (tag ++ [Byte.backquote]).getLast? = some Byte.backquote := by simp
    rw [printedAll_eq]
    show Lays indent _ ([] ++ _)
    refine lays_interleave (by omega) laid fun bs => (Lays.ofText indent bs).behind ?_
    exact Utf8.closed_of_endsAscii (by rw [Utf8.endsAscii, ends]; rfl)
  | assign loc target value =>
    obtain _ | ⟨left, _ | ⟨right, _ | _⟩⟩ := laid
    exact lays_enclosed rfl own (left.between rfl right)
  | lambda loc params body block =>
    refine lays_enclosed rfl own ?_
    have head : Lays indent (Doc.ofText "(" ++ headDoc params) (printedAll params) :=
      (paramsDoc_lays (paramsDoc_ok_iff.2 ⟨sound, rfl⟩)).behindSeam rfl
    rw [slots] at laid
    rw [shape]
    split at laid
    · next missing =>
      rw [map_map] at laid
      have inner := lays_block (lays_statements laid)
      rw [if_pos missing, if_pos missing, printedAll_eq block]
      exact head.between rfl inner
    · next present =>
      obtain _ | ⟨inner, _ | _⟩ := laid
      rw [if_neg present, if_neg present]
      exact head.between rfl inner

theorem statementDocs_lays {cs : List Code} (h : statementDocs cs = .ok ds)
    (valid : ∀ x ∈ printedAll cs, x.operatorValid = true) :
    List.Forall₂ (Lays indent) ds (cs.map printed) := by
  obtain ⟨es, each, rfl⟩ := statementDocs_ok_iff.1 h
  have laid : List.Forall₂ (Lays indent) _ _ := lays_slots (each.imp fun _ _ => doc_lays) (by
    grind [printedAll_eq])
  rw [map_map] at laid
  exact lays_statements laid

end Code

open Doc (Lays)

/-! ## Functions, imports and files -/

section

variable {exported : Bool} {o : PrintOptions}

variable {indent : Bytes} {d : Doc} {u : CodeUnit}

theorem ImportRef.doc_lays (indent : Bytes) (r : ImportRef) : Lays indent r.doc [.importRef r] :=
  Lays.node (c := .importRef r) ⟨false, rfl⟩ (.ofText indent _)

/-- **The pieces of a function stand where they are printed**: the function
itself, its parameters, its statements and its body. -/
theorem CodeUnit.doc_lays (indented : Utf8.isValid indent = true)
    (valid : ∀ x ∈ (Code.function u).printed, x.operatorValid = true)
    (h : u.doc indent exported = .ok d) : Lays indent d (Code.function u).printed := by
  have own : (Code.function u).ownDoc indent exported = .ok d := h
  rw [Code.printed, forall_mem_cons, forall_mem_append, forall_mem_append] at valid
  obtain ⟨params, heads, h⟩ := PrintError.bind_ok_iff.1 h
  obtain ⟨statements, blocks, h⟩ := PrintError.bind_ok_iff.1 h
  obtain ⟨body, result, h⟩ := PrintError.bind_ok_iff.1 h
  cases h
  have open' : Utf8.endsAscii (Bytes.ofString "function " ++ u.name ++ Bytes.ofString "(") = true := by
    rw [Utf8.endsAscii, getLast?_append]
    rfl
  have head : Lays indent (Doc.ofText (if exported then "export " else "")
      ++ Doc.ofText (Bytes.ofString "function " ++ u.name ++ Bytes.ofString "(") ++ params
      ++ Doc.ofText ") \x7b") (Code.printedAll u.params) :=
    ((Lays.ofText indent _).across rfl (Utf8.closed_of_endsAscii open')
      (Code.paramsDoc_lays heads)).text rfl
  -- The declaration of locals prints no piece of code.
  have declared : List.Forall₂ (Lays indent)
      (if u.locals.isEmpty then []
        else [Doc.ofText (Bytes.ofString "var " ++ Bytes.join ", " u.locals ++ Bytes.ofString ";")])
      (if u.locals.isEmpty then [] else [[]]) := by
    split
    · exact .nil
    · exact .cons (.ofText indent _) .nil
  have returned : Lays indent (Doc.ofText "return " ++ body ++ Doc.ofText ";") u.body.printed :=
    ((Code.doc_lays result valid.2.2).behindSeam rfl).text rfl
  have lines := rel_append (rel_append declared
    (Code.statementDocs_lays blocks valid.2.1.2)) (.cons returned .nil)
  have gap : Utf8.Closed (Bytes.ofString "\n" ++ indent) :=
    (Utf8.closed_of_endsAscii rfl).append (Utf8.closed_of_isValid indented)
  have inner : Lays indent (_ ++ Doc.ofText "\n\x7d") _ :=
    (Code.lays_lines lines rfl gap head).text rfl
  have parts : (((if u.locals.isEmpty then [] else [[]]) ++ u.statements.map Code.printed
      ++ [u.body.printed]).flatten : List Code) = Code.printedAll u.statements ++ u.body.printed := by
    rw [Code.printedAll_eq]
    split <;> simp
  rw [parts, ← append_assoc] at inner
  rw [Code.printed]
  simp only [append_assoc] at own inner ⊢
  exact inner.node ⟨exported, own⟩

theorem CodeUnit.docIn_ok (h : u.docIn o exported = .ok d) :
    u.doc o.indentation exported = .ok d := by
  unfold docIn at h
  cases printed : u.doc o.indentation exported with
  | error e => rw [printed] at h; cases h
  | ok d' => rw [printed] at h; exact h

end

end TemplateCompiler
