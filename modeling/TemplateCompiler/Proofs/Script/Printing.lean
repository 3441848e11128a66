import TemplateCompiler.Proofs.Code.Parts
import TemplateCompiler.Script.Printer

/-!
# Printing, part by part

An expression is printed by printing parts of it, each at the level that its
place asks for, and by putting their documents together to the shape of the
expression (`Code.doc_ok_iff`). What is to be known of the documents of
expressions is therefore known once it goes from the parts to the whole
(`Code.doc_induction`).
-/

open List

namespace TemplateCompiler

variable {α β : Type}

variable {ds : List Doc}

theorem PrintError.bind_ok_iff {x : Except PrintError α} {f : α → Except PrintError β} {b : β} :
    x >>= f = .ok b ↔ ∃ a, x = .ok a ∧ f a = .ok b := by
  cases x with
  | error e => exact ⟨fun h => (nomatch h), fun ⟨_, h, _⟩ => (nomatch h)⟩
  | ok a => exact ⟨fun h => ⟨a, rfl, h⟩, fun ⟨_, h, h'⟩ => by cases h; exact h'⟩

theorem PrintError.mapM_ok_iff {f : α → Except PrintError β} {xs : List α} {ys : List β} :
    xs.mapM f = .ok ys ↔ List.Forall₂ (fun x y => f x = .ok y) xs ys := by
  induction xs generalizing ys with
  | nil => exact ⟨fun h => by cases h; exact .nil, fun h => by cases h; rfl⟩
  | cons x xs ih =>
    rw [mapM_cons, forall₂_cons_left_iff]
    simp only [bind_ok_iff, ih]
    exact ⟨fun ⟨y, first, ys, rest, h⟩ => ⟨y, ys, first, rest, by cases h; rfl⟩,
      fun ⟨y, ys, first, rest, h⟩ => ⟨y, first, ys, rest, by rw [h]; rfl⟩⟩

namespace Code

variable {c : Code} {d : Doc} {cs : List Code} {least : Precedence}

/-- Whether code is a name. -/
def isName : Code → Bool
  | .identifier _ => true
  | _ => false

/-- Whether code is a parameter. -/
def isParam : Code → Bool
  | .identifier _ | .destructure _ => true
  | _ => false

/-- Whether code is of a kind that is printed as an expression. -/
def isExpression : Code → Bool
  | .missing | .destructure _ | .function _ | .importRef _ => false
  | _ => true

/-- The document of a list of parameters. -/
def headDoc (params : List Code) : Doc := (paramsDoc params).toOption.getD []

theorem paramsDoc_ok_iff {params : List Code} :
    paramsDoc params = .ok d ↔ params.all isParam = true ∧ d = headDoc params := by
  have each (ps : List Code) : (∃ ds, ps.mapM paramDoc = .ok ds) ↔ ps.all isParam = true := by
    induction ps with
    | nil => exact ⟨fun _ => rfl, fun _ => ⟨[], rfl⟩⟩
    | cons p ps ih =>
      rw [all_cons, Bool.and_eq_true, ← ih]
      simp only [PrintError.mapM_ok_iff, forall₂_cons_left_iff]
      cases p <;> simp [paramDoc, isParam]
  constructor
  · intro h
    obtain ⟨ds, read, -⟩ := PrintError.bind_ok_iff.1 h
    exact ⟨(each params).1 ⟨ds, read⟩, by rw [headDoc, h]; rfl⟩
  · rintro ⟨all, rfl⟩
    obtain ⟨ds, read⟩ := (each params).2 all
    rw [headDoc, paramsDoc, read]
    rfl

/-- **The parts of an expression that are printed with it**, each at a level. -/
def slots : Code → List (Precedence × Code)
  | .member _ o p true => [(o.memberLevel, o), (.sequence, p)]
  | .member _ o _ false => [(o.memberLevel, o)]
  | .call _ f args => (.call, f) :: args.map (Prod.mk .assign)
  | .unary _ _ a => [(.unary, a)]
  | .binary _ op l r => [((operandLevels op).1, l), ((operandLevels op).2, r)]
  | .logical _ op l r => [(.ofLogical op, l), (Precedence.ofLogical op + 1, r)]
  | .conditional _ t a b => [(.or, t), (.assign, a), (.assign, b)]
  | .array _ cs | .sequence _ cs => cs.map (Prod.mk .assign)
  | .object _ props => props.map fun p => (.assign, p.2)
  | .interpolation _ _ _ holes => holes.map (Prod.mk .sequence)
  | .assign _ t v => [(.call, t), (.assign, v)]
  | .lambda _ _ body block =>
    if body.isMissing then block.map fun c => (c.braceless .sequence, c)
    else [(body.braceless .assign, body)]
  | _ => []

/-- Whether nothing but its parts keeps a piece of code from being printed. -/
def sound : Code → Bool
  | .missing | .destructure _ | .function _ | .importRef _ => false
  | .member _ _ p false => p.isName
  | .interpolation _ _ runs holes => runs.length == holes.length + 1
  | .lambda _ params _ _ => params.all isParam
  | _ => true

/-- A property with its value. -/
def propDoc (p : Bytes × Code) (d : Doc) : Doc :=
  if p.2.isShorthand p.1 then d else Doc.ofText (keyText p.1) ++ Doc.ofText ": " ++ d

/-- **What the documents of the parts are put together to.** -/
def shape (c : Code) (ds : List Doc) : Doc :=
  let part (i : Nat) : Doc := ds.getD i []
  match c with
  | .literal _ _ value => Doc.ofText value.script
  | .identifier id => Doc.ofText id.name
  | .member _ _ _ true => part 0 ++ Doc.ofText "[" ++ part 1 ++ Doc.ofText "]"
  | .member _ _ (.identifier id) false =>
    part 0 ++ Doc.ofText "." ++ Doc.mark id.loc ++ Doc.ofText id.name
  | .call .. => part 0 ++ Doc.ofText "(" ++ Doc.join ", " ds.tail ++ Doc.ofText ")"
  | .unary _ op arg =>
    Doc.ofText op ++ (if arg.startsWithSign then Doc.ofText " " else []) ++ part 0
  | .binary _ op _ _ | .logical _ op _ _ => part 0 ++ Doc.ofText (" " ++ op ++ " ") ++ part 1
  | .conditional .. => part 0 ++ Doc.ofText " ? " ++ part 1 ++ Doc.ofText " : " ++ part 2
  | .array .. => Doc.ofText "[" ++ Doc.join ", " ds ++ Doc.ofText "]"
  | .object _ props => braced (List.zipWith propDoc props ds)
  | .sequence .. => Doc.join ", " ds
  | .interpolation _ tag runs _ =>
    Doc.ofText (tag ++ [Byte.backquote]) ++ interleave runs ds ++ Doc.ofText [Byte.backquote]
  | .assign .. => part 0 ++ Doc.ofText " = " ++ part 1
  | .lambda _ params body _ =>
    Doc.ofText "(" ++ headDoc params ++ Doc.ofText ") => "
      ++ if body.isMissing then blockDoc (ds.map (· ++ Doc.ofText ";")) else part 0
  | _ => []

/-- The document of a part at its level. -/
def Prints (s : Precedence × Code) (d : Doc) : Prop := s.2.doc s.1 = .ok d

theorem docs_ok_iff :
    docs least cs = .ok ds ↔ List.Forall₂ Prints (cs.map (Prod.mk least)) ds := by
  rw [forall₂_map_left_iff]
  refine Iff.trans ?_ PrintError.mapM_ok_iff
  induction cs generalizing ds with
  | nil => rfl
  | cons c cs ih => simp only [docs, mapM_cons, PrintError.bind_ok_iff, ih]

theorem statementDocs_ok_iff :
    statementDocs cs = .ok ds ↔ ∃ es,
      List.Forall₂ Prints (cs.map fun c => (c.braceless .sequence, c)) es
        ∧ ds = es.map (· ++ Doc.ofText ";") := by
  induction cs generalizing ds with
  | nil => simp [statementDocs, pure, Except.pure, eq_comm]
  | cons c cs ih =>
    simp only [statementDocs, PrintError.bind_ok_iff, ih, map_cons, forall₂_cons_left_iff]
    constructor
    · rintro ⟨d, first, _, ⟨es, rest, rfl⟩, h⟩
      cases h
      exact ⟨_, ⟨d, es, first, rest, rfl⟩, rfl⟩
    · rintro ⟨_, ⟨d, es, first, rest, rfl⟩, rfl⟩
      exact ⟨d, first, _, ⟨es, rest, rfl⟩, rfl⟩

theorem propDocs_ok_iff {props : List (Bytes × Code)} :
    propDocs props = .ok ds ↔ ∃ es,
      List.Forall₂ Prints (props.map fun p => (.assign, p.2)) es
        ∧ ds = List.zipWith propDoc props es := by
  induction props generalizing ds with
  | nil => simp [propDocs, pure, Except.pure, eq_comm]
  | cons p props ih =>
    simp only [propDocs, PrintError.bind_ok_iff, ih, map_cons, forall₂_cons_left_iff]
    constructor
    · rintro ⟨d, first, _, ⟨es, rest, rfl⟩, h⟩
      cases h
      exact ⟨_, ⟨d, es, first, rest, rfl⟩, rfl⟩
    · rintro ⟨_, ⟨d, es, first, rest, rfl⟩, rfl⟩
      exact ⟨d, first, _, ⟨es, rest, rfl⟩, rfl⟩

/-- **Printing an expression** prints its parts and puts them together. -/
theorem doc_ok_iff :
    c.doc least = .ok d ↔ c.sound = true
      ∧ ∃ ds, List.Forall₂ Prints c.slots ds ∧ d = enclosed least c (c.shape ds) := by
  have pure_ok {α : Type} (a b : α) : (Pure.pure a : Except PrintError α) = .ok b ↔ b = a :=
    ⟨fun h => by cases h; rfl, fun h => by rw [h]; rfl⟩
  cases c with
  | missing | destructure | function | importRef =>
    exact ⟨fun h => (by cases h), fun h => (by cases h.1)⟩
  | member loc o p computed =>
    rw [doc]
    cases computed with
    | true =>
      simp only [pure_bind, PrintError.bind_ok_iff, pure_ok, if_true, slots,
        forall₂_cons_left_iff, forall₂_nil_left_iff]
      simp [sound, shape, Prints, and_assoc]
    | false =>
      cases p with
      | identifier id =>
        simp only [pure_bind, PrintError.bind_ok_iff, slots, forall₂_cons_left_iff,
          forall₂_nil_left_iff]
        simp [sound, isName, shape, Prints, pure_ok]
      | _ =>
        refine ⟨fun h => ?_, fun h => by cases h.1⟩
        obtain ⟨_, -, h⟩ := PrintError.bind_ok_iff.1 h
        cases h
  | object =>
    simp only [doc, pure_bind, PrintError.bind_ok_iff, propDocs_ok_iff, pure_ok, slots]
    simp [sound, shape]
  | interpolation loc tag runs holes =>
    rw [doc]
    split
    · next count => exact ⟨fun h => (by cases h), fun h => absurd (of_decide_eq_true h.1) count⟩
    · next count =>
      simp only [pure_bind, PrintError.bind_ok_iff, docs_ok_iff, pure_ok, slots]
      simp [sound, shape, not_not.1 count]
  | lambda loc params body block =>
    rw [doc]
    cases body with
    | missing =>
      simp only [pure_bind, PrintError.bind_ok_iff, paramsDoc_ok_iff, statementDocs_ok_iff, pure_ok,
        slots]
      simp [sound, shape, isMissing]
    | _ =>
      simp only [pure_bind, PrintError.bind_ok_iff, paramsDoc_ok_iff, pure_ok, slots, isMissing,
        Bool.false_eq_true, if_false, forall₂_cons_left_iff, forall₂_nil_left_iff]
      simp [sound, shape, isMissing, Prints]
  | _ =>
    simp only [doc, pure_bind, PrintError.bind_ok_iff, docs_ok_iff, pure_ok, slots,
      forall₂_cons_left_iff, forall₂_nil_left_iff]
    simp [sound, shape, Prints, and_assoc]

/-- What printing comes to, if its errors do not matter. -/
theorem toOption_doc (least : Precedence) (c : Code) : (c.doc least).toOption = if c.sound then
    (do pure (enclosed least c (c.shape (← c.slots.mapM fun s => s.2.doc s.1)))
      : Except PrintError Doc).toOption else none := by
  cases read : c.doc least with
  | ok d =>
    obtain ⟨sound, ds, each, rfl⟩ := doc_ok_iff.1 read
    rw [if_pos sound, PrintError.mapM_ok_iff.2 each]
    rfl
  | error e =>
    split
    · next sound =>
      cases parts : c.slots.mapM fun s => s.2.doc s.1 with
      | error e => rfl
      | ok ds =>
        have ok : c.doc least = _ := doc_ok_iff.2 ⟨sound, ds, PrintError.mapM_ok_iff.1 parts, rfl⟩
        rw [read] at ok
        cases ok
    · rfl

theorem mem_parts_of_slot {s : Precedence × Code} (slot : s ∈ c.slots) :
    s.2 ∈ c.parts := by
  cases c with
  | member loc o p computed =>
    cases computed with
    | true => rcases slot with _ | ⟨_, _ | ⟨_, ⟨⟩⟩⟩ <;> simp [parts]
    | false => rcases slot with _ | ⟨_, ⟨⟩⟩; simp [parts]
  | lambda loc params body block =>
    rw [slots] at slot
    split at slot
    · obtain ⟨c, mem, rfl⟩ := mem_map.1 slot
      simp [parts, mem]
    · rw [mem_singleton.1 slot]
      simp [parts]
  | object loc props =>
    obtain ⟨p, mem, rfl⟩ := mem_map.1 slot
    exact mem_map_of_mem mem
  | missing | literal | identifier | destructure | function | importRef => cases slot
  | _ =>
    simp only [slots, mem_cons, mem_map, not_mem_nil, or_false] at slot
    grind [parts]

/-- **What holds of printed expressions** holds if it goes from the parts to
the whole. -/
theorem doc_induction {P : Precedence → Code → Doc → Prop}
    (step : ∀ least c ds, c.sound = true →
      List.Forall₂ (fun s d => Prints s d ∧ P s.1 s.2 d) c.slots ds →
      P least c (enclosed least c (c.shape ds)))
    {least : Precedence} {c : Code} {d : Doc} (h : c.doc least = .ok d) : P least c d := by
  obtain ⟨sound, ds, each, rfl⟩ := doc_ok_iff.1 h
  refine step least c ds sound (forall₂_iff_zip.2 ⟨each.length_eq, fun {s d} mem => ?_⟩)
  have printed := (forall₂_iff_zip.1 each).2 mem
  have := sizeOf_lt_of_mem_parts (mem_parts_of_slot (of_mem_zip mem).1)
  exact ⟨printed, doc_induction step printed⟩
termination_by sizeOf c

end Code

end TemplateCompiler
