import TemplateCompiler.Proofs.Code.Refiling
import TemplateCompiler.Proofs.Script.Printing
import TemplateCompiler.Script.Output

/-!
# Text without marks

The locations in code show in the marks of what is printed, and nowhere else:
code with other locations is printed as the same text, or fails to print with
it (`Code.doc_relocate`, `Program.print_refile`).
-/

open List

namespace TemplateCompiler

variable {ds es : List Doc}

namespace Doc

@[simp] theorem text_nil : text [] = [] := rfl

@[simp] theorem text_append (d e : Doc) : text (d ++ e) = d.text ++ e.text :=
  flatMap_append

@[simp] theorem text_ofText (bs : Bytes) : (ofText bs).text = bs := append_nil bs

@[simp] theorem text_mark (loc : Option Location) : (mark loc).text = [] := by
  cases loc <;> rfl

theorem text_join (sep : Bytes) (ds : List Doc) :
    (join sep ds).text = Bytes.join sep (ds.map text) := by
  induction ds with
  | nil => rfl
  | cons d ds ih =>
    cases ds with
    | nil => rfl
    | cons e ds =>
      rw [join, map_cons, map_cons, Bytes.join, text_append, text_append, text_ofText, ih]
      · rfl
      · simp
      · simp

theorem text_flatMap {α : Type} (f : α → Doc) (xs : List α) :
    text (xs.flatMap f) = xs.flatMap fun x => (f x).text :=
  flatMap_assoc

end Doc

/-! ## Results under a view -/

/-- **Two attempts to print** that fail together, or give results of which the
view is the same. -/
def PrintError.Alike {α γ : Type} (view : α → γ) (x y : Except PrintError α) : Prop :=
  x.toOption.map view = y.toOption.map view

namespace PrintError.Alike

variable {α β γ δ : Type} {view : α → γ} {view' : β → δ} {x y : Except PrintError α}
  {f g : α → Except PrintError β}

theorem pure {a b : α} (same : view a = view b) : Alike view (Pure.pure a) (Pure.pure b) :=
  congrArg some same

theorem throw (e e' : PrintError) : Alike view (MonadExcept.throw e) (MonadExcept.throw e') := rfl

theorem bind (first : Alike view x y)
    (next : ∀ a b, view a = view b → Alike view' (f a) (g b)) :
    Alike view' (x >>= f) (y >>= g) := by
  rcases x with e | a <;> rcases y with e' | b
  · rfl
  · cases first
  · cases first
  · exact next a b (Option.some.inj first)

theorem mapError {α : Type} {view : α → γ} {x y : Except PrintError α} (h : Alike view x y)
    (f f' : PrintError → PrintError) : Alike view (x.mapError f) (y.mapError f') := by
  rcases x with e | a <;> rcases y with e' | b
  · rfl
  · cases h
  · cases h
  · exact h

theorem mapM {ε : Type} {xs : List ε} {r : ε → ε} {step : ε → Except PrintError α}
    (each : ∀ a ∈ xs, Alike view (step (r a)) (step a)) :
    Alike (List.map view) ((xs.map r).mapM step) (xs.mapM step) := by
  induction xs with
  | nil => exact pure rfl
  | cons a xs ih =>
    obtain ⟨head, tail⟩ := forall_mem_cons.1 each
    rw [map_cons, mapM_cons, mapM_cons]
    refine head.bind fun d e same => (ih tail).bind fun ds es same' => pure ?_
    rw [map_cons, map_cons, same, same']

end PrintError.Alike

namespace Code

variable {g : Option Location → Option Location}

/-! ## Expressions -/

theorem text_enclosed (least : Precedence) (c : Code) (d : Doc) :
    (enclosed least c d).text = if c.precedence < least then "(" ++ d.text ++ ")" else d.text := by
  unfold enclosed
  split <;> simp

theorem enclosed_alike {least : Precedence} {c c' : Code} {d d' : Doc}
    (level : c.precedence = c'.precedence) (same : d.text = d'.text) :
    (enclosed least c d).text = (enclosed least c' d').text := by
  rw [text_enclosed, text_enclosed, level, same]

theorem memberLevel_relocate (c : Code) : (c.relocate g).memberLevel = c.memberLevel := by
  cases c with
  | literal loc kind value => cases kind <;> rfl
  | _ => rfl

theorem braceless_relocate (least : Precedence) (c : Code) :
    (c.relocate g).braceless least = c.braceless least := by
  cases c <;> rfl

theorem startsWithSign_relocate (c : Code) : (c.relocate g).startsWithSign = c.startsWithSign := by
  cases c <;> rfl

theorem isShorthand_relocate (key : Bytes) (c : Code) :
    (c.relocate g).isShorthand key = c.isShorthand key := by
  cases c <;> rfl

theorem bindings_relocate (d : Destructure) :
    (d.relocate g).bindings = d.bindings.map fun b => (b.1, b.2.relocate g) := by
  obtain ⟨loc, names, keys⟩ := d
  show Destructure.pairUp (names.map (Identifier.relocate g)) keys = _
  rw [Destructure.bindings]
  induction names generalizing keys with
  | nil => rfl
  | cons id names ih =>
    cases keys with
    | nil => exact congrArg (List.cons _) (ih [])
    | cons key keys => exact congrArg (List.cons _) (ih keys)

theorem paramDoc_relocate (c : Code) :
    PrintError.Alike Doc.text (c.relocate g).paramDoc c.paramDoc := by
  cases c with
  | identifier id => exact .pure (by simp [Identifier.relocate])
  | destructure d =>
    refine .pure ?_
    have names : ∀ d : Destructure, (d.bindings.map fun b => bindingDoc b.1 b.2).map Doc.text
        = d.bindings.map fun b =>
          (if b.1 == b.2.name then [] else b.1 ++ Bytes.ofString ": ") ++ b.2.name := by
      intro d
      rw [map_map]
      refine map_congr_left fun b _ => ?_
      simp only [Function.comp_apply, bindingDoc, Doc.text_append, Doc.text_mark, Doc.text_ofText,
        append_nil]
      split <;> simp
    simp only [Doc.text_append, Doc.text_mark, Doc.text_ofText, Doc.text_join, names]
    rw [bindings_relocate, map_map]
    rfl
  | _ => exact .throw _ _

theorem paramsDoc_relocate (params : List Code) :
    PrintError.Alike Doc.text (paramsDoc (relocateAll g params)) (paramsDoc params) := by
  rw [relocateAll_eq_map]
  refine (PrintError.Alike.mapM fun c _ => paramDoc_relocate c).bind fun ds es same => .pure ?_
  rw [Doc.text_join, Doc.text_join, same]

theorem interleave_alike (runs : List Bytes) (same : ds.map Doc.text = es.map Doc.text) :
    (interleave runs ds).text = (interleave runs es).text := by
  induction runs generalizing ds es with
  | nil => rfl
  | cons run runs ih =>
    match ds, es, same with
    | [], [], _ => rfl
    | d :: ds, e :: es, same =>
      obtain ⟨head, tail⟩ := List.cons.inj same
      simp only [interleave, Doc.text_append, ih tail, head]

theorem braced_alike (same : ds.map Doc.text = es.map Doc.text) :
    (braced ds).text = (braced es).text := by
  match ds, es, same with
  | [], [], _ => rfl
  | _ :: _, _ :: _, same => simp only [braced, Doc.text_append, Doc.text_join, same]

theorem blockDoc_alike (same : ds.map Doc.text = es.map Doc.text) :
    (blockDoc ds).text = (blockDoc es).text := by
  match ds, es, same with
  | [], [], _ => rfl
  | d :: ds, e :: es, same =>
    have flat : ∀ ds : List Doc, Doc.text (ds.flatMap (· ++ Doc.ofText " "))
        = (ds.map Doc.text).flatMap (· ++ Bytes.ofString " ") := by
      intro ds
      simp only [Doc.text_flatMap, Doc.text_append, Doc.text_ofText, flatMap_map]
    simp only [blockDoc, Doc.text_append, flat, same]

theorem propDocs_alike {props : List (Bytes × Code)} (same : ds.map Doc.text = es.map Doc.text) :
    (List.zipWith propDoc (relocateProps g props) ds).map Doc.text
      = (List.zipWith propDoc props es).map Doc.text := by
  induction props generalizing ds es with
  | nil => rfl
  | cons p props ih =>
    match ds, es, same with
    | [], [], _ => rfl
    | d :: ds, e :: es, same =>
      obtain ⟨head, tail⟩ := List.cons.inj same
      refine cons_eq_cons.2 ⟨?_, ih tail⟩
      rw [propDoc, propDoc, isShorthand_relocate]
      split <;> simp [head]

/-- The text of a whole hangs on the texts of its parts only. -/
theorem shape_alike {c : Code} (same : ds.map Doc.text = es.map Doc.text) :
    ((c.relocate g).shape ds).text = (c.shape es).text := by
  have given (o : Option Doc) : (o.map Doc.text).getD [] = (o.getD []).text := by cases o <;> rfl
  have part (i : Nat) : (ds[i]?.getD []).text = (es[i]?.getD []).text := by
    simpa [given] using congrArg (·[i]?.getD []) same
  cases c with
  | member loc o p computed =>
    cases computed with
    | true => simp [relocate, shape, part]
    | false => cases p <;> simp [relocate, shape, part, Identifier.relocate]
  | call =>
    have tails := congrArg List.tail same
    rw [← map_tail, ← map_tail] at tails
    simp [relocate, shape, part, Doc.text_join, tails]
  | object => exact braced_alike (propDocs_alike same)
  | interpolation loc tag runs holes => simp [relocate, shape, interleave_alike runs same]
  | lambda loc params body block =>
    have head : (headDoc (relocateAll g params)).text = (headDoc params).text := by
      rw [headDoc, headDoc, ← given, ← given]
      exact congrArg (·.getD []) (paramsDoc_relocate params)
    have lines : (ds.map (· ++ Doc.ofText ";")).map Doc.text
        = (es.map (· ++ Doc.ofText ";")).map Doc.text := by
      simpa [Function.comp_def] using congrArg (List.map (· ++ Bytes.ofString ";")) same
    simp only [relocate, shape, Doc.text_append, head, isMissing_relocate]
    split
    · rw [blockDoc_alike lines]
    · simp [part]
  | unary => simp [relocate, shape, part, startsWithSign_relocate]
  | _ => simp [relocate, shape, part, Doc.text_join, same, Identifier.relocate]

theorem slots_relocate (c : Code) :
    (c.relocate g).slots = c.slots.map fun s => (s.1, s.2.relocate g) := by
  cases c with
  | member loc o p computed => cases computed <;> simp [relocate, slots, memberLevel_relocate]
  | object => simp [relocate, slots, relocateProps_eq_map]
  | lambda loc params body block =>
    rw [relocate, slots, slots, isMissing_relocate]
    split <;> simp [relocateAll_eq_map, braceless_relocate, Function.comp_def]
  | _ => simp [relocate, slots, relocateAll_eq_map, Function.comp_def]

theorem sound_relocate (c : Code) : (c.relocate g).sound = c.sound := by
  have name (c : Code) : (c.relocate g).isName = c.isName := by cases c <;> rfl
  have param (c : Code) : (c.relocate g).isParam = c.isParam := by cases c <;> rfl
  cases c with
  | member loc o p computed => cases computed <;> simp [relocate, sound, name]
  | interpolation => simp [relocate, sound, relocateAll_eq_map]
  | lambda => simp [relocate, sound, relocateAll_eq_map, Function.comp_def, param]
  | _ => rfl

/-- **Code with other locations prints as the same text.** -/
theorem doc_relocate (least : Precedence) (c : Code) :
    PrintError.Alike Doc.text ((c.relocate g).doc least) (c.doc least) := by
  have parts : PrintError.Alike (List.map Doc.text)
      ((c.slots.map fun s => (s.1, s.2.relocate g)).mapM fun s => s.2.doc s.1)
      (c.slots.mapM fun s => s.2.doc s.1) := PrintError.Alike.mapM fun s slot =>
    have := sizeOf_lt_of_mem_parts (mem_parts_of_slot slot)
    doc_relocate s.1 s.2
  have level : (c.relocate g).precedence = c.precedence := by cases c <;> rfl
  rw [PrintError.Alike, toOption_doc, toOption_doc, sound_relocate, slots_relocate]
  split
  · exact parts.bind fun ds es same => .pure (enclosed_alike level (shape_alike same))
  · rfl
termination_by sizeOf c

theorem statementDocs_relocate (cs : List Code) :
    PrintError.Alike (List.map Doc.text) (statementDocs (relocateAll g cs)) (statementDocs cs) := by
  induction cs with
  | nil => exact .pure rfl
  | cons c cs ih =>
    rw [relocateAll, statementDocs, statementDocs, braceless_relocate]
    refine (doc_relocate _ c).bind fun d e same => ih.bind fun ds es rest => .pure ?_
    rw [map_cons, map_cons, Doc.text_append, Doc.text_append, same, rest]

end Code

/-! ## Units and programs -/

section

variable {ρ : Bytes → Bytes}

theorem CodeUnit.doc_refile (indent : Bytes) (exported : Bool) (u : CodeUnit) :
    PrintError.Alike Doc.text ((u.refile ρ).doc indent exported) (u.doc indent exported) := by
  refine (Code.paramsDoc_relocate u.params).bind fun ps ps' params => ?_
  refine (Code.statementDocs_relocate u.statements).bind fun ds es statements => ?_
  refine (Code.doc_relocate _ u.body).bind fun b b' body => .pure ?_
  have lines : ∀ ds : List Doc, Doc.text (ds.flatMap fun d => Doc.ofText ("\n" ++ indent) ++ d)
      = (ds.map Doc.text).flatMap fun text => Bytes.ofString "\n" ++ indent ++ text := by
    intro ds
    simp only [Doc.text_flatMap, Doc.text_append, Doc.text_ofText, flatMap_map]
  simp only [Doc.text_append, Doc.text_mark, lines, map_append, statements, map_cons, body,
    params]
  rfl

theorem CodeUnit.docIn_refile (o : PrintOptions) (exported : Bool) (u : CodeUnit) :
    PrintError.Alike Doc.text ((u.refile ρ).docIn o exported) (u.docIn o exported) :=
  (doc_refile _ _ u).mapError _ _

theorem ImportRef.text_doc (r : ImportRef) : (r.refile ρ).doc.text = r.doc.text := by
  simp only [ImportRef.doc, Doc.text_append, Doc.text_mark]
  rfl

theorem CodeUnit.moduleDoc_refile (o : PrintOptions) (u : CodeUnit) :
    PrintError.Alike Doc.text ((u.refile ρ).moduleDoc o) (u.moduleDoc o) := by
  refine (docIn_refile o true u).bind fun d e same => .pure ?_
  have imports : Doc.text ((u.refile ρ).imports.flatMap fun r => r.doc ++ Doc.ofText "\n")
      = Doc.text (u.imports.flatMap fun r => r.doc ++ Doc.ofText "\n") := by
    simp only [Doc.text_flatMap, Doc.text_append, refile, flatMap_map, ImportRef.text_doc]
  have gap : (u.refile ρ).imports.isEmpty = u.imports.isEmpty := isEmpty_map
  simp only [Doc.text_append, imports, gap, same]

/-- A file without a source map is its name and its text. -/
theorem OutputFile.ofDoc_alike {o : PrintOptions} (plain : o.sourceMap = false) (name : Bytes)
    {d e : Doc} (same : d.text = e.text) : ofDoc o name d = ofDoc o name e := by
  unfold ofDoc
  rw [plain, same]
  rfl

/-- **The files of a program** without source maps do not depend on the names
of the template's files. -/
theorem Program.print_refile {o : PrintOptions} (plain : o.sourceMap = false) (p : Program) :
    PrintError.Alike id ((p.refile ρ).print o) (p.print o) := by
  unfold print
  cases root : p.root with
  | none =>
    rw [refile, root]
    rfl
  | some u =>
    have renamed : (p.refile ρ).root = some (u.refile ρ) := by
      rw [refile, root]
      rfl
    rw [renamed]
    have name : (u.refile ρ).name = u.name := rfl
    simp only [name]
    split
    · have units : PrintError.Alike (List.map id) ((p.refile ρ).units.mapM fun u => do
            pure (OutputFile.ofDoc o (u.name ++ ".js") (← u.moduleDoc o)))
          (p.units.mapM fun u => do
            pure (OutputFile.ofDoc o (u.name ++ ".js") (← u.moduleDoc o))) := by
        refine PrintError.Alike.mapM fun u _ =>
          (CodeUnit.moduleDoc_refile o u).bind fun d e same => .pure ?_
        exact OutputFile.ofDoc_alike plain _ same
      refine units.bind fun fs gs files => ?_
      rw [map_id, map_id] at files
      refine (CodeUnit.moduleDoc_refile o u).bind fun d e same => .pure ?_
      rw [OutputFile.ofDoc_alike plain _ same, files]
    · have units : PrintError.Alike (List.map Doc.text) ((p.refile ρ).units.mapM (·.docIn o false))
          (p.units.mapM (·.docIn o false)) :=
        PrintError.Alike.mapM fun u _ => CodeUnit.docIn_refile o false u
      refine units.bind fun ds es texts => ?_
      refine (CodeUnit.docIn_refile o o.exported u).bind fun d e same => .pure ?_
      refine congrArg (fun f => [f]) (OutputFile.ofDoc_alike plain _ ?_)
      simp only [Doc.text_append, Doc.text_join, map_append, texts, map_cons, same]

end

end TemplateCompiler
