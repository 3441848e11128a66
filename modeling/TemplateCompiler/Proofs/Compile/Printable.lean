import TemplateCompiler.Proofs.Compile.Scopes
import TemplateCompiler.Script.Output

/-!
# Compiled programs can be printed

Printing fails on code that is no expression: where code is missing, where a
member by name has no name, where the runs of an interpolation do not go with
its holes. None of these is among the forms that templates compile to, so a
program that was compiled is printed, whatever the options
(`print_of_compile`).
-/

open List

namespace TemplateCompiler

/-- An attempt to print that succeeds. -/
def PrintError.Free {α : Type} (x : Except PrintError α) : Prop := ∃ a, x = .ok a

namespace PrintError.Free

variable {α β : Type} {x : Except PrintError α} {f : α → Except PrintError β}

theorem pure (a : α) : Free (Pure.pure a) := ⟨a, rfl⟩

theorem bind (first : Free x) (next : ∀ a, Free (f a)) : Free (x >>= f) := by
  obtain ⟨a, rfl⟩ := first
  exact next a

theorem mapM {xs : List β} {step : β → Except PrintError α} (each : ∀ b ∈ xs, Free (step b)) :
    Free (xs.mapM step) := by
  induction xs with
  | nil => exact pure []
  | cons b xs ih =>
    obtain ⟨head, tail⟩ := forall_mem_cons.1 each
    rw [mapM_cons]
    exact head.bind fun a => (ih tail).bind fun as => pure (a :: as)

theorem mapError (h : Free x) (g : PrintError → PrintError) : Free (x.mapError g) := by
  obtain ⟨a, rfl⟩ := h
  exact ⟨a, rfl⟩

end PrintError.Free

open PrintError (Free)

namespace Code

/-- What a piece of code takes to be printed: nothing but the parts that are
printed with it may keep it from being so, and these are expressions. -/
def Printable (e : Code) : Prop :=
  e.isExpression = true → e.sound = true ∧ ∀ s ∈ e.slots, s.2.isExpression = true

theorem mem_preorder_self {c : Code} (kind : c.isExpression = true) : c ∈ c.preorder := by
  cases c with
  | missing => cases kind
  | _ => rw [preorder_eq _ rfl]; exact mem_cons_self

theorem Consists.of_slot {P : Code → Prop} {c : Code} (h : c.Consists P) (printable : c.Printable)
    {s : Precedence × Code} (slot : s ∈ c.slots) : s.2.Consists P :=
  ⟨(printable h.1).2 s slot,
    fun e mem => h.2 e (mem_preorder_of_part (mem_parts_of_slot slot) mem)⟩

/-- **Printable code is printed**, wherever it stands. -/
theorem Consists.doc_free {c : Code} (h : c.Consists Printable) (least : Precedence) :
    Free (c.doc least) := by
  have printable := h.2 c (mem_preorder_self h.1)
  have parts : Free (c.slots.mapM fun s => s.2.doc s.1) := .mapM fun s slot =>
    have := sizeOf_lt_of_mem_parts (mem_parts_of_slot slot)
    doc_free (h.of_slot printable slot) s.1
  obtain ⟨ds, printed⟩ := parts
  exact ⟨_, doc_ok_iff.2 ⟨(printable h.1).1, ds, PrintError.mapM_ok_iff.1 printed, rfl⟩⟩
termination_by sizeOf c

theorem isExpression_erase (c : Code) : c.erase.isExpression = c.isExpression := by
  cases c <;> rfl

theorem isParam_erase (c : Code) : c.erase.isParam = c.isParam := by cases c <;> rfl

/-- Whether code can be printed does not hang on its locations. -/
theorem Printable.of_erase {c : Code} (h : c.erase.Printable) : c.Printable := by
  have name (c : Code) : c.erase.isName = c.isName := by cases c <;> rfl
  intro kind
  obtain ⟨sound, expressions⟩ := h ((isExpression_erase c).trans kind)
  cases c with
  | missing | destructure | function | importRef => cases kind
  | literal | identifier => exact ⟨rfl, nofun⟩
  | member loc o p computed =>
    cases computed <;> simp_all [erase, Code.sound, slots, isExpression_erase]
  | object loc props =>
    rw [erase, eraseProps_eq_map, slots, map_map, forall_mem_map] at expressions
    exact ⟨rfl, forall_mem_map.2 fun p mem =>
      (isExpression_erase p.2).symm.trans (expressions p mem)⟩
  | lambda loc params body block =>
    simp only [erase, Code.sound, slots, isMissing_erase, eraseAll_eq_map, all_map,
      Function.comp_def, isParam_erase] at sound expressions ⊢
    refine ⟨sound, ?_⟩
    split <;> simp_all [isExpression_erase]
  | _ =>
    simp_all [erase, Code.sound, slots, eraseAll_eq_map, isExpression_erase]

theorem Consists.of_erase {c : Code} (h : c.erase.Consists Printable) : c.Consists Printable := by
  obtain ⟨kind, all⟩ := h
  rw [preorder_erase] at all
  exact ⟨(isExpression_erase c).symm.trans kind,
    fun e mem => .of_erase (all _ (mem_map_of_mem mem))⟩

theorem statementDocs_free {cs : List Code} (h : ∀ c ∈ cs, ∀ least, Free (c.doc least)) :
    Free (statementDocs cs) := by
  have parts : Free ((cs.map fun c => (c.braceless .sequence, c)).mapM fun s => s.2.doc s.1) :=
    .mapM (forall_mem_map.2 fun c mem => h c mem _)
  obtain ⟨ds, printed⟩ := parts
  exact ⟨_, statementDocs_ok_iff.2 ⟨ds, PrintError.mapM_ok_iff.1 printed, rfl⟩⟩

end Code

/-! ## Generated code -/

/-- **Code that comes from a template can be printed.** -/
theorem Lowered.printable {sets : Prop} {calls : Code → Code → Prop} {c d : Code}
    (h : Lowered sets calls c d)
    (hc : ∀ c d, calls c d → d.callee? = none ∧ d.Consists Code.Printable) :
    d.Consists Code.Printable := by
  refine h.consists hc fun e form expressions kind => ⟨?_, expressions⟩
  cases e with
  | missing | destructure | function | importRef => cases kind
  | member loc o p computed =>
    cases computed with
    | true => rfl
    | false =>
      obtain ⟨key, rfl⟩ := form rfl
      rfl
  | interpolation => exact beq_iff_eq.2 form.2
  | lambda =>
    obtain rfl | ⟨param, binds, rfl⟩ := form
    · rfl
    · cases binds <;> rfl
  | _ => rfl

/-- A call of a unit can be printed. -/
theorem Calls.printable {w : List Finished} {c d : Code} (h : Calls w c d) :
    d.callee? = none ∧ d.Consists Code.Printable := by
  obtain ⟨f, -, -, rfl⟩ := h
  refine ⟨rfl, rfl, fun e piece _ => ?_⟩
  obtain rfl | ⟨id, rfl, -⟩ | ⟨props, rfl, values⟩ := f.mem_call e piece
  · refine ⟨rfl, forall_mem_cons.2 ⟨rfl, forall_mem_cons.2 ⟨rfl, ?_⟩⟩⟩
    exact forall_mem_singleton.2 rfl
  · exact ⟨rfl, nofun⟩
  · exact ⟨rfl, forall_mem_map.2 values⟩

section

variable {o : CompileOptions} {sets : Prop} {w : List Finished} {d : List Code × Code} {u : CodeUnit}

/-- What a unit runs can be printed. -/
theorem CodeUnit.Made.printable (h : u.Made o sets w d) {c : Code}
    (mem : c ∈ u.statements ++ [u.body]) : c.Consists Code.Printable := by
  suffices ∃ x, Lowered sets (Calls w) x c.erase by
    obtain ⟨x, lowered⟩ := this
    exact (lowered.printable fun _ _ call => call.printable).of_erase
  rcases mem_append.1 mem with mem | mem
  · exact Lowered.of_mem h.statements mem
  · exact ⟨_, mem_singleton.1 mem ▸ h.body⟩

/-- **Units are printed.** -/
theorem CodeUnit.Made.doc_free (h : u.Made o sets w d) (indent : Bytes) (exported : Bool) :
    Free (u.doc indent exported) := by
  have params : u.params.all Code.isParam = true := by
    have erased : (Code.eraseAll u.params).all Code.isParam = true := by rw [h.scopes.params]; rfl
    simpa [Code.eraseAll_eq_map, Function.comp_def, Code.isParam_erase] using erased
  have statements : ∀ c ∈ u.statements, ∀ least, Free (c.doc least) := fun c mem =>
    (h.printable (mem_append_left _ mem)).doc_free
  have body := (h.printable (mem_append_right _ mem_cons_self)).doc_free
  exact PrintError.Free.bind ⟨_, Code.paramsDoc_ok_iff.2 ⟨params, rfl⟩⟩ fun _ =>
    (Code.statementDocs_free statements).bind fun _ => (body _).bind fun _ => ⟨_, rfl⟩

end

/-- **A compiled program is printed**, whatever the options. -/
theorem print_of_compile {o : CompileOptions} {lib : Library} {src : Bytes} {p : Program}
    (h : (compile o lib src).1 = .ok p) (po : PrintOptions) : ∃ files, p.print po = .ok files := by
  obtain ⟨w, root, d, -, hroot, -, -⟩ := compile_made h
  have units (exported : Bool) : ∀ u ∈ p.allUnits, Free (u.docIn po exported) := by
    intro u mem
    obtain ⟨v, w, sets, d, -, -, -, made⟩ := compile_made_unit h mem
    exact (made.doc_free _ _).mapError _
  rw [Program.allUnits, hroot] at units
  have parts (exported : Bool) : ∀ u ∈ p.units, Free (u.docIn po exported) := fun u mem =>
    units exported u (mem_append_left _ mem)
  have last (exported : Bool) : Free (root.docIn po exported) :=
    units exported root (mem_append_right _ mem_cons_self)
  unfold Program.print
  rw [hroot]
  dsimp only
  split
  · refine (Free.mapM fun u mem => ?_).bind fun _ => ?_
    · exact ((parts true u mem).bind fun _ => .pure _).bind fun _ => .pure _
    · exact ((last true).bind fun _ => .pure _).bind fun _ => .pure _
  · exact (Free.mapM (parts false)).bind fun _ => (last _).bind fun _ => .pure _

end TemplateCompiler
