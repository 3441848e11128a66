import TemplateCompiler.Proofs.Code.Locations
import TemplateCompiler.Proofs.Compile.InPlace
import TemplateCompiler.Proofs.Template.Words

/-!
# Locating while lowering

Lowering locates the code it makes as it goes, and it counts the locations
that it hands out. `Compile.Yields` is the account of a step: the numbers that
were handed out so far are those of the finished units and those of the code
in hand, and a step that succeeds keeps it so. What is in hand beside the code
that a step works on is left alone, so steps in sequence are accounted for one
by one. `Node.lower_yields` is the account of lowering: the code of a tree is
located throughout, at positions of the tree, and it holds exactly the numbers
that were handed out for it.
-/

open List

namespace TemplateCompiler

variable {n : Node} {ns : List Node}

/-! ## Code of a template -/

namespace Code

variable {A B : Location → Prop} {c : Code}

/-- **Code that a template can write.** It is no name that the script knows, and
no part of the test for a list that loops make, which no template can write. -/
structure Plain (c : Code) : Prop where
  name : c.callee? = none
  member : c.isArrayMember = false
  test : c.tested? = none

theorem isArrayName_eq_false (plain : c.callee? = none) : c.isArrayName = false := by
  cases c with
  | identifier id =>
    obtain ⟨loc, name, builtin⟩ := id
    cases builtin
    · rfl
    · cases plain
  | _ => rfl

theorem Plain.listTest? (h : c.Plain) : c.listTest? = none := by
  have untested := h.test
  cases c with
  | call => exact Option.map_eq_none_iff.1 untested
  | _ => rfl

/-- **Code of a template** that is located. -/
structure Ready (A : Location → Prop) (c : Code) : Prop where
  present : c.isMissing = false
  placed : c.Placed A
  plain : c.Plain

/-- **Code of a template** that is to be located. -/
structure Draft (A : Location → Prop) (c : Code) : Prop where
  present : c.isMissing = false
  covers : c.Over A
  plain : c.Plain

theorem Ready.draft (h : c.Ready A) : c.Draft A := ⟨h.present, .placed h.placed, h.plain⟩

theorem Ready.covers (h : c.Ready A) : c.Over A := .placed h.placed

theorem Ready.mono (h : c.Ready A) (weaken : ∀ l, A l → B l) : c.Ready B :=
  ⟨h.present, h.placed.mono weaken, h.plain⟩

/-- Locating code of a template. -/
theorem Draft.stamp {file : Bytes} {pos : Position} (h : c.Draft A)
    (allowed : ∀ n, A ⟨file, pos.line, pos.column, n⟩) (n : Nat) :
    (c.stamp file pos n).1.Ready A where
  present := (isMissing_of_shell (shell_stamp c n)).trans h.present
  placed := h.covers.stamp allowed n
  plain :=
    ⟨by rw [← callee?_erase, erase_stamp, callee?_erase, h.plain.name],
      (isArrayMember_stamp c n).trans h.plain.member,
      (tested?_stamp (by simp [h.plain.test]) n).trans h.plain.test⟩

/-- A piece that is no loop, on top of code on the way. -/
theorem over_of_parts {used : Multiset Nat} (bare : c.loc = none) (present : c.isMissing = false)
    (single : c.shared? = none) (below : ∀ d ∈ c.parts, d.Over A)
    (count : indicesAll c.parts = used) (word : c.Worded := by exact trivial) :
    c.Over A ∧ c.indices = used :=
  ⟨.bare bare present (fun x ys loop => by rw [single] at loop; cases loop) word below,
    (indices_bare bare present single).trans count⟩

theorem draft_of_parts (bare : c.loc = none) (present : c.isMissing = false)
    (single : c.shared? = none) (plain : c.Plain) (below : ∀ d ∈ c.parts, d.Over A)
    (word : c.Worded := by exact trivial) : c.Draft A ∧ c.indices = indicesAll c.parts :=
  (over_of_parts bare present single below rfl word).imp_left fun covers => ⟨present, covers, plain⟩

/-! ### Forms -/

theorem draft_literal (kind : LiteralKind) (value : Literal) :
    (literal none kind value).Draft A ∧ (literal none kind value).indices = 0 :=
  draft_of_parts rfl rfl rfl ⟨rfl, rfl, rfl⟩ (forall_mem_nil _)

theorem indices_ident (name : Bytes) : (ident name).indices = 0 := indices_bare rfl rfl rfl

theorem draft_ident {name : Bytes} (word : Script.isIdentifier name = true) :
    (ident name).Draft A ∧ (ident name).indices = 0 :=
  draft_of_parts rfl rfl rfl ⟨rfl, rfl, rfl⟩ (forall_mem_nil _) fun _ => word

theorem draft_member {o p : Code} (computed : Bool) (ho : o.Over A) (plain : o.callee? = none)
    (hp : p.Over A) : (member none o p computed).Draft A
      ∧ (member none o p computed).indices = indicesAll [o, p] :=
  draft_of_parts rfl rfl rfl ⟨rfl, isArrayName_eq_false plain, rfl⟩ (by simp [parts, ho, hp])

theorem draft_call {f : Code} {args : List Code} (hf : f.Over A) (plain : f.isArrayMember = false)
    (hargs : ∀ c ∈ args, c.Over A) :
    (call none f args).Draft A ∧ (call none f args).indices = indicesAll (f :: args) := by
  refine draft_of_parts rfl rfl rfl ⟨rfl, rfl, Option.map_eq_none_iff.2 ?_⟩
    (forall_mem_cons.2 ⟨hf, hargs⟩)
  match args with
  | [] | _ :: _ :: _ => rfl
  | [x] => exact if_neg (by simp [plain])

theorem draft_conditional {t a b : Code} (ht : t.Over A) (plain : t.tested? = none)
    (ha : a.Over A) (hb : b.Over A) :
    (conditional none t a b).Draft A ∧ (conditional none t a b).indices = indicesAll [t, a, b] := by
  have single : (conditional none t a b).shared? = none := by
    unfold shared?
    split
    · next same => cases same; rw [plain]; rfl
    · rfl
  exact draft_of_parts rfl rfl single ⟨rfl, rfl, rfl⟩ (by simp [parts, ht, ha, hb])

theorem draft_logical {l r : Code} (op : Bytes) (hl : l.Over A) (plain : l.listTest? = none)
    (hr : r.Over A) :
    (logical none op l r).Draft A ∧ (logical none op l r).indices = indicesAll [l, r] :=
  draft_of_parts rfl rfl rfl ⟨rfl, rfl, Option.map_eq_none_iff.2 plain⟩ (by simp [parts, hl, hr])

end Code

/-! ## Accounts -/

/-- The numbers in a unit, those of the items of a loop counted once. -/
def CodeUnit.indices (u : CodeUnit) : Multiset Nat := (Code.function u).indices

/-- The units that a session holds: those that are finished, and those that its
registry knows. -/
def Session.holds (s : Session) : List CodeUnit :=
  s.units ++ s.registry.filterMap RegistryEntry.code

/-- **The account of a session**: the numbers that were handed out are those of
the finished units and those in hand. -/
def Session.Accounts (s : Session) (held : Multiset Nat) : Prop :=
  held + (s.units.map CodeUnit.indices).sum = Multiset.range s.located

namespace Compile

variable {α β γ : Type} {good : CodeUnit → Prop}

/-- **What a step yields** in a session whose units are `good`, if it succeeds:
a result that has `P`, units that are `good`, and the numbers `marks` in place
of those that were used. -/
def Yields (good : CodeUnit → Prop) (used : Multiset Nat) (m : Compile α)
    (marks : α → Multiset Nat) (P : α → Prop) : Prop :=
  ∀ s a t, m.outcome s = (.ok a, t) → (∀ u ∈ s.holds, good u) →
    P a ∧ (∀ u ∈ t.holds, good u) ∧ ∀ rest, s.Accounts (used + rest) → t.Accounts (marks a + rest)

namespace Yields

variable {m : Compile α} {f : α → Compile β} {used held : Multiset Nat} {marks : α → Multiset Nat}
  {marks' : β → Multiset Nat} {P R : α → Prop} {Q : β → Prop}

theorem pure {a : α} (h : P a) (count : marks a = used) :
    Yields good used (Pure.pure a) marks P := by
  intro s b t run units
  cases run
  exact ⟨h, units, fun rest account => count ▸ account⟩

theorem throw (e : CompileError) :
    Yields good used (MonadExcept.throw e : Compile α) marks P := by
  intro s a t run
  cases run

theorem throw_bind (e : CompileError) :
    Yields good used ((MonadExcept.throw e : Compile α) >>= f) marks' Q := by
  intro s a t run
  cases run

theorem imp (h : Yields good used m marks P) (weaken : ∀ a, P a → R a) :
    Yields good used m marks R := by
  intro s a t run units
  obtain ⟨held, rest⟩ := h s a t run units
  exact ⟨weaken a held, rest⟩

/-- **Steps in sequence.** What the first one leaves alone, the second may
use. -/
theorem bind (first : Yields good used m marks P)
    (next : ∀ a, P a → Yields good (marks a + held) (f a) marks' Q) :
    Yields good (used + held) (m >>= f) marks' Q := by
  intro s b u run units
  obtain ⟨a, t, step, run⟩ := ok_of_outcome_bind run
  obtain ⟨has, units, account⟩ := first s a t step units
  obtain ⟨has', units', account'⟩ := next a has t b u run units
  refine ⟨has', units', fun rest given => account' rest ?_⟩
  rw [add_assoc] at given ⊢
  exact account _ given

/-- A step that uses nothing, in front of others. -/
theorem seq (first : Yields good 0 m marks P)
    (next : ∀ a, P a → Yields good (marks a + held) (f a) marks' Q) :
    Yields good held (m >>= f) marks' Q := by
  have all := first.bind next
  rwa [zero_add] at all

/-- A step that only reads what was given. -/
theorem lift (x : Except CompileError α) :
    Yields good 0 (liftM x : Compile α) (fun _ => 0) fun a => x = .ok a := by
  cases x with
  | ok a => exact .pure rfl rfl
  | error e => exact .throw e

/-- A step that touches neither the units nor the count of locations. -/
theorem idle (h : ∀ s a t, m.outcome s = (.ok a, t) →
    P a ∧ t.units = s.units ∧ t.holds ⊆ s.holds ∧ t.located = s.located) :
    Yields good 0 m (fun _ => 0) P := by
  intro s a t run all
  obtain ⟨has, units, holds, located⟩ := h s a t run
  refine ⟨has, fun u mem => all u (holds mem), fun rest account => ?_⟩
  rw [Session.Accounts, units, located]
  exact account

theorem get : Yields good 0 (MonadState.get : Compile Session) (fun _ => 0)
    fun s => ∀ u ∈ s.holds, good u := by
  intro s a t run units
  cases run
  exact ⟨units, units, fun _ account => account⟩

theorem debug (message : Bytes) (fields : List (Bytes × Bytes)) :
    Yields good 0 (Compile.debug message fields) (fun _ => 0) fun _ => True := by
  refine .idle fun s a t run => ?_
  cases run
  exact ⟨trivial, rfl, List.Subset.refl _, rfl⟩

/-- Steps over a list, each with its own kind of result. -/
theorem forall₂ {xs : List γ} {step : γ → Compile α} {Q : γ → α → Prop}
    (each : ∀ x ∈ xs, Yields good 0 (step x) marks (Q x)) :
    Yields good 0 (xs.mapM step) (fun as => (as.map marks).sum) (List.Forall₂ Q xs) := by
  induction xs with
  | nil => exact .pure .nil rfl
  | cons x xs ih =>
    obtain ⟨first, others⟩ := forall_mem_cons.1 each
    rw [mapM_cons]
    refine first.seq fun a has => (ih others).seq fun as have' => .pure (.cons has have') ?_
    rw [map_cons, sum_cons, add_zero, add_comm]

theorem mapM {xs : List γ} {step : γ → Compile α}
    (each : ∀ x ∈ xs, Yields good 0 (step x) marks P) :
    Yields good 0 (xs.mapM step) (fun as => (as.map marks).sum) fun as => ∀ a ∈ as, P a :=
  (forall₂ each).imp fun _ => Node.forall_results

/-- A step inside a partial. -/
theorem inside (name : Bytes) (h : Yields good used m marks P) :
    Yields good used (Compile.inside name m) marks P := by
  intro s a t run
  refine h s a t ?_
  rcases step : m.outcome s with ⟨e | b, u⟩ <;>
    rw [outcome_inside, step] at run <;> cases run
  rfl

/-- Handing out locations. -/
theorem locating {x : StateM Nat α} (has : ∀ n, P (x n).1)
    (count : ∀ n, marks (x n).1 + Multiset.range n = used + Multiset.range (x n).2) :
    Yields good used (Compile.locating x) marks P := by
  intro s a t run units
  cases run
  refine ⟨has _, units, fun rest given => ?_⟩
  have handed := count s.located
  show marks (x s.located).1 + rest + _ = Multiset.range (x s.located).2
  refine add_left_cancel (a := used) ?_
  rw [← handed, ← show _ = Multiset.range s.located from given]
  ac_rfl

end Yields

end Compile

open Compile (Yields)

/-! ## Sites -/

/-- **Includes at a site** yield code of a template, which may have to be
located. -/
def Site.Lays (good : CodeUnit → Prop) (A : Location → Prop) (site : Site) : Prop :=
  ∀ i, Yields good 0 (site.expand i) Code.indices (Code.Draft A)

/-- Steps that make located code of a template. -/
abbrev Compile.Makes (good : CodeUnit → Prop) (A : Location → Prop) (m : Compile Code) : Prop :=
  Yields good 0 m Code.indices (Code.Ready A)

/-- Code may be located at a position of a site's file. -/
def Site.Allows (A : Location → Prop) (site : Site) (pos : Position) : Prop :=
  ∀ n, A ⟨site.file, pos.line, pos.column, n⟩

open Compile (Makes)

variable {good : CodeUnit → Prop} {A : Location → Prop} {site : Site}

/-- **Locating code of a template.** -/
theorem Site.locate_yields {pos : Position} {c : Code} {used : Multiset Nat}
    (allowed : site.Allows A pos) (h : c.Draft A ∧ c.indices = used) :
    Yields good used (site.locate pos c) Code.indices (Code.Ready A) :=
  h.2 ▸ .locating (h.1.stamp allowed) h.1.covers.indices_stamp

/-- What a step yields: located code, apart from the parameters of loops and
from includes. -/
def Step.Fits (A : Location → Prop) : Step → Code → Prop
  | .part _, c | .known .., c => c.Ready A
  | .param _, c => c.Over A
  | .expand _, c => c.Draft A
  | .refuse _, _ => False

/-! ## Bodies -/

namespace BodyPart

/-- What the nodes of a body give: text at allowed positions, and code. -/
def Fits (A : Location → Prop) (site : Site) : BodyPart → Prop
  | .text pos _ => site.Allows A pos
  | .hole c => c.Ready A

/-- The numbers in the holes of a body. -/
def indices (parts : List BodyPart) : Multiset Nat := Code.indicesAll (parts.filterMap hole?)

theorem ready_of_mem {parts : List BodyPart} (fits : ∀ p ∈ parts, p.Fits A site) :
    ∀ c ∈ parts.filterMap hole?, c.Ready A := by
  intro c mem
  obtain ⟨p, inside, same⟩ := mem_filterMap.1 mem
  cases p with
  | text => cases same
  | hole d => cases same; exact fits _ inside

/-- **Assembling a body.** -/
theorem assemble_yields {pos : Position} {parts : List BodyPart} (allowed : site.Allows A pos)
    (fits : ∀ p ∈ parts, p.Fits A site) :
    Yields good (indices parts) (assemble site pos parts) Code.indices (Code.Ready A) := by
  unfold assemble
  split
  · exact Site.locate_yields (fits _ mem_cons_self) (Code.draft_literal _ _)
  · exact .pure (fits _ mem_cons_self) (by simp [indices, hole?])
  · have ready := ready_of_mem fits
    unfold indices
    generalize parts.filterMap hole? = holes at ready
    cases holes with
    | nil => exact Site.locate_yields allowed (Code.draft_literal _ _)
    | cons c cs =>
      exact Site.locate_yields allowed (Code.draft_of_parts rfl rfl rfl ⟨rfl, rfl, rfl⟩
        fun d mem => (ready d mem).covers)

end BodyPart

namespace Node

/-! ## Positions -/

/-- Code may be located at the positions of a tree, whose words are
identifiers. -/
structure Within (A : Location → Prop) (site : Site) (n : Node) : Prop where
  allowed : ∀ m ∈ n.preorder, site.Allows A m.pos
  worded : n.Worded

section

variable {n m : Node}

theorem Within.pos (h : n.Within A site) (present : n.isMissing = false) :
    site.Allows A n.pos := h.allowed n (mem_preorder_self present)

theorem Within.part (h : n.Within A site) (part : m ∈ n.operands) : m.Within A site where
  allowed k below := h.allowed k (mem_preorder_of_part (mem_parts_of_operand part) below)
  worded := h.worded.operand m part

theorem Within.body (h : n.Within A site) (body : n.body? = some ns) :
    ∀ m ∈ ns, m.Within A site := by
  intro m mem
  obtain part | ⟨k, inside, part⟩ := mem_body body mem
  · exact h.part part
  · exact (h.part inside).part part

end

/-! ## Loops -/

/-- What a loop binds so far: names that are located. -/
structure PatternFits (A : Location → Prop) (d : Destructure) : Prop where
  bare : d.loc = none
  names : ∀ id ∈ d.names, (Code.identifier id).Placed A

theorem indices_destructure {d : Destructure} (bare : d.loc = none) :
    (Code.destructure d).indices = Code.indicesAll (d.names.map .identifier) :=
  Code.indices_bare bare rfl rfl

theorem names_add (d : Destructure) (key : Bytes) (id : Identifier) :
    (d.add key id).names = d.names ++ [id] ∧ (d.add key id).loc = d.loc := ⟨rfl, rfl⟩

theorem loopVariable_yields {d : Destructure} (h : PatternFits A d) (within : n.Within A site) :
    Yields good (Code.destructure d).indices (loopVariable site d n)
      (fun d => (Code.destructure d).indices) (PatternFits A) := by
  cases n with
  | symbol pos name =>
    rw [loopVariable]
    refine (Yields.lift _).seq fun id bound => ?_
    obtain ⟨-, rfl⟩ := binding_ok bound
    simp only [zero_add]
    split
    · exact .throw_bind _
    · have draft : (Code.ident (Script.bindingName name)).Draft A :=
        (Code.draft_ident (within.worded.bindingName rfl)).1
      have stamped : Yields good 0
          (Compile.locating (Identifier.stamp site.file pos { name := Script.bindingName name }))
          (fun id => (Code.identifier id).indices) fun id => (Code.identifier id).Placed A := by
        refine .locating (fun k => (draft.stamp (within.pos rfl) k).placed) fun k => ?_
        exact (draft.covers.indices_stamp k).trans (by rw [Code.indices_ident]; rfl)
      refine stamped.seq fun id placed => .pure ?_ ?_
      · refine ⟨h.bare, ?_⟩
        rw [(names_add d name id).1]
        simpa [or_imp, forall_and] using ⟨h.names, placed⟩
      · rw [indices_destructure (d := d.add name id) h.bare, indices_destructure h.bare,
          (names_add d name id).1]
        simp [add_comm]
  | _ => exact .throw _

theorem loopParam_yields (within : n.Within A site) :
    Yields good 0 (loopParam site n) Code.indices fun c => c.Over A := by
  cases n with
  | symbol pos name =>
    rw [loopParam]
    refine (Yields.lift _).seq fun id bound => ?_
    obtain ⟨-, rfl⟩ := binding_ok bound
    exact (Site.locate_yields (within.pos rfl)
      (Code.draft_ident (within.worded.bindingName rfl))).imp fun c h => h.covers
  | array pos names =>
    rw [loopParam]
    have all : ∀ d, PatternFits A d → Yields good (Code.destructure d).indices
        (names.foldlM (loopVariable site) d) (fun d => (Code.destructure d).indices)
        (PatternFits A) := by
      have below : ∀ n ∈ names, n.Within A site := fun n mem => within.part mem
      clear within
      induction names with
      | nil => exact fun d h => .pure h rfl
      | cons n names ih =>
        obtain ⟨here, others⟩ := forall_mem_cons.1 below
        intro d h
        rw [foldlM_cons, ← add_zero (Code.indices _)]
        refine (loopVariable_yields h here).bind fun d' h' => ?_
        rw [add_zero]
        exact ih others d' h'
    have start := all { names := [] } ⟨rfl, forall_mem_nil _⟩
    rw [indices_destructure rfl] at start
    refine Yields.seq start fun d h => .pure ?_ (add_zero _).symm
    refine (Code.over_of_parts (c := .destructure d) h.bare rfl rfl (fun c mem => ?_) rfl).1
    obtain ⟨id, inside, rfl⟩ := mem_map.1 mem
    exact .placed (h.names id inside)
  | _ => exact .throw _

/-- **A loop** over items that are located. Their numbers count once. -/
theorem draft_loop {items param body : Code} {alternate : Option Code} (hi : items.Ready A)
    (hp : param.Over A) (hb : body.Ready A) (ha : ∀ a ∈ alternate, a.Ready A) :
    (loop items param body alternate).Draft A ∧ (loop items param body alternate).indices
      = items.indices + (param.indices + body.indices + Code.indicesAll alternate.toList) := by
  let array : Code := .identifier { name := "Array", builtin := true }
  let field (c : Code) (name : Bytes) : Code := .member none c (.ident name) false
  let test : Code := .call none (field array "isArray") [items]
  let inner : Code := .lambda none [param, .ident (loopCounter param.binders)] body []
  let mapped : Code := .call none (field items "map") [inner]
  have name : array.Over A ∧ array.indices = 0 :=
    Code.over_of_parts rfl rfl rfl (forall_mem_nil _) rfl nofun
  have member {c : Code} (text : Bytes) (h : c.Over A)
      (word : Script.isIdentifier text = true := by decide) :
      (field c text).Over A ∧ (field c text).indices = c.indices :=
    Code.over_of_parts rfl rfl rfl
      (by simp [field, Code.parts, h, (Code.draft_ident word).1.covers])
      (by simp [field, Code.parts, Code.indices_ident])
  have counter := (Code.draft_ident (A := A)
    (Script.isIdentifier_fresh (show Script.isIdentifier "index" = true by decide) param.binders)).1.covers
  have tests : test.Over A ∧ test.indices = items.indices :=
    Code.over_of_parts rfl rfl rfl
      (by simp [test, Code.parts, hi.covers, member "isArray" name.1])
      (by simp [test, Code.parts, member "isArray" name.1, name])
  have inside : inner.Over A ∧ inner.indices = param.indices + body.indices :=
    Code.over_of_parts rfl rfl rfl
      (by simp [inner, Code.parts, hp, hb.covers, loopCounter, counter])
      (by simp [inner, Code.parts, Code.indices_ident])
  have maps : mapped.Over A ∧ mapped.indices = items.indices + (param.indices + body.indices) :=
    Code.over_of_parts rfl rfl rfl (by simp [mapped, Code.parts, inside, member "map" hi.covers])
      (by simp [mapped, Code.parts, inside, member "map" hi.covers])
  have whole {t b : Code} {ys : List Code} (test : t.tested? = some (items, ys))
      (copies : ∀ y ∈ ys, y = items) (ht : t.Over A) (hb : b.Over A) :
      (Code.conditional none t mapped b).Draft A ∧ (Code.conditional none t mapped b).indices
        + Code.indicesAll (items :: ys) = Code.indicesAll [t, mapped, b] := by
    have loop : (Code.conditional none t mapped b).shared? = some (items, items :: ys) :=
      Option.map_eq_some_iff.2 ⟨_, test, rfl⟩
    refine ⟨⟨rfl, .bare rfl rfl ?_ trivial (by simp [Code.parts, ht, maps, hb]), ⟨rfl, rfl, rfl⟩⟩, ?_⟩
    · intro x zs same
      cases loop.symm.trans same
      exact ⟨hi.placed.isSome_loc hi.present, forall_mem_cons.2 ⟨rfl, copies⟩⟩
    · have counted := Code.indices_eq (c := .conditional none t mapped b) rfl
      rw [Code.mentions, loop] at counted
      exact counted.trans (zero_add _)
  cases alternate with
  | none =>
    have empty : (Code.str []).Draft A ∧ _ := Code.draft_literal _ _
    refine (@whole _ _ [] rfl (forall_mem_nil _) tests.1 empty.1.covers).imp_right fun count =>
      add_right_cancel (count.trans ?_)
    simp only [Code.indicesAll_cons, Code.indicesAll_nil, tests, maps]
    ac_rfl
  | some a =>
    have guard : (Code.logical none "&&" test (field items "length")).Over A
        ∧ (Code.logical none "&&" test (field items "length")).indices
          = items.indices + items.indices :=
      Code.over_of_parts rfl rfl rfl (by simp [Code.parts, tests, member "length" hi.covers])
        (by simp [Code.parts, tests, member "length" hi.covers])
    refine (whole rfl (forall_mem_singleton.2 rfl) guard.1 (ha a rfl).covers).imp_right fun count =>
      add_right_cancel (count.trans ?_)
    simp only [Code.indicesAll_cons, Code.indicesAll_nil, guard, maps, Option.toList_some]
    ac_rfl

/-! ## Assignments -/

theorem assignments_yields {pos : Position} {value : Compile Code}
    {targets : List (Compile Code)} (allowed : site.Allows A pos) (some_ : targets ≠ [])
    (given : Makes good A value) (each : ∀ t ∈ targets, Makes good A t) :
    Yields good 0 (assignments site pos value targets) Code.indicesAll
      fun cs => ∀ c ∈ cs, c.Ready A := by
  have assigned {used : Multiset Nat} {t v : Code} (ht : t.Ready A) (hv : v.Ready A)
      (count : t.indices + v.indices = used) :
      Yields good used (site.locate pos (.assign none t v)) Code.indices (Code.Ready A) := by
    have drafted : (Code.assign none t v).Draft A ∧ _ := Code.draft_of_parts rfl rfl rfl
      ⟨rfl, rfl, rfl⟩ (by simp [Code.parts, ht.covers, hv.covers]) ht.plain.name
    refine Site.locate_yields allowed (drafted.imp_right fun h => h.trans ?_)
    rw [← count]
    simp [Code.parts]
  rw [assignments]
  refine given.seq fun v hv => ?_
  cases targets with
  | nil => exact absurd rfl some_
  | cons first others =>
    obtain ⟨here, rest⟩ := forall_mem_cons.1 each
    refine here.seq fun t ht => ?_
    have copies : ∀ other ∈ others, Makes good A (do
        let target ← other
        let copy ← first
        site.locate pos (.assign none target copy)) := by
      intro other mem
      refine (rest other mem).seq fun t' ht' => here.seq fun copy hc => ?_
      exact assigned ht' hc (by rw [add_zero, add_comm])
    rw [← add_assoc]
    refine (assigned ht hv rfl).bind fun c hc => (Yields.mapM copies).seq fun cs hcs => .pure ?_ ?_
    · exact forall_mem_cons.2 ⟨hc, hcs⟩
    · rw [Code.indicesAll_cons, add_zero, add_comm]
      rfl

theorem assignedValue_yields {n value body : Node}
    (ofValue : value.isMissing = false → Makes good A (value.lower site))
    (ofBody : value.isMissing = true → Makes good A (body.lower site)) :
    Makes good A (assignedValue n value body (value.lower site) (body.lower site)) := by
  cases value with
  | missing =>
    cases body with
    | missing => exact .throw _
    | _ => exact ofBody rfl
  | _ => exact ofValue rfl

theorem target_yields (h : Makes good A (n.lower site)) : Makes good A (target site n) := by
  unfold target
  split
  · exact h
  · exact .throw _

/-- **The statements of an assignment.** -/
theorem lowerAssignment_yields {pos : Position} {targets : List Node} {value body : Node}
    (within : (assign pos targets value body).Within A site)
    (ofValue : value.isMissing = false → Makes good A (value.lower site))
    (ofBody : value.isMissing = true → Makes good A (body.lower site))
    (each : ∀ n ∈ targets, Makes good A (target site n)) :
    Yields good 0 (lowerAssignment site (.assign pos targets value body)) Code.indicesAll
      fun cs => ∀ c ∈ cs, c.Ready A := by
  have some_ : targets.map (target site) ≠ [] := by
    intro none
    have has := within.worded.targeted
    rw [map_eq_nil_iff.1 none] at has
    cases has
  rw [lowerAssignment, lowerTargets_eq_map]
  exact assignments_yields (within.pos rfl) some_ (assignedValue_yields ofValue ofBody)
    (forall_mem_map.2 each)

/-! ## Names and operators -/

theorem filterPath_draft {name : Bytes}
    (words : ∀ word ∈ Bytes.splitOn Byte.dot name, Script.isIdentifier word = true) :
    (filterPath name).Draft A ∧ (filterPath name).indices = 0 := by
  refine filterPath_induction (P := fun c => c.Draft A ∧ c.indices = 0)
    (Code.draft_ident (by decide)) name ?_
  rintro c word mem ⟨draft, count⟩
  refine (Code.draft_member false draft.covers draft.plain.name
    (Code.draft_ident (words word mem)).1.covers).imp_right fun h => h.trans ?_
  simp [count, Code.indices_ident]

theorem combine?_draft {op : BinaryOp} {l r : Code}
    (defined : (op.combine? .missing .missing).isSome = true) (hl : l.Ready A) (hr : r.Ready A) :
    ((op.combine? l r).getD .missing).Draft A
      ∧ ((op.combine? l r).getD .missing).indices = Code.indicesAll [l, r] := by
  have binary (op : Bytes) : (Code.binary none op l r).Draft A
      ∧ (Code.binary none op l r).indices = Code.indicesAll [l, r] :=
    Code.draft_of_parts rfl rfl rfl ⟨rfl, rfl, rfl⟩ (by simp [Code.parts, hl.covers, hr.covers])
  cases op with
  | other => cases defined
  | or | and => exact Code.draft_logical _ hl.covers hl.plain.listTest? hr.covers
  | _ => exact binary _

/-! ## Trees -/

theorem step_yields {s : Step} (lays : site.Lays good A) (within : n.Within A site)
    (present : n.isMissing = false) (mem : s ∈ n.steps)
    (lowered : ∀ m, s = .part m → Makes good A (m.lower site)) :
    Yields good 0 (s.run site) Code.indices (s.Fits A) := by
  have owned := owns_of_mem_steps n s mem
  cases s with
  | part m => exact lowered m rfl
  | param m => exact loopParam_yields (within.part owned)
  | known pos c =>
    obtain ⟨rfl, rfl⟩ | ⟨m, part, there, rfl, ⟨_, named⟩ | ⟨name, rfl, words⟩⟩ := owned
    · exact Site.locate_yields (within.pos present) (Code.draft_literal _ _)
    · have allowed := within.allowed m (mem_preorder_of_part part (mem_preorder_self there))
      rcases memberKey?_some named with ⟨n, rfl, -⟩ | ⟨s, rfl, -, word⟩
      · exact Site.locate_yields allowed (Code.draft_literal _ _)
      · exact Site.locate_yields allowed (Code.draft_ident word)
    · have allowed := within.allowed m (mem_preorder_of_part part (mem_preorder_self there))
      exact Site.locate_yields allowed (filterPath_draft (words ▸ within.worded.own))
  | expand i => exact lays i
  | refuse e => exact .throw e

theorem ready_of_fits {cs : List Code}
    (each : List.Forall₂ (Step.Fits A) (ns.map .part) cs) : ∀ c ∈ cs, c.Ready A := by
  rw [forall₂_map_left_iff] at each
  exact forall_results (P := Code.Ready A) each

/-- **Forms of what steps yield** are to be located. -/
theorem draft_form {cs : List Code} (worded : n.Worded) (plain : n.body? = none)
    (keeps : n.isAssignment = false) (each : List.Forall₂ (Step.Fits A) n.steps cs) :
    (n.form cs).Draft A ∧ (n.form cs).indices = Code.indicesAll cs := by
  have never (e : CompileError) (c : Code) : ¬(Step.refuse e).Fits A c := id
  -- Other forms hold the results as their parts.
  have of_parts {c : Code} {cs : List Code} (bare : c.loc = none) (present : c.isMissing = false)
      (single : c.shared? = none) (plain : c.Plain) (same : c.parts = cs)
      (below : ∀ d ∈ cs, d.Ready A) (word : c.Worded := by exact trivial) :
      c.Draft A ∧ c.indices = Code.indicesAll cs :=
    same ▸ Code.draft_of_parts bare present single plain
      (fun d mem => (below d (same ▸ mem)).covers) word
  cases n with
  | list => cases plain
  | assign => cases keeps
  | text => cases each; exact Code.draft_literal _ _
  | output p ns =>
    obtain ⟨_, _, rfl⟩ := text_of_body? plain
    cases each
    exact Code.draft_literal _ _
  | symbol | named =>
    rw [results_checked never each]
    exact Code.draft_ident (worded.bindingName rfl)
  | literal p value =>
    cases value with
    | words => cases each with | cons first => exact first.elim
    | _ => cases each; exact Code.draft_literal _ _
  | ifElse p c b a | choice p c b a =>
    obtain _ | ⟨ht, _ | ⟨hx, _ | @⟨_, y, _, _, hy, ⟨⟩⟩⟩⟩ := each
    have other : y.Ready A := by unfold altStep at hy; split at hy <;> exact hy
    exact Code.draft_conditional ht.covers ht.plain.test hx.covers other.covers
  | forEach p v i b a =>
    cases missing : a.isMissing <;> simp only [steps, missing, form] at each ⊢
    · obtain _ | ⟨hx, _ | ⟨hy, _ | ⟨hz, _ | ⟨hw, ⟨⟩⟩⟩⟩⟩ := each
      refine (draft_loop hx hy hz fun _ same => Option.some.inj same ▸ hw).imp_right
        fun h => h.trans ?_
      simp [add_assoc]
    · obtain _ | ⟨hx, _ | ⟨hy, _ | ⟨hz, ⟨⟩⟩⟩⟩ := each
      exact (@draft_loop A _ _ _ none hx hy hz (by simp)).imp_right fun h => h.trans (by simp)
  | embed p t o =>
    obtain _ | ⟨h, ⟨⟩⟩ := each
    refine ⟨?_, by simp [form]⟩
    unfold embedStep at h
    split at h <;> first | exact h | exact h.elim
  | lookup p t k =>
    obtain _ | ⟨ho, _ | @⟨_, c, _, _, hc, ⟨⟩⟩⟩ := each
    have named : c.Ready A := by unfold keyStep at hc; split at hc <;> exact hc
    exact Code.draft_member _ ho.covers ho.plain.name named.covers
  | call p f args =>
    obtain ⟨xs, fs, given, called, rfl⟩ := results_append each
    obtain _ | @⟨_, g, _, _, hg, ⟨⟩⟩ := called
    have ready : g.Ready A := by cases f <;> exact hg
    simp only [form, getLastD_concat, dropLast_concat]
    refine (Code.draft_call ready.covers ready.plain.member fun c mem =>
      (ready_of_fits given c mem).covers).imp_right fun h => h.trans ?_
    simp [add_comm]
  | compare p l links =>
    rcases links with _ | ⟨⟨op, r⟩, _ | ⟨_, _⟩⟩
    · obtain _ | ⟨first, -⟩ := each
      exact first.elim
    · obtain _ | ⟨hx, _ | ⟨hy, ⟨⟩⟩⟩ := each
      exact of_parts rfl rfl rfl ⟨rfl, rfl, rfl⟩ rfl
        (forall_mem_cons.2 ⟨hx, forall_mem_singleton.2 hy⟩)
    · obtain _ | ⟨first, -⟩ := each
      exact first.elim
  | not | neg =>
    obtain _ | ⟨hx, ⟨⟩⟩ := each
    exact of_parts rfl rfl rfl ⟨rfl, rfl, rfl⟩ rfl (forall_mem_singleton.2 hx)
  | binary p op l r =>
    obtain ⟨front, back, operands, checks, rfl⟩ := results_append each
    obtain _ | ⟨hx, _ | ⟨hy, ⟨⟩⟩⟩ := operands
    cases defined : (op.combine? .missing .missing).isSome with
    | false =>
      rw [defined] at checks
      cases checks with | cons first => exact first.elim
    | true =>
      rw [results_checked never checks]
      exact combine?_draft defined hx hy
  | array p ns => exact of_parts rfl rfl rfl ⟨rfl, rfl, rfl⟩ rfl (ready_of_fits each)
  | dict p pairs =>
    have values := results_pairSteps never each
    refine of_parts rfl rfl rfl ⟨rfl, rfl, rfl⟩ ?_ (forall_results values)
    exact map_snd_zip (by simp [values.length_eq])
  | group p ns =>
    rcases ns with _ | ⟨_, _ | ⟨_, _⟩⟩
    · obtain _ | ⟨first, -⟩ := each
      exact first.elim
    · obtain _ | ⟨h, ⟨⟩⟩ := each
      exact ⟨h.draft, by simp [form]⟩
    · exact of_parts rfl rfl rfl ⟨rfl, rfl, rfl⟩ rfl (ready_of_fits each)
  | missing | inherit | block => cases each with | cons first => exact first.elim

theorem parts_yields (within : ∀ n ∈ ns, n.Within A site)
    (lowered : ∀ n ∈ ns, Makes good A (n.lower site)) :
    Yields good 0 (lowerParts site ns) BodyPart.indices fun ps => ∀ p ∈ ps, p.Fits A site := by
  have each : ∀ n ∈ ns, Yields good 0 (bodyPart site n) (fun p => BodyPart.indices [p])
      (BodyPart.Fits A site) := by
    intro n mem
    cases n with
    | text => exact .pure ((within _ mem).pos rfl) rfl
    | _ => exact (lowered _ mem).seq fun c ready => .pure ready rfl
  have count : BodyPart.indices = fun ps => (ps.map fun p => BodyPart.indices [p]).sum := by
    funext ps
    induction ps with
    | nil => rfl
    | cons p ps ih =>
      rw [map_cons, sum_cons, ← ih, ← singleton_append, BodyPart.indices,
        filterMap_append, Code.indicesAll_append]
      rfl
  rw [lowerParts_eq, count]
  exact .mapM each

/-- **Lowering a tree** yields code that is located throughout and holds the
numbers that were handed out for it. -/
theorem lower_yields (n : Node) (lays : site.Lays good A) (within : n.Within A site) :
    Makes good A (n.lower site) := by
  refine lower_induction (E := fun _ => True) (P := fun n => n.Within A site →
    Makes good A (n.lower site)) ?body ?assign ?plain n
    (fun _ _ => trivial) within
  case body =>
    intro n ns body ih within
    have allowed := within.pos (by cases n <;> first | rfl | cases body)
    have inner := within.body body
    rw [lower_eq_body site body]
    refine (parts_yields inner fun m mem => ih m mem (inner m mem)).seq fun parts fits => ?_
    refine (BodyPart.assemble_yields allowed fits).bind fun c ready => ?_
    exact Site.locate_yields allowed ⟨ready.draft, (add_zero _).symm⟩
  case assign =>
    intro pos targets value body iht ihv ihb within
    rw [lower_assign]
    have each := fun t mem => target_yields (iht t mem (within.part (by simp [operands, parts, mem])))
    refine (lowerAssignment_yields within (fun h => ihv h (within.part (by simp [operands, parts])))
      (fun h => ihb h (within.part (by simp [operands, parts]))) each).seq fun cs ready => ?_
    have block : (Code.lambda none [] .missing cs).Over A ∧ _ :=
      Code.over_of_parts rfl rfl rfl (forall_mem_cons.2 ⟨.placed (forall_mem_nil _),
        fun c mem => (ready c mem).covers⟩) rfl
    refine Site.locate_yields (within.pos rfl)
      ((Code.draft_call block.1 rfl (forall_mem_nil _)).imp_right fun h => h.trans ?_)
    rw [Code.indicesAll_cons, block.2]
    show Code.missing.indices + _ + 0 = _
    rw [add_zero, add_zero]
    exact zero_add _
  case plain =>
    intro n plain keeps ih _ within
    cases present : n.isMissing with
    | true =>
      cases n with
      | missing => rw [lower]; exact .throw_bind _
      | _ => cases present
    | false =>
      have each := Yields.forall₂ fun s mem => step_yields lays within present mem fun m h =>
        ih m (h ▸ mem) (within.part (owns_of_mem_steps n (.part m) (h ▸ mem)))
      rw [lower_eq_steps site n plain keeps]
      refine each.seq fun cs fits => ?_
      rw [add_zero]
      exact Site.locate_yields (within.pos present) (draft_form within.worded plain keeps fits)

theorem lowerParts_yields (ns : List Node) (lays : site.Lays good A)
    (within : ∀ n ∈ ns, n.Within A site) :
    Yields good 0 (lowerParts site ns) BodyPart.indices fun ps => ∀ p ∈ ps, p.Fits A site :=
  parts_yields within fun n mem => lower_yields n lays (within n mem)

theorem targets_yields (ns : List Node) (lays : site.Lays good A)
    (within : ∀ n ∈ ns, n.Within A site) :
    ∀ n ∈ ns, Makes good A (target site n) :=
  fun n mem => target_yields (lower_yields n lays (within n mem))

end Node

end TemplateCompiler
