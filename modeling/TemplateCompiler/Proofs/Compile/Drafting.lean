import TemplateCompiler.Proofs.Code.Scoping
import TemplateCompiler.Proofs.Compile.Lowering

/-!
# Templates and their drafts

A unit is compiled in two steps. `Compile.draft` lowers a template to
statements and a body, and `Compile.close` reads the scope off them and turns
them into a unit, which never fails. A draft puts the assignments that come
first into statements; in place of an include the same template is lowered as
one piece of code.

Two drafts of a template match if its includes do (`draft_related`), and so do
a draft and the template in place (`inPlace_related`): they fail alike, since
only text is passed over when assignments are moved to the front. Without
assignments the draft has no statements, and its body is the template in
place (`inPlace_related_of_setFree`).
-/

open List

namespace TemplateCompiler

namespace Node

variable {nodes : List Node} {α : Type}

/-! ## The nodes of a template -/

theorem lowerParts_append (site : Site) (ns ms : List Node) :
    lowerParts site (ns ++ ms) = (do
      let ps ← lowerParts site ns
      let qs ← lowerParts site ms
      pure (ps ++ qs)) := by
  simp only [lowerParts_eq, mapM_append]

/-- What is gathered node by node from a template comes out the same for its
nodes, with outputs replaced by their contents. -/
theorem flatMap_children {gather : Node → List α}
    (output : ∀ p inner, gather (.output p inner) = inner.flatMap gather)
    (list : ∀ p ns, gather (.list p ns) = ns.flatMap gather) (tree : Node) :
    (flatten tree.children).flatMap gather = gather tree := by
  rw [flatMap_flatten output]
  cases tree with
  | list p ns => exact (list p ns).symm
  | _ => exact append_nil _

/-- The includes of a template are those of its nodes. -/
theorem inclusionsOf_children (tree : Node) :
    inclusionsOf (flatten tree.children) = tree.inclusions := by
  rw [inclusionsOf_eq, flatMap_children (fun _ _ => inclusionsOf_eq _) fun _ _ => inclusionsOf_eq _]

/-- A template without assignments has none among its nodes. -/
theorem SetFree.children {tree : Node} (h : tree.SetFree) :
    ∀ n ∈ flatten tree.children, n.SetFree := by
  have nodes : ∀ n ∈ tree.children, n.SetFree := by
    cases tree with
    | list pos ns => exact fun n m => h.part m
    | _ => exact fun n m => mem_singleton.mp m ▸ h
  intro n m
  obtain ⟨outer, inside, m⟩ := mem_flatMap.mp m
  have free := nodes outer inside
  cases outer with
  | output pos inner => exact free.part m
  | _ => exact mem_singleton.mp m ▸ free

/-- **A template in place** is its parts put together. -/
theorem lower_eq_parts (site : Site) (tree : Node) :
    ∃ join : List BodyPart → Compile Code,
      (∀ parts, (join parts).Quiet fun c => c.erase = (BodyPart.code parts).erase)
        ∧ tree.lower site = lowerParts site (flatten tree.children) >>= join := by
  have assembled : ∀ pos parts, (do
      let c ← BodyPart.assemble site pos parts
      site.locate pos c).Quiet fun c => c.erase = (BodyPart.code parts).erase := by
    intro pos parts
    refine (BodyPart.quiet_assemble site pos parts).bind fun c hc => ?_
    exact hc ▸ site.quiet_locate pos c
  have located : ∀ pos parts,
      (site.locate pos (BodyPart.code parts)).Quiet
        fun c => c.erase = (BodyPart.code parts).erase :=
    fun pos parts => site.quiet_locate pos _
  cases body : tree.body? with
  | some ns =>
    refine ⟨_, assembled tree.pos, ?_⟩
    rw [lower_eq_body site body]
    unfold body? at body
    split at body <;> cases body
    · rfl
    · simp [children, flatten]
  | none =>
    cases tree with
    | list => cases body
    | text pos content =>
      refine ⟨_, located pos, ?_⟩
      rw [lower]
      simp [children, flatten, lowerParts_eq, bodyPart, BodyPart.code, Node.pos]
    | output pos ns =>
      obtain ⟨place, content, rfl⟩ := text_of_body? body
      refine ⟨_, located pos, ?_⟩
      rw [lower]
      simp [children, flatten, lowerParts_eq, bodyPart, BodyPart.code, Node.pos]
    | _ =>
      refine ⟨fun parts => pure (BodyPart.code parts), fun parts => .pure rfl, ?_⟩
      simp [children, flatten, lowerParts_eq, bodyPart, BodyPart.code]

/-! ## Hoisting -/

/-- The assignments and the text that a template starts with, and the rest,
which starts with something else. -/
theorem hoist_split (nodes : List Node) :
    ∃ front rest, nodes = front ++ rest ∧ (∀ n ∈ front, n.isText = true ∨ n.isAssignment = true)
      ∧ (∀ n ∈ rest.head?, n.isText = false ∧ n.isAssignment = false)
      ∧ hoist nodes = (front.filter isAssignment, front.filter isText ++ rest) := by
  refine ⟨nodes.takeWhile fun n => n.isText || n.isAssignment,
    nodes.dropWhile fun n => n.isText || n.isAssignment, ?_, ?_, ?_, ?_⟩
  · exact takeWhile_append_dropWhile.symm
  · intro n m
    simpa using mem_takeWhile_imp m
  · intro n first
    have other := head?_dropWhile_not (fun n => n.isText || n.isAssignment) nodes
    rw [Option.mem_def.1 first] at other
    simpa using other
  · rw [hoist, span_eq_takeWhile_dropWhile]

/-- What is hoisted are assignments, and no nodes are made up. -/
theorem mem_hoist {n : Node} :
    (n ∈ (hoist nodes).1 → n ∈ nodes ∧ n.isAssignment = true)
      ∧ (n ∈ (hoist nodes).2 → n ∈ nodes) := by
  obtain ⟨front, rest, rfl, -, -, split⟩ := hoist_split nodes
  rw [split]
  simp only [mem_filter, mem_append]
  exact ⟨fun h => ⟨.inl h.1, h.2⟩, fun h => h.imp And.left id⟩

/-- Nothing is hoisted from a template without assignments. -/
theorem hoist_of_setFree (h : ∀ n ∈ nodes, n.SetFree) :
    hoist nodes = ([], nodes) := by
  obtain ⟨front, rest, rfl, kinds, -, split⟩ := hoist_split nodes
  have plain : ∀ n ∈ front, n.isAssignment = false :=
    fun n m => (h n (mem_append_left _ m)).isAssignment
  have texts : front.filter isText = front :=
    filter_eq_self.mpr fun n m => (kinds n m).resolve_right (by simp [plain n m])
  rw [split, texts, filter_eq_nil_iff.mpr fun n m => by simp [plain n m]]

/-- The assignments among the first nodes are those that are not text. -/
theorem filter_isAssignment {front : List Node}
    (kinds : ∀ n ∈ front, n.isText = true ∨ n.isAssignment = true) :
    front.filter isAssignment = front.filter (!·.isText) := by
  refine filter_congr fun n mem => ?_
  have kind := kinds n mem
  cases n <;> simp_all [isText, isAssignment]

/-- What is gathered from the nodes of a template, and not from its text, is
kept by hoisting, and so is its order. -/
theorem flatMap_hoist {gather : Node → List α} (text : ∀ p content, gather (.text p content) = [])
    (nodes : List Node) :
    (hoist nodes).1.flatMap gather ++ (hoist nodes).2.flatMap gather = nodes.flatMap gather := by
  obtain ⟨front, rest, rfl, kinds, -, split⟩ := hoist_split nodes
  have texts : ∀ n : Node, n.isText = true → gather n = [] := by
    intro n isText
    cases n with
    | text p content => exact text p content
    | _ => cases isText
  have sets (ns : List Node) : (ns.filter (!·.isText)).flatMap gather = ns.flatMap gather := by
    induction ns with
    | nil => rfl
    | cons n ns ih =>
      cases kind : n.isText <;> simp [kind, ih, texts n]
  have none : (front.filter isText).flatMap gather = [] :=
    flatMap_eq_nil_iff.2 fun n mem => texts n (mem_filter.1 mem).2
  rw [split, flatMap_append, flatMap_append, none, nil_append, filter_isAssignment kinds, sets]

/-- Hoisting keeps the includes of a template, and their order. -/
theorem inclusionsOf_hoist (nodes : List Node) :
    inclusionsOf (hoist nodes).1 ++ inclusionsOf (hoist nodes).2 = inclusionsOf nodes := by
  simp only [inclusionsOf_eq]
  exact flatMap_hoist (fun _ _ => rfl) nodes

/-- The text of a template is itself. -/
def textParts (ns : List Node) : List BodyPart :=
  ns.filterMap fun
    | .text pos content => some (.text pos content)
    | _ => none

/-- Text matches itself. -/
theorem textParts_matches {K : Correspondence} {sets : Prop} {w : K.World} {ns : List Node}
    {p : BodyPart} (h : p ∈ textParts ns) : BodyPart.Matches K sets w p p := by
  obtain ⟨n, -, same⟩ := mem_filterMap.mp h
  cases n with
  | text pos content => exact Option.some.inj same ▸ .text pos content
  | _ => exact absurd same (by simp)

/-- Lowering text cannot fail, and changes nothing. -/
theorem lowerParts_texts (site : Site) (ns : List Node) :
    lowerParts site (ns.filter isText) = pure (textParts ns) := by
  rw [lowerParts_eq]
  induction ns with
  | nil => rfl
  | cons n ns ih =>
    cases n with
    | text pos content =>
      rw [filter_cons_of_pos rfl, mapM_cons, ih]
      rfl
    | _ => exact ih

end Node

namespace Compile

/-- The statements and the body of a template. -/
def draft (site : Site) (tree : Node) : Compile (List Code × Code) := do
  let (sets, rest) := Node.hoist (Node.flatten tree.children)
  let statements ← sets.mapM (Node.lowerAssignment site)
  let parts ← Node.lowerParts site rest
  let body ← BodyPart.assemble site tree.pos parts
  pure (statements.flatten, body)

theorem draft_eq (site : Site) {tree : Node} {sets rest : List Node}
    (h : Node.hoist (Node.flatten tree.children) = (sets, rest)) :
    draft site tree = (do
      let statements ← sets.mapM (Node.lowerAssignment site)
      let parts ← Node.lowerParts site rest
      let body ← BodyPart.assemble site tree.pos parts
      pure (statements.flatten, body)) := by
  rw [draft, h]

end Compile

namespace Node

variable {tree : Node}

open Correspondence

variable {K : Correspondence} {sets : Prop} {site site' : Site}

/-! ## Drafts side by side -/

/-- Drafts that match, made after these includes were compiled. -/
structure DraftsMatch (K : Correspondence) (sets : Prop) (is : List Inclusion) (w : K.World)
    (d d' : List Code × Code) : Prop where
  statements : List.Forall₂ (K.Match sets w) d.1 d'.1
  body : K.Match sets w d.2 d'.2
  done : K.Done w is

/-- The statements of matching drafts, without locations. -/
theorem DraftsMatch.erased {is : List Inclusion} {w : K.World} {d d' : List Code × Code}
    (h : DraftsMatch K sets is w d d') :
    List.Forall₂ (Lowered sets (K.Calls w)) (Code.eraseAll d.1) (Code.eraseAll d'.1) := by
  rw [Code.eraseAll_eq_map, Code.eraseAll_eq_map, forall₂_map_left_iff,
    forall₂_map_right_iff]
  exact h.statements

theorem hoisted_related {ns : List Node} (assigns : ∀ n ∈ ns, n.isAssignment = true)
    (hs : MaySet sets ns) (he : K.Expands sets site site' (inclusionsOf ns)) (w : K.World) :
    K.Related w (fun v xss yss => List.Forall₂ (List.Forall₂ (K.Match sets v)) xss yss
        ∧ K.Done v (inclusionsOf ns))
      (ns.mapM (lowerAssignment site)) (ns.mapM (lowerAssignment site')) := by
  rw [inclusionsOf_eq] at he ⊢
  refine (Related.mapM (R := fun v (n : Node) r => K.LowersAll sets n.inclusions v r.1 r.2)
    (fun later h => ⟨matches_later h.1 later, h.2.later later⟩) (fun n mem =>
      lowerAssignment_related (assigns n mem) (hs n mem) fun i here =>
        he i (mem_flatMap_of_mem mem here)) w).imp ?_
  rintro v _ _ - ⟨rs, all, rfl, rfl⟩
  exact ⟨forall₂_results (all.imp fun _ _ h => h.1), Done.flatMap (all.imp fun _ _ h => h.2)⟩

theorem MaySet.children (h : sets ∨ tree.SetFree) :
    MaySet sets (flatten tree.children) :=
  fun n m => h.imp id fun free => free.children n m

/-- **Two drafts of a template** match if its includes do. -/
theorem draft_related (hs : sets ∨ tree.SetFree) (he : K.Expands sets site site' tree.inclusions)
    (w : K.World) :
    K.Related w (DraftsMatch K sets tree.inclusions) (Compile.draft site tree)
      (Compile.draft site' tree) := by
  have may := MaySet.children hs
  rw [← inclusionsOf_children, ← inclusionsOf_hoist] at he ⊢
  rw [Compile.draft_eq site rfl, Compile.draft_eq site' rfl]
  have first := hoisted_related (fun n m => (mem_hoist.1 m).2)
    (fun n m => may n (mem_hoist.1 m).1) he.left w
  refine first.bind fun v xss yss _ ⟨ms, done⟩ => ?_
  have second := lowerParts_related _ (fun n m => may n (mem_hoist.2 m)) he.right v
  refine second.bind fun u ps qs later ⟨mp, done'⟩ => ?_
  have all := (done.later later).append done'
  refine (BodyPart.assemble_related mp all).bind fun x b b' later' ⟨mb, dones⟩ => ?_
  have moved := ms.imp fun _ _ m => matches_later (matches_later m later) later'
  exact Related.pure ⟨rel_flatten moved, mb, dones⟩

/-! ## A template in place and its draft -/

/-- The assignments that a template starts with, where they stand and
hoisted. -/
theorem front_related {front : List Node}
    (kinds : ∀ n ∈ front, n.isText = true ∨ n.isAssignment = true) (hs : MaySet sets front)
    (he : K.Expands sets site site' (inclusionsOf front)) (w : K.World) :
    K.Related w (fun v _ yss => (∃ xss, List.Forall₂ (List.Forall₂ (K.Match sets v)) xss yss)
        ∧ K.Done v (inclusionsOf front))
      (lowerParts site front) ((front.filter isAssignment).mapM (lowerAssignment site')) := by
  induction front generalizing w with
  | nil => exact Related.pure ⟨⟨[], .nil⟩, Done.nil⟩
  | cons n front ih =>
    have rest := ih (fun n m => kinds n (mem_cons_of_mem _ m))
      (fun n m => hs n (mem_cons_of_mem _ m)) he.right
    rcases kinds n mem_cons_self with text | assigns
    · cases n with
      | text pos content =>
        rw [lowerParts_eq, mapM_cons, ← lowerParts_eq, bodyPart, pure_bind,
          filter_cons_of_neg (by simp [isAssignment]), ← bind_pure (List.mapM _ _)]
        refine (rest w).bind fun v ps yss _ h => ?_
        exact Related.pure h
      | _ => simp [isText] at text
    · have here := lowerAssignment_related assigns (hs n mem_cons_self) he.left w
      cases n with
      | assign pos targets value body =>
        have inPlace : lowerParts site (.assign pos targets value body :: front) = (do
            let xs ← lowerAssignment site (.assign pos targets value body)
            let c ← site.locate pos (.call none (.lambda none [] .missing xs) [])
            let ps ← lowerParts site front
            pure (.hole c :: ps)) := by
          rw [lowerParts_eq, mapM_cons, ← lowerParts_eq]
          simp [bodyPart, lower_assign]
        rw [inPlace, filter_cons_of_pos rfl, mapM_cons]
        refine here.bind fun v xs ys _ first => ?_
        refine Related.quiet_left (site.quiet_locate pos _) fun _ _ => ?_
        refine (rest v).bind fun u ps yss later others => ?_
        obtain ⟨⟨xss, ms⟩, dones⟩ := others
        exact Related.pure ⟨⟨xs :: xss, .cons (matches_later first.1 later) ms⟩,
          (first.2.later later).append dones⟩
      | _ => simp [isAssignment] at assigns

/-- **A template in place and its draft** fail alike, and the draft matches
what the template gives: itself, if nothing is assigned in it. -/
theorem inPlace_related (hs : sets ∨ tree.SetFree) (he : K.Expands sets site site' tree.inclusions)
    (w : K.World) :
    K.Related w (fun v c d' => ∃ d, DraftsMatch K sets tree.inclusions v d d'
        ∧ (tree.SetFree → d = ([], c)))
      (tree.lower site) (Compile.draft site' tree) := by
  have may := MaySet.children hs
  obtain ⟨join, quiet, inPlace⟩ := lower_eq_parts site tree
  rw [inPlace]
  by_cases free : tree.SetFree
  · rw [Compile.draft_eq site' (hoist_of_setFree free.children), mapM_nil, pure_bind]
    rw [← inclusionsOf_children] at he ⊢
    refine (lowerParts_related _ may he w).bind fun v ps qs _ h => ?_
    rw [← bind_pure (join ps)]
    refine Related.quiet_left (quiet ps) fun c hc => ?_
    refine Related.quiet_right (BodyPart.quiet_assemble site' _ qs) fun b hb => ?_
    refine Related.pure ⟨([], c), ⟨.nil, ?_, h.2⟩, fun _ => rfl⟩
    rw [Match, hc, hb]
    exact BodyPart.code_match h.1
  · obtain ⟨front, rest, nodes, kinds, -, split⟩ := hoist_split (flatten tree.children)
    rw [Compile.draft_eq site' split, nodes, lowerParts_append, lowerParts_append,
      lowerParts_texts]
    simp only [bind_assoc, pure_bind]
    rw [← inclusionsOf_children, nodes, inclusionsOf_append] at he ⊢
    rw [nodes] at may
    have first := front_related kinds (fun n m => may n (mem_append_left _ m)) he.left w
    refine first.bind fun v ps yss _ h => ?_
    obtain ⟨⟨xss, ms⟩, done⟩ := h
    have second := lowerParts_related rest (fun n m => may n (mem_append_right _ m))
      he.right v
    refine second.bind fun u qs qs' later h => ?_
    have texts : List.Forall₂ (BodyPart.Matches K sets u) (textParts front) (textParts front) :=
      forall₂_same.mpr fun p m => textParts_matches m
    rw [← bind_pure (join _)]
    refine Related.quiet_left (quiet _) fun c _ => ?_
    refine Related.quiet_right (BodyPart.quiet_assemble site' _ _) fun b hb => ?_
    refine Related.pure ⟨(xss.flatten, BodyPart.code (textParts front ++ qs)), ⟨?_, ?_, ?_⟩,
      fun none => absurd none free⟩
    · exact rel_flatten (ms.imp fun _ _ m => matches_later m later)
    · rw [Match, hb]
      exact BodyPart.code_match (rel_append texts h.1)
    · exact (done.later later).append h.2

end Node

/-! ## From a draft to a unit -/

namespace CodeUnit

/-- A unit without its locations. -/
def erase (u : CodeUnit) : CodeUnit :=
  ⟨none, u.name, u.source, Code.eraseAll u.params, u.locals, Code.eraseAll u.statements,
    u.body.erase, u.imports.map ImportRef.erase⟩

theorem erase_function (u : CodeUnit) : (Code.function u).erase = .function u.erase := by
  cases u
  rw [Code.erase]
  rfl

/-- Locating a unit changes nothing but locations. -/
theorem erase_stamp (file : Bytes) (pos : Position) (u : CodeUnit) (n : Nat) :
    (u.stamp file pos n).1.erase = u.erase := by
  have located := Code.erase_stamp file pos (.function u) n
  rw [erase_function] at located
  simp only [stamp, bind, StateT.bind]
  revert located
  rcases (Code.function u).stamp file pos n with ⟨c, m⟩
  intro located
  cases c with
  | function v =>
    rw [erase_function] at located
    exact Code.function.inj located
  | _ => rfl

/-- The unit of a draft that calls these units. -/
def close (o : CompileOptions) (refs : List ImportRef) (draft : CodeUnit) : CodeUnit :=
  let scope := Scope.ofUnit o.reserved draft
  refs.foldl addImport
    { draft with
      params := [.destructure (inputs scope.free), .ident Script.filterNamespace]
      locals := scope.declared }

end CodeUnit

/-- One more import, unless the unit is imported already. -/
def ImportRef.addTo (refs : List ImportRef) (r : ImportRef) : List ImportRef :=
  if refs.any (·.unit == r.unit) then refs else refs ++ [r]

/-- Importing units changes nothing but the imports. -/
theorem CodeUnit.foldl_addImport (refs : List ImportRef) (u : CodeUnit) :
    refs.foldl CodeUnit.addImport u
      = { u with imports := refs.foldl ImportRef.addTo u.imports } := by
  induction refs generalizing u with
  | nil => rfl
  | cons r refs ih =>
    rw [foldl_cons, ih, foldl_cons, CodeUnit.addImport, ImportRef.addTo]
    split <;> rfl

/-- Imports are told apart by their units alone. -/
theorem ImportRef.map_foldl_addTo {f : ImportRef → ImportRef} (keeps : ∀ r, (f r).unit = r.unit)
    (refs into : List ImportRef) :
    (refs.foldl ImportRef.addTo into).map f
      = (refs.map f).foldl ImportRef.addTo (into.map f) := by
  induction refs generalizing into with
  | nil => rfl
  | cons r refs ih =>
    have known : ((into.map f).any fun q => q.unit == (f r).unit)
        = into.any fun q => q.unit == r.unit := by
      simp only [any_map, Function.comp_def, keeps]
    rw [foldl_cons, ih, map_cons, foldl_cons]
    congr 1
    rw [ImportRef.addTo, ImportRef.addTo, known]
    split
    · rfl
    · rw [map_append, map_singleton]

/-- So locations do not matter. -/
theorem ImportRef.map_erase_foldl (refs into : List ImportRef) :
    (refs.foldl ImportRef.addTo into).map ImportRef.erase
      = (refs.map ImportRef.erase).foldl ImportRef.addTo (into.map ImportRef.erase) :=
  map_foldl_addTo (f := ImportRef.erase) (fun _ => rfl) refs into

/-- **The units that are imported** are those added. -/
theorem ImportRef.units_foldl (refs into : List ImportRef) (name : Bytes) :
    name ∈ (refs.foldl addTo into).map ImportRef.unit
      ↔ name ∈ into.map ImportRef.unit ∨ name ∈ refs.map ImportRef.unit := by
  induction refs generalizing into with
  | nil => simp
  | cons r refs ih =>
    have one : name ∈ (addTo into r).map ImportRef.unit
        ↔ name ∈ into.map ImportRef.unit ∨ name = r.unit := by
      unfold addTo
      split
      · next present =>
        obtain ⟨q, mem, same⟩ := any_eq_true.mp present
        refine ⟨.inl, fun either => either.elim id fun here => ?_⟩
        rw [here, ← beq_iff_eq.mp same]
        exact mem_map_of_mem mem
      · rw [map_append, mem_append, map_singleton, mem_singleton]
    rw [foldl_cons, ih, one, map_cons, mem_cons, or_assoc]

/-- Nothing else is imported. -/
theorem ImportRef.mem_of_mem_foldl {refs into : List ImportRef} {r : ImportRef}
    (mem : r ∈ refs.foldl addTo into) : r ∈ into ∨ r ∈ refs := by
  induction refs generalizing into with
  | nil => exact .inl mem
  | cons q refs ih =>
    rcases ih mem with inside | inside
    · unfold addTo at inside
      split at inside
      · exact .inl inside
      · rcases mem_append.mp inside with inside | inside
        · exact .inl inside
        · exact .inr (mem_cons.mpr (.inl (mem_singleton.mp inside)))
    · exact .inr (mem_cons_of_mem _ inside)

/-- The inputs of a unit are not made from the template, so they have no
locations. -/
theorem CodeUnit.erase_inputs (free : List Bytes) : (inputs free).erase = inputs free := by
  have all : ∀ (d : Destructure), d.erase = d →
      (free.foldl (fun d name => d.add (Script.templateName name) { name }) d).erase
        = free.foldl (fun d name => d.add (Script.templateName name) { name }) d := by
    induction free with
    | nil => exact fun d h => h
    | cons name free ih =>
      intro d h
      refine ih _ ?_
      rw [Destructure.erase_add, h]
      rfl
  exact all _ rfl

/-- The scope of a unit does not depend on locations. -/
theorem Scope.ofUnit_congr {reserved : List Bytes} {u v : CodeUnit}
    (statements : Code.eraseAll u.statements = Code.eraseAll v.statements)
    (body : u.body.erase = v.body.erase) : ofUnit reserved u = ofUnit reserved v := by
  rw [ofUnit, ofUnit, ← Code.occurrencesAll_erase, statements, Code.occurrencesAll_erase,
    ← Code.occurrences_erase, body, Code.occurrences_erase]

/-- **A unit takes what its code needs**: its inputs and its locals are read
off its scope. -/
structure CodeUnit.Scoped (o : CompileOptions) (u : CodeUnit) : Prop where
  params : Code.eraseAll u.params
    = [.destructure (CodeUnit.inputs (Scope.ofUnit o.reserved u).free),
      .ident Script.filterNamespace]
  locals : u.locals = (Scope.ofUnit o.reserved u).declared

/-- The unit of a draft that calls these units, up to locations. -/
structure CodeUnit.Closes (o : CompileOptions) (refs : List ImportRef) (u draft : CodeUnit) :
    Prop where
  name : u.name = draft.name
  source : u.source = draft.source
  statements : Code.eraseAll u.statements = Code.eraseAll draft.statements
  body : u.body.erase = draft.body.erase
  scopes : u.Scoped o
  imports : u.imports.map ImportRef.erase
    = (refs.map ImportRef.erase).foldl ImportRef.addTo (draft.imports.map ImportRef.erase)

theorem CodeUnit.Closes.of_erase {o : CompileOptions} {refs : List ImportRef}
    {draft u : CodeUnit} (closed : u.erase = (draft.close o refs).erase) :
    u.Closes o refs draft := by
  rw [close, foldl_addImport] at closed
  have statements : Code.eraseAll u.statements = Code.eraseAll draft.statements :=
    congrArg UnitOf.statements closed
  have body : u.body.erase = draft.body.erase := congrArg UnitOf.body closed
  have scope : Scope.ofUnit o.reserved u = Scope.ofUnit o.reserved draft :=
    Scope.ofUnit_congr statements body
  have name := congrArg UnitOf.name closed
  have source := congrArg UnitOf.source closed
  refine ⟨name, source, statements, body, ⟨?_, ?_⟩, ?_⟩
  · rw [scope]
    refine (congrArg UnitOf.params closed).trans ?_
    show Code.eraseAll [.destructure _, .ident _] = _
    rw [Code.eraseAll, Code.eraseAll, Code.eraseAll, Code.erase, erase_inputs, Code.erase_ident]
  · rw [scope]
    exact congrArg UnitOf.locals closed
  · exact (congrArg UnitOf.imports closed).trans (ImportRef.map_erase_foldl _ _)

namespace Compile

/-- Turns a draft into the unit `name`. -/
def close (o : CompileOptions) (file name : Bytes) (pos : Position) (d : List Code × Code) :
    Compile CodeUnit := do
  let draft : CodeUnit := { name, source := file, statements := d.1, body := d.2 }
  let scope := Scope.ofUnit o.reserved draft
  let refs := draft.callees (← get)
  let u ← locating ((draft.close o refs).stamp file pos)
  debug "compiled unit" [("unit", u.name), ("source", u.source),
    ("inputs", LogRecord.listText scope.free), ("locals", LogRecord.listText scope.declared),
    ("imports", Bytes.decimal u.imports.length)]
  pure u

/-- **A unit is a draft that is closed.** -/
theorem unit_eq (o : CompileOptions) (site : Site) (name : Bytes) (tree : Node) :
    unit o site name tree = draft site tree >>= close o site.file name tree.pos := by
  simp [unit, draft, close, CodeUnit.close]

/-- Closing a draft does not fail, and it does not touch the registry. -/
theorem outcome_close (o : CompileOptions) (file name : Bytes) (pos : Position)
    (d : List Code × Code) (s : Session) :
    ∃ u t, (close o file name pos d).outcome s = (.ok u, t) ∧ s.SameUnits t
      ∧ u.Closes o (CodeUnit.callees s { name, source := file, statements := d.1, body := d.2 })
        { name, source := file, statements := d.1, body := d.2 } :=
  ⟨_, _, rfl, ⟨rfl, rfl, rfl⟩, .of_erase (CodeUnit.erase_stamp _ _ _ _)⟩

end Compile

end TemplateCompiler
