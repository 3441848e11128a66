import TemplateCompiler.Proofs.Code.Names

/-!
# Where code was located

Locating code numbers the pieces that have no location yet, and passes over
those that have one. `Code.Over` describes code on the way: unlocated pieces on
top of finished ones. Locating such code finishes it (`Code.Over.stamp`), and
the numbers in it grow by those that were handed out
(`Code.Over.indices_stamp`).

A loop mentions its items up to three times, and they are one piece of code
with one location. `Code.once` takes the later mentions out, so that
`Code.indices` counts every piece once.
-/

open List

namespace TemplateCompiler.Code

variable {c : Code} {ys : List Code}

/-! ## Numbers -/

/-- The number of a piece of code. -/
def index? (c : Code) : Option Nat := c.loc.map Location.index

/-- The numbers in a piece of code, each as often as the walk meets it. -/
def numbers (c : Code) : Multiset Nat := c.preorder.filterMap index?

/-- The numbers in several pieces of code. -/
def numbersAll (cs : List Code) : Multiset Nat := (cs.map numbers).sum

@[simp] theorem numbersAll_nil : numbersAll [] = 0 := rfl

@[simp] theorem numbersAll_cons (c : Code) (cs : List Code) :
    numbersAll (c :: cs) = c.numbers + numbersAll cs := by
  simp [numbersAll]

theorem numbers_eq (c : Code) (present : c.isMissing = false) :
    c.numbers = (c.index?.toList : Multiset Nat) + numbersAll c.parts := by
  have below (cs : List Code) : ((cs.flatMap preorder).filterMap index? : Multiset Nat)
      = numbersAll cs := by
    induction cs with
    | nil => rfl
    | cons c cs ih =>
      rw [flatMap_cons, filterMap_append, ← Multiset.coe_add, ih, numbersAll_cons]
      rfl
  rw [numbers, preorder_eq c present, filterMap_cons, ← below]
  cases c.index? <;> rfl

/-! ## Loops

The items of a loop stand in its test, in front of the call that maps them,
and, if the loop has an alternative, in front of their length. -/

/-- The name `Array` of the script, which no template can write. -/
def isArrayName : Code → Bool
  | .identifier id => id.builtin && id.name == "Array"
  | _ => false

/-- A member of `Array`. -/
def isArrayMember : Code → Bool
  | .member _ o _ _ => o.isArrayName
  | _ => false

/-- What is tested for being a list. -/
def listTest? : Code → Option Code
  | .call _ f [x] => if f.isArrayMember then some x else none
  | _ => none

/-- The object that a member is taken of. -/
def object? : Code → Option Code
  | .member _ o _ _ => some o
  | _ => none

/-- The items in the test of a loop, and their further mentions there. -/
def tested? : Code → Option (Code × List Code)
  | .logical _ _ l r => l.listTest?.map fun x => (x, r.object?.toList)
  | t => t.listTest?.map fun x => (x, [])

/-- **The items of a loop**, and their further mentions. -/
def shared? : Code → Option (Code × List Code)
  | .conditional _ t (.call _ f _) _ => t.tested?.map fun s => (s.1, f.object?.toList ++ s.2)
  | _ => none

/-- A member whose object is taken out. -/
def withoutObject : Code → Code
  | .member loc _ p computed => .member loc .missing p computed
  | c => c

/-- A test of a loop in which the items are mentioned once. -/
def testOnce : Code → Code
  | .logical loc op l r => .logical loc op l r.withoutObject
  | t => t

/-- A loop in which the items are mentioned once. -/
def loopOnce (c : Code) : Code :=
  match c with
  | .conditional loc t (.call place f args) b =>
    if t.tested?.isSome then .conditional loc t.testOnce (.call place f.withoutObject args) b else c
  | _ => c

mutual

/-- **Code in which the items of each loop are mentioned once.** -/
def once : Code → Code
  | .conditional loc t a b => loopOnce (.conditional loc t.once a.once b.once)
  | .member loc o p computed => .member loc o.once p.once computed
  | .call loc f args => .call loc f.once (onceAll args)
  | .unary loc op a => .unary loc op a.once
  | .binary loc op l r => .binary loc op l.once r.once
  | .logical loc op l r => .logical loc op l.once r.once
  | .array loc es => .array loc (onceAll es)
  | .object loc props => .object loc (onceProps props)
  | .sequence loc es => .sequence loc (onceAll es)
  | .interpolation loc tag runs holes => .interpolation loc tag runs (onceAll holes)
  | .assign loc t v => .assign loc t.once v.once
  | .lambda loc params body block => .lambda loc (onceAll params) body.once (onceAll block)
  | .function ⟨loc, name, source, params, locals, statements, body, imports⟩ =>
    .function ⟨loc, name, source, onceAll params, locals, onceAll statements, body.once, imports⟩
  | c => c

/-- `once` of each piece. -/
def onceAll : List Code → List Code
  | [] => []
  | c :: cs => c.once :: onceAll cs

/-- `once` of the values of an object. -/
def onceProps : List (Bytes × Code) → List (Bytes × Code)
  | [] => []
  | (key, c) :: props => (key, c.once) :: onceProps props

end

/-- **The numbers in a piece of code**, those of the items of a loop counted
once. -/
def indices (c : Code) : Multiset Nat := c.once.numbers

/-- A conditional stays one, at its place. -/
@[elab_as_elim]
theorem once_conditional {motive : Code → Prop} (loc : Option Location) (t a b : Code)
    (each : ∀ t a b, motive (.conditional loc t a b)) : motive (conditional loc t a b).once := by
  show motive (conditional loc t.once a.once b.once).loopOnce
  generalize t.once = t, a.once = a, b.once = b
  unfold loopOnce
  split
  · next same =>
    cases same
    split <;> exact each ..
  · exact each ..

theorem once_kept (c : Code) : c.once.loc = c.loc ∧ c.once.isMissing = c.isMissing
    ∧ c.once.isArrayName = c.isArrayName ∧ c.once.object? = c.object?.map once := by
  cases c with
  | conditional loc t a b => exact once_conditional loc t a b fun _ _ _ => ⟨rfl, rfl, rfl, rfl⟩
  | _ => exact ⟨rfl, rfl, rfl, rfl⟩

theorem isArrayMember_once (c : Code) : c.once.isArrayMember = c.isArrayMember := by
  cases c with
  | conditional loc t a b => exact once_conditional loc t a b fun _ _ _ => rfl
  | member loc o p computed => exact (once_kept o).2.2.1
  | _ => rfl

theorem listTest?_once (c : Code) : c.once.listTest? = c.listTest?.map once := by
  cases c with
  | conditional loc t a b => exact once_conditional loc t a b fun _ _ _ => rfl
  | call loc f args =>
    match args with
    | [] | _ :: _ :: _ => rfl
    | [x] =>
      show (if f.once.isArrayMember then some x.once else none) = Option.map _ (if _ then _ else _)
      rw [isArrayMember_once]
      cases f.isArrayMember <;> rfl
  | _ => rfl

theorem tested?_once (c : Code) :
    c.once.tested? = c.tested?.map fun s => (s.1.once, s.2.map once) := by
  cases c with
  | conditional loc t a b => exact once_conditional loc t a b fun _ _ _ => rfl
  | logical loc op l r =>
    show l.once.listTest?.map _ = (l.listTest?.map _).map _
    rw [listTest?_once, (once_kept r).2.2.2]
    cases l.listTest? <;> cases r.object? <;> rfl
  | call loc f args =>
    show (call loc f args).once.listTest?.map _ = ((call loc f args).listTest?.map _).map _
    rw [listTest?_once]
    cases (call loc f args).listTest? <;> rfl
  | _ => rfl

/-- The mentions of a loop, when they are taken apart themselves. -/
theorem shared?_once (loc : Option Location) (t a b : Code) :
    (conditional loc t.once a.once b.once).shared?
      = (conditional loc t a b).shared?.map fun s => (s.1.once, s.2.map once) := by
  cases a with
  | conditional place t' a' b' => exact once_conditional place t' a' b' fun _ _ _ => rfl
  | call place f args =>
    show t.once.tested?.map _ = (t.tested?.map _).map _
    rw [tested?_once, (once_kept f).2.2.2]
    cases t.tested? <;> cases f.object? <;> simp
  | _ => rfl

/-! ### Locating loops -/

section

variable {file : Bytes} {pos : Position}

theorem shell_stamp (c : Code) (n : Nat) : (c.stamp file pos n).1.shell = c.shell := by
  rcases done_or_bare c with done | ⟨present, bare⟩
  · rw [stamp_done done]
  · exact (stamp_bare file pos bare present n).2.1

theorem isArrayMember_stamp (c : Code) (n : Nat) :
    (c.stamp file pos n).1.isArrayMember = c.isArrayMember := by
  have name (c : Code) : c.erase.isArrayName = c.isArrayName := by cases c <;> rfl
  have member (c : Code) : c.erase.isArrayMember = c.isArrayMember := by
    cases c with
    | member loc o p computed => exact name o
    | _ => rfl
  rw [← member, erase_stamp, member]

theorem object?_stamp (located : ∀ o ∈ c.object?, o.loc.isSome = true) (n : Nat) :
    (c.stamp file pos n).1.object? = c.object? := by
  have shells := @shell_stamp file pos c n
  generalize same : (c.stamp file pos n).1 = d at shells ⊢
  cases c with
  | member loc o p computed =>
    rw [← same]
    cases loc with
    | some loc => rfl
    | none =>
      show some (o.stamp file pos (n + 1)).1 = some o
      rw [stamp_done (.inr (located o rfl))]
  | _ => cases d <;> first | rfl | cases shells

theorem listTest?_stamp (located : ∀ x ∈ c.listTest?, x.loc.isSome = true) (n : Nat) :
    (c.stamp file pos n).1.listTest? = c.listTest? := by
  have shells := @shell_stamp file pos c n
  generalize same : (c.stamp file pos n).1 = d at shells ⊢
  cases c with
  | call loc f args =>
    rw [← same]
    match loc, args with
    | some _, _ | none, [] | none, _ :: _ :: _ => rfl
    | none, [x] =>
      show (if (f.stamp file pos (n + 1)).1.isArrayMember then
        some (x.stamp file pos (f.stamp file pos (n + 1)).2).1 else none) = ite ..
      rw [isArrayMember_stamp]
      split
      · next member => rw [stamp_done (.inr (located x (if_pos member)))]
      · rfl
  | _ => cases d <;> first | rfl | cases shells

theorem tested?_stamp
    (located : ∀ s ∈ c.tested?, s.1.loc.isSome = true ∧ ∀ y ∈ s.2, y.loc.isSome = true) (n : Nat) :
    (c.stamp file pos n).1.tested? = c.tested? := by
  have shells := @shell_stamp file pos c n
  generalize same : (c.stamp file pos n).1 = d at shells ⊢
  cases c with
  | logical loc op l r =>
    rw [← same]
    cases loc with
    | some loc => rfl
    | none =>
      show Option.map _ (listTest? (l.stamp file pos (n + 1)).1) = _
      have items (x : Code) (test : x ∈ l.listTest?) := located _ (Option.mem_map_of_mem _ test)
      rw [listTest?_stamp fun x test => (items x test).1]
      exact Option.map_congr fun x test => by rw [object?_stamp (by simpa using (items x test).2)]
  | call loc f args =>
    have items (x : Code) (test : x ∈ (call loc f args).listTest?) :=
      (located _ (Option.mem_map_of_mem _ test)).1
    rw [← same]
    cases loc with
    | some loc => rfl
    | none => exact congrArg (Option.map _) (listTest?_stamp items n)
  | _ => cases d <;> first | rfl | cases shells

/-- **Locating a loop keeps its items**, which have locations already. -/
theorem shared?_stamp (n : Nat)
    (items : ∀ x ys, c.shared? = some (x, ys) → x.loc.isSome = true ∧ ∀ y ∈ ys, y = x) :
    (c.stamp file pos n).1.shared? = c.shared? := by
  have shells := @shell_stamp file pos c n
  generalize same : (c.stamp file pos n).1 = d at shells ⊢
  cases c with
  | conditional loc t a b =>
    cases loc with
    | some loc => exact same ▸ rfl
    | none =>
      obtain ⟨m, x, y, rfl⟩ : ∃ m x y, conditional x (t.stamp file pos (n + 1)).1
        (a.stamp file pos m).1 y = d := ⟨_, _, _, same⟩
      have inner := @shell_stamp file pos a m
      generalize call : (a.stamp file pos m).1 = a' at inner
      cases a with
      | call place f args =>
        have located (s) (test : s ∈ t.tested?) : s.1.loc.isSome = true
            ∧ ∀ y ∈ f.object?.toList ++ s.2, y.loc.isSome = true := by
          obtain ⟨here, same⟩ := items s.1 _ (Option.mem_map_of_mem _ test)
          exact ⟨here, fun y mem => same y mem ▸ here⟩
        have tests : (t.stamp file pos (n + 1)).1.tested? = t.tested? :=
          tested?_stamp (fun s test => (located s test).imp_right fun all y mem =>
            all y (mem_append_right _ mem)) _
        rw [← call]
        cases place with
        | some place => exact congrArg (Option.map _) tests
        | none =>
          show Option.map _ (t.stamp file pos (n + 1)).1.tested? = Option.map _ _
          rw [tests]
          refine Option.map_congr fun s test => ?_
          rw [object?_stamp fun o mem => (located s test).2 o (by simp_all)]
      | _ => cases a' <;> first | rfl | cases inner
  | _ => cases d <;> first | rfl | cases shells

theorem loopOnce_of_none (plain : c.shared? = none) : c.loopOnce = c := by
  unfold loopOnce
  split
  · next loc t place f args b =>
    have untested : t.tested? = none := Option.map_eq_none_iff.1 plain
    rw [if_neg (by simp [untested])]
  · rfl

theorem onceAll_eq_map (cs : List Code) : onceAll cs = cs.map once := by
  induction cs with
  | nil => rfl
  | cons c cs ih => rw [onceAll, ih]; rfl

theorem onceProps_eq_map (props : List (Bytes × Code)) :
    onceProps props = props.map fun p => (p.1, p.2.once) := by
  induction props with
  | nil => rfl
  | cons p props ih => obtain ⟨key, c⟩ := p; rw [onceProps, ih]; rfl

/-- Where nothing is mentioned again, nothing is taken out. -/
theorem once_of_none {loc : Option Location} {t a b : Code}
    (plain : (conditional loc t a b).shared? = none) :
    (conditional loc t a b).once = .conditional loc t.once a.once b.once :=
  loopOnce_of_none (by rw [shared?_once, plain]; rfl)

theorem parts_once (plain : c.shared? = none) : c.once.parts = c.parts.map once := by
  cases c with
  | conditional => rw [once_of_none plain]; rfl
  | function u => cases u; simp [once, parts, onceAll_eq_map]
  | _ => simp [once, parts, onceAll_eq_map, onceProps_eq_map, Function.comp_def]

end

/-! ## Code on the way -/

/-- A name is an identifier, unless the script knows it. No name that it knows
is assigned to. -/
def Worded : Code → Prop
  | .identifier id => id.builtin = false → Script.isIdentifier id.name = true
  | .assign _ t _ => t.callee? = none
  | _ => True

theorem worded_erase (c : Code) : c.erase.Worded ↔ c.Worded := by
  cases c with
  | assign loc t v => rw [erase, Worded, Worded, callee?_erase]
  | _ => exact Iff.rfl

/-- **Finished code**: every piece has a location that `A` allows, the mentions
of the items of a loop are the same code, and names are identifiers. -/
def Placed (A : Location → Prop) (c : Code) : Prop :=
  ∀ d ∈ c.preorder, (∃ l, d.loc = some l ∧ A l)
    ∧ (∀ x ys, d.shared? = some (x, ys) → ∀ y ∈ ys, y = x) ∧ d.Worded

/-- **Code on the way**: pieces without locations on top of finished code. The
items of a loop are finished when the loop is made. -/
inductive Over (A : Location → Prop) : Code → Prop where
  | placed {c : Code} (h : c.Placed A) : Over A c
  | bare {c : Code} (bare : c.loc = none) (present : c.isMissing = false)
    (items : ∀ x ys, c.shared? = some (x, ys) → x.loc.isSome = true ∧ ∀ y ∈ ys, y = x)
    (word : c.Worded) (below : ∀ d ∈ c.parts, Over A d) : Over A c

section

variable {A B : Location → Prop} {c : Code}

theorem placed_iff (present : c.isMissing = false) :
    c.Placed A ↔ (∃ l, c.loc = some l ∧ A l)
      ∧ ((∀ x ys, c.shared? = some (x, ys) → ∀ y ∈ ys, y = x) ∧ c.Worded)
      ∧ ∀ d ∈ c.parts, d.Placed A := by
  simp only [Placed]
  rw [preorder_eq c present, forall_mem_cons, and_assoc]
  simp only [mem_flatMap, forall_exists_index, and_imp]
  exact and_congr_right fun _ => and_congr_right fun _ =>
    ⟨fun h d part e below => h e d part below, fun h e d part below => h d part e below⟩

theorem Placed.mono (h : c.Placed A) (weaken : ∀ l, A l → B l) : c.Placed B := by
  intro d mem
  obtain ⟨⟨l, located, allowed⟩, copies⟩ := h d mem
  exact ⟨⟨l, located, weaken l allowed⟩, copies⟩

/-- Finished code is not located again. -/
theorem Placed.done (h : c.Placed A) : c.isMissing = true ∨ c.loc.isSome = true := by
  cases present : c.isMissing with
  | true => exact .inl rfl
  | false =>
    obtain ⟨⟨l, located, -⟩, -⟩ := (placed_iff present).1 h
    exact .inr (by rw [located]; rfl)

theorem Placed.isSome_loc (h : c.Placed A) (present : c.isMissing = false) :
    c.loc.isSome = true :=
  h.done.resolve_left (by simp [present])

variable {file : Bytes} {pos : Position}

/-- **Locating finishes code** that is on the way. -/
theorem Over.stamp (h : c.Over A) (allowed : ∀ n, A ⟨file, pos.line, pos.column, n⟩) (n : Nat) :
    (c.stamp file pos n).1.Placed A := by
  induction h generalizing n with
  | placed h => rwa [stamp_done h.done]
  | @bare c bare present items word below ih =>
    obtain ⟨located, shells, parts⟩ := stamp_bare file pos bare present n
    refine (placed_iff ((isMissing_of_shell shells).trans present)).2
      ⟨⟨_, located, allowed n⟩, ⟨?_, ?_⟩, ?_⟩
    · intro x ys loop
      rw [shared?_stamp n items] at loop
      exact (items x ys loop).2
    · rwa [← worded_erase, erase_stamp, worded_erase]
    · rw [(Prod.mk.inj parts).1]
      intro e mem
      obtain ⟨d, part, m, rfl⟩ := mem_stampAll mem
      exact ih d part m

/-- Finished code is left alone. -/
theorem stampAll_done {cs : List Code} (placed : ∀ c ∈ cs, c.Placed A) (n : Nat) :
    stampAll file pos cs n = (cs, n) := by
  induction cs generalizing n with
  | nil => rfl
  | cons c cs ih =>
    obtain ⟨first, others⟩ := forall_mem_cons.1 placed
    simp only [stampAll, bind_apply, pure_apply, stamp_done first.done, ih others]

/-! ### Counting -/

/-- The numbers in several pieces of code, those of the items of a loop counted
once. -/
def indicesAll (cs : List Code) : Multiset Nat := (cs.map indices).sum

@[simp] theorem indicesAll_nil : indicesAll [] = 0 := rfl

@[simp] theorem indicesAll_cons (c : Code) (cs : List Code) :
    indicesAll (c :: cs) = c.indices + indicesAll cs := by
  simp [indicesAll]

@[simp] theorem indicesAll_append (cs ds : List Code) :
    indicesAll (cs ++ ds) = indicesAll cs + indicesAll ds := by
  simp [indicesAll]

theorem indicesAll_flatten (css : List (List Code)) :
    indicesAll css.flatten = (css.map indicesAll).sum := by
  induction css with
  | nil => rfl
  | cons cs css ih => rw [flatten_cons, indicesAll_append, ih, map_cons, sum_cons]

/-- The further mentions of the items of a loop. -/
def mentions (c : Code) : List Code := (c.shared?.map Prod.snd).getD []

theorem numbers_withoutObject (c : Code) :
    c.withoutObject.numbers + numbersAll c.object?.toList = c.numbers := by
  cases c with
  | member loc o p computed =>
    rw [numbers_eq _ rfl, numbers_eq (member loc o p computed) rfl]
    show _ + (0 + (p.numbers + 0)) + (o.numbers + 0) = _ + (o.numbers + (p.numbers + 0))
    rw [zero_add, add_assoc, add_comm _ (o.numbers + 0)]
    ac_rfl
  | _ => exact add_zero _

theorem numbers_testOnce {x : Code} (test : c.tested? = some (x, ys)) :
    c.testOnce.numbers + numbersAll ys = c.numbers := by
  cases c with
  | logical loc op l r =>
    obtain ⟨x', tests, same⟩ := Option.map_eq_some_iff.1 test
    cases same
    rw [testOnce, numbers_eq _ rfl, numbers_eq (logical loc op l r) rfl]
    show _ + (l.numbers + (r.withoutObject.numbers + 0)) + _ = _ + (l.numbers + (r.numbers + 0))
    rw [← numbers_withoutObject r]
    ac_rfl
  | call loc f args =>
    obtain ⟨x', tests, same⟩ := Option.map_eq_some_iff.1 test
    cases same
    exact add_zero _
  | _ => cases test

/-- **The numbers in a piece of code** are its own and those of its parts,
without those of further mentions. -/
theorem indices_eq (present : c.isMissing = false) :
    c.indices + indicesAll c.mentions = (c.index?.toList : Multiset Nat) + indicesAll c.parts := by
  have all (cs : List Code) : indicesAll cs = numbersAll (cs.map once) := by
    rw [indicesAll, numbersAll, map_map]
    rfl
  obtain ⟨located, whole, -⟩ := once_kept c
  cases loop : c.shared? with
  | none =>
    rw [indices, numbers_eq _ (whole.trans present), parts_once loop, index?, index?, located, all,
      all, mentions, loop]
    exact add_zero _
  | some s =>
    unfold shared? at loop
    split at loop
    · next loc t place f args b =>
      obtain ⟨⟨x, zs⟩, test, rfl⟩ := Option.map_eq_some_iff.1 loop
      have test' : t.once.tested? = some (x.once, zs.map once) := by rw [tested?_once, test]; rfl
      have once : (conditional loc t (call place f args) b).once = .conditional loc t.once.testOnce
          (.call place f.once.withoutObject (onceAll args)) b.once := if_pos (by rw [test']; rfl)
      have object := numbers_withoutObject f.once
      have again : numbersAll ((f.object?.toList ++ zs).map Code.once)
          = numbersAll (f.object?.map Code.once).toList + numbersAll (zs.map Code.once) := by
        rw [Option.toList_map, map_append, numbersAll, map_append, sum_append]
        rfl
      rw [(once_kept f).2.2.2] at object
      rw [indices, once, numbers_eq _ rfl, all, all, mentions, shared?, loop]
      show _ + (_ + ((Code.call place f.once.withoutObject (onceAll args)).numbers + _))
        + numbersAll ((f.object?.toList ++ zs).map Code.once)
        = _ + (t.once.numbers + ((Code.call place f.once (onceAll args)).numbers + _))
      rw [numbers_eq (.call ..) rfl, numbers_eq (.call place f.once _) rfl, parts, parts, numbersAll_cons, numbersAll_cons, ← object, ← numbers_testOnce test', again]
      ac_rfl
    · cases loop

/-- Code without a location has the numbers of its parts. -/
theorem indices_bare (bare : c.loc = none) (present : c.isMissing = false)
    (plain : c.shared? = none) : c.indices = indicesAll c.parts := by
  have counted := indices_eq present
  rw [mentions, plain, index?, bare] at counted
  simpa using counted

theorem indicesAll_stampAll (cs : List Code)
    (each : ∀ c ∈ cs, ∀ n, (c.stamp file pos n).1.indices + Multiset.range n
      = c.indices + Multiset.range (c.stamp file pos n).2) (n : Nat) :
    indicesAll (stampAll file pos cs n).1 + Multiset.range n
      = indicesAll cs + Multiset.range (stampAll file pos cs n).2 := by
  induction cs generalizing n with
  | nil => rfl
  | cons c cs ih =>
    obtain ⟨first, others⟩ := forall_mem_cons.1 each
    have rest := ih others (c.stamp file pos n).2
    show indicesAll ((c.stamp file pos n).1 :: (stampAll file pos cs (c.stamp file pos n).2).1) + _
      = indicesAll (c :: cs) + Multiset.range (stampAll file pos cs (c.stamp file pos n).2).2
    rw [indicesAll_cons, indicesAll_cons, add_right_comm, first n, add_right_comm, add_assoc, rest,
      add_assoc]

/-- **Locating code on the way** adds the numbers that it hands out to those
that are there. -/
theorem Over.indices_stamp (h : c.Over A) (n : Nat) :
    (c.stamp file pos n).1.indices + Multiset.range n
      = c.indices + Multiset.range (c.stamp file pos n).2 := by
  induction h generalizing n with
  | placed h => rw [stamp_done h.done]
  | @bare c bare present items word below ih =>
    obtain ⟨located, shells, inside⟩ := stamp_bare file pos bare present n
    have handed := indicesAll_stampAll c.parts ih (n + 1)
    obtain ⟨same, count⟩ := Prod.mk.inj inside
    have after := indices_eq ((isMissing_of_shell shells).trans present)
    have before := indices_eq present
    rw [mentions, shared?_stamp n items, ← mentions, same, index?, located] at after
    rw [index?, bare] at before
    rw [count]
    refine add_right_cancel (b := indicesAll c.mentions) ?_
    rw [add_right_comm, after, add_right_comm c.indices, before]
    show (↑[n] : Multiset Nat) + _ + _ = 0 + _ + _
    rw [zero_add, ← handed, Multiset.range_succ, Multiset.add_cons, Multiset.coe_singleton,
      add_assoc, Multiset.singleton_add]

end

end TemplateCompiler.Code
