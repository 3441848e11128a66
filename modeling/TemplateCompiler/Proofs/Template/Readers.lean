import TemplateCompiler.Proofs.Template.Constructs

/-!
# What the readers build

The readers of `Template.Expression` make an expression of words. Whatever
they return is built from what single words stand for by the constructs of the
language, each with operands as tight as the table of precedences demands, and
an error stands where one of the words does, or at their end.

`Builds` collects what has to be known of a property of expressions for it to
hold of everything that is built so, and `Reports` says it of a reader, whether
it succeeds or fails. The proofs follow the recursion of the readers and end
as it does; what the trees of the parser look like is then a matter of one
instance of `Builds` for each property.
-/

open List

namespace TemplateCompiler

variable {es : List Element}

/-- **What reading gives**: a result with `Q`, or an error with `E`. -/
def Gives {α : Type} (E : SyntaxError → Prop) (Q : α → Prop) : Except SyntaxError α → Prop
  | .ok a => Q a
  | .error e => E e

/-- **What reading tells**: a result with `Q`, or an error at a position in
`P`. -/
abbrev Tells {α : Type} (P : Position → Prop) (Q : α → Prop) : Except SyntaxError α → Prop :=
  Gives (P ·.pos) Q

/-- **What reading reports** where every string is closed: it tells as much, and
no error is about the end of a string. -/
abbrev Reports {α : Type} (P : Position → Prop) (Q : α → Prop) : Except SyntaxError α → Prop :=
  Gives (fun e => P e.pos ∧ e.fault ≠ .unterminatedString) Q

namespace Gives

variable {α β : Type} {E : SyntaxError → Prop} {P : Position → Prop} {Q : α → Prop}
  {x : Except SyntaxError α}

theorem bind {R : β → Prop} {f : α → Except SyntaxError β} (first : Gives E Q x)
    (next : ∀ a, Q a → Gives E R (f a)) : Gives E R (x >>= f) := by
  cases x with
  | error e => exact first
  | ok a => exact next a first

theorem mono {R : α → Prop} (given : Gives E Q x) (weaken : ∀ a, Q a → R a) : Gives E R x := by
  cases x with
  | error e => exact given
  | ok a => exact weaken a given

theorem tells (reported : Reports P Q x) : Tells P Q x := by
  cases x with
  | error e => exact reported.1
  | ok a => exact reported

theorem reports (told : Tells P Q x) (closed : ∀ p, x ≠ .error ⟨p, .unterminatedString⟩) :
    Reports P Q x := by
  cases x with
  | error e => exact ⟨told, fun same => closed e.pos (congrArg (fun f => Except.error (SyntaxError.mk e.pos f)) same)⟩
  | ok a => exact told

end Gives

namespace Expression

variable {stop : Position} {ts us : List Token}

/-! ## The words that are left -/

theorem takeWord?_suffix {word : Bytes} {found : { rest : List Token // rest.length < ts.length }}
    (h : takeWord? word ts = some found) : found.val <:+ ts := by
  cases ts with
  | nil => cases h
  | cons t rest =>
    rw [takeWord?] at h
    split at h
    · cases h
      exact suffix_cons t rest
    · cases h

theorem takeOp?_suffix {op : Op} {found : { rest : List Token // rest.length < ts.length }}
    (h : takeOp? op ts = some found) : found.val <:+ ts := by
  cases ts with
  | nil => cases h
  | cons t rest =>
    rw [takeOp?] at h
    split at h
    · cases h
      exact suffix_cons t rest
    · cases h

theorem dotted_suffix (name : Bytes) (ts : List Token) : (dotted name ts).2 <:+ ts := by
  fun_induction dotted name ts with
  | case1 name p part q rest ih =>
    exact ih.trans ((suffix_cons _ _).trans (suffix_cons _ _))
  | case2 => exact suffix_refl _

/-- What a joint says about its chain, and where it stands. -/
theorem joint?_spec {c : Chain} {j : Joint ts} (h : c.joint? ts = some j) :
    chainOf? j.op = some c ∧ (j.negated = true → j.op = .isIn) ∧ (∃ t ∈ ts, t.pos = j.pos) ∧
      j.rest <:+ ts := by
  unfold Chain.joint? at h
  split at h
  · next sign pos rest =>
    obtain ⟨op, same, rfl⟩ := Option.map_eq_some_iff.1 h
    refine ⟨?_, (nomatch ·), ⟨_, mem_cons_self, rfl⟩, suffix_cons _ _⟩
    cases c <;> cases sign <;> cases same <;> rfl
  · next word pos rest =>
    split at h
    · next op same =>
      cases h
      refine ⟨?_, (nomatch ·), ⟨_, mem_cons_self, rfl⟩, suffix_cons _ _⟩
      cases c with
      | or | and | isIn =>
        rw [Chain.ofName?] at same
        split at same <;> cases same
        rfl
      | concat | sum | product => cases same
    · split at h
      · next isNot =>
        obtain ⟨after, same, rfl⟩ := Option.map_eq_some_iff.1 h
        rw [Bool.and_eq_true, beq_iff_eq] at isNot
        refine ⟨?_, fun _ => rfl, ⟨_, mem_cons_self, rfl⟩,
          (takeWord?_suffix same).trans (suffix_cons _ _)⟩
        rw [isNot.1]
        rfl
      · cases h
  · cases h

/-! ## Properties that building keeps -/

/-- **A property of all expressions that are read from `ts`.** `Good k` holds
of what may stand where the table asks for rank `k`; single words have it, and
every construct keeps it. Positions are in `P`. -/
structure Builds (P : Position → Prop) (Good : Nat → Node → Prop) (stop : Position)
    (ts : List Token) : Prop where
  stop : P stop
  words : ∀ t ∈ ts, P t.pos
  mono : ∀ {n k m}, Good k n → k ≤ m → Good m n
  symbol : ∀ {name p}, ⟨.name name, p⟩ ∈ ts → Good 2 (.symbol p name)
  filter : ∀ {name p q after r args}, ⟨.op .bar, p⟩ :: ⟨.name name, q⟩ :: after <:+ ts →
    P r → (∀ n ∈ args, Good 26 n) → Good 2 (.call r (.symbol q (dotted name after).1) args)
  string : ∀ {p s}, ⟨.string s, p⟩ ∈ ts → Good 2 (.literal p (.string s))
  int : ∀ {p digits n}, P p → integer? digits = some n → Good 2 (.literal p (.int n))
  float : ∀ {p text d}, ⟨.float text, p⟩ ∈ ts → fraction? text = some d →
    Good 2 (.literal p (.float d))
  constant : ∀ {p name v}, P p → constant? name = some v → Good 2 (.literal p v)
  group : ∀ {p ns}, P p → (∀ n ∈ ns, Good 26 n) → Good 2 (.group p ns)
  array : ∀ {p ns}, P p → (∀ n ∈ ns, Good 26 n) → Good 2 (.array p ns)
  dict : ∀ {p pairs}, P p → (∀ e ∈ pairs, Good 2 e.1 ∧ Good 26 e.2) → Good 2 (.dict p pairs)
  call : ∀ {p f args}, P p → Good 2 f → (∀ n ∈ args, Good 26 n) → Good 2 (.call p f args)
  lookup : ∀ {p t k}, P p → Good 2 t → Good 26 k → Good 2 (.lookup p t k)
  member : ∀ {p q t name}, P p → Good 2 t → ⟨.name name, q⟩ ∈ ts →
    Good 2 (.lookup p t (.literal q (.string name)))
  negate : ∀ {p n}, P p → Good 4 n → Good 4 (negate p n)
  power : ∀ {p l r}, P p → Good 4 l → Good 6 r → Good 6 (.binary p .pow l r)
  join : ∀ {us l r} {c : Chain} {j : Joint us}, us <:+ ts → c.joint? us = some j →
    Good c.level.rank l → Good c.operand.rank r → Good c.level.rank (j.join l r)
  compare : ∀ {p first links}, P p → Good 12 first → links ≠ [] →
    (∀ l ∈ links, (∃ op : Op, op.isComparison = true ∧ l.1 = op.text) ∧ Good 12 l.2) →
    Good 14 (.compare p first links)
  test : ∀ {p l r}, P p → Good 14 l → Good 14 r →
    Good 16 (.binary p .is l r) ∧ Good 16 (.not p (.binary p .is l r))
  not : ∀ {p n}, P p → Good 20 n → Good 20 (.not p n)
  choice : ∀ {p c b a}, P p → Good 24 c → Good 24 b → a = .missing ∨ Good 24 a →
    Good 26 (.choice p c b a)

variable {P : Position → Prop} {Good : Nat → Node → Prop}

/-- What was read, where rank `k` is due, and the words left of `ts`. -/
structure Reads (Good : Nat → Node → Prop) (ts : List Token) (k : Nat) (n : Node)
    (rest : List Token) : Prop where
  good : Good k n
  left : rest <:+ ts

/-- An element of a list that was read from `ts`. -/
def Element.Reads (Good : Nat → Node → Prop) (ts : List Token) : Element → Prop
  | .value n => Good 26 n
  | .keyword p name n => ⟨.name name, p⟩ ∈ ts ∧ Good 26 n
  | .entry k v => Good 2 k ∧ Good 26 v

theorem values_good (all : ∀ x ∈ es, x.Reads Good ts) :
    ∀ n ∈ es.filterMap Element.value?, Good 26 n := by
  intro n mem
  obtain ⟨x, inside, same⟩ := mem_filterMap.1 mem
  cases x <;> cases same
  exact all _ inside

theorem entries_good (all : ∀ x ∈ es, x.Reads Good ts) :
    ∀ e ∈ es.filterMap Element.entry?, Good 2 e.1 ∧ Good 26 e.2 := by
  intro e mem
  obtain ⟨x, inside, same⟩ := mem_filterMap.1 mem
  cases x <;> cases same
  exact all _ inside

namespace Builds

theorem front (builds : Builds P Good stop ts) (left : us <:+ ts) : P (frontPos stop us) := by
  cases us with
  | nil => exact builds.stop
  | cons t us => exact builds.words t (left.subset mem_cons_self)

theorem arguments (builds : Builds P Good stop ts)
    (all : ∀ x ∈ es, x.Reads Good ts) : ∀ n ∈ Element.arguments es, Good 26 n := by
  have keyword : ∀ x ∈ es.filterMap Element.keyword?, P x.1 ∧ Good 2 x.2.1 ∧ Good 26 x.2.2 := by
    intro x mem
    obtain ⟨e, inside, same⟩ := mem_filterMap.1 mem
    cases e <;> cases same
    obtain ⟨word, value⟩ := all _ inside
    exact ⟨builds.words _ word, builds.symbol word, value⟩
  intro n mem
  rw [Element.arguments, mem_append] at mem
  obtain mem | mem := mem
  · exact values_good all n mem
  · split at mem
    · cases mem
    · next first more keywords =>
      cases mem_singleton.1 mem
      have here := (keyword _ (by rw [keywords]; exact mem_cons_self)).1
      refine builds.mono (builds.dict here fun e inside => ?_) (by decide)
      obtain ⟨x, found, rfl⟩ := mem_map.1 inside
      exact (keyword x found).2

theorem expect_tells (builds : Builds P Good stop ts) (left : us <:+ ts) (op : Op) :
    Reports P (fun r => r.rest <:+ ts) (expect stop op us) := by
  rw [expect]
  split
  · next found => exact (takeOp?_suffix found).trans left
  · exact ⟨builds.front left, nofun⟩

/-! ## The readers -/

-- The words at which a reader starts are the end of the words at which all
-- began, so what is known of single words never has to be restated.
variable {all : List Token} (builds : Builds P Good stop all)
include builds

mutual

theorem conditional_tells {ts : List Token} (left : ts <:+ all) :
    Reports P (fun r => Reads Good all 26 r.value r.rest) (conditional stop ts) := by
  have here := builds.front left
  rw [conditional]
  refine (level_tells .or left).bind fun body read => ?_
  have := body.shorter
  dsimp only
  split
  · exact ⟨builds.mono read.good (by decide), read.left⟩
  · next afterIf shorter found =>
    refine (level_tells .or ((takeWord?_suffix found).trans read.left)).bind fun cond readCond => ?_
    have : cond.rest.length < afterIf.length := cond.shorter
    split
    · exact ⟨builds.choice here readCond.good read.good (.inl rfl), readCond.left⟩
    · next afterElse shorter found =>
      refine (level_tells .or ((takeWord?_suffix found).trans readCond.left)).bind
        fun alt readAlt => ?_
      exact ⟨builds.choice here readCond.good read.good (.inr readAlt.good), readAlt.left⟩
termination_by 40 * ts.length + 26
decreasing_by all_goals simp only [Level.rank]; omega

theorem level_tells {ts : List Token} (l : Level) (left : ts <:+ all) :
    Reports P (fun r => Reads Good all l.rank r.value r.rest) (level stop l ts) := by
  have here := builds.front left
  cases l with
  | or => rw [level]; exact chain_tells .or left
  | and => rw [level]; exact chain_tells .and left
  | isIn => rw [level]; exact chain_tells .isIn left
  | concat => rw [level]; exact chain_tells .concat left
  | sum => rw [level]; exact chain_tells .sum left
  | product => rw [level]; exact chain_tells .product left
  | not =>
    rw [level]
    split
    · next rest shorter found =>
      refine (level_tells .not ((takeWord?_suffix found).trans left)).bind fun target read => ?_
      exact ⟨builds.not here read.good, read.left⟩
    · refine (level_tells .isIn left).mono fun r read => ?_
      exact ⟨builds.mono read.good (by decide), read.left⟩
  | is =>
    rw [level]
    refine (level_tells .comparison left).bind fun operand read => ?_
    have := operand.shorter
    dsimp only
    split
    · exact ⟨builds.mono read.good (by decide), read.left⟩
    · next afterIs shorter found =>
      have there := builds.front read.left
      have left := (takeWord?_suffix found).trans read.left
      split
      · refine (level_tells .comparison left).bind fun right readRight => ?_
        exact ⟨(builds.test there read.good readRight.good).1, readRight.left⟩
      · next afterNot shorter found =>
        refine (level_tells .comparison ((takeWord?_suffix found).trans left)).bind
          fun right readRight => ?_
        exact ⟨(builds.test there read.good readRight.good).2, readRight.left⟩
  | comparison =>
    rw [level]
    refine (level_tells .concat left).bind fun first read => ?_
    have := first.shorter
    refine (links_tells read.left).bind fun more readMore => ?_
    split
    · exact ⟨builds.mono read.good (by decide), readMore.2⟩
    · next some_ => exact ⟨builds.compare here read.good some_ readMore.1, readMore.2⟩
  | power =>
    rw [level]
    refine (level_tells .unary left).bind fun base read => ?_
    have := base.shorter
    dsimp only
    split
    · exact ⟨builds.mono read.good (by decide), read.left⟩
    · next afterPower shorter found =>
      refine (level_tells .power ((takeOp?_suffix found).trans read.left)).bind
        fun exponent readExponent => ?_
      exact ⟨builds.power (builds.front read.left) read.good readExponent.good, readExponent.left⟩
  | unary =>
    rw [level]
    refine (signed_tells left).bind fun operand read => ?_
    have := operand.shorter
    exact (filters_tells read.left read.good).bind fun whole readWhole => readWhole
termination_by 40 * ts.length + l.rank
decreasing_by all_goals simp only [Level.rank, Chain.operand]; omega

theorem chain_tells {ts : List Token} (c : Chain) (left : ts <:+ all) :
    Reports P (fun r => Reads Good all c.level.rank r.value r.rest) (chain stop c ts) := by
  rw [chain]
  refine (level_tells c.operand left).bind fun first read => ?_
  have := first.shorter
  have loose : c.operand.rank ≤ c.level.rank := by cases c <;> decide
  exact (chainRest_tells c read.left (builds.mono read.good loose)).bind
    fun whole readWhole => readWhole
termination_by 40 * ts.length + c.operand.rank + 1

theorem chainRest_tells {ts : List Token} (c : Chain) {n : Node} (left : ts <:+ all)
    (good : Good c.level.rank n) :
    Reports P (fun r => Reads Good all c.level.rank r.value r.rest) (chainRest stop c n ts) := by
  rw [chainRest]
  split
  · exact ⟨good, left⟩
  · next joint found =>
    have := joint.shorter
    have := c.operand.rank_le
    obtain ⟨-, -, -, behind⟩ := joint?_spec found
    refine (level_tells c.operand (behind.trans left)).bind fun right read => ?_
    have := right.shorter
    exact (chainRest_tells c read.left (builds.join left found good read.good)).bind
      fun whole readWhole => readWhole
termination_by 40 * ts.length

theorem links_tells {ts : List Token} (left : ts <:+ all) :
    Reports P (fun r => (∀ l ∈ r.value, (∃ op : Op, op.isComparison = true ∧ l.1 = op.text) ∧
      Good 12 l.2) ∧ r.rest <:+ all) (links stop ts) := by
  generalize same : ts = us at left ⊢
  rw [links.eq_def]
  split
  · next op pos rest =>
    split
    · next comparison =>
      refine (level_tells .concat ((suffix_cons _ _).trans left)).bind fun operand read => ?_
      have := operand.shorter
      refine (links_tells read.left).bind fun more readMore => ?_
      exact ⟨forall_mem_cons.2 ⟨⟨⟨op, comparison, rfl⟩, read.good⟩, readMore.1⟩, readMore.2⟩
    · exact ⟨forall_mem_nil _, left⟩
  · exact ⟨forall_mem_nil _, left⟩
termination_by 40 * ts.length
decreasing_by all_goals subst same; simp only [Level.rank, length_cons]; omega

theorem signed_tells {ts : List Token} (left : ts <:+ all) :
    Reports P (fun r => Reads Good all 4 r.value r.rest) (signed stop ts) := by
  have here := builds.front left
  rw [signed]
  split
  · next rest shorter found =>
    refine (signed_tells ((takeOp?_suffix found).trans left)).bind fun operand read => ?_
    exact ⟨builds.negate here read.good, read.left⟩
  · split
    · next rest shorter found =>
      exact (signed_tells ((takeOp?_suffix found).trans left)).bind fun operand read => read
    · refine (primary_tells left).mono fun r read => ?_
      exact ⟨builds.mono read.good (by decide), read.left⟩
termination_by 40 * ts.length + 1

theorem primary_tells {ts : List Token} (left : ts <:+ all) :
    Reports P (fun r => Reads Good all 2 r.value r.rest) (primary stop ts) := by
  generalize same : ts = us at left ⊢
  rw [primary.eq_def]
  split
  · exact ⟨builds.stop, nofun⟩
  · next word pos rest =>
    have mem : ⟨word, pos⟩ ∈ all := left.subset mem_cons_self
    have here : P pos := builds.words _ mem
    have behind : rest <:+ all := (suffix_cons _ _).trans left
    have items (kind : ListKind) (closer : Op) := elements_tells kind closer true behind
    -- Whatever the atom is, the members behind it are read in the same way.
    have finish (atom : Extended Node rest) (read : Reads Good all 2 atom.value atom.rest) :
        Reports P (fun r : Parsed Node (⟨word, pos⟩ :: rest) => Reads Good all 2 r.value r.rest)
          (members stop atom.value atom.rest >>= fun whole => .ok ⟨whole.value, whole.rest, by
            have := atom.notLonger
            have := whole.notLonger
            simp only [length_cons]
            omega⟩) := by
      have := atom.notLonger
      exact (members_tells read.left read.good).bind fun whole readWhole => readWhole
    have word {n : Node} (good : Good 2 n) := finish ⟨n, rest, Nat.le_refl _⟩ ⟨good, behind⟩
    dsimp only
    split
    · exact word (builds.string mem)
    · split
      · next value => exact word (builds.int here value)
      · exact ⟨here, nofun⟩
    · split
      · next value => exact word (builds.float mem value)
      · exact ⟨here, nofun⟩
    · split
      · next value => exact word (builds.constant here value)
      · exact word (builds.symbol mem)
    · exact (items _ _).bind fun r read =>
        finish ⟨_, r.rest, Nat.le_of_lt r.shorter⟩ ⟨builds.group here (values_good read.1), read.2⟩
    · exact (items _ _).bind fun r read =>
        finish ⟨_, r.rest, Nat.le_of_lt r.shorter⟩ ⟨builds.array here (values_good read.1), read.2⟩
    · exact (items _ _).bind fun r read =>
        finish ⟨_, r.rest, Nat.le_of_lt r.shorter⟩ ⟨builds.dict here (entries_good read.1), read.2⟩
    · exact ⟨here, nofun⟩
termination_by 40 * ts.length
decreasing_by all_goals subst same; simp only [length_cons]; omega

theorem members_tells {ts : List Token} {n : Node} (left : ts <:+ all) (good : Good 2 n) :
    Reports P (fun r => Reads Good all 2 r.value r.rest) (members stop n ts) := by
  generalize same : ts = us at left ⊢
  have here := builds.front left
  rw [members.eq_def]
  split
  · next pos rest =>
    refine (elements_tells _ _ true ((suffix_cons _ _).trans left)).bind fun args read => ?_
    have := args.shorter
    exact (members_tells read.2 (builds.call here good (builds.arguments read.1))).bind
      fun whole readWhole => readWhole
  · next pos rest =>
    refine (conditional_tells ((suffix_cons _ _).trans left)).bind fun key read => ?_
    have := key.shorter
    refine (builds.expect_tells read.left _).bind fun close behind => ?_
    have := close.shorter
    exact (members_tells behind (builds.lookup here good read.good)).bind
      fun whole readWhole => readWhole
  · next pos name at_ rest =>
    have behind := (suffix_cons _ _).trans left
    have key := builds.member here good (behind.subset mem_cons_self)
    exact (members_tells ((suffix_cons _ _).trans behind) key).bind
      fun whole readWhole => readWhole
  · next pos digits at_ rest =>
    have behind := (suffix_cons _ _).trans left
    split
    · exact ⟨builds.front behind, nofun⟩
    · next value =>
      have key : Good 26 _ := builds.mono (builds.int (builds.front behind) value) (by decide)
      exact (members_tells ((suffix_cons _ _).trans behind)
        (builds.lookup here good key)).bind fun whole readWhole => readWhole
  · exact ⟨builds.front ((suffix_cons _ _).trans left), nofun⟩
  · exact ⟨good, left⟩
termination_by 40 * ts.length
decreasing_by all_goals subst same; simp only [length_cons]; omega

theorem filters_tells {ts : List Token} {n : Node} (left : ts <:+ all) (good : Good 4 n) :
    Reports P (fun r => Reads Good all 4 r.value r.rest) (filters stop n ts) := by
  generalize same : ts = us at left ⊢
  rw [filters.eq_def]
  split
  · next bar name pos rest =>
    have behind : ⟨.name name, pos⟩ :: rest <:+ all := (suffix_cons _ _).trans left
    have here : P pos := builds.front behind
    have applied {args : List Node} (rest : ∀ n ∈ args, Good 26 n) :
        Good 4 (.call pos (.symbol pos (dotted name _).1) (n :: args)) :=
      builds.mono (builds.filter left here (forall_mem_cons.2
        ⟨builds.mono good (by decide), rest⟩)) (by decide)
    have := dotted_length name rest
    have left : (dotted name rest).2 <:+ all :=
      (dotted_suffix name rest).trans ((suffix_cons _ _).trans behind)
    dsimp only
    split
    · next afterOpen shorter found =>
      refine (elements_tells _ _ true ((takeOp?_suffix found).trans left)).bind fun args read => ?_
      have : args.rest.length < afterOpen.length := args.shorter
      exact (filters_tells read.2 (applied (builds.arguments read.1))).bind
        fun whole readWhole => readWhole
    · exact (filters_tells left (applied (forall_mem_nil _))).bind
        fun whole readWhole => readWhole
  · exact ⟨builds.front ((suffix_cons _ _).trans left), nofun⟩
  · exact ⟨good, left⟩
termination_by 40 * ts.length
decreasing_by all_goals subst same; simp only [length_cons]; omega

theorem elements_tells {ts : List Token} (kind : ListKind) (closer : Op) (first : Bool)
    (left : ts <:+ all) :
    Reports P (fun r => (∀ x ∈ r.value, x.Reads Good all) ∧ r.rest <:+ all)
      (elements stop kind closer first ts) := by
  rw [elements]
  split
  · next found => exact ⟨forall_mem_nil _, (takeOp?_suffix found).trans left⟩
  · split
    · refine (element_tells kind left).bind fun one read => ?_
      have := one.shorter
      refine (elements_tells kind closer false read.2).bind fun more readMore => ?_
      exact ⟨forall_mem_cons.2 ⟨read.1, readMore.1⟩, readMore.2⟩
    · refine (builds.expect_tells left _).bind fun comma behind => ?_
      have := comma.shorter
      dsimp only
      split
      · next found => exact ⟨forall_mem_nil _, (takeOp?_suffix found).trans behind⟩
      · refine (element_tells kind behind).bind fun one read => ?_
        have := one.shorter
        refine (elements_tells kind closer false read.2).bind fun more readMore => ?_
        exact ⟨forall_mem_cons.2 ⟨read.1, readMore.1⟩, readMore.2⟩
termination_by 40 * ts.length + 28

theorem element_tells {ts : List Token} (kind : ListKind) (left : ts <:+ all) :
    Reports P (fun r => r.value.Reads Good all ∧ r.rest <:+ all) (element stop kind ts) := by
  generalize same : ts = us at left ⊢
  rw [element.eq_def]
  split
  · refine (primary_tells left).bind fun key read => ?_
    have := key.shorter
    refine (builds.expect_tells read.left _).bind fun colon behind => ?_
    have := colon.shorter
    refine (conditional_tells behind).bind fun value readValue => ?_
    exact ⟨⟨read.good, readValue.good⟩, readValue.left⟩
  · next name pos q rest =>
    have behind := (suffix_cons _ _).trans ((suffix_cons _ _).trans left)
    refine (conditional_tells behind).bind fun value read => ?_
    exact ⟨⟨left.subset mem_cons_self, read.good⟩, read.left⟩
  · exact (conditional_tells left).bind fun value read => ⟨read.good, read.left⟩
termination_by 40 * ts.length + 27
decreasing_by all_goals first | omega | subst same; simp only [length_cons]; omega

end

/-- **What all of the words are read as.** -/
theorem ofTokens_tells : Reports P (Good 26) (ofTokens stop all) := by
  unfold ofTokens
  split
  · exact ⟨builds.stop, nofun⟩
  · refine (builds.conditional_tells suffix_rfl).bind fun whole read => ?_
    split
    · exact read.good
    · next t more rest =>
      exact ⟨builds.words t (read.left.subset (by rw [rest]; exact mem_cons_self)), nofun⟩

end Builds

end Expression

end TemplateCompiler
