import TemplateCompiler.Proofs.Template.Reading

/-!
# Every construct of an expression is read back

One lemma for each kind of expression: it is readable if its parts are. With
them, normal expressions are readable by induction (`readable_of_normal`),
and the words of a normal expression are read as that expression
(`ofTokens_of_normal`).
-/

open List

namespace TemplateCompiler.Expression

variable {p : Position} {l r : Node} {c : Chain} {op : BinaryOp}

variable {stop : Position} {ts us rest : List Token} {e : Node}

attribute [local simp] Node.bare Node.bareOfLinks

/-! ## What stands in brackets, and what follows it -/

/-- Items in parentheses or in brackets. -/
theorem readable_items {make : Position → List Node → Node} (kind : make = .group ∨ make = .array)
    {items : List Node} (normal : ∀ n ∈ items, n.Normal) (readable : ∀ n ∈ items, Readable n) :
    Readable (make p items) := by
  have whole : (make p items).Normal := by
    rcases kind with rfl | rfl
    · exact .group normal
    · exact .array normal
  obtain ⟨wrap, same⟩ : ∃ wrap, wrap = make := ⟨make, rfl⟩
  rcases kind with rfl | rfl
  all_goals
    refine readable_of_primary (starts_of_normal whole) (le_refl 2) ?_
    intro stop us rest spells
    obtain ⟨⟨w, q⟩, us, rfl, rfl, inside⟩ := map_eq_cons_iff.1 spells
    obtain ⟨nodes, shorter, read, alike⟩ :=
      elements_bracket stop .items (by decide) rfl rest normal readable inside
    refine ⟨wrap q nodes, ?_, ?_⟩ <;> subst same
    · simp [alike]
    · intro r goesOn
      rw [cons_append, primary]
      simp only [read, bind, Except.bind, filterMap_value?, goesOn]
      exact ⟨_, rfl, rfl, rfl⟩

theorem readable_dict {pairs : List (Node × Node)}
    (normal : (Node.dict p pairs).Normal) (keys : ∀ e ∈ pairs, Readable e.1)
    (values : ∀ e ∈ pairs, Readable e.2) : Readable (.dict p pairs) := by
  refine readable_of_primary (starts_of_normal normal) (le_refl 2) ?_
  intro stop us rest spells
  cases normal with
  | dict normalKeys tight normalValues =>
    obtain ⟨⟨w, q⟩, us, rfl, rfl, inside⟩ := map_eq_cons_iff.1 spells
    obtain ⟨entries, shorter, read, alike⟩ :=
      elements_entries stop rest normalKeys tight keys values inside
    refine ⟨.dict q entries, by simp [alike], fun r goesOn => ?_⟩
    rw [cons_append, primary]
    simp only [read, bind, Except.bind, filterMap_entry?, goesOn]
    exact ⟨_, rfl, rfl, rfl⟩

theorem readable_call {callee : Node} {args : List Node}
    (normal : (Node.call p callee args).Normal) (head : Readable callee)
    (readable : ∀ n ∈ args, Readable n) : Readable (.call p callee args) := by
  refine readable_of_primary (starts_of_normal normal) (le_refl 2) ?_
  intro stop us rest spells
  cases normal with
  | call normalHead tight all =>
    obtain ⟨uh, us₁, rfl, spellsHead, spells₁⟩ := map_eq_append_iff.1 spells
    obtain ⟨⟨w, q⟩, us₂, rfl, rfl, inside⟩ := map_eq_cons_iff.1 spells₁
    obtain ⟨nodes, shorter, read, alike⟩ :=
      elements_bracket stop .arguments (by decide) rfl rest all readable inside
    rw [append_assoc]
    obtain ⟨h, alikeHead, leads⟩ := head.primary tight stop spellsHead
    refine ⟨.call q h nodes, by simp [alikeHead, alike],
      leads.trans fun r goesOn => ?_⟩
    rw [cons_append, members]
    simp only [read, bind, Except.bind, arguments_value, goesOn]
    exact ⟨_, rfl, rfl, rfl⟩

theorem readable_lookup {target key : Node}
    (normal : (Node.lookup p target key).Normal) (head : Readable target)
    (index : Readable key) : Readable (.lookup p target key) := by
  refine readable_of_primary (starts_of_normal normal) (le_refl 2) ?_
  intro stop us rest spells
  cases normal with
  | lookup normalHead tight normalIndex =>
    obtain ⟨uh, us₁, rfl, spellsHead, spells₁⟩ := map_eq_append_iff.1 spells
    obtain ⟨⟨w, q⟩, us₂, rfl, rfl, inside⟩ := map_eq_cons_iff.1 spells₁
    obtain ⟨uk, q', rfl, spellsKey⟩ := spells_concat inside
    have bracket : Stops 26 (⟨.op .closeBracket, q'⟩ :: rest) := stops_cons (by decide)
    obtain ⟨k, shorter, read, alike⟩ := (index.conditional stop spellsKey bracket).read
    obtain ⟨h, alikeHead, leads⟩ := head.primary tight stop spellsHead
    rw [append_assoc, cons_append, append_assoc, cons_append, nil_append]
    refine ⟨.lookup q h k, by simp [alikeHead, alike],
      leads.trans fun r goesOn => ?_⟩
    rw [members]
    simp only [read, bind, Except.bind, expect_self, goesOn]
    exact ⟨_, rfl, rfl, rfl⟩

/-! ## Operators -/

theorem readable_neg {t : Node} (normal : (Node.neg p t).Normal)
    (operand : Readable t) : Readable (.neg p t) := by
  refine readable_of_signed (starts_of_normal normal) rfl ?_
  intro stop us rest spells stops
  cases normal with
  | neg normalOperand tight other =>
    obtain ⟨⟨w, q⟩, us, rfl, rfl, spellsOperand⟩ := map_eq_cons_iff.1 spells
    have whole := signed_minus (p := p) (q := q) (operand.signed tight stop spellsOperand stops)
    have kept : negate p t = .neg p t := by
      cases t with
      | literal q v => cases v <;> first | rfl | cases other
      | _ => rfl
    rwa [kept] at whole

/-- The chain that an operator belongs to. -/
def chainOf? : BinaryOp → Option Chain
  | .or => some .or
  | .and => some .and
  | .isIn => some .isIn
  | .concat => some .concat
  | .add | .sub => some .sum
  | .mul | .div | .floorDiv | .mod => some .product
  | .is | .pow | .other _ => none

theorem ranks_of_chain (h : chainOf? op = some c) :
    op.ranks = some (c.level.rank, c.level.rank, c.operand.rank) := by
  cases op <;> cases h <;> rfl

/-- The words of an operator are read as a joint of its chain. -/
theorem joint?_words (h : chainOf? op = some c) (spells : us.map Token.lexeme = op.words)
    (ts : List Token) : Stops c.operand.rank (us ++ ts) ∧ ∃ j, c.joint? (us ++ ts) = some j
      ∧ j.rest = ts ∧ ∀ n m, (j.join n m).bare = (Node.binary p op n m).bare := by
  cases op with
  | is | pow | other => cases h
  | _ =>
    cases h
    obtain ⟨⟨w, q⟩, us, rfl, rfl, nothing⟩ := map_eq_cons_iff.1 spells
    obtain rfl := map_eq_nil_iff.1 nothing
    exact ⟨stops_cons (by decide), _, rfl, rfl, fun n m => by simp [Joint.join]⟩

/-- So are the two words of `not in`. -/
theorem joint?_not_in {q : Position} (spells : us.map Token.lexeme = BinaryOp.isIn.negatedWords)
    (ts : List Token) : Stops Chain.isIn.operand.rank (us ++ ts)
      ∧ ∃ j, Chain.isIn.joint? (us ++ ts) = some j ∧ j.rest = ts
        ∧ ∀ n m, (j.join n m).bare = (Node.not p (.binary q .isIn n m)).bare := by
  obtain ⟨⟨w, q⟩, us₁, rfl, rfl, spells₁⟩ := map_eq_cons_iff.1 spells
  obtain ⟨⟨w, q'⟩, us₂, rfl, rfl, nothing⟩ := map_eq_cons_iff.1 spells₁
  obtain rfl := map_eq_nil_iff.1 nothing
  exact ⟨stops_cons (by decide), _, rfl, rfl, fun n m => by simp [Joint.join]⟩

/-- **An operation of a chain is readable** if the words between its operands
are read as a joint that makes it. -/
theorem readable_joined {make : Node → Node → Node} {ops : List Lexeme}
    (words : (make l r).words = l.words ++ (ops ++ r.words)) (starts : Starts (make l r))
    (loose : (make l r).rank = c.level.rank) (onLeft : Readable l)
    (tightLeft : l.rank ≤ c.level.rank) (onRight : Readable r) (tightRight : r.rank ≤ c.operand.rank)
    (joint : ∀ {us}, us.map Token.lexeme = ops → ∀ ts, Stops c.operand.rank (us ++ ts)
      ∧ ∃ j, c.joint? (us ++ ts) = some j ∧ j.rest = ts
        ∧ ∀ n m, (j.join n m).bare = (make n m).bare)
    (parts : ∀ {n m}, n.bare = l.bare → m.bare = r.bare → (make n m).bare = (make l r).bare) :
    Readable (make l r) := by
  refine readable_of_chain starts loose ?_
  intro stop us rest spells stops
  rw [Spells, words] at spells
  obtain ⟨ul, us₁, rfl, spellsLeft, spells₁⟩ := map_eq_append_iff.1 spells
  obtain ⟨uo, ur, rfl, spellsOp, spellsRight⟩ := map_eq_append_iff.1 spells₁
  obtain ⟨stopsLeft, j, found, behind, joined⟩ := joint spellsOp (ur ++ rest)
  obtain ⟨n, alikeLeft, leads⟩ := onLeft.chain c tightLeft stop spellsLeft stopsLeft
  have right := onRight.level c.operand tightRight stop spellsRight stops
  rw [← behind] at right
  obtain ⟨m, shorter, read, alikeRight⟩ := right.read
  refine ⟨j.join n m, (joined n m).trans (parts alikeLeft alikeRight), ?_⟩
  rw [append_assoc, append_assoc]
  refine leads.trans fun whole goesOn => ?_
  rw [chainRest, found]
  simp only [read, bind, Except.bind, goesOn]
  exact ⟨_, rfl, rfl, rfl⟩

theorem readable_chained (inChain : chainOf? op = some c) (normal : (Node.binary p op l r).Normal)
    (onLeft : Readable l) (onRight : Readable r) : Readable (.binary p op l r) := by
  have starts := starts_of_normal normal
  have table := ranks_of_chain inChain
  cases normal with
  | binary table' _ tightLeft _ tightRight =>
    cases table.symm.trans table'
    exact readable_joined rfl starts (Node.rank_binary table) onLeft tightLeft onRight tightRight
      (joint?_words inChain) fun left right => by simp [left, right]

theorem readable_not_in {p q : Position} (normal : (Node.not p (.binary q .isIn l r)).Normal)
    (onLeft : Readable l) (onRight : Readable r) : Readable (.not p (.binary q .isIn l r)) := by
  have starts := starts_of_normal normal
  cases normal with
  | not _ _ other => cases other
  | failedTest test table _ tightLeft _ tightRight =>
    cases table
    exact readable_joined (c := .isIn) rfl starts rfl onLeft tightLeft onRight tightRight
      joint?_not_in fun left right => by simp [left, right]

theorem takeWord?_self (word : Bytes) (q : Position) (ts : List Token) :
    takeWord? word (⟨.name word, q⟩ :: ts) = some ⟨ts, by simp⟩ := by
  simp only [takeWord?, beq_self_eq_true, if_true]

theorem takeOp?_self (op : Op) (q : Position) (ts : List Token) :
    takeOp? op (⟨.op op, q⟩ :: ts) = some ⟨ts, by simp⟩ := by
  simp only [takeOp?, beq_self_eq_true, if_true]

theorem readable_is (normal : (Node.binary p .is l r).Normal)
    (onLeft : Readable l) (onRight : Readable r) : Readable (.binary p .is l r) := by
  refine readable_of_own (l := .is) (starts_of_normal normal) rfl ?_
  intro stop us rest spells stops
  cases normal with
  | binary table normalLeft tightLeft normalRight tightRight =>
    cases table
    obtain ⟨ul, us₁, rfl, spellsLeft, spells₁⟩ := map_eq_append_iff.1 spells
    obtain ⟨⟨w, q⟩, ur, rfl, rfl, spellsRight⟩ := map_eq_cons_iff.1 spells₁
    replace spellsRight : Spells ur r := spellsRight
    have between : Stops 14 (⟨.name "is", q⟩ :: (ur ++ rest)) := stops_cons (by decide)
    obtain ⟨n, shorter, readLeft, alikeLeft⟩ :=
      (onLeft.level .comparison tightLeft stop spellsLeft between).read
    obtain ⟨m, shorter', readRight, alikeRight⟩ :=
      (onRight.level .comparison tightRight stop spellsRight (stops.mono (by decide))).read
    have plain := spellsRight.takeWord?_not (starts_of_normal normalRight)
      (lt_of_le_of_lt tightRight (by decide)) rest
    rw [append_assoc, cons_append, level, readLeft]
    simp only [bind, Except.bind, takeWord?_self, plain, readRight]
    exact ⟨_, rfl, by simp [alikeLeft, alikeRight], rfl⟩

theorem readable_is_not {p q : Position}
    (normal : (Node.not p (.binary q .is l r)).Normal) (onLeft : Readable l)
    (onRight : Readable r) : Readable (.not p (.binary q .is l r)) := by
  refine readable_of_own (l := .is) (starts_of_normal normal) rfl ?_
  intro stop us rest spells stops
  cases normal with
  | not _ _ other => cases other
  | failedTest test table normalLeft tightLeft normalRight tightRight =>
    cases table
    obtain ⟨ul, us₁, rfl, spellsLeft, spells₁⟩ := map_eq_append_iff.1 spells
    obtain ⟨⟨w, q₁⟩, us₂, rfl, rfl, spells₂⟩ := map_eq_cons_iff.1 spells₁
    obtain ⟨⟨w, q₂⟩, ur, rfl, rfl, spellsRight⟩ := map_eq_cons_iff.1 spells₂
    have between : Stops 14 (⟨.name "is", q₁⟩ :: ⟨.name "not", q₂⟩ :: (ur ++ rest)) :=
      stops_cons (by decide)
    obtain ⟨n, shorter, readLeft, alikeLeft⟩ :=
      (onLeft.level .comparison tightLeft stop spellsLeft between).read
    obtain ⟨m, shorter', readRight, alikeRight⟩ :=
      (onRight.level .comparison tightRight stop spellsRight (stops.mono (by decide))).read
    rw [append_assoc, cons_append, cons_append, level, readLeft]
    simp only [bind, Except.bind, takeWord?_self, readRight]
    exact ⟨_, rfl, by simp [alikeLeft, alikeRight], rfl⟩

theorem readable_pow (normal : (Node.binary p .pow l r).Normal)
    (onLeft : Readable l) (onRight : Readable r) : Readable (.binary p .pow l r) := by
  refine readable_of_own (l := .power) (starts_of_normal normal) rfl ?_
  intro stop us rest spells stops
  cases normal with
  | binary table normalLeft tightLeft normalRight tightRight =>
    cases table
    obtain ⟨ul, us₁, rfl, spellsLeft, spells₁⟩ := map_eq_append_iff.1 spells
    obtain ⟨⟨w, q⟩, ur, rfl, rfl, spellsRight⟩ := map_eq_cons_iff.1 spells₁
    have between : Stops 4 (⟨.op .power, q⟩ :: (ur ++ rest)) := stops_cons (by decide)
    obtain ⟨n, shorter, readLeft, alikeLeft⟩ :=
      (onLeft.level .unary tightLeft stop spellsLeft between).read
    obtain ⟨m, shorter', readRight, alikeRight⟩ :=
      (onRight.level .power tightRight stop spellsRight stops).read
    rw [append_assoc, cons_append, level, readLeft]
    simp only [bind, Except.bind, takeOp?_self, readRight]
    exact ⟨_, rfl, by simp [alikeLeft, alikeRight], rfl⟩

theorem readable_not {t : Node} (other : t.isTest = false)
    (normal : (Node.not p t).Normal) (tight : t.rank ≤ 20) (operand : Readable t) :
    Readable (.not p t) := by
  refine readable_of_own (l := .not) (starts_of_normal normal) (Node.rank_not other) ?_
  intro stop us rest spells stops
  rw [Spells, Node.words_not other] at spells
  obtain ⟨⟨w, q⟩, us, rfl, rfl, spellsOperand⟩ := map_eq_cons_iff.1 spells
  obtain ⟨r, read, alike, rest'⟩ := operand.level .not tight stop spellsOperand stops
  rw [cons_append, level, takeWord?_self]
  simp only [bind, Except.bind, read]
  exact ⟨_, rfl, by simp [alike], rest'⟩

/-- The operators and operands of a comparison are read one after the
other. -/
theorem links_words (stop : Position) {found : List (Bytes × Node)}
    (signs : ∀ l ∈ found, ∃ op : Op, op.isComparison = true ∧ l.1 = op.text)
    (tight : ∀ l ∈ found, l.2.rank ≤ 12) (readable : ∀ l ∈ found, Readable l.2)
    (spells : us.map Token.lexeme = Node.wordsOfLinks found) (stops : Stops 14 rest) :
    ∃ r, links stop (us ++ rest) = .ok r ∧ Node.bareOfLinks r.value = Node.bareOfLinks found
      ∧ r.rest = rest ∧ Stops 12 (us ++ rest) := by
  induction found generalizing us with
  | nil =>
    obtain rfl := map_eq_nil_iff.1 spells
    exact ⟨_, links_stop stops, rfl, rfl, stops.mono (by decide)⟩
  | cons link found ih =>
    obtain ⟨sign, n⟩ := link
    obtain ⟨⟨op, comparison, text⟩, signsFound⟩ := forall_mem_cons.1 signs
    obtain ⟨tightN, tightFound⟩ := forall_mem_cons.1 tight
    obtain ⟨readableN, readableFound⟩ := forall_mem_cons.1 readable
    obtain rfl : sign = op.text := text
    rw [Node.wordsOfLinks, Op.ofText_text] at spells
    obtain ⟨⟨w, q⟩, us₁, rfl, rfl, spells₁⟩ := map_eq_cons_iff.1 spells
    obtain ⟨un, um, rfl, spellsN, spellsFound⟩ := map_eq_append_iff.1 spells₁
    obtain ⟨⟨more, left, shorter⟩, readMore, alikes, rest', stopsN⟩ :=
      ih signsFound tightFound readableFound spellsFound
    obtain rfl : left = rest := rest'
    obtain ⟨m, shorter', readN, alike⟩ := (readableN.level .concat tightN stop spellsN stopsN).read
    rw [cons_append, append_assoc, links]
    simp only [comparison, if_true, bind, Except.bind, readN, readMore]
    refine ⟨_, rfl, ?_, rfl, stops_cons ?_⟩
    · simp [alike, alikes]
    · revert comparison
      cases op <;> decide

theorem readable_compare {first : Node} {found : List (Bytes × Node)}
    (normal : (Node.compare p first found).Normal) (head : Readable first)
    (readable : ∀ l ∈ found, Readable l.2) : Readable (.compare p first found) := by
  refine readable_of_own (l := .comparison) (starts_of_normal normal) rfl ?_
  intro stop us rest spells stops
  cases normal with
  | compare normalHead tight some_ signs all allTight =>
    obtain ⟨uf, ul, rfl, spellsFirst, spellsLinks⟩ := map_eq_append_iff.1 spells
    obtain ⟨⟨more, left, shorter⟩, readMore, alikes, rest₁, stopsFirst⟩ :=
      links_words stop signs allTight readable spellsLinks stops
    obtain rfl : left = rest := rest₁
    obtain ⟨n, shorter', readFirst, alike⟩ :=
      (head.level .concat tight stop spellsFirst stopsFirst).read
    rw [append_assoc, level, readFirst]
    simp only [bind, Except.bind, readMore]
    cases more with
    | nil =>
      cases found with
      | nil => exact absurd rfl some_
      | cons link found => cases alikes
    | cons link more => exact ⟨_, rfl, by simp [alike, ← alikes], rfl⟩

theorem readable_choice {c b a : Node} (normal : (Node.choice p c b a).Normal)
    (condition : Readable c) (body : Readable b)
    (alternative : a.isMissing = false → Readable a) : Readable (.choice p c b a) := by
  refine readable_of_conditional rfl ?_
  intro stop us rest spells stops
  cases normal with
  | choice _ tightCondition _ tightBody _ tightAlternative =>
    obtain ⟨ub, us₁, rfl, spellsBody, spells₁⟩ := map_eq_append_iff.1 spells
    obtain ⟨⟨w, q⟩, us₂, rfl, rfl, spells₂⟩ := map_eq_cons_iff.1 spells₁
    obtain ⟨uc, ua, rfl, spellsCondition, spellsAlternative⟩ := map_eq_append_iff.1 spells₂
    have atIf : Stops 24 (⟨.name "if", q⟩ :: (uc ++ (ua ++ rest))) := stops_cons (by decide)
    obtain ⟨n, shorter, readBody, alikeBody⟩ :=
      (body.level .or tightBody stop spellsBody atIf).read
    rw [append_assoc, cons_append, append_assoc, conditional, readBody]
    simp only [bind, Except.bind, takeWord?_self]
    cases present : a.isMissing with
    | true =>
      rw [present, if_pos rfl] at spellsAlternative
      obtain rfl := map_eq_nil_iff.1 spellsAlternative
      obtain ⟨m, shorter', readCondition, alikeCondition⟩ :=
        (condition.level .or tightCondition stop spellsCondition (stops.mono (by decide))).read
      have noElse : takeWord? "else" rest = none := takeWord?_eq_none stops (by decide)
      have missing : a = .missing := by cases a <;> first | rfl | cases present
      simp only [nil_append, readCondition, noElse]
      exact ⟨_, rfl, by simp [missing, alikeBody, alikeCondition], rfl⟩
    | false =>
      rw [present, if_neg Bool.false_ne_true] at spellsAlternative
      obtain ⟨⟨w, q'⟩, ua, rfl, rfl, spellsA⟩ := map_eq_cons_iff.1 spellsAlternative
      have atElse : Stops 24 (⟨.name "else", q'⟩ :: (ua ++ rest)) := stops_cons (by decide)
      obtain ⟨m, shorter', readCondition, alikeCondition⟩ :=
        (condition.level .or tightCondition stop spellsCondition atElse).read
      obtain ⟨k, shorter'', readAlternative, alikeAlternative⟩ :=
        ((alternative present).level .or tightAlternative stop spellsA (stops.mono (by decide))).read
      simp only [cons_append, readCondition, takeWord?_self, readAlternative]
      exact ⟨_, rfl, by simp [alikeBody, alikeCondition, alikeAlternative], rfl⟩

/-! ## Whole expressions -/

/-- **Normal expressions are readable.** -/
theorem readable_of_normal (normal : e.Normal) : Readable e := by
  have whole := normal
  induction normal with
  | symbol word => exact readable_symbol word
  | literal value => exact readable_literal value
  | group all ih => exact readable_items (.inl rfl) all fun n mem => ih n mem (all n mem)
  | array all ih => exact readable_items (.inr rfl) all fun n mem => ih n mem (all n mem)
  | dict keys tight values ihk ihv =>
    exact readable_dict whole (fun e mem => ihk e mem (keys e mem)) fun e mem =>
      ihv e mem (values e mem)
  | call head tight all ihh ih =>
    exact readable_call whole (ihh head) fun n mem => ih n mem (all n mem)
  | lookup head tight index ihh ihi => exact readable_lookup whole (ihh head) (ihi index)
  | neg operand tight open_ ih => exact readable_neg whole (ih operand)
  | @binary p op l r _ _ _ table onLeft tightLeft onRight tightRight ihl ihr =>
    cases op with
    | is => exact readable_is whole (ihl onLeft) (ihr onRight)
    | pow => exact readable_pow whole (ihl onLeft) (ihr onRight)
    | other => cases table
    | _ => exact readable_chained rfl whole (ihl onLeft) (ihr onRight)
  | @failedTest p q op l r _ _ _ test table onLeft tightLeft onRight tightRight ihl ihr =>
    cases op with
    | is => exact readable_is_not whole (ihl onLeft) (ihr onRight)
    | isIn => exact readable_not_in whole (ihl onLeft) (ihr onRight)
    | _ => cases test
  | not operand tight other ih => exact readable_not other whole tight (ih operand)
  | compare head tight some_ signs all allTight ihh ih =>
    exact readable_compare whole (ihh head) fun l mem => ih l mem (all l mem)
  | choice condition _ body _ alternative _ ihc ihb iha =>
    exact readable_choice whole (ihc condition) (ihb body) fun present =>
      iha present (alternative present)

/-- The words of a normal expression are read as that expression. -/
theorem ofTokens_of_normal (normal : e.Normal) (spells : Spells us e) (stop : Position) :
    ∃ t, ofTokens stop us = .ok t ∧ t.bare = e.bare := by
  have taken := (readable_of_normal normal).conditional stop spells (stops_nil 26)
  rw [append_nil] at taken
  obtain ⟨r, read, alike, nothing⟩ := taken
  obtain ⟨t, us', rfl, -⟩ := spells.front (starts_of_normal normal)
  refine ⟨r.value, ?_, alike⟩
  rw [ofTokens, read]
  simp only [bind, Except.bind, nothing]
  rintro ⟨⟩

end TemplateCompiler.Expression
