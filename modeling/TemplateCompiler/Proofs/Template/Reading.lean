import TemplateCompiler.Proofs.Template.Spelling

/-!
# Written expressions are read back

An expression in normal form is read back from its words. The words may be
followed by others, as long as these do not continue the expression: `grip`
says for every word how loose an expression may be for the word to stick to
it, and `Stops r` that what follows sticks to nothing of rank `r`.

Every reader of `Template.Expression` reads the expressions of its own level
and those of the tighter ones. `Readable` states this for all readers at
once. A chain of operators that group to the left has its first operands
deepest in the tree, while its reader takes them first and goes on with what
it has; so for a chain, and for the members of a primary expression, the
statement is not that the reader takes the tree but that it gets as far as
having taken it (`Leads`).
-/

open List

namespace TemplateCompiler.Expression

variable {name word : Bytes} {w : Lexeme} {items : List Node} {kind : ListKind} {v : Literal}
  {r : Nat} {n : Node} {op : Op} {p q : Position}

variable {c : Chain} {l : Level} {closer : Op}

/-! ## Words that begin and words that continue -/

/-- How loose an expression a word can continue: the rank of the reader that
takes the word behind an operand. -/
def grip : Lexeme → Nat
  | .op .openParen | .op .openBracket | .op .dot => 2
  | .op .bar => 4
  | .op .power => 6
  | .op .times | .op .divide | .op .floorDivide | .op .percent => 8
  | .op .plus | .op .minus => 10
  | .op .tilde => 12
  | .op op => if op.isComparison then 14 else 28
  | .name word =>
    if word = "is" then 16
    else if word = "in" ∨ word = "not" then 18
    else if word = "and" then 22
    else if word = "or" then 24
    else if word = "if" ∨ word = "else" then 26
    else 28
  | _ => 28

/-- What follows an expression of rank `r` does not continue it. -/
def Stops (r : Nat) (ts : List Token) : Prop := ∀ w ∈ front ts, r < grip w

/-- How tight an expression can be that begins with a word. -/
def opens : Lexeme → Nat
  | .name word => if word = "not" then 20 else 2
  | .string _ | .int _ | .float _ => 2
  | .op .openParen | .op .openBracket | .op .openBrace => 2
  | .op .minus => 4
  | .op _ => 28

theorem Stops.mono {q : Nat} {ts : List Token} (stops : Stops r ts) (h : q ≤ r) : Stops q ts :=
  fun w found => lt_of_le_of_lt h (stops w found)

theorem stops_nil (r : Nat) : Stops r [] := fun _ h => nomatch h

theorem stops_cons {ts : List Token} (h : r < grip w) :
    Stops r (⟨w, p⟩ :: ts) := by
  intro v found
  cases found
  exact h

theorem takeWord?_eq_none {ts : List Token} (stops : Stops r ts) (h : grip (.name word) ≤ r) :
    takeWord? word ts = none := by
  cases ts with
  | nil => rfl
  | cons t rest =>
    have := stops t.lexeme rfl
    rw [takeWord?, if_neg]
    intro eq
    rw [eq_of_beq eq] at this
    omega

theorem takeOp?_eq_none {ts : List Token} (stops : Stops r ts) (h : grip (.op op) ≤ r) :
    takeOp? op ts = none := by
  cases ts with
  | nil => rfl
  | cons t rest =>
    have := stops t.lexeme rfl
    rw [takeOp?, if_neg]
    intro eq
    rw [eq_of_beq eq] at this
    omega

theorem ofName?_eq_none (h : c.level.rank < grip (.name word)) :
    c.ofName? word = none := by
  cases c with
  | or | and | isIn =>
    rw [Chain.ofName?, if_neg]
    intro eq
    rw [eq_of_beq eq] at h
    revert h
    decide
  | concat | sum | product => rfl

theorem joint?_eq_none {ts : List Token} (stops : Stops c.level.rank ts) :
    c.joint? ts = none := by
  cases ts with
  | nil => rfl
  | cons t rest =>
    obtain ⟨w, pos⟩ := t
    have loose : c.level.rank < grip w := stops w rfl
    cases w with
    | op o => cases c <;> cases o <;> first | rfl | exact absurd loose (by decide)
    | name word =>
      rw [Chain.joint?, ofName?_eq_none loose]
      refine if_neg ?_
      rw [Bool.and_eq_true, beq_iff_eq, beq_iff_eq]
      rintro ⟨rfl, rfl⟩
      exact absurd loose (by decide)
    | string | int | float => rfl

/-! ## What a reader takes -/

variable {stop : Position} {ts us rest : List Token} {e : Node}

/-- The reader takes `e`, up to positions, and leaves `rest`. -/
def Takes (x : Except SyntaxError (Parsed Node ts)) (e : Node) (rest : List Token) : Prop :=
  ∃ r, x = .ok r ∧ r.value.bare = e.bare ∧ r.rest = rest

theorem Takes.read {x : Except SyntaxError (Parsed Node ts)} (taken : Takes x e rest) :
    ∃ n shorter, x = .ok ⟨n, rest, shorter⟩ ∧ n.bare = e.bare := by
  obtain ⟨⟨n, left, shorter⟩, read, alike, rfl⟩ := taken
  exact ⟨n, shorter, read, alike⟩

/-- Where the reader stops, nothing follows that continues rank `r`. -/
def Halts (r : Nat) (x : Except SyntaxError (Parsed Node ts)) : Prop :=
  ∀ p, x = .ok p → Stops r p.rest

theorem Takes.halts {x : Except SyntaxError (Parsed Node ts)} (taken : Takes x e rest)
    (stops : Stops r rest) : Halts r x := by
  obtain ⟨_, rfl, -, rfl⟩ := taken
  rintro _ ⟨⟩
  exact stops

/-- A reader goes on as another one does, which has taken something. -/
def Leads (x : Except SyntaxError (Parsed Node ts)) (y : Except SyntaxError (Extended Node us)) :
    Prop :=
  ∀ r, y = .ok r → ∃ r', x = .ok r' ∧ r'.value = r.value ∧ r'.rest = r.rest

/-- A reader that has taken something goes on as it would with more taken. -/
def Continues (x : Except SyntaxError (Extended Node ts))
    (y : Except SyntaxError (Extended Node us)) : Prop :=
  ∀ r, y = .ok r → ∃ r', x = .ok r' ∧ r'.value = r.value ∧ r'.rest = r.rest

theorem Leads.trans {x : Except SyntaxError (Parsed Node ts)}
    {y : Except SyntaxError (Extended Node us)} {z : Except SyntaxError (Extended Node rest)}
    (leads : Leads x y) (continues : Continues y z) : Leads x z := by
  intro r read
  obtain ⟨r₁, read₁, value₁, rest₁⟩ := continues r read
  obtain ⟨r₂, read₂, value₂, rest₂⟩ := leads r₁ read₁
  exact ⟨r₂, read₂, value₂.trans value₁, rest₂.trans rest₁⟩

/-- No members follow. -/
theorem members_stop (n : Node) (stops : Stops 2 ts) :
    members stop n ts = .ok ⟨n, ts, Nat.le_refl _⟩ := by
  rw [members.eq_def]
  split
  all_goals first | rfl | exact absurd (stops _ rfl) (Nat.lt_irrefl 2)

/-- No filters follow. -/
theorem filters_stop (n : Node) (stops : Stops 4 ts) :
    filters stop n ts = .ok ⟨n, ts, Nat.le_refl _⟩ := by
  rw [filters.eq_def]
  split
  all_goals first | rfl | exact absurd (stops _ rfl) (Nat.lt_irrefl 4)

/-- No comparison follows. -/
theorem links_stop (stops : Stops 14 ts) : links stop ts = .ok ⟨[], ts, Nat.le_refl _⟩ := by
  rw [links.eq_def]
  split
  · next op p rest =>
    have loose : 14 < grip (.op op) := stops _ rfl
    rw [if_neg]
    intro comparison
    revert loose comparison
    cases op <;> decide
  · rfl

/-- Nothing of a chain follows. -/
theorem chainRest_stop (n : Node) (stops : Stops c.level.rank ts) :
    chainRest stop c n ts = .ok ⟨n, ts, Nat.le_refl _⟩ := by
  rw [chainRest, joint?_eq_none stops]

theorem Leads.takes_members {x : Except SyntaxError (Parsed Node ts)}
    (leads : Leads x (members stop n rest)) (alike : n.bare = e.bare) (stops : Stops 2 rest) :
    Takes x e rest := by
  obtain ⟨r, read, value, left⟩ := leads _ (members_stop n stops)
  exact ⟨r, read, by rw [value, alike], left⟩

theorem Leads.takes_chainRest {x : Except SyntaxError (Parsed Node ts)}
    (leads : Leads x (chainRest stop c n rest)) (alike : n.bare = e.bare)
    (stops : Stops c.level.rank rest) : Takes x e rest := by
  obtain ⟨r, read, value, left⟩ := leads _ (chainRest_stop n stops)
  exact ⟨r, read, by rw [value, alike], left⟩

/-- A chain begins with an operand. -/
theorem leads_chain (taken : Takes (level stop c.operand ts) e rest) :
    ∃ n, n.bare = e.bare ∧ Leads (chain stop c ts) (chainRest stop c n rest) := by
  obtain ⟨r, read, alike, rfl⟩ := taken
  refine ⟨r.value, alike, fun whole goesOn => ?_⟩
  rw [chain, read]
  simp only [bind, Except.bind]
  rw [goesOn]
  exact ⟨_, rfl, rfl, rfl⟩

/-! ## From one level to the looser ones -/

/-- The level of the operands of a level. -/
def tighter : Level → Level
  | .or => .and
  | .and => .not
  | .not => .isIn
  | .isIn => .is
  | .is => .comparison
  | .comparison => .concat
  | .concat => .sum
  | .sum => .product
  | .product => .power
  | .power | .unary => .unary

/-- A reader that goes on without taking more reads as it began. -/
theorem bind_eq_self {α : Type} {x : Except SyntaxError α} {f : α → Except SyntaxError α}
    (same : ∀ r, x = .ok r → f r = .ok r) : x >>= f = x := by
  cases x with
  | error e => rfl
  | ok r => exact same r rfl

theorem chain_eq_operand (halts : Halts c.level.rank (level stop c.operand ts)) :
    chain stop c ts = level stop c.operand ts := by
  rw [chain]
  refine bind_eq_self fun r read => ?_
  rw [chainRest_stop _ (halts r read)]
  rfl

/-- A level reads as the next tighter one does, if nothing follows that would
continue it. -/
theorem level_eq_tighter (halts : Halts l.rank (level stop (tighter l) ts))
    (start : l = .not → takeWord? "not" ts = none) :
    level stop l ts = level stop (tighter l) ts := by
  cases l with
  | or | and | isIn | concat | sum | product =>
    rw [level]
    exact chain_eq_operand halts
  | unary => rfl
  | not => rw [level, start rfl, tighter]
  | is =>
    rw [level]
    refine bind_eq_self fun r read => ?_
    rw [takeWord?_eq_none (halts r read) (by decide)]
  | comparison =>
    rw [level]
    refine bind_eq_self fun r read => ?_
    rw [links_stop (halts r read)]
    rfl
  | power =>
    rw [level]
    refine bind_eq_self fun r read => ?_
    rw [takeOp?_eq_none (halts r read) (by decide)]

theorem takes_level (taken : Takes (level stop (tighter l) ts) e rest)
    (stops : Stops l.rank rest) (start : l = .not → takeWord? "not" ts = none) :
    Takes (level stop l ts) e rest := by
  rwa [level_eq_tighter (taken.halts stops) start]

theorem unary_eq_signed (halts : Halts 4 (signed stop ts)) :
    level stop .unary ts = signed stop ts := by
  rw [level]
  refine bind_eq_self fun r read => ?_
  rw [filters_stop _ (halts r read)]
  rfl

theorem takes_unary (taken : Takes (signed stop ts) e rest) (stops : Stops 4 rest) :
    Takes (level stop .unary ts) e rest := by
  rwa [unary_eq_signed (taken.halts stops)]

theorem conditional_eq_level (halts : Halts 26 (level stop .or ts)) :
    conditional stop ts = level stop .or ts := by
  rw [conditional]
  refine bind_eq_self fun r read => ?_
  rw [takeWord?_eq_none (halts r read) (by decide)]

theorem takes_conditional (taken : Takes (level stop .or ts) e rest) (stops : Stops 26 rest) :
    Takes (conditional stop ts) e rest := by
  rwa [conditional_eq_level (taken.halts stops)]

/-- Tokens that spell the words of an expression. -/
def Spells (ts : List Token) (e : Node) : Prop := ts.map Token.lexeme = e.words

/-- The primary reader gets as far as having taken an expression. -/
def ReadsPrimary (e : Node) : Prop := ∀ (stop : Position) {us rest : List Token}, Spells us e →
  ∃ n, n.bare = e.bare ∧ Leads (primary stop (us ++ rest)) (members stop n rest)

/-- The reader of signs takes an expression. -/
def ReadsSigned (e : Node) : Prop := ∀ (stop : Position) {us rest : List Token}, Spells us e →
  Stops 2 rest → Takes (signed stop (us ++ rest)) e rest

/-- The reader of a chain gets as far as having taken an expression. -/
def ReadsChain (c : Chain) (e : Node) : Prop :=
  ∀ (stop : Position) {us rest : List Token}, Spells us e → Stops c.operand.rank rest →
    ∃ n, n.bare = e.bare ∧ Leads (chain stop c (us ++ rest)) (chainRest stop c n rest)

/-- The reader of a level takes an expression. -/
def ReadsLevel (l : Level) (e : Node) : Prop :=
  ∀ (stop : Position) {us rest : List Token}, Spells us e → Stops l.rank rest →
    Takes (level stop l (us ++ rest)) e rest

/-- The reader of conditionals takes an expression. -/
def ReadsConditional (e : Node) : Prop :=
  ∀ (stop : Position) {us rest : List Token}, Spells us e → Stops 26 rest →
    Takes (conditional stop (us ++ rest)) e rest

/-- **What the readers make of the words of an expression**, whatever follows
them: each reader whose level admits the expression takes it. -/
structure Readable (e : Node) : Prop where
  primary : e.rank ≤ 2 → ReadsPrimary e
  signed : e.rank ≤ 4 → ReadsSigned e
  chain : ∀ c : Chain, e.rank ≤ c.level.rank → ReadsChain c e
  level : ∀ l : Level, e.rank ≤ l.rank → ReadsLevel l e
  conditional : ReadsConditional e

/-- The first word of an expression, which opens no tighter one. -/
def Starts (e : Node) : Prop := ∃ w ws, e.words = w :: ws ∧ opens w ≤ e.rank

/-- The first token of an expression. -/
theorem Spells.front {us : List Token} (spells : Spells us e) (starts : Starts e) :
    ∃ t us', us = t :: us' ∧ opens t.lexeme ≤ e.rank := by
  obtain ⟨w, ws, words, open_⟩ := starts
  rw [Spells, words] at spells
  obtain ⟨t, us', rfl, rfl, -⟩ := map_eq_cons_iff.1 spells
  exact ⟨t, us', rfl, open_⟩

theorem Spells.takeWord?_not {us : List Token} (spells : Spells us e) (starts : Starts e)
    (tight : e.rank < 20) (rest : List Token) : takeWord? "not" (us ++ rest) = none := by
  obtain ⟨t, us', rfl, open_⟩ := spells.front starts
  rw [cons_append, takeWord?, if_neg]
  intro eq
  rw [eq_of_beq eq] at open_
  exact absurd (lt_of_le_of_lt open_ tight) (by decide)

theorem Spells.takeOp?_none {us : List Token} (spells : Spells us e) (starts : Starts e)
    (tight : e.rank < opens (.op op)) (rest : List Token) :
    takeOp? op (us ++ rest) = none := by
  obtain ⟨t, us', rfl, open_⟩ := spells.front starts
  rw [cons_append, takeOp?, if_neg]
  intro eq
  rw [eq_of_beq eq] at open_
  omega

/-- No two levels are of one rank. -/
theorem rank_injective {l m : Level} (h : l.rank = m.rank) : l = m := by
  cases l <;> cases m <;> first | rfl | cases h

/-- Below a level there is nothing but what its operands admit. -/
theorem rank_le_tighter {l m : Level} (h : l.rank ≤ m.rank) (ne : l ≠ m) :
    l.rank ≤ (tighter m).rank := by
  cases l <;> cases m <;> first | exact absurd rfl ne | decide | exact absurd h (by decide)

theorem tighter_lt (h : l ≠ .unary) : (tighter l).rank < l.rank := by
  cases l <;> first | exact absurd rfl h | decide

theorem operand_eq_tighter (c : Chain) : c.operand = tighter c.level := by
  cases c <;> rfl

/-- An expression that its own level reads is read by every looser level. -/
theorem takes_looser (starts : Starts e) (tight : e.rank ≤ l.rank) (own : ReadsLevel l e)
    (m : Level) (looser : l.rank ≤ m.rank) {stop : Position} {us rest : List Token}
    (spells : Spells us e) (stops : Stops m.rank rest) :
    Takes (level stop m (us ++ rest)) e rest := by
  by_cases same : l = m
  · subst same
    exact own stop spells stops
  · have notUnary : m ≠ .unary := by
      rintro rfl
      exact same (rank_injective (le_antisymm looser (by cases l <;> decide)))
    have lt := tighter_lt notUnary
    have below := rank_le_tighter looser same
    refine takes_level (takes_looser starts tight own (tighter m) below spells
      (stops.mono (Nat.le_of_lt lt))) stops ?_
    rintro rfl
    exact spells.takeWord?_not starts (by
      have : l.rank ≤ 18 := below
      omega) rest
termination_by m.rank

/-- **An expression that its own level reads is readable**, if the readers
inside that level read it where they admit it. -/
theorem readable_of_level (starts : Starts e) (tight : e.rank ≤ l.rank)
    (least : ∀ m : Level, e.rank ≤ m.rank → l.rank ≤ m.rank) (own : ReadsLevel l e)
    (asChain : ∀ c : Chain, c.level = l → ReadsChain c e) (asSigned : e.rank ≤ 4 → ReadsSigned e)
    (asPrimary : e.rank ≤ 2 → ReadsPrimary e) : Readable e where
  primary := asPrimary
  signed := asSigned
  level m admits _ {_ _} spells stops :=
    takes_looser starts tight own m (least m admits) spells stops
  chain c admits stop {_ _} spells stops := by
    by_cases same : c.level = l
    · exact asChain c same stop spells stops
    · have below := rank_le_tighter (least c.level admits) (Ne.symm same)
      rw [← operand_eq_tighter] at below
      exact leads_chain (takes_looser starts tight own c.operand below spells stops)
  conditional _ {_ _} spells stops :=
    takes_conditional (takes_looser starts tight own .or (by
      have := Level.rank_le l
      exact this) spells (stops.mono (by decide))) stops

/-- What can be called and indexed is readable once the primary reader gets
as far as having taken it. -/
theorem readable_of_primary (starts : Starts e) (tight : e.rank ≤ 2)
    (own : ReadsPrimary e) :
    Readable e := by
  have asSigned : ReadsSigned e := by
    intro stop us rest spells stops
    rw [signed, spells.takeOp?_none starts (lt_of_le_of_lt tight (by decide)),
      spells.takeOp?_none starts (lt_of_le_of_lt tight (by decide))]
    obtain ⟨n, alike, leads⟩ := own stop spells
    exact leads.takes_members alike stops
  refine readable_of_level (l := .unary) starts (le_trans tight (by decide))
    (fun m _ => by cases m <;> decide) ?_ ?_ (fun _ => asSigned) (fun _ => own)
  · intro stop us rest spells stops
    exact takes_unary (asSigned stop spells (stops.mono (by decide))) stops
  · intro c h
    cases c <;> cases h

/-- What begins with a sign is readable once the reader of signs takes it. -/
theorem readable_of_signed (starts : Starts e) (loose : e.rank = 4)
    (own : ReadsSigned e) : Readable e := by
  refine readable_of_level (l := .unary) starts (le_of_eq loose)
    (fun m _ => by cases m <;> decide) ?_ ?_ (fun _ => own) (fun tight => by omega)
  · intro stop us rest spells stops
    exact takes_unary (own stop spells (stops.mono (by decide))) stops
  · intro c h
    cases c <;> cases h

/-- What a chain makes is readable once the reader of the chain gets as far as
having taken it. -/
theorem readable_of_chain (starts : Starts e) (loose : e.rank = c.level.rank)
    (own : ReadsChain c e) :
    Readable e := by
  have apart : 4 < c.level.rank := by cases c <;> decide
  refine readable_of_level (l := c.level) starts (le_of_eq loose) (fun m h => loose ▸ h) ?_ ?_
    (fun tight => by omega) (fun tight => by omega)
  · intro stop us rest spells stops
    have inner : Stops c.operand.rank rest := stops.mono (by cases c <;> decide)
    obtain ⟨n, alike, leads⟩ := own stop spells inner
    have taken := leads.takes_chainRest alike stops
    cases c <;> (rw [Chain.level, level]; exact taken)
  · intro c' same
    obtain rfl : c' = c := by cases c <;> cases c' <;> first | rfl | cases same
    exact own

/-- What a level makes that is no chain is readable once its reader takes
it. -/
theorem readable_of_own (starts : Starts e) (loose : e.rank = l.rank) (own : ReadsLevel l e)
    (apart : ∀ c : Chain, c.level ≠ l := by intro c; cases c <;> decide)
    (notUnary : 4 < l.rank := by decide) : Readable e :=
  readable_of_level starts (le_of_eq loose) (fun _ h => loose ▸ h) own
    (fun c same => absurd same (apart c)) (fun tight => by omega) (fun tight => by omega)

/-- A conditional is readable once its own reader takes it: no other admits
it. -/
theorem readable_of_conditional (loose : e.rank = 26)
    (own : ReadsConditional e) : Readable e where
  primary tight := by omega
  signed tight := by omega
  level l tight := by have := l.rank_le; omega
  chain c tight := by have := c.level.rank_le; omega
  conditional := own

/-! ## First words and single words -/

theorem constant?_plain (plain : IsPlainName name) : constant? name = none := by
  have apart := plain.2
  simp only [reservedWords, mem_cons, not_mem_nil, or_false, not_or] at apart
  simp [constant?, apart]

theorem integer?_decimal {n : Nat} (h : n < 2 ^ 63) :
    integer? (Bytes.decimal n) = some (n : Int) := by
  rw [integer?, Bytes.digitsValue_decimal]
  exact if_pos (Nat.le_pred_of_lt h)

/-- A longer expression starts like its first operand. -/
theorem Starts.of_append {l : Node} {more : List Lexeme} (starts : Starts l)
    (words : e.words = l.words ++ more) (tight : l.rank ≤ e.rank) : Starts e := by
  obtain ⟨w, ws, first, open_⟩ := starts
  exact ⟨w, ws ++ more, by rw [words, first, cons_append], le_trans open_ tight⟩

theorem left_le_whole {op : BinaryOp} {whole left right : Nat}
    (table : op.ranks = some (whole, left, right)) : left ≤ whole := by
  cases op <;> cases table <;> decide

theorem starts_of_normal (normal : e.Normal) : Starts e := by
  induction normal with
  | @symbol p name word =>
    refine ⟨_, _, rfl, ?_⟩
    have : name ≠ "not" := by
      rintro rfl
      exact word.2 (by decide)
    rw [opens, if_neg this]
    exact le_refl 2
  | @literal p v value =>
    cases v with
    | string | null => exact ⟨_, _, rfl, le_refl 2⟩
    | bool b => cases b <;> exact ⟨_, _, rfl, le_refl 2⟩
    | int n =>
      rw [Starts, Node.words, Literal.lexemes, Node.rank]
      split <;> exact ⟨_, _, rfl, le_refl _⟩
    | float | plain | words => exact value.elim
  | group | array | dict => exact ⟨_, _, rfl, le_refl 2⟩
  | call head tight all ih => exact ih.of_append rfl tight
  | lookup head tight index ih => exact ih.of_append rfl tight
  | neg => exact ⟨_, _, rfl, le_refl 4⟩
  | binary table onLeft tightLeft onRight tightRight ih =>
    exact ih.of_append rfl
      (le_trans tightLeft (Node.rank_binary table ▸ left_le_whole table))
  | failedTest test table onLeft tightLeft onRight tightRight ih =>
    exact ih.of_append (Node.words_failedTest test)
      (le_trans tightLeft (Node.rank_failedTest test table ▸ left_le_whole table))
  | not operand tight other =>
    exact ⟨_, _, Node.words_not other, by rw [Node.rank_not other]; decide⟩
  | compare head tight some_ signs all allTight ih =>
    exact ih.of_append rfl (le_trans tight (by show 12 ≤ 14; decide))
  | choice condition tightCondition body tightBody _ _ ihc ihb =>
    exact ihb.of_append rfl (le_trans tightBody (by show 24 ≤ 26; decide))

/-- No equals sign stands in an expression. -/
theorem assign_not_mem_words (normal : e.Normal) : .op .assign ∉ e.words := by
  intro mem
  obtain h | ⟨name, -, h⟩ | ⟨v, plain, h⟩ := normal.mem_words mem
  · exact absurd h (by decide)
  · cases h
  · cases v with
    | string | bool | null => simp [Literal.lexemes] at h
    | int n =>
      rw [Literal.lexemes] at h
      split at h <;> simp at h
    | float | plain | words => exact plain.elim

/-! ## Atoms -/

/-- An expression of one word is readable once the primary reader gets beyond
the word. -/
theorem readable_of_word (starts : Starts e) (tight : e.rank ≤ 2) (single : e.words = [w])
    (own : ∀ (stop : Position) {q : Position} {rest : List Token}, ∃ n, n.bare = e.bare
      ∧ Leads (primary stop (⟨w, q⟩ :: rest)) (members stop n rest)) : Readable e := by
  refine readable_of_primary starts tight ?_
  intro stop us rest spells
  rw [Spells, single] at spells
  obtain ⟨⟨w, q⟩, us', rfl, rfl, nothing⟩ := map_eq_cons_iff.1 spells
  obtain rfl := map_eq_nil_iff.1 nothing
  exact own stop

theorem readable_symbol (plain : IsPlainName name) :
    Readable (.symbol p name) := by
  refine readable_of_word (starts_of_normal (.symbol plain)) (le_refl 2) rfl ?_
  intro stop q rest
  refine ⟨.symbol q name, rfl, fun r goesOn => ?_⟩
  rw [primary]
  simp only [constant?_plain plain, bind, Except.bind, goesOn]
  exact ⟨_, rfl, rfl, rfl⟩

theorem leads_constant (constant : constant? name = some v) :
    Leads (primary stop (⟨.name name, q⟩ :: rest))
      (members stop (.literal q v) rest) := by
  intro r goesOn
  rw [primary]
  simp only [constant, bind, Except.bind, goesOn]
  exact ⟨_, rfl, rfl, rfl⟩

theorem leads_decimal {n : Nat} (small : n < 2 ^ 63) :
    Leads (primary stop (⟨.int (Bytes.decimal n), q⟩ :: rest))
      (members stop (.literal q (.int n)) rest) := by
  intro r goesOn
  rw [primary]
  simp only [integer?_decimal small, bind, Except.bind, goesOn]
  exact ⟨_, rfl, rfl, rfl⟩

theorem bare_negate (q : Position) (n : Node) : (negate q n).bare = negate .none n.bare := by
  cases n with
  | literal p v => cases v <;> rfl
  | _ => rfl

/-- A minus sign is read before what it stands in front of. -/
theorem signed_minus (taken : Takes (signed stop ts) e rest) :
    Takes (signed stop (⟨.op .minus, q⟩ :: ts)) (negate p e) rest := by
  obtain ⟨r, read, alike, rfl⟩ := taken
  rw [signed]
  simp only [takeOp?, beq_self_eq_true, if_true, read, bind, Except.bind]
  exact ⟨_, rfl, by rw [bare_negate, bare_negate, alike], rfl⟩

theorem readable_literal (plain : v.IsPlain) :
    Readable (.literal p v) := by
  have starts := starts_of_normal (e := .literal p v) (.literal plain)
  cases v with
  | string text =>
    refine readable_of_word starts (le_refl 2) rfl ?_
    intro stop q rest
    refine ⟨.literal q (.string text), rfl, fun r goesOn => ?_⟩
    rw [primary]
    simp only [bind, Except.bind, goesOn]
    exact ⟨_, rfl, rfl, rfl⟩
  | bool b =>
    have constant : constant? (Literal.boolText b) = some (.bool b) := by cases b <;> decide
    exact readable_of_word starts (le_refl 2) rfl fun _ {q _} =>
      ⟨.literal q (.bool b), rfl, leads_constant constant⟩
  | null =>
    have constant : constant? "none" = some .null := by decide
    exact readable_of_word starts (le_refl 2) rfl fun _ {q _} =>
      ⟨.literal q .null, rfl, leads_constant constant⟩
  | int n =>
    obtain ⟨low, high⟩ := plain
    have small : n.natAbs < 2 ^ 63 := by omega
    by_cases negative : n < 0
    · refine readable_of_signed starts (if_pos negative) ?_
      intro stop us rest spells stops
      rw [Spells, Node.words, Literal.lexemes, if_pos negative] at spells
      obtain ⟨⟨w, q⟩, us', rfl, rfl, tail⟩ := map_eq_cons_iff.1 spells
      obtain ⟨⟨w, q'⟩, us'', rfl, rfl, nothing⟩ := map_eq_cons_iff.1 tail
      obtain rfl := map_eq_nil_iff.1 nothing
      have taken : Takes (signed stop (⟨.int (Bytes.decimal n.natAbs), q'⟩ :: rest))
          (.literal q' (.int n.natAbs)) rest := by
        rw [signed]
        exact (leads_decimal small).takes_members rfl stops
      have whole := signed_minus (p := p) (q := q) taken
      rwa [negate, show -((n.natAbs : Nat) : Int) = n by omega] at whole
    · refine readable_of_word (w := .int (Bytes.decimal n.natAbs)) starts
        (le_of_eq (if_neg negative)) (if_neg negative) ?_
      intro stop q rest
      have value : ((n.natAbs : Nat) : Int) = n := by omega
      exact ⟨.literal q (.int n.natAbs), by rw [value]; rfl, leads_decimal small⟩
  | float | plain | words => exact plain.elim

/-! ## Lists -/

/-- The end of an element of a list: a comma or the closing bracket. -/
def Closes (ts : List Token) : Prop :=
  ∃ op p more, ts = ⟨.op op, p⟩ :: more ∧ (op = .comma ∨ op.isClosing = true)

theorem Closes.stops (closes : Closes ts) : Stops 26 ts := by
  obtain ⟨op, p, more, rfl, kind⟩ := closes
  refine stops_cons ?_
  revert kind
  cases op <;> decide

theorem closes_of_words {ws : List Lexeme} (words : us.map Token.lexeme = .op op :: ws)
    (kind : op = .comma ∨ op.isClosing = true) : Closes (us ++ rest) := by
  obtain ⟨⟨w, p⟩, us, rfl, rfl, -⟩ := map_eq_cons_iff.1 words
  exact ⟨op, p, _, rfl, kind⟩

theorem Closes.ne_assign (closes : Closes ts) : front ts ≠ some (.op .assign) := by
  obtain ⟨op, p, more, rfl, kind⟩ := closes
  rintro ⟨⟩
  revert kind
  decide

/-- A written expression is not taken for a named argument. -/
theorem Spells.not_keyword (spells : Spells us e) (normal : e.Normal) (closes : Closes rest)
    (name : Bytes) (p q : Position) (more : List Token) :
    us ++ rest ≠ ⟨.name name, p⟩ :: ⟨.op .assign, q⟩ :: more := by
  intro same
  obtain ⟨t, us', rfl, -⟩ := spells.front (starts_of_normal normal)
  cases us' with
  | nil =>
    rw [cons_append, nil_append] at same
    obtain ⟨-, rfl⟩ := List.cons.inj same
    exact closes.ne_assign rfl
  | cons t' us' =>
    rw [cons_append, cons_append] at same
    obtain ⟨-, tail⟩ := List.cons.inj same
    obtain ⟨rfl, -⟩ := List.cons.inj tail
    refine assign_not_mem_words normal ?_
    rw [← spells]
    simp

/-- An expression between commas is read as an element without a name. -/
theorem element_value (stop : Position) (plain : kind ≠ .entries) (normal : e.Normal)
    (readable : Readable e) (spells : Spells us e) (closes : Closes rest) :
    ∃ n shorter, element stop kind (us ++ rest) = .ok ⟨.value n, rest, shorter⟩
      ∧ n.bare = e.bare := by
  obtain ⟨n, shorter, read, alike⟩ := (readable.conditional stop spells closes.stops).read
  rw [element.eq_3 _ _ _ plain fun name p q more _ =>
    spells.not_keyword normal closes name p q more, read]
  exact ⟨n, shorter, rfl, alike⟩

theorem expect_self (stop : Position) (op : Op) (q : Position) (ts : List Token) :
    expect stop op (⟨.op op, q⟩ :: ts) = .ok ⟨(), ts, by simp⟩ := by
  simp only [expect, takeOp?, beq_self_eq_true, if_true]

/-- The words in front of an element. -/
def lead (first : Bool) : List Lexeme := if first then [] else [.op .comma]

/-- The reader of a list, where one more element comes. -/
theorem elements_more {first : Bool} {vs : List Token} {one : Parsed Element us}
    (other : closer ≠ .comma) (leading : vs.map Token.lexeme = lead first)
    (open_ : takeOp? closer us = none) (readOne : element stop kind us = .ok one)
    {more : Parsed (List Element) one.rest}
    (readMore : elements stop kind closer false one.rest = .ok more) :
    ∃ shorter, elements stop kind closer first (vs ++ us)
      = .ok ⟨one.value :: more.value, more.rest, shorter⟩ := by
  have := one.shorter
  have := more.shorter
  cases first with
  | true =>
    obtain rfl := map_eq_nil_iff.1 leading
    rw [nil_append]
    refine ⟨by omega, ?_⟩
    rw [elements, open_]
    simp only [if_true, readOne, bind, Except.bind, readMore]
  | false =>
    obtain ⟨⟨w, q⟩, vs', rfl, rfl, nothing⟩ := map_eq_cons_iff.1 leading
    obtain rfl := map_eq_nil_iff.1 nothing
    have comma : takeOp? closer (⟨.op .comma, q⟩ :: us) = none := by
      rw [takeOp?, if_neg]
      intro same
      cases eq_of_beq same
      exact other rfl
    rw [cons_append, nil_append]
    refine ⟨by rw [length_cons]; omega, ?_⟩
    rw [elements, comma]
    simp only [Bool.false_eq_true, if_false, expect_self, bind, Except.bind, open_, readOne,
      readMore]

theorem elements_close (stop : Position) (kind : ListKind) (closer : Op) (first : Bool)
    (q : Position) (rest : List Token) :
    ∃ shorter, elements stop kind closer first (⟨.op closer, q⟩ :: rest)
      = .ok ⟨[], rest, shorter⟩ := by
  refine ⟨Nat.lt_succ_self _, ?_⟩
  rw [elements]
  simp only [takeOp?, beq_self_eq_true, if_true]

theorem closing_ne_comma (closing : closer.isClosing = true) : closer ≠ .comma := by
  rintro rfl
  cases closing

/-- A closing bracket opens no expression. -/
theorem Spells.takeOp?_closing (closing : closer.isClosing = true)
    (spells : Spells us e) (starts : Starts e) (rest : List Token) :
    takeOp? closer (us ++ rest) = none := by
  refine spells.takeOp?_none starts ?_ rest
  have bound : e.rank ≤ 26 := Node.rank_le e
  have : opens (.op closer) = 28 := by revert closing; cases closer <;> decide
  omega

/-- **A list up to its closing bracket is read back** if each of its elements
is. -/
theorem elements_listed {ι : Type} {write : ι → List Lexeme} {make : ι → Element} {view : ι → ι}
    (stop : Position) (closing : closer.isClosing = true) (rest : List Token) {items : List ι}
    (each : ∀ i ∈ items, ∀ {us rest}, us.map Token.lexeme = write i → Closes rest →
      takeOp? closer (us ++ rest) = none ∧ ∃ found shorter,
        element stop kind (us ++ rest) = .ok ⟨make found, rest, shorter⟩ ∧ view found = view i)
    (first : Bool) {us : List Token}
    (spells : us.map Token.lexeme = Node.listed (lead first) (items.map write) ++ [.op closer]) :
    ∃ found : List ι, ∃ shorter, elements stop kind closer first (us ++ rest)
        = .ok ⟨found.map make, rest, shorter⟩ ∧ found.map view = items.map view := by
  induction items generalizing first us with
  | nil =>
    obtain ⟨⟨w, q⟩, us, rfl, rfl, nothing⟩ := map_eq_cons_iff.1 spells
    obtain rfl := map_eq_nil_iff.1 nothing
    obtain ⟨shorter, read⟩ := elements_close stop kind closer first q rest
    exact ⟨[], shorter, read, rfl⟩
  | cons i items ih =>
    obtain ⟨here, others⟩ := forall_mem_cons.1 each
    rw [map_cons, Node.listed, append_assoc, append_assoc] at spells
    obtain ⟨vs, us', rfl, leading, tail⟩ := map_eq_append_iff.1 spells
    obtain ⟨un, ums, rfl, spellsOne, spellsItems⟩ := map_eq_append_iff.1 tail
    obtain ⟨more, _, readMore, alikes⟩ := ih others false spellsItems
    have closes : Closes (ums ++ rest) := by
      cases items with
      | nil => exact closes_of_words spellsItems (.inr closing)
      | cons => exact closes_of_words spellsItems (.inl rfl)
    obtain ⟨open_, found, _, readOne, alike⟩ := here spellsOne closes
    obtain ⟨shorter, read⟩ :=
      elements_more (closing_ne_comma closing) leading open_ readOne readMore
    rw [append_assoc, append_assoc]
    exact ⟨found :: more, shorter, read, by rw [map_cons, map_cons, alike, alikes]⟩

/-- A list of expressions and its closing bracket. -/
theorem elements_bracket (stop : Position) (kind : ListKind) (plain : kind ≠ .entries)
    (closing : closer.isClosing = true) (rest : List Token) (normal : ∀ n ∈ items, n.Normal)
    (readable : ∀ n ∈ items, Readable n)
    (spells : us.map Token.lexeme = Node.wordsOf [] items ++ [.op closer]) :
    ∃ nodes shorter, elements stop kind closer true (us ++ rest)
        = .ok ⟨nodes.map .value, rest, shorter⟩
      ∧ Node.bareOf nodes = Node.bareOf items := by
  rw [Node.wordsOf_eq] at spells
  simp only [Node.bareOf_eq]
  refine elements_listed stop closing rest (fun n mem us rest spells closes => ⟨?_, ?_⟩) true spells
  · exact Spells.takeOp?_closing closing spells (starts_of_normal (normal n mem)) rest
  · exact element_value stop plain (normal n mem) (readable n mem) spells closes

/-- **Keys with values and the closing brace are read back.** -/
theorem elements_entries (stop : Position) (rest : List Token) {pairs : List (Node × Node)}
    (normal : ∀ e ∈ pairs, e.1.Normal) (tight : ∀ e ∈ pairs, e.1.rank ≤ 2)
    (keys : ∀ e ∈ pairs, Readable e.1) (values : ∀ e ∈ pairs, Readable e.2)
    (spells : us.map Token.lexeme = Node.wordsOfPairs [] pairs ++ [.op .closeBrace]) :
    ∃ found shorter, elements stop .entries .closeBrace true (us ++ rest)
        = .ok ⟨found.map fun e => .entry e.1 e.2, rest, shorter⟩
      ∧ Node.bareOfPairs found = Node.bareOfPairs pairs := by
  rw [Node.wordsOfPairs_eq] at spells
  simp only [Node.bareOfPairs_eq]
  refine elements_listed stop rfl rest (fun e mem us rest spells closes => ?_) true spells
  obtain ⟨uk, us, rfl, spellsKey, spells⟩ := map_eq_append_iff.1 spells
  obtain ⟨⟨w, q⟩, uv, rfl, rfl, spellsValue⟩ := map_eq_cons_iff.1 spells
  have colon : Stops 2 (⟨.op .colon, q⟩ :: (uv ++ rest)) := stops_cons (by decide)
  obtain ⟨n, alikeKey, leads⟩ := (keys e mem).primary (tight e mem) stop spellsKey
  obtain ⟨k, _, readKey, alike⟩ := (leads.takes_members alikeKey colon).read
  obtain ⟨v, _, readValue, alikeValue⟩ :=
    ((values e mem).conditional stop spellsValue closes.stops).read
  rw [append_assoc, cons_append]
  refine ⟨Spells.takeOp?_closing rfl spellsKey (starts_of_normal (normal e mem)) _, (k, v),
    by simp; omega, ?_, by rw [alike, alikeValue]⟩
  rw [element, readKey]
  simp only [bind, Except.bind, expect_self, readValue]

/-- The expressions of a list without names. -/
theorem filterMap_value? (nodes : List Node) :
    (nodes.map Element.value).filterMap Element.value? = nodes := by
  rw [filterMap_map]
  exact filterMap_some

/-- The entries of a list of entries. -/
theorem filterMap_entry? (pairs : List (Node × Node)) :
    (pairs.map fun e => Element.entry e.1 e.2).filterMap Element.entry? = pairs := by
  rw [filterMap_map]
  exact filterMap_some

/-- Arguments without names are just the arguments. -/
theorem arguments_value (nodes : List Node) :
    Element.arguments (nodes.map Element.value) = nodes := by
  have none_ : (nodes.map Element.value).filterMap Element.keyword? = [] := by
    rw [filterMap_map, filterMap_eq_nil_iff]
    intro n _
    rfl
  rw [Element.arguments, none_, filterMap_value?, append_nil]

/-- Tokens that spell some words and one operator behind them. -/
theorem spells_concat {ws : List Lexeme} (spells : us.map Token.lexeme = ws ++ [.op op]) :
    ∃ vs q, us = vs ++ [⟨.op op, q⟩] ∧ vs.map Token.lexeme = ws := by
  obtain ⟨vs, uc, rfl, before, last⟩ := map_eq_append_iff.1 spells
  obtain ⟨⟨w, q⟩, nothing, rfl, rfl, none_⟩ := map_eq_cons_iff.1 last
  obtain rfl := map_eq_nil_iff.1 none_
  exact ⟨vs, q, rfl, before⟩

end TemplateCompiler.Expression
