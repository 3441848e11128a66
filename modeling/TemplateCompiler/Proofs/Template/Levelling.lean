import TemplateCompiler.Proofs.Template.Readers

/-!
# What is read keeps to the table

Whatever the readers of `Template.Expression` return is an expression that
keeps to the table of precedences, and its names and values come from the
words that were read (`levelled_of_ofTokens`): to keep to the table is a
property that building keeps.
-/

namespace TemplateCompiler.Expression

/-- The values that a literal may take from words and signs. -/
structure Values (Value : Literal → Prop) : Prop where
  string : ∀ s, Value (.string s)
  bool : ∀ b, Value (.bool b)
  null : Value .null
  int : ∀ n : Nat, n < 2 ^ 63 → Value (.int n)
  negInt : ∀ n, Value (.int n) → Value (.int (-n))
  negFloat : ∀ d, Value (.float d) → Value (.float d.neg)

/-- The names and the numbers with a fraction among some words. -/
structure Vocabulary (Word : Bytes → Prop) (Value : Literal → Prop) (ts : List Token) : Prop where
  name : ∀ word p, ⟨.name word, p⟩ ∈ ts → Word word
  filter : ∀ before word p q after,
    ts = before ++ ⟨.op .bar, p⟩ :: ⟨.name word, q⟩ :: after → Word (dotted word after).1
  float : ∀ text p d, ⟨.float text, p⟩ ∈ ts → fraction? text = some d → Value (.float d)

variable {Word : Bytes → Prop} {Value : Literal → Prop} {stop : Position}
  {ts : List Token}

/-- A joint makes an expression of its chain. -/
theorem join_fits {c : Chain} {j : Joint ts} (h : c.joint? ts = some j) {l r : Node}
    (onLeft : l.Levelled Word Value) (tightLeft : l.rank ≤ c.level.rank)
    (onRight : r.Levelled Word Value) (tightRight : r.rank ≤ c.operand.rank) :
    (j.join l r).Levelled Word Value ∧ (j.join l r).rank ≤ c.level.rank := by
  obtain ⟨inChain, negated, -, -⟩ := joint?_spec h
  have table := ranks_of_chain inChain
  unfold Joint.join
  split
  · next isNegated =>
    have test : j.op.isTest = true := by rw [negated isNegated]; rfl
    exact ⟨.failedTest test table onLeft tightLeft onRight tightRight,
      le_of_eq (Node.rank_failedTest test table)⟩
  · exact ⟨.binary table onLeft tightLeft onRight tightRight, le_of_eq (Node.rank_binary table)⟩

/-- A sign in front of an expression that may carry one. -/
theorem negate_fits (values : Values Value) {n : Node} (levelled : n.Levelled Word Value)
    (tight : n.rank ≤ 4) (p : Position) :
    (negate p n).Levelled Word Value ∧ (negate p n).rank ≤ 4 := by
  cases number : n.isNumber with
  | false =>
    have kept : negate p n = .neg p n := by
      cases n with
      | literal q v => cases v <;> first | rfl | cases number
      | _ => rfl
    rw [kept]
    exact ⟨.neg levelled tight number, le_refl 4⟩
  | true =>
    cases n with
    | literal q v =>
      cases levelled with
      | literal value =>
        cases v with
        | int k =>
          refine ⟨.literal (values.negInt k value), ?_⟩
          rw [negate, Node.rank]
          split <;> decide
        | float d => exact ⟨.literal (values.negFloat d value), (by decide : 2 ≤ 4)⟩
        | _ => cases number
    | _ => cases number

/-- A negation, of a test or of anything else. -/
theorem not_fits {n : Node} (levelled : n.Levelled Word Value) (tight : n.rank ≤ 20)
    (p : Position) : (Node.not p n).Levelled Word Value ∧ (Node.not p n).rank ≤ 20 := by
  cases test : n.isTest with
  | false => exact ⟨.not levelled tight test, le_of_eq (Node.rank_not test)⟩
  | true =>
    cases n with
    | binary q op l r =>
      cases levelled with
      | binary table onLeft tightLeft onRight tightRight =>
        refine ⟨.failedTest test table onLeft tightLeft onRight tightRight, ?_⟩
        rw [Node.rank_failedTest test table, ← Node.rank_binary table]
        exact tight
    | _ => cases test

theorem constant?_value (values : Values Value) {name : Bytes} {v : Literal}
    (h : constant? name = some v) (p : Position) : Value v ∧ (Node.literal p v).rank ≤ 2 := by
  unfold constant? at h
  split at h
  · cases h; exact ⟨values.bool true, le_refl 2⟩
  split at h
  · cases h; exact ⟨values.bool false, le_refl 2⟩
  split at h
  · cases h; exact ⟨values.null, le_refl 2⟩
  · cases h

theorem integer?_value (values : Values Value) {digits : Bytes} {n : Int}
    (h : integer? digits = some n) : Value (.int n) ∧ ¬n < 0 := by
  simp only [integer?] at h
  split at h
  · next small =>
    cases h
    exact ⟨values.int _ (Nat.lt_of_le_pred (by decide) small), by omega⟩
  · cases h

/-- **Building keeps to the table.** -/
theorem builds_levelled (values : Values Value) (known : Vocabulary Word Value ts) :
    Builds (fun _ => True) (fun k n => n.Levelled Word Value ∧ n.rank ≤ k) stop ts where
  stop := trivial
  words _ _ := trivial
  mono := fun ⟨levelled, tight⟩ loose => ⟨levelled, le_trans tight loose⟩
  symbol mem := ⟨.symbol (known.name _ _ mem), le_refl 2⟩
  filter := fun ⟨before, same⟩ _ all =>
    ⟨.call (.symbol (known.filter before _ _ _ _ same.symm)) (le_refl 2) fun n mem => (all n mem).1,
      le_refl 2⟩
  string _ := ⟨.literal (values.string _), le_refl 2⟩
  int _ found := by
    obtain ⟨value, natural⟩ := integer?_value values found
    exact ⟨.literal value, le_of_eq (if_neg natural)⟩
  float mem found := ⟨.literal (known.float _ _ _ mem found), le_refl 2⟩
  constant _ found := by
    obtain ⟨value, tight⟩ := constant?_value values found _
    exact ⟨.literal value, tight⟩
  group _ all := ⟨.group fun n mem => (all n mem).1, le_refl 2⟩
  array _ all := ⟨.array fun n mem => (all n mem).1, le_refl 2⟩
  dict _ all := ⟨.dict (fun e mem => (all e mem).1.1) (fun e mem => (all e mem).1.2)
    fun e mem => (all e mem).2.1, le_refl 2⟩
  call _ head all := ⟨.call head.1 head.2 fun n mem => (all n mem).1, le_refl 2⟩
  lookup _ head index := ⟨.lookup head.1 head.2 index.1, le_refl 2⟩
  member _ head _ := ⟨.lookup head.1 head.2 (.literal (values.string _)), le_refl 2⟩
  negate _ operand := negate_fits values operand.1 operand.2 _
  power _ base exponent := ⟨.binary rfl base.1 base.2 exponent.1 exponent.2, le_refl 6⟩
  join _ found left right := join_fits found left.1 left.2 right.1 right.2
  compare _ head some_ all := ⟨.compare head.1 head.2 some_ (fun l mem => (all l mem).1)
    (fun l mem => (all l mem).2.1) fun l mem => (all l mem).2.2, le_refl 14⟩
  test _ left right := ⟨⟨.binary rfl left.1 left.2 right.1 right.2, le_refl 16⟩,
    ⟨.failedTest rfl rfl left.1 left.2 right.1 right.2, le_refl 16⟩⟩
  not _ operand := not_fits operand.1 operand.2 _
  choice _ condition body alternative := by
    refine ⟨.choice condition.1 condition.2 body.1 body.2 ?_ ?_, le_refl 26⟩
    · obtain rfl | other := alternative
      · exact (nomatch ·)
      · exact fun _ => other.1
    · obtain rfl | other := alternative
      · decide
      · exact other.2

/-- **What all of the words are read as keeps to the table.** -/
theorem levelled_of_ofTokens (values : Values Value) (known : Vocabulary Word Value ts) {t : Node}
    (h : ofTokens stop ts = .ok t) : t.Levelled Word Value := by
  have told : Reports _ (fun n => n.Levelled Word Value ∧ n.rank ≤ 26) (ofTokens stop ts) :=
    (builds_levelled values known).ofTokens_tells
  rw [h] at told
  exact told.1

end TemplateCompiler.Expression
