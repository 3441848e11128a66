import TemplateCompiler.Template.Node
import TemplateCompiler.Template.Token

/-!
# Reading expressions

Expressions are read by recursive descent over the words of a tag. The levels
of precedence are, from the loosest to the tightest: the conditional `a if c
else b`, `or`, `and`, `not`, `in`, `is`, the comparisons, `~`, `+` and `-`,
`*` `/` `//` `%`, `**`, the signs, filters, and last the calls and members
that follow a primary expression.

Every reader returns the words it leaves, with the proof that there are fewer
of them; that is what makes the mutual recursion end. `Expression.parse` reads
a whole source.
-/

namespace TemplateCompiler.Expression

attribute [local instance (2000)] instPowNat

/-- What was read from the front of `ts`, and the words left, fewer than
before. -/
structure Parsed (α : Type) (ts : List Token) where
  value : α
  rest : List Token
  shorter : rest.length < ts.length

/-- What was read from the front of `ts`, if anything, and the words left. -/
structure Extended (α : Type) (ts : List Token) where
  value : α
  rest : List Token
  notLonger : rest.length ≤ ts.length

section

variable {ts between rest : List Token}

theorem Parsed.shorter_within (read : Parsed Node rest) (fewer : rest.length < ts.length) :
    read.rest.length < ts.length :=
  Nat.lt_trans read.shorter fewer

theorem Parsed.shorter_after (left : Parsed Node ts) (fewer : rest.length < left.rest.length)
    (right : Parsed Node rest) : right.rest.length < ts.length :=
  right.shorter_within (Nat.lt_trans fewer left.shorter)

theorem Parsed.shorter_afterBoth (left : Parsed Node ts)
    (fewer : between.length < left.rest.length) (fewerStill : rest.length < between.length)
    (right : Parsed Node rest) : right.rest.length < ts.length :=
  left.shorter_after (Nat.lt_trans fewerStill fewer) right

/-- The comparisons read after an operand leave fewer words than stood before
it. -/
theorem Parsed.shorter_links (first : Parsed Node ts)
    (more : Extended (List (Bytes × Node)) first.rest) : more.rest.length < ts.length :=
  Nat.lt_of_le_of_lt more.notLonger first.shorter

/-- So do its filters. -/
theorem Parsed.shorter_filters (operand : Parsed Node ts)
    (filtered : Extended Node operand.rest) : filtered.rest.length < ts.length :=
  Nat.lt_of_le_of_lt filtered.notLonger operand.shorter

end

def front (ts : List Token) : Option Lexeme := ts.head?.map Token.lexeme

/-- Where the front stands; `stop` is the end of the expression. -/
def frontPos (stop : Position) (ts : List Token) : Position :=
  (ts.head?.map Token.pos).getD stop

/-- The words behind `op`, if it stands at the front. -/
def takeOp? (op : Op) : (ts : List Token) → Option { rest : List Token // rest.length < ts.length }
  | [] => none
  | t :: rest => if t.lexeme == .op op then some ⟨rest, by simp⟩ else none

/-- The words behind the name `word`, if it stands at the front. -/
def takeWord? (word : Bytes) :
    (ts : List Token) → Option { rest : List Token // rest.length < ts.length }
  | [] => none
  | t :: rest => if t.lexeme == .name word then some ⟨rest, by simp⟩ else none

/-- The words behind `op`, which has to stand at the front. -/
def expect (stop : Position) (op : Op) (ts : List Token) : Except SyntaxError (Parsed Unit ts) :=
  match takeOp? op ts with
  | some ⟨rest, h⟩ => .ok ⟨(), rest, h⟩
  | none => .error ⟨frontPos stop ts, .expected op (front ts)⟩

/-- The levels of precedence between a conditional and a primary expression,
loosest first. -/
inductive Level where
  | or | and | not | isIn | is | comparison | concat | sum | product | power | unary
deriving DecidableEq, Repr

namespace Level

/-- How loose a level is; each level reads its operands at a lower rank. -/
def rank : Level → Nat
  | .or => 24
  | .and => 22
  | .not => 20
  | .isIn => 18
  | .is => 16
  | .comparison => 14
  | .concat => 12
  | .sum => 10
  | .product => 8
  | .power => 6
  | .unary => 4

/-- Ranks are small. -/
theorem rank_le (l : Level) : l.rank ≤ 24 := by
  cases l <;> decide

end Level

/-- The levels that chain binary operators, grouping to the left. -/
inductive Chain where
  | or | and | isIn | concat | sum | product
deriving DecidableEq, Repr

namespace Chain

def level : Chain → Level
  | .or => .or
  | .and => .and
  | .isIn => .isIn
  | .concat => .concat
  | .sum => .sum
  | .product => .product

def operand : Chain → Level
  | .or => .and
  | .and => .not
  | .isIn => .is
  | .concat => .sum
  | .sum => .product
  | .product => .power

end Chain

/-- An operator between two operands, and the words behind it. -/
structure Joint (ts : List Token) where
  op : BinaryOp
  negated : Bool
  pos : Position
  rest : List Token
  shorter : rest.length < ts.length

/-- The operation that a joint makes of its operands. -/
def Joint.join {ts : List Token} (j : Joint ts) (left right : Node) : Node :=
  let node := Node.binary j.pos j.op left right
  if j.negated then .not j.pos node else node

/-- The operator of a chain that an operator sign stands for. -/
def Chain.ofOp? : Chain → Op → Option BinaryOp
  | .concat, .tilde => some .concat
  | .sum, .plus => some .add
  | .sum, .minus => some .sub
  | .product, .times => some .mul
  | .product, .divide => some .div
  | .product, .floorDivide => some .floorDiv
  | .product, .percent => some .mod
  | _, _ => none

/-- The operator of a chain that a name stands for. -/
def Chain.ofName? (c : Chain) (name : Bytes) : Option BinaryOp :=
  match c with
  | .or => if name == "or" then some .or else none
  | .and => if name == "and" then some .and else none
  | .isIn => if name == "in" then some .isIn else none
  | _ => none

/-- The operator of a chain at the front; `not in` is one of two words. -/
def Chain.joint? (c : Chain) : (ts : List Token) → Option (Joint ts)
  | ⟨.op sign, pos⟩ :: rest =>
    (c.ofOp? sign).map fun op => ⟨op, false, pos, rest, by simp⟩
  | ⟨.name word, pos⟩ :: rest =>
    match c.ofName? word with
    | some op => some ⟨op, false, pos, rest, by simp⟩
    | none =>
      if c == .isIn && word == "not" then
        (takeWord? "in" rest).map fun after =>
          ⟨.isIn, true, pos, after.val, by have := after.property; simp only [List.length_cons]; omega⟩
      else none
  | _ => none

/-- The names that are values of their own. -/
def constant? (name : Bytes) : Option Literal :=
  if name == "true" || name == "True" then some (.bool true)
  else if name == "false" || name == "False" then some (.bool false)
  else if name == "none" || name == "None" || name == "null" then some .null
  else none

/-- The largest integer that a literal may hold. -/
def maxInteger : Nat := 2 ^ (63 : Nat) - 1

/-- The integer that digits spell, up to `maxInteger`. -/
def integer? (digits : Bytes) : Option Int :=
  let n := Bytes.digitsValue digits
  if n ≤ maxInteger then some n else none

/-- The number that digits with a fraction spell. -/
def fraction? (text : Bytes) : Option Double :=
  let whole := text.takeWhile Byte.isDigit
  let decimals := (text.dropWhile Byte.isDigit).drop 1
  Double.ofDecimal? false (Bytes.digitsValue (whole ++ decimals)) (-(decimals.length : Int))

/-- A minus sign in front of an operand: it goes into a number, and is an
operation on anything else. -/
def negate (pos : Position) : Node → Node
  | .literal _ (.int n) => .literal pos (.int (-n))
  | .literal _ (.float d) => .literal pos (.float d.neg)
  | n => .neg pos n

/-- A name continued by names behind dots. -/
def dotted (name : Bytes) : List Token → Bytes × List Token
  | ⟨.op .dot, _⟩ :: ⟨.name part, _⟩ :: rest => dotted (name ++ Byte.dot :: part) rest
  | ts => (name, ts)

/-- A dotted name leaves no more words than there were. -/
theorem dotted_length (name : Bytes) (ts : List Token) :
    (dotted name ts).2.length ≤ ts.length := by
  fun_induction dotted name ts with
  | case1 name p part q rest ih =>
    simp only [List.length_cons]
    omega
  | case2 => exact Nat.le_refl _

/-- What stands between commas. -/
inductive Element where
  | value (node : Node)
  | keyword (pos : Position) (name : Bytes) (node : Node)
  | entry (key value : Node)

namespace Element

/-- The value of an element without a name or key. -/
def value? : Element → Option Node
  | .value n => some n
  | _ => none

/-- A keyword argument as an entry whose key is its name. -/
def keyword? : Element → Option (Position × Node × Node)
  | .keyword pos name n => some (pos, .symbol pos name, n)
  | _ => none

def entry? : Element → Option (Node × Node)
  | .entry k v => some (k, v)
  | _ => none

/-- The arguments of a call: the plain ones, then one dictionary of the
keyword arguments, if there are any. -/
def arguments (es : List Element) : List Node :=
  let keywords := es.filterMap keyword?
  es.filterMap value? ++ match keywords with
    | [] => []
    | (pos, _) :: _ => [.dict pos (keywords.map Prod.snd)]

end Element

/-- The three comma separated lists. -/
inductive ListKind where
  /-- Arguments, which may be named. -/
  | arguments
  /-- Expressions. -/
  | items
  /-- Keys with values. -/
  | entries
deriving DecidableEq, Repr

mutual

/-- A conditional expression, or what stands above it. -/
def conditional (stop : Position) (ts : List Token) : Except SyntaxError (Parsed Node ts) := do
  let body ← level stop .or ts
  have := body.shorter
  match takeWord? "if" body.rest with
  | none => .ok body
  | some ⟨afterIf, _⟩ =>
    let cond ← level stop .or afterIf
    have := cond.shorter
    match takeWord? "else" cond.rest with
    | none => .ok ⟨.choice (frontPos stop ts) cond.value body.value .missing, cond.rest, by omega⟩
    | some ⟨afterElse, _⟩ =>
      let alt ← level stop .or afterElse
      have := alt.shorter
      .ok ⟨.choice (frontPos stop ts) cond.value body.value alt.value, alt.rest, by omega⟩
termination_by 40 * ts.length + 26
decreasing_by all_goals simp only [Level.rank] <;> omega

def level (stop : Position) (l : Level) (ts : List Token) :
    Except SyntaxError (Parsed Node ts) :=
  match l with
  | .or => chain stop .or ts
  | .and => chain stop .and ts
  | .not =>
    match takeWord? "not" ts with
    | some ⟨rest, fewer⟩ => do
      let target ← level stop .not rest
      .ok ⟨.not (frontPos stop ts) target.value, target.rest, target.shorter_within fewer⟩
    | none => level stop .isIn ts
  | .isIn => chain stop .isIn ts
  | .is => do
    let left ← level stop .comparison ts
    have := left.shorter
    match takeWord? "is" left.rest with
    | none => .ok left
    | some ⟨afterIs, fewer⟩ =>
      let pos := frontPos stop left.rest
      match takeWord? "not" afterIs with
      | none =>
        let right ← level stop .comparison afterIs
        .ok ⟨.binary pos .is left.value right.value, right.rest, left.shorter_after fewer right⟩
      | some ⟨afterNot, fewerStill⟩ =>
        let right ← level stop .comparison afterNot
        .ok ⟨.not pos (.binary pos .is left.value right.value), right.rest,
          left.shorter_afterBoth fewer fewerStill right⟩
  | .comparison => do
    let first ← level stop .concat ts
    have := first.shorter
    let more ← links stop first.rest
    match more.value with
    | [] => .ok ⟨first.value, more.rest, first.shorter_links more⟩
    | found => .ok ⟨.compare (frontPos stop ts) first.value found, more.rest,
        first.shorter_links more⟩
  | .concat => chain stop .concat ts
  | .sum => chain stop .sum ts
  | .product => chain stop .product ts
  | .power => do
    let base ← level stop .unary ts
    have := base.shorter
    match takeOp? .power base.rest with
    | none => .ok base
    | some ⟨afterPower, fewer⟩ =>
      let exponent ← level stop .power afterPower
      .ok ⟨.binary (frontPos stop base.rest) .pow base.value exponent.value, exponent.rest,
        base.shorter_after fewer exponent⟩
  | .unary => do
    let operand ← signed stop ts
    have := operand.shorter
    let filtered ← filters stop operand.value operand.rest
    .ok ⟨filtered.value, filtered.rest, operand.shorter_filters filtered⟩
termination_by 40 * ts.length + l.rank
decreasing_by all_goals simp only [Level.rank, Chain.operand] <;> omega

/-- A chain of binary operators of one level. -/
def chain (stop : Position) (c : Chain) (ts : List Token) :
    Except SyntaxError (Parsed Node ts) := do
  let left ← level stop c.operand ts
  have := left.shorter
  let whole ← chainRest stop c left.value left.rest
  have := whole.notLonger
  .ok ⟨whole.value, whole.rest, by omega⟩
termination_by 40 * ts.length + c.operand.rank + 1

/-- The operators of a chain that follow its first operand. -/
def chainRest (stop : Position) (c : Chain) (left : Node) (ts : List Token) :
    Except SyntaxError (Extended Node ts) :=
  match c.joint? ts with
  | none => .ok ⟨left, ts, Nat.le_refl _⟩
  | some joint => do
    have := joint.shorter
    have := c.operand.rank_le
    let right ← level stop c.operand joint.rest
    have := right.shorter
    let whole ← chainRest stop c (joint.join left right.value) right.rest
    have := whole.notLonger
    .ok ⟨whole.value, whole.rest, by omega⟩
termination_by 40 * ts.length

/-- The operators and operands of a comparison that follow its first. -/
def links (stop : Position) (ts : List Token) :
    Except SyntaxError (Extended (List (Bytes × Node)) ts) :=
  match ts with
  | ⟨.op op, _⟩ :: rest =>
    if op.isComparison then do
      let operand ← level stop .concat rest
      have := operand.shorter
      let more ← links stop operand.rest
      have := more.notLonger
      .ok ⟨(op.text, operand.value) :: more.value, more.rest, by
        simp only [List.length_cons]; omega⟩
    else .ok ⟨[], ⟨.op op, _⟩ :: rest, Nat.le_refl _⟩
  | other => .ok ⟨[], other, Nat.le_refl _⟩
termination_by 40 * ts.length
decreasing_by all_goals simp only [Level.rank, List.length_cons] <;> omega

/-- A primary expression behind any number of signs. -/
def signed (stop : Position) (ts : List Token) : Except SyntaxError (Parsed Node ts) :=
  match takeOp? .minus ts with
  | some ⟨rest, _⟩ => do
    let operand ← signed stop rest
    have := operand.shorter
    .ok ⟨negate (frontPos stop ts) operand.value, operand.rest, by omega⟩
  | none =>
    match takeOp? .plus ts with
    | some ⟨rest, _⟩ => do
      let operand ← signed stop rest
      have := operand.shorter
      .ok ⟨operand.value, operand.rest, by omega⟩
    | none => primary stop ts
termination_by 40 * ts.length + 1

/-- A literal, a name or something in brackets, with the calls and members
that follow it. -/
def primary (stop : Position) (ts : List Token) : Except SyntaxError (Parsed Node ts) :=
  match ts with
  | [] => .error ⟨stop, .unexpected none⟩
  | ⟨word, pos⟩ :: rest => do
    let atom : Extended Node rest ← match word with
      | .string value => .ok ⟨.literal pos (.string value), rest, Nat.le_refl _⟩
      | .int digits =>
        match integer? digits with
        | some n => .ok ⟨.literal pos (.int n), rest, Nat.le_refl _⟩
        | none => .error ⟨pos, .integerRange digits⟩
      | .float text =>
        match fraction? text with
        | some d => .ok ⟨.literal pos (.float d), rest, Nat.le_refl _⟩
        | none => .error ⟨pos, .numberRange text⟩
      | .name name =>
        match constant? name with
        | some value => .ok ⟨.literal pos value, rest, Nat.le_refl _⟩
        | none => .ok ⟨.symbol pos name, rest, Nat.le_refl _⟩
      | .op .openParen => do
        let items ← elements stop .items .closeParen true rest
        .ok ⟨.group pos (items.value.filterMap Element.value?), items.rest,
          Nat.le_of_lt items.shorter⟩
      | .op .openBracket => do
        let items ← elements stop .items .closeBracket true rest
        .ok ⟨.array pos (items.value.filterMap Element.value?), items.rest,
          Nat.le_of_lt items.shorter⟩
      | .op .openBrace => do
        let items ← elements stop .entries .closeBrace true rest
        .ok ⟨.dict pos (items.value.filterMap Element.entry?), items.rest,
          Nat.le_of_lt items.shorter⟩
      | .op op => .error ⟨pos, .unexpected (some (.op op))⟩
    have := atom.notLonger
    let whole ← members stop atom.value atom.rest
    have := whole.notLonger
    .ok ⟨whole.value, whole.rest, by simp only [List.length_cons]; omega⟩
termination_by 40 * ts.length

/-- The calls and members that follow an expression. -/
def members (stop : Position) (n : Node) (ts : List Token) :
    Except SyntaxError (Extended Node ts) :=
  match ts with
  | ⟨.op .openParen, pos⟩ :: rest => do
    let args ← elements stop .arguments .closeParen true rest
    have := args.shorter
    let whole ← members stop (.call pos n (Element.arguments args.value)) args.rest
    have := whole.notLonger
    .ok ⟨whole.value, whole.rest, by simp only [List.length_cons]; omega⟩
  | ⟨.op .openBracket, pos⟩ :: rest => do
    let key ← conditional stop rest
    have := key.shorter
    let close ← expect stop .closeBracket key.rest
    have := close.shorter
    let whole ← members stop (.lookup pos n key.value) close.rest
    have := whole.notLonger
    .ok ⟨whole.value, whole.rest, by simp only [List.length_cons]; omega⟩
  | ⟨.op .dot, pos⟩ :: ⟨.name name, at_⟩ :: rest => do
    let whole ← members stop (.lookup pos n (.literal at_ (.string name))) rest
    have := whole.notLonger
    .ok ⟨whole.value, whole.rest, by simp only [List.length_cons]; omega⟩
  | ⟨.op .dot, pos⟩ :: ⟨.int digits, at_⟩ :: rest =>
    match integer? digits with
    | none => .error ⟨at_, .indexRange digits⟩
    | some i => do
      let whole ← members stop (.lookup pos n (.literal at_ (.int i))) rest
      have := whole.notLonger
      .ok ⟨whole.value, whole.rest, by simp only [List.length_cons]; omega⟩
  | ⟨.op .dot, _⟩ :: rest => .error ⟨frontPos stop rest, .noAttribute (front rest)⟩
  | other => .ok ⟨n, other, Nat.le_refl _⟩
termination_by 40 * ts.length

/-- The filters that follow an expression, each applied to what stands before
it. -/
def filters (stop : Position) (n : Node) (ts : List Token) :
    Except SyntaxError (Extended Node ts) :=
  match ts with
  | ⟨.op .bar, _⟩ :: ⟨.name name, pos⟩ :: rest =>
    have := dotted_length name rest
    let filter := Node.symbol pos (dotted name rest).1
    match takeOp? .openParen (dotted name rest).2 with
    | some ⟨afterOpen, _⟩ => do
      let args ← elements stop .arguments .closeParen true afterOpen
      have := args.shorter
      let whole ← filters stop (.call pos filter (n :: Element.arguments args.value)) args.rest
      have := whole.notLonger
      .ok ⟨whole.value, whole.rest, by simp only [List.length_cons]; omega⟩
    | none => do
      let whole ← filters stop (.call pos filter [n]) (dotted name rest).2
      have := whole.notLonger
      .ok ⟨whole.value, whole.rest, by simp only [List.length_cons]; omega⟩
  | ⟨.op .bar, _⟩ :: rest => .error ⟨frontPos stop rest, .noFilter (front rest)⟩
  | other => .ok ⟨n, other, Nat.le_refl _⟩
termination_by 40 * ts.length

/-- A comma separated list up to `closer`; a comma may stand before it. -/
def elements (stop : Position) (kind : ListKind) (closer : Op) (first : Bool) (ts : List Token) :
    Except SyntaxError (Parsed (List Element) ts) :=
  match takeOp? closer ts with
  | some ⟨rest, h⟩ => .ok ⟨[], rest, h⟩
  | none => do
    if first then
      let one ← element stop kind ts
      have := one.shorter
      let more ← elements stop kind closer false one.rest
      have := more.shorter
      .ok ⟨one.value :: more.value, more.rest, by omega⟩
    else
      let comma ← expect stop .comma ts
      have := comma.shorter
      match takeOp? closer comma.rest with
      | some ⟨rest, _⟩ => .ok ⟨[], rest, by omega⟩
      | none =>
        let one ← element stop kind comma.rest
        have := one.shorter
        let more ← elements stop kind closer false one.rest
        have := more.shorter
        .ok ⟨one.value :: more.value, more.rest, by omega⟩
termination_by 40 * ts.length + 28

def element (stop : Position) (kind : ListKind) (ts : List Token) :
    Except SyntaxError (Parsed Element ts) :=
  match kind, ts with
  | .entries, ts => do
    let key ← primary stop ts
    have := key.shorter
    let colon ← expect stop .colon key.rest
    have := colon.shorter
    let value ← conditional stop colon.rest
    have := value.shorter
    .ok ⟨.entry key.value value.value, value.rest, by omega⟩
  | .arguments, ⟨.name name, pos⟩ :: ⟨.op .assign, _⟩ :: rest => do
    let value ← conditional stop rest
    have := value.shorter
    .ok ⟨.keyword pos name value.value, value.rest, by simp only [List.length_cons]; omega⟩
  | _, ts => do
    let value ← conditional stop ts
    .ok ⟨.value value.value, value.rest, value.shorter⟩
termination_by 40 * ts.length + 27

end

/-- The expression that all of the words make up; `stop` is the position
behind the last. -/
def ofTokens (stop : Position) (ts : List Token) : Except SyntaxError Node :=
  match ts with
  | [] => .error ⟨stop, .noExpression⟩
  | _ => do
    let whole ← conditional stop ts
    match whole.rest with
    | [] => .ok whole.value
    | t :: _ => .error ⟨t.pos, .unexpected (some t.lexeme)⟩

/-- The expression in a source that starts at `pos`. -/
def parse (pos : Position) (src : Bytes) : Except SyntaxError Node := do
  let ts ← Token.scan pos src
  ofTokens (pos.after src) ts

end TemplateCompiler.Expression
