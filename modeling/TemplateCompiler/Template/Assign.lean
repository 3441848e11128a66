import TemplateCompiler.Text.Bytes

/-!
# Assign tags

Templates may write `assign` where the template language has `set`.
`Template.assignToSet` changes the word at the head of every such tag before
the template is read. The blanks between the tag's opening and the word become
one space, and nothing else changes.
-/

namespace TemplateCompiler

namespace Template

def isTagBlank (b : UInt8) : Bool := Byte.isBlank b || b == Byte.formFeed

def isWordPart (b : UInt8) : Bool := Byte.isNamePart b && b != Byte.dollar

/-- Whether a word that came before ends here. -/
def endsWord (rest : Bytes) : Bool :=
  match rest with
  | [] => true
  | b :: _ => !isWordPart b

/-- What follows the word of an assign tag whose opening and minus sign came
before. -/
def afterAssign? (bs : Bytes) : Option Bytes :=
  match Bytes.dropPrefix? "assign" (bs.dropWhile isTagBlank) with
  | some rest => if endsWord rest then some rest else none
  | none => none

/-- What follows the word of an assign tag at the front of a text, and
whether its opening has a minus sign. -/
def assignTag? : Bytes → Option (Bool × Bytes)
  | Byte.openBrace :: Byte.percent :: Byte.minus :: bs => (afterAssign? bs).map (true, ·)
  | Byte.openBrace :: Byte.percent :: bs => (afterAssign? bs).map (false, ·)
  | _ => none

theorem dropPrefix?_length {start bs rest : Bytes} (h : Bytes.dropPrefix? start bs = some rest) :
    bs.length = start.length + rest.length := by
  induction start generalizing bs with
  | nil => simp_all [Bytes.dropPrefix?]
  | cons s start ih =>
    cases bs with
    | nil => simp [Bytes.dropPrefix?] at h
    | cons b bs =>
      simp only [Bytes.dropPrefix?] at h
      split at h
      · have := ih h
        simp
        omega
      · simp at h

theorem afterAssign?_length {bs rest : Bytes} (h : afterAssign? bs = some rest) :
    rest.length ≤ bs.length := by
  unfold afterAssign? at h
  split at h
  · rename_i found
    have shorter := dropPrefix?_length found
    have dropped := (List.dropWhile_suffix isTagBlank (l := bs)).length_le
    split at h
    · simp only [Option.some.injEq] at h
      subst h
      omega
    · simp at h
  · simp at h

/-- What follows an assign tag is shorter than the text. -/
theorem assignTag?_length {bs rest : Bytes} {minus : Bool}
    (h : assignTag? bs = some (minus, rest)) : rest.length < bs.length := by
  unfold assignTag? at h
  split at h
  · obtain ⟨_, found, eq⟩ := Option.map_eq_some_iff.mp h
    have := afterAssign?_length found
    simp_all
    omega
  · obtain ⟨_, found, eq⟩ := Option.map_eq_some_iff.mp h
    have := afterAssign?_length found
    simp_all
    omega
  · simp at h

def setHead (minus : Bool) : Bytes :=
  [Byte.openBrace, Byte.percent] ++ (if minus then [Byte.minus] else []) ++ " set"

/-- The text with a set tag for every assign tag. -/
def assignToSet (bs : Bytes) : Bytes :=
  match bs with
  | [] => []
  | b :: rest =>
    match h : assignTag? (b :: rest) with
    | some (minus, after) =>
      have := assignTag?_length h
      setHead minus ++ assignToSet after
    | none => b :: assignToSet rest
termination_by bs.length
decreasing_by
  · exact this
  · exact Nat.lt_succ_self _

end Template

end TemplateCompiler
