import TemplateCompiler.Text.Decomposition

/-!
# Composed form

Texts that look alike can be spelled with composites or with their parts.
`composed` gives both one spelling: it takes every code point apart, brings
the marks behind each base into the order of their classes, and puts together
what can be. A base with too many marks keeps those beyond a limit apart from
it, so that one step never has to look at more than a few code points.
-/

namespace TemplateCompiler

namespace Hangul

def syllables : Nat := 0xac00

def leads : Nat := 0x1100

def vowels : Nat := 0x1161

/-- The place before the first trailing consonant. -/
def trails : Nat := 0x11a7

def parts? (code : Nat) : Option (List Nat) :=
  if syllables ≤ code && code < syllables + 11172 then
    let s := code - syllables
    let lead := leads + s / 588
    let vowel := vowels + s % 588 / 28
    if s % 28 == 0 then some [lead, vowel] else some [lead, vowel, trails + s % 28]
  else none

/-- The syllable of a leading consonant and a vowel, or of a syllable and a
trailing consonant. -/
def composite? (a b : Nat) : Option Nat :=
  if leads ≤ a && a < leads + 19 && vowels ≤ b && b < vowels + 21 then
    some (syllables + ((a - leads) * 21 + (b - vowels)) * 28)
  else if syllables ≤ a && a < syllables + 11172 && (a - syllables) % 28 == 0
      && trails < b && b < trails + 28 then
    some (a + (b - trails))
  else none

end Hangul

def takeApart (codes : List Nat) : List Nat :=
  codes.flatMap fun code => ((Hangul.parts? code).or (parts? code)).getD [code]

/-- Takes every code point apart. Parts have parts in turn, but never more
than three times. -/
def decomposed (codes : List Nat) : List Nat := takeApart (takeApart (takeApart (takeApart codes)))

/-- Orders every run of marks by class; marks of one class keep their
order. -/
def orderMarks (codes : List Nat) : List Nat :=
  (codes.splitBy fun a b => markClass a != 0 && markClass b != 0).flatMap
    (·.mergeSort fun a b => markClass a ≤ markClass b)

/-- Whether a code point is a part of a Hangul syllable, now or of old. -/
def Hangul.isPart (code : Nat) : Bool := 0x1100 ≤ code && code ≤ 0x11ff

/-- Whether a code point counts as a mark: it has a class, or it can join the
code point before it. -/
def isMark (code : Nat) : Bool :=
  markClass code != 0 || isSecondPart code
    || (Hangul.vowels ≤ code && code < Hangul.vowels + 21)
    || (Hangul.trails ≤ code && code < Hangul.trails + 28)

/-- How many marks a code point starts with, and how many it ends with. -/
def markCounts (code : Nat) : Nat × Nat :=
  if code < 0xa8 then (0, 0)
  else
    match looseMarks.find? fun (first, last, _) => first ≤ code && code ≤ last with
    | some (_, _, counts) => counts
    | none =>
      let parts := decomposed [code]
      ((parts.takeWhile isMark).length, (parts.reverse.takeWhile isMark).length)

/-- The most marks in a row that are put together with one base. -/
def markLimit : Nat := 30

/-- What stands between two marks if one base would have more than
`markLimit`: a code point that is not shown and joins nothing. -/
def markBarrier : Nat := 0x34f

/-- Cuts a text into stretches that are put together on their own. A stretch
ends before a code point that starts with no mark, and after so many marks as
`markLimit` says; then a barrier is put at its end. `held` is the stretch so
far, its last code point first, and `marks` counts its last marks. -/
def stretchesFrom (held : List Nat) (marks : Nat) : List Nat → List (List Nat)
  | [] => [held.reverse]
  | c :: cs =>
    let (leading, trailing) := markCounts c
    if leading == 0 then held.reverse :: stretchesFrom [c] trailing cs
    else if markLimit < marks + leading then
      (markBarrier :: held).reverse :: stretchesFrom [c] leading cs
    else stretchesFrom (c :: held) (marks + leading) cs

def stretches (codes : List Nat) : List (List Nat) := stretchesFrom [] 0 codes

/-- Puts a stretch together. `base` is the code point that the next one may
join, and `marks` are those behind it that did not join it, the last one first.
A code point joins the base unless a mark of its own or a higher class is
between. Behind the first part of a Hangul syllable, only such parts join. -/
def joinMarks (hangul : Bool) (base : Nat) (marks : List Nat) : List Nat → List Nat
  | [] => base :: marks.reverse
  | c :: cs =>
    let free := match marks with
      | [] => true
      | m :: _ => markClass m < markClass c
    let hangul := hangul || Hangul.isPart c
    let joined :=
      if !free then none else if hangul then Hangul.composite? base c else composite? base c
    match joined with
    | some whole => joinMarks hangul whole marks cs
    | none =>
      if markClass c == 0 then base :: (marks.reverse ++ joinMarks hangul c [] cs)
      else joinMarks hangul base (c :: marks) cs

/-- Puts a stretch together from its first code point on. -/
def join : List Nat → List Nat
  | [] => []
  | c :: cs => joinMarks false c [] cs

def composed (codes : List Nat) : List Nat :=
  if codes.all (· < 0xa8) then codes
  else (stretches codes).flatMap fun stretch => join (orderMarks (decomposed stretch))

end TemplateCompiler
