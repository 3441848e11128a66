import TemplateCompiler.Text.Runs
import TemplateCompiler.Text.Utf8

/-!
# Display width

How many columns of a terminal a character takes. Control characters, marks
that combine with the character before them and invisible characters take
none, wide characters take two, all others one. Characters whose width depends
on the surroundings count as narrow.
-/

namespace TemplateCompiler

/-- Characters beyond Latin that are not shown. -/
def invisibleRuns : List Nat := numbersOf [
  "BY71EQr4CEs5o7Bn6CIWn1Gx322"]

/-- Marks that combine with the character before them. -/
def combiningRuns : List Nat := numbersOf [
  "VcD4Hn7Y19BCs131Gm1c2BT73BYn1BcvEc9QcBsU0xDHa3GmwSh2BGFw41aw2C82NqiXHqgBB11Kg5DBk2E9bBd4Yq2Bl2",
  "B5735XY35BBJfBa2nP25368827u4E43DTn71h271215Cs1CGo7"]

def wideRuns : List Nat := numbersOf [
  "EQwCoEW22d2Fa43121Oh2l2BecB71j1d182h2528151l1721141217142s1z1114311Bp3o1e1Xv2Bf141Wiq1ChcFyqC7",
  "2Ce2Cv5B71Cm1CcbBc1B48HN4BsXRh3BjBGptRvLYcJD8O8Vsamz1j14E5CoDj7BEQ95b2eGOg8BIeB69JO7417121I3f1",
  "t321e48L0QS01Fm1Fa12aCt3dB84972e6Eaxc91By1mcB745ch313Bz111F72Brd41oi1q2d1CeCdBcBy61332344b279",
  "Gbc41HvBb1a1F5D4d397Ba178e4979BJrCSAe2CSAe"]

def pointWidth (code : Nat) : Nat :=
  if code < 0x20 || (0x7f ≤ code && code ≤ 0x9f) || code == 0xad then 0
  else if code < 0x300 then 1
  else if inRuns invisibleRuns code || inRuns combiningRuns code then 0
  else if inRuns wideRuns code then 2
  else 1

/-- The columns that a step through a text takes. A stray byte takes one. -/
def Rune.width : Rune → Nat
  | .point code => pointWidth code
  | .stray _ => 1

end TemplateCompiler
