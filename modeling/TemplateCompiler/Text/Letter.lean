import TemplateCompiler.Text.Runs

/-!
# Letters and decimal digits

The code points beyond ASCII that are letters, and those that are digits of a
decimal system.
-/

namespace TemplateCompiler

def letterRuns : List Nat := numbersOf [
  "Eq1a1415n1v1Mq4ce57111Dl51224116113111k1Cb1Dv8Em1B2216B5Bzr44B9B7z21Cr11f272a321g11utChb1ox924",
  "15m419131np7b5o17gB6BmBi31i17afg48222m17113431g1d213e2a186422m17121212v411j3g9131m17121531i1f2",
  "n1b8222m17121531u213f1h116331432111232333cm1Bg8131n1g31q31222u148131n1a1531u312f2h9131B521g153",
  "83o65i3o191127BmBc12c7Bm211151o111a12912511l4w1Br81B0r5D7B7k1g6443132734dc1hB211512B71J9142711",
  "142B5142x142711142f1Bl142BvB1ggCe263R82h1q5C3687idjeied13fBgz141BvCh752y115ByavBdu25bB84qBin9",
  "BhCa1ClBbh8Biud2aB8qB0B53aB02b5B723B541612315FcBsHq262B226281111111v2Bh1711331734264d5317D81d1",
  "gdCt1412a1135611111141b245541Bg2CWjGd6432cB211512Bk71gn9717171717171717C81N12B65524Ce631Ci145",
  "B71CmhwBcgO8HB4BsXRhBvBa2Hh3ga2kBbgv2ByBd92Cv2Cakh13141ntBgeBeBq63112bsanpt7Bbs1g51aa51B5n318k",
  "n313Be1132252111o32b73c6262697171B71e6D7tLYccn4BdJAsK62CyB27c5511a1d151112121D0xK3iBs2BiB4cD85",
  "1DrB0q6qbCh36262623zc1q1j121f2eyDfKtt3BdBbwdk186B2au2B048BcEeiB04B04B48Bgcb1f17121b1f17123Bgc",
  "In9ma8o61B619Bx6211B812312nan9vBtj12amaq6qB2Bk62Bs1f4131tB6t3tz81srBiamajdiD2C1BjBfdBfdB0B2s9n",
  "GyB662g6Bkta18mB6iBalrncBhBl221dB9wpqB0t1218z31cBce4l111zi1pj2Br711141f1a7BbB28222m17121531i1c",
  "5ua11211B211p111B8Bhi4k3uBck211F4BbB54B0Bck1BnB7d1BzrB17F5B8D8Bsv82128121of111Cm82B3g111s1aB47",
  "1l1bBaj1iC1Fjxv91B1h1BduD47121B2l1p6121we1nB8H8jf11d1yDg1C7ZmGeFgCV8CpfBDsh6pEGz5Q7HI1uBWyPt7v",
  "hC7huiBcg4vl5jM0B9FvBswp2pB8C351BudBs211e2cHX2B5wCpD7JHp417121I3f1t321e48L0CM4Cz5d397aGKeCd1Bz",
  "122122241c11171Bt1428171s141511371Jg2p1p1v1p1v1p1v1p1v1p18BZ8v66H9BqE2B9a7g1IxuiB8NgsGcu21Frv1",
  "312172592G8714121f1FhBnBw71BHg41r1211211a141111614111111312112111111111121124171414111a1h53151",
  "hESsBTQowERq2GEe2HZlfRaCQiP2BPuFH75JBu"]

/-- The decimal digits from `0x80` on. -/
def decimalRuns : List Nat := numbersOf [
  "BTcaDqaFiaLgaDaaDaaDaaDaaDaaDaaDaaDaaDaaCoaDaaByaHqaByaBZqaB2aIcaDkaEma6aF2aCeaDqa6aBLRqaSuaB2",
  "aFiamaCeaLaaWSuaBNaaCIma6aW4aDkaBoaE0aHqaJiaDaaKeaCua6kC4aLqaCuaSeaCeaGuaByaBiaJyaSA6aCN2aCea",
  "DqaOuaBACuaCZ0BeCNsaLqaNyaGvaXpaFC6a"]

def isLetter (code : Nat) : Bool :=
  if code < 0x80 then (0x41 ≤ code && code ≤ 0x5a) || (0x61 ≤ code && code ≤ 0x7a)
  else inRuns letterRuns code

def isDecimalDigit (code : Nat) : Bool :=
  if code < 0x80 then 0x30 ≤ code && code ≤ 0x39 else inRuns decimalRuns code

end TemplateCompiler
