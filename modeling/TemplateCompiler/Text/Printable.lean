import TemplateCompiler.Text.Runs

/-!
# Printable code points

A code point is printable if it is a letter, a mark, a number, a punctuation
sign or a symbol, or the ASCII space. Messages show printable code points as
they are and escape all others.
-/

namespace TemplateCompiler

/-- The printable code points from `0xa1` on. -/
def printableRuns : List Nat := numbersOf [
  "Ehc1Tu2647111k1L11B22Be231Bj8r46hm1Fc1Bc2Bn2CteBn2Bd2f1s211b5w7C31Eh18222m1711342922248142152p",
  "2316422m17121212211542233174117ha319131m1712152a131321f42c771318222m1712152922237342152ia21633",
  "1432111232333c4533142161el5d131n1g291314721312242a7m131n1a152913147253142a13cd131Bf13164g2q131",
  "i3o191127314611186a23cBm4tB1211151o111n2511171a24wC01B04B31B01f1dB1Fi11512Kh142711142B5142x142",
  "711142f1Bl142Bv2w3q6Ce262Rs1s3Ch7m9o9kcd1312cCm2a6a6e1b6Ch7B75Byav1c4c413B625bB84q6b3Bq2Bt1t2b",
  "6a6e2Ba2ckC51Em8Bo3f3Bq5B72b8B75Ou262B226281111111v2Bh1f1e261j2319ho8Bbh22r1d3yexfDw4SimblBYc2",
  "Km5B911512Bk72eo97171717171717171Diyq1ChcFyqg1Br1Ce2Cv5B71Cm1Ce9Bc1BFHp3Bj9JokF48G5kBo3a6Bk8By",
  "8c6D8bu3C61b4x1Bj9e2a2Cvosa6262697171Bo4Di2a6LYccn4BdJAsK62CyB27c55q151112121S2wB66Bf1j14451Dr",
  "4Fa362626233717d22c1q1j121f2eyDf534B93Cg1d31BbBaDmt3Bdfs4B09u5B75u1B14eB6Ee2a6B04B04B48Bgbc1f1",
  "7121b1f17123BgcIn9ma8o61B619Bx6211B812312n1C089Bcj125x3r5rB2Bk4k2Be1258131t234a797BswB34c9Bi3t",
  "2r5q74c7C8C1BjBfdBf7Ba8a6B23t82Fsv1B61322g689xBa8B6mqB2skn9C64B09Bq15dp7a6Bh1i8B39Co1kbi1BbBq7",
  "11141f1b6Bn5a6418222m1712151a22232161572735ba11211B21a1121141a1282tCk15uC08aEmBi2B2yBxba6djBm6",
  "a6ksr2f4nF5BoCsCbc82128121u122c9aBy82Ba2brC08CbdC17aCe8Cgyea691B91eat3w2m1eC17121B83112198a661",
  "21B112167a6B84aGup7h1B53tCd1fBedZnCuD315bFgCV8CrdBDsgmaEGz5Q7HI1BmBW6Pt7v1a4C91a6u26aByaa171l5",
  "jM0BmFiCj5p2pB8C34Bl7hBs5b79HX2B5wCpD7JHp417121I3f1t321e48L0CM4Cz5d397a24EFcH13M46nfhfBa2n9D8",
  "BoGuaB32C28D4lByDekckcCf9pDrCd1Bz122122241c11171Bt1428171s141511371Jg2I42Tif51fBEov66Fx71h2712",
  "155Bqx1D4B93e2a42IwvhBm51MwB6FyB741Fcv1m82G8714121f1Fh2gB5C44a42VtBwC4BpFe41r1211211a141111614",
  "111111312112111111111121124171414111a1h53151hBg2HiB84Cscf2f1f1B1aEuBktdB84972e6EaBBd3h3d3G26c4",
  "1fc4Bk8a6B48u2c42e9B3Jk8e2d3b3Bl114g2c4a7E31CvBClBTQowERq2GEe2HZlfRaCQiP2BPuFH75JBuBDCCuGo"]

/-- Whether a code point is shown as it is. -/
def isPrintable (code : Nat) : Bool :=
  if code < 0xa1 then 0x20 ≤ code && code < 0x7f else inRuns printableRuns code

end TemplateCompiler
