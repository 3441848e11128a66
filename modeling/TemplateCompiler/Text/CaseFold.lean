import TemplateCompiler.Text.Runs

/-!
# Case folding

Folding maps texts that differ in case only to one text. A code point folds to
one or more code points: `ß` folds to `ss`. The two cases of the Cherokee
script fold to each other, all others to lower case. A run gives the first and the last
code point that fold by one shift, the distance between neighbours in it, and
what the first one folds to.
-/

namespace TemplateCompiler

/-- The code points from `0x80` on that fold to one code point and are in no
run, each in front of what it folds to. -/
def foldPairs : List (Nat × Nat) :=
  ["µμŸÿſsƁɓƆɔƇƈƋƌƎǝƏəƐɛƑƒƓɠƔɣƖɩƗɨƘƙƜɯƝɲƟɵƦʀƧƨƩʃƬƭƮʈƯưƷʒƸƹƼƽǄǆǅǆǇǉǈǉǊǌǱǳǶƕǷƿȠƞȺⱥȻȼȽƚȾⱦɁɂ",
   "ɃƀɄʉɅʌͅιͶͷͿϳΆάΌόςσϏϗϐβϑθϕφϖπϰκϱρϴθϵεϷϸϹϲϺϻӀӏჇⴧჍⴭᲀвᲁдᲂоᲅтᲆъᲇѣᲈꙋẛṡιιῬῥΩωKkÅåℲⅎↃↄⱠⱡⱢɫⱣᵽ",
   "ⱤɽⱭɑⱮɱⱯɐⱰɒⱲⱳⱵⱶⳲⳳꝽᵹꞋꞌꞍɥꞪɦꞫɜꞬɡꞭɬꞮɪꞰʞꞱʇꞲʝꞳꭓꟄꞔꟅʂꟆᶎꟐꟑꟵꟶ𐖕𐖼"].flatMap fun line => pairsOf (pointsOf line)

/-- Runs of code points from `0x80` on that fold to one code point. -/
def foldRuns : List (Nat × Nat × Nat × Nat) := quadsOf <| numbersOf [
  "FcFy1G8G0G61GwH4Ie2H5IiIm2IjIpJ32IqJ6Ke2J7KhKl2KiKqKs2KrKxKy1QmLkLo2LlM1M21S2M3M52M4MrN72MsNa",
  "Nq2NbNuNw2NvO0P22O1P6Pm2P7Q6Qe2Q7YgYi2YhZ4Z61BA5ZaZb1BB1ZdZt1BA9ZvBA31BArBBcBBy2BBdBCdBCf1Yr",
  "BCgBCv1BEoBCwBDr1BDsBF4BG02BF5BGaBHq2BGbBHtBI52BHuBI8BKu2BI9BKxBLy1BM9EO8EP91MI0FJkFLr1BUX4FLs",
  "FLx1FM0FM0FM51FLsHUrHUs1BE9HV4HWa1EPkHWdHWf1EQtIFcIJg2IFdIJsIMe2IJtIMoIMv1IMgIN4IN91IMwINkINr1",
  "INcIO0IO71INsIOgIOl1IO8IOxIP32IOpIPcIPj1IP4IRkIRl1IRcIRmIRn1IPkIS0IS31IPmISgISh1IS8ISiISj1IPq",
  "ISwISx1ISoISyISz1IPuITcITd1IPsITeITf1IPwJDcJDr1JDsKB2KBr1KBsMAwMC71MC8MDrMDv2MDsMEeMEf1PzMEg",
  "MH62MEhMHfMHh2MHgBTM8BTNg2BTM9BTO0BTOq2BTO1BTSiBTSu2BTSjBTSyBTUm2BTSzBTUxBTUz2BTUyBTV2BTVa2",
  "BTV3BTVkBTVm2BTVlBTVqBTW82BTVrBTWkBTWy2BTWlBTX3BTX52BTX4BTXiBTXk2BTXjBUX4BUZb1FJkCRU9CRUy1CRV5",
  "CTCwCTDz1CTE0CTHsCTIr1CTIwCTN4CTO42CTO7CTN5CTNd2CTO8CTNhCTNt2CTOkCTNxCTO12CTP0CVLcCVMq1CVN4",
  "CYTkCYUf1CYUgDWEgDWFb1DWFcFDTcFDU91FDUa"]

/-- The code points that fold to several, each in front of them. -/
def foldExpansions : List (Nat × List Nat) :=
  ["ßss İi̇ ŉʼn ǰǰ ΐΐ ΰΰ ևեւ ẖẖ ẗẗ ẘẘ ẙẙ ẚaʾ ẞss ὐὐ ὒὒ ὔὔ ὖὖ ᾀἀι ᾁἁι ᾂἂι",
   "ᾃἃι ᾄἄι ᾅἅι ᾆἆι ᾇἇι ᾈἀι ᾉἁι ᾊἂι ᾋἃι ᾌἄι ᾍἅι ᾎἆι ᾏἇι ᾐἠι ᾑἡι ᾒἢι ᾓἣι ᾔἤι ᾕἥι ᾖἦι ᾗἧι",
   "ᾘἠι ᾙἡι ᾚἢι ᾛἣι ᾜἤι ᾝἥι ᾞἦι ᾟἧι ᾠὠι ᾡὡι ᾢὢι ᾣὣι ᾤὤι ᾥὥι ᾦὦι ᾧὧι ᾨὠι ᾩὡι ᾪὢι ᾫὣι ᾬὤι",
   "ᾭὥι ᾮὦι ᾯὧι ᾲὰι ᾳαι ᾴάι ᾶᾶ ᾷᾶι ᾼαι ῂὴι ῃηι ῄήι ῆῆ ῇῆι ῌηι ῒῒ ΐΐ ῖῖ ῗῗ",
   "ῢῢ ΰΰ ῤῤ ῦῦ ῧῧ ῲὼι ῳωι ῴώι ῶῶ ῷῶι ῼωι ﬀff ﬁfi ﬂfl ﬃffi ﬄffl ﬅst ﬆst ﬓմն",
   "ﬔմե ﬕմի ﬖվն ﬗմխ"].flatMap fun line =>
    (line.splitOn " ").filterMap fun word => (pointsOf word).head?.map (·, (pointsOf word).tail)

def foldPoint (code : Nat) : List Nat :=
  if code < 0x80 then [if 0x41 ≤ code && code ≤ 0x5a then code + 0x20 else code]
  else
    match foldExpansions.lookup code, foldPairs.lookup code with
    | some codes, _ => codes
    | none, some image => [image]
    | none, none =>
      match foldRuns.find? fun (first, last, step, _) =>
          first ≤ code && code ≤ last && (code - first) % step == 0 with
      | some (first, _, _, image) => [code - first + image]
      | none => [code]

def caseFold (codes : List Nat) : List Nat := codes.flatMap foldPoint

end TemplateCompiler
