import TemplateCompiler.Text.Runs

/-!
# Decomposition of code points

A composite code point stands for a base and a mark behind it, and some code
points stand for another one. Marks have a class, and marks of different
classes commute. Composites of the Hangul script are given by arithmetic and
are in no table.
-/

namespace TemplateCompiler

/-- Composites with their two parts, given by their second parts: each
composite stands in front of its first part. -/
def ungrouped (groups : List (Nat × String)) : List (Nat × Nat × Nat) :=
  groups.flatMap fun (second, made) =>
    (pairsOf (pointsOf made)).map fun (whole, first) => (whole, first, second)

/-- The composites that are put together again. -/
def compositePairs : List (Nat × Nat × Nat) := ungrouped [
  (0x300, "ÀAÈEÌIÒOÙUàaèeìiòoùuǛÜǜüǸNǹnЀЕЍИѐеѝиḔĒḕēṐŌṑōẀWẁwẦÂầâẰĂằăỀÊềêỒÔồôỜƠờơỪƯừưỲYỳyἂἀἃἁ"),
  (0x300, "ἊἈἋἉἒἐἓἑἚἘἛἙἢἠἣἡἪἨἫἩἲἰἳἱἺἸἻἹὂὀὃὁὊὈὋὉὒὐὓὑὛὙὢὠὣὡὪὨὫὩὰαὲεὴηὶιὸοὺυὼωᾺΑῈΕῊΗ῍᾿ῒϊῚΙ῝῾ῢϋ"),
  (0x300, "ῪΥ῭¨ῸΟῺΩ"),
  (0x301, "ÁAÉEÍIÓOÚUÝYáaéeíióoúuýyĆCćcĹLĺlŃNńnŔRŕrŚSśsŹZźzǗÜǘüǴGǵgǺÅǻåǼÆǽæǾØǿø΅¨ΆΑΈΕΉΗΊΙΌΟ"),
  (0x301, "ΎΥΏΩΐϊάαέεήηίιΰϋόούυώωϓϒЃГЌКѓгќкḈÇḉçḖĒḗēḮÏḯïḰKḱkḾMḿmṌÕṍõṒŌṓōṔPṕpṸŨṹũẂWẃwẤÂấâẮĂắă"),
  (0x301, "ẾÊếêỐÔốôỚƠớơỨƯứưἄἀἅἁἌἈἍἉἔἐἕἑἜἘἝἙἤἠἥἡἬἨἭἩἴἰἵἱἼἸἽἹὄὀὅὁὌὈὍὉὔὐὕὑὝὙὤὠὥὡὬὨὭὩ῎᾿῞῾"),
  (0x302, "ÂAÊEÎIÔOÛUâaêeîiôoûuĈCĉcĜGĝgĤHĥhĴJĵjŜSŝsŴWŵwŶYŷyẐZẑzẬẠậạỆẸệẹỘỌộọ"),
  (0x303, "ÃAÑNÕOãañnõoĨIĩiŨUũuṼVṽvẪÂẫâẴĂẵăẼEẽeỄÊễêỖÔỗôỠƠỡơỮƯữưỸYỹy"),
  (0x308, "ÄAËEÏIÖOÜUäaëeïiöoüuÿyŸYΪΙΫΥϊιϋυϔϒЁЕЇІёеїіӒАӓаӚӘӛәӜЖӝжӞЗӟзӤИӥиӦОӧоӪӨӫөӬЭӭэӰУӱуӴЧ"),
  (0x308, "ӵчӸЫӹыḦHḧhṎÕṏõṺŪṻūẄWẅwẌXẍxẗt"), (0x30a, "ÅAåaŮUůuẘwẙy"),
  (0x327, "ÇCçcĢGģgĶKķkĻLļlŅNņnŖRŗrŞSşsŢTţtȨEȩeḐDḑdḨHḩh"),
  (0x304, "ĀAāaĒEēeĪIīiŌOōoŪUūuǕÜǖüǞÄǟäǠȦǡȧǢÆǣæǬǪǭǫȪÖȫöȬÕȭõȰȮȱȯȲYȳyӢИӣиӮУӯуḠGḡgḸḶḹḷṜṚṝṛᾱαᾹΑ"),
  (0x304, "ῑιῙΙῡυῩΥ"),
  (0x306, "ĂAăaĔEĕeĞGğgĬIĭiŎOŏoŬUŭuЎУЙИйиўуӁЖӂжӐАӑаӖЕӗеḜȨḝȩẶẠặạᾰαᾸΑῐιῘΙῠυῨΥ"),
  (0x328, "ĄAąaĘEęeĮIįiŲUųuǪOǫo"),
  (0x307, "ĊCċcĖEėeĠGġgİIŻZżzȦAȧaȮOȯoḂBḃbḊDḋdḞFḟfḢHḣhṀMṁmṄNṅnṖPṗpṘRṙrṠSṡsṤŚṥśṦŠṧšṨṢṩṣṪTṫtẆW"),
  (0x307, "ẇwẊXẋxẎYẏyẛſ"),
  (0x30c, "ČCčcĎDďdĚEěeĽLľlŇNňnŘRřrŠSšsŤTťtŽZžzǍAǎaǏIǐiǑOǒoǓUǔuǙÜǚüǦGǧgǨKǩkǮƷǯʒǰjȞHȟh"),
  (0x30b, "ŐOőoŰUűuӲУӳу"), (0x31b, "ƠOơoƯUưu"), (0x30f, "ȀAȁaȄEȅeȈIȉiȌOȍoȐRȑrȔUȕuѶѴѷѵ"),
  (0x311, "ȂAȃaȆEȇeȊIȋiȎOȏoȒRȓrȖUȗu"), (0x326, "ȘSșsȚTțt"), (0x653, "آا"),
  (0x654, "أاؤوئيۀەۂہۓے"), (0x655, "إا"), (0x93c, "ऩनऱरऴळ"), (0x9be, "োে"), (0x9d7, "ৌে"),
  (0xb56, "ୈେ"), (0xb3e, "ୋେ"), (0xb57, "ୌେ"), (0xbd7, "ஔஒௌெ"), (0xbbe, "ொெோே"), (0xc56, "ైె"),
  (0xcd5, "ೀಿೇೆೋೊ"), (0xcd6, "ೈೆ"), (0xcc2, "ೊೆ"), (0xd3e, "ൊെോേ"), (0xd57, "ൌെ"),
  (0xdca, "ේෙෝො"), (0xdcf, "ොෙ"), (0xddf, "ෞෙ"), (0x102e, "ဦဥ"),
  (0x1b35, "ᬆᬅᬈᬇᬊᬉᬌᬋᬎᬍᬒᬑᬻᬺᬽᬼᭀᬾᭁᬿᭃᭂ"), (0x325, "ḀAḁa"),
  (0x323, "ḄBḅbḌDḍdḤHḥhḲKḳkḶLḷlṂMṃmṆNṇnṚRṛrṢSṣsṬTṭtṾVṿvẈWẉwẒZẓzẠAạaẸEẹeỊIịiỌOọoỢƠợơỤUụuỰƯựư"),
  (0x323, "ỴYỵy"), (0x331, "ḆBḇbḎDḏdḴKḵkḺLḻlṈNṉnṞRṟrṮTṯtẔZẕzẖh"),
  (0x32d, "ḒDḓdḘEḙeḼLḽlṊNṋnṰTṱtṶUṷu"), (0x330, "ḚEḛeḬIḭiṴUṵu"), (0x32e, "ḪHḫh"), (0x324, "ṲUṳu"),
  (0x309, "ẢAảaẨÂẩâẲĂẳăẺEẻeỂÊểêỈIỉiỎOỏoỔÔổôỞƠởơỦUủuỬƯửưỶYỷy"),
  (0x313, "ἀαἈΑἐεἘΕἠηἨΗἰιἸΙὀοὈΟὐυὠωὨΩῤρ"), (0x314, "ἁαἉΑἑεἙΕἡηἩΗἱιἹΙὁοὉΟὑυὙΥὡωὩΩῥρῬΡ"),
  (0x342, "ἆἀἇἁἎἈἏἉἦἠἧἡἮἨἯἩἶἰἷἱἾἸἿἹὖὐὗὑὟὙὦὠὧὡὮὨὯὩᾶα῁¨ῆη῏᾿ῖιῗϊ῟῾ῦυῧϋῶω"),
  (0x345, "ᾀἀᾁἁᾂἂᾃἃᾄἄᾅἅᾆἆᾇἇᾈἈᾉἉᾊἊᾋἋᾌἌᾍἍᾎἎᾏἏᾐἠᾑἡᾒἢᾓἣᾔἤᾕἥᾖἦᾗἧᾘἨᾙἩᾚἪᾛἫᾜἬᾝἭᾞἮᾟἯᾠὠᾡὡᾢὢᾣὣᾤὤᾥὥᾦὦᾧὧ"),
  (0x345, "ᾨὨᾩὩᾪὪᾫὫᾬὬᾭὭᾮὮᾯὯᾲὰᾳαᾴάᾷᾶᾼΑῂὴῃηῄήῇῆῌΗῲὼῳωῴώῷῶῼΩ"),
  (0x338, "↚←↛→↮↔⇍⇐⇎⇔⇏⇒∄∃∉∈∌∋∤∣∦∥≁∼≄≃≇≅≉≈≠=≢≡≭≍≮<≯>≰≤≱≥≴≲≵≳≸≶≹≷⊀≺⊁≻⊄⊂⊅⊃⊈⊆⊉⊇⊬⊢⊭⊨⊮⊩⊯⊫⋠≼⋡≽⋢⊑⋣⊒"),
  (0x338, "⋪⊲⋫⊳⋬⊴⋭⊵"),
  (0x3099, "がかぎきぐくげけごこざさじしずすぜせぞそだたぢちづつでてどとばはびひぶふべへぼほゔうゞゝガカギキグクゲケゴコザサジシズスゼセゾソダタヂチヅツデテドトバハビヒブフ"),
  (0x3099, "ベヘボホヴウヷワヸヰヹヱヺヲヾヽ"), (0x309a, "ぱはぴひぷふぺへぽほパハピヒプフペヘポホ"), (0x110ba, "𑂚𑂙𑂜𑂛𑂫𑂥"),
  (0x11127, "𑄮𑄱𑄯𑄲"), (0x1133e, "𑍋𑍇"), (0x11357, "𑍌𑍇"), (0x114ba, "𑒻𑒹"), (0x114b0, "𑒼𑒹"),
  (0x114bd, "𑒾𑒹"), (0x115af, "𑖺𑖸𑖻𑖹"), (0x11930, "𑤸𑤵")]

/-- The code points with two parts that are taken apart only. -/
def oneWayPairs : List (Nat × Nat × Nat) := ungrouped [
  (0x301, "̈́̈"), (0x93c, "क़कख़खग़गज़जड़डढ़ढफ़फय़य"), (0x9bc, "ড়ডঢ়ঢয়য"), (0xa3c, "ਲ਼ਲਸ਼ਸਖ਼ਖਗ਼ਗਜ਼ਜਫ਼ਫ"),
  (0xb3c, "ଡ଼ଡଢ଼ଢ"), (0xfb7, "གྷགཌྷཌདྷདབྷབཛྷཛྒྷྒྜྷྜྡྷྡྦྷྦྫྷྫ"), (0xfb5, "ཀྵཀྐྵྐ"), (0xf72, "ཱཱི"), (0xf74, "ཱཱུ"),
  (0xf80, "ྲྀྲླྀླཱཱྀ"), (0x338, "⫝̸⫝"), (0x5b4, "יִי"), (0x5b7, "ײַײאַא"), (0x5c1, "שׁששּׁשּ"),
  (0x5c2, "שׂששּׂשּ"), (0x5b8, "אָא"), (0x5bc, "אּאבּבגּגדּדהּהוּוזּזטּטיּיךּךכּכלּלמּמנּנסּסףּףפּפצּצקּקרּרשּשתּת"),
  (0x5b9, "וֹו"), (0x5bf, "בֿבכֿכפֿפ"), (0x1d165, "𝅗𝅥𝅗𝅘𝅥𝅘𝆹𝅥𝆹𝆺𝅥𝆺"), (0x1d16e, "𝅘𝅥𝅮𝅘𝅥𝆹𝅥𝅮𝆹𝅥𝆺𝅥𝅮𝆺𝅥"),
  (0x1d16f, "𝅘𝅥𝅯𝅘𝅥𝆹𝅥𝅯𝆹𝅥𝆺𝅥𝅯𝆺𝅥"), (0x1d170, "𝅘𝅥𝅰𝅘𝅥"), (0x1d171, "𝅘𝅥𝅱𝅘𝅥"), (0x1d172, "𝅘𝅥𝅲𝅘𝅥")]

/-- The code points that stand for another one, each in front of it. -/
def standInPairs : List (Nat × Nat) := pairsOf <| numbersOf [
  "X4VcX5VdX7VvYkTdYuBnZ3F3IPlBA4IPnBA5IPpBA6IPrBA7IPtBB0IPvBB1IPxBB2IRnZ2IRqBAhIS1Z4IS3Z5ISbZc",
  "ISjZ6ISrBA8ISzZaIT2Z1IT3CoITdZ8ITfZbIThF0ITkITmITlITnJBqBA1JBuC3JBvFhJQ1NDkJQ2NDl"]

/-- The ideographs that stand for another one: the first of a run of neighbours,
and what they stand for. -/
def ideographRuns : List (Nat × String) := [
  (0xf900, "豈更車賈滑串句龜龜契金喇奈懶癩羅蘿螺裸邏樂洛烙珞落酪駱亂卵欄爛蘭鸞嵐濫藍襤拉臘蠟"),
  (0xf928, "廊朗浪狼郎來冷勞擄櫓爐盧老蘆虜路露魯鷺碌祿綠菉錄鹿論壟弄籠聾牢磊賂雷壘屢樓淚漏累"),
  (0xf950, "縷陋勒肋凜凌稜綾菱陵讀拏樂諾丹寧怒率異北磻便復不泌數索參塞省葉說殺辰沈拾若掠略亮"),
  (0xf978, "兩凉梁糧良諒量勵呂女廬旅濾礪閭驪麗黎力曆歷轢年憐戀撚漣煉璉秊練聯輦蓮連鍊列劣咽烈"),
  (0xf9a0, "裂說廉念捻殮簾獵令囹寧嶺怜玲瑩羚聆鈴零靈領例禮醴隸惡了僚寮尿料樂燎療蓼遼龍暈阮劉"),
  (0xf9c8, "杻柳流溜琉留硫紐類六戮陸倫崙淪輪律慄栗率隆利吏履易李梨泥理痢罹裏裡里離匿溺吝燐璘"),
  (0xf9f0, "藺隣鱗麟林淋臨立笠粒狀炙識什茶刺切度拓糖宅洞暴輻行降見廓兀嗀"), (0xfa10, "塚"), (0xfa12, "晴"),
  (0xfa15, "凞猪益礼神祥福靖精羽"), (0xfa20, "蘒"), (0xfa22, "諸"), (0xfa25, "逸都"),
  (0xfa2a, "飯飼館鶴郞隷侮僧免勉勤卑喝嘆器塀墨層屮悔慨憎懲敏既暑梅海渚漢煮爫琢碑社祉祈祐祖祝"),
  (0xfa52, "禍禎穀突節練縉繁署者臭艹艹著褐視謁謹賓贈辶逸難響頻恵𤋮舘"),
  (0xfa70, "並况全侀充冀勇勺喝啕喙嗢塚墳奄奔婢嬨廒廙彩徭惘慎愈憎慠懲戴揄搜摒敖晴朗望杖歹殺流"),
  (0xfa98, "滛滋漢瀞煮瞧爵犯猪瑱甆画瘝瘟益盛直睊着磌窱節类絛練缾者荒華蝹襁覆視調諸請謁諾諭謹"),
  (0xfac0, "變贈輸遲醙鉶陼難靖韛響頋頻鬒龜𢡊𢡄𣏕㮝䀘䀹𥉉𥳐𧻓齃龎"),
  (0x2f800, "丽丸乁𠄢你侮侻倂偺備僧像㒞𠘺免兔兤具𠔜㒹內再𠕋冗冤仌冬况𩇟凵刃㓟刻剆割剷㔕勇勉勤"),
  (0x2f828, "勺包匆北卉卑博即卽卿卿卿𠨬灰及叟𠭣叫叱吆咞吸呈周咢哶唐啓啣善善喙喫喳嗂圖嘆圗噑噴"),
  (0x2f850, "切壮城埴堍型堲報墬𡓤売壷夆多夢奢𡚨𡛪姬娛娧姘婦㛮㛼嬈嬾嬾𡧈寃寘寧寳𡬘寿将当尢㞁屠"),
  (0x2f878, "屮峀岍𡷤嵃𡷦嵮嵫嵼巡巢㠯巽帨帽幩㡢𢆃㡼庰庳庶廊𪎒廾𢌱𢌱舁弢弢㣇𣊸𦇚形彫㣣徚忍志忹"),
  (0x2f8a0, "悁㤺㤜悔𢛔惇慈慌慎慌慺憎憲憤憯懞懲懶成戛扝抱拔捐𢬌挽拼捨掃揤𢯱搢揅掩㨮摩摾撝摷㩬"),
  (0x2f8c8, "敏敬𣀊旣書晉㬙暑㬈㫤冒冕最暜肭䏙朗望朡杞杓𣏃㭉柺枅桒梅𣑭梎栟椔㮝楂榣槪檨𣚣櫛㰘次"),
  (0x2f8f0, "𣢧歔㱎歲殟殺殻𣪍𡴋𣫺汎𣲼沿泍汧洖派海流浩浸涅𣴞洴港湮㴳滋滇𣻑淹潮𣽞𣾎濆瀹瀞瀛㶖灊"),
  (0x2f918, "災灷炭𠔥煅𤉣熜𤎫爨爵牐𤘈犀犕𤜵𤠔獺王㺬玥㺸㺸瑇瑜瑱璅瓊㼛甤𤰶甾𤲒異𢆟瘐𤾡𤾸𥁄㿼䀈"),
  (0x2f940, "直𥃳𥃲𥄙𥄳眞真真睊䀹瞋䁆䂖𥐝硎碌磌䃣𥘦祖𥚚𥛅福秫䄯穀穊穏𥥼𥪧𥪧竮䈂𥮫篆築䈧𥲀糒䊠"),
  (0x2f968, "糨糣紀𥾆絣䌁緇縂繅䌴𦈨𦉇䍙𦋙罺𦌾羕翺者𦓚𦔣聠𦖨聰𣍟䏕育脃䐋脾媵𦞧𦞵𣎓𣎜舁舄辞䑫芑"),
  (0x2f990, "芋芝劳花芳芽苦𦬼若茝荣莭茣莽菧著荓菊菌菜𦰶𦵫𦳕䔫蓱蓳蔖𧏊蕤𦼬䕝䕡𦾱𧃒䕫虐虜虧虩蚩"),
  (0x2f9b8, "蚈蜎蛢蝹蜨蝫螆䗗蟡蠁䗹衠衣𧙧裗裞䘵裺㒻𧢮𧥦䚾䛇誠諭變豕𧲨貫賁贛起𧼯𠠄跋趼跰𠣞軔輸"),
  (0x2f9e0, "𨗒𨗭邔郱鄑𨜮鄛鈸鋗鋘鉼鏹鐕𨯺開䦕閷𨵷䧦雃嶲霣𩅅𩈚䩮䩶韠𩐊䪲𩒖頋頋頩𩖶飢䬳餩馧駂駾"),
  (0x2fa08, "䯎𩬰鬒鱀鳽䳎䳭鵧𪃎䳸𪄅𪈎𪊑麻䵖黹黾鼅鼏鼖鼻𪘀")]

/-- The classes of marks. A run says how many code points without a class come
before it, how many marks it has, and what their class is. -/
def markRuns : List Nat := numbersOf [
  "VclGe01Gg04G401Gg01G005G402Fm04G402Fm0bG405104G408Ge01Go01Ge03G403Ge02G413Ge04G401Ge01Gg02G401",
  "Ge01Gh02Gi01Gh02Gi01Gh0dGeHn5GeHd1G404Ge01G403Ge01G601G406Ge06G402Ge01G402Ge01G601Gc01Ge01a01b",
  "01c01d01e01f01g01h01i02j01k01l01m11n11o01p11Ge01G411iC08Ge01u01v01wBc1r01s01t01u01v01w01x01y02",
  "Ge02G405Ge01G402Ge01G4g1zCt7Ge24Ge01G401Ge22Ge11G402Ge01G4z1B0u1Ge01G402Ge01G402Ge03G401Ge02G4",
  "01Ge01G403Ge01G401Ge01G401Ge01G401Ge01G402GeEg7Ge01G401Ge91G4o4Ge19Ge13Ge15GeB73G4Bo1Ge03G404",
  "GeB65Ge05G40eGe11G402Ge01G402Ge01G403Ge03G401r01s01t03Ge01G402Ge02G405GeBo17g1931Ge01G402GeCv1",
  "7g19Bc1GeBp17g19D217g19D217g19Dj19D217g1971Cc01CjCt17g19D129g19Dg19D12Cv019d4CzD02Da019d4DeC42",
  "G4r1G411G411G0Bj1Dl01Dm11Do54Dm21Dm12Ge01912GeBq1G4D417129Ca1G4Tz3GeBAc29u19Ed19a1GeFn1GcDz1G6",
  "01Ge01G4G31Ge01G4Bz19k8Ge21G4Bc5Ge06G402Ge01G412G402Ge02G405Ge01G404GeCt17f19B21Ge01G407GeBi29",
  "Bm17b29Bv17E83Ge11105G402Ge04G401Ge17141G461Ge32GeFi2Ge01G407Ge01G402Ge01Gi01Fy01G401Fm0B1Ge01",
  "Gg02Gc01G401G201Ge01Gh01G401Ge01G4U02Ge02104Ge03102Ge41Ge32101Ge01G401Ge02104G401GeDHa3GeDx19",
  "CowGePe1G201Gc01Gg01G602G8Cx28BGFw1Ge4aGew2GeC82GeHo19B119E719riGeBl3G4B119Cn17c19Gn1Ge12Ge01",
  "G422Ge52Ge11GeBg19Gu19VR41qVd7Ge07G402GeBB11G4Ga1G4E55GeBUq1G411GeB41Ge01101G4419El1Ge01G4Px4",
  "GeKr2GeC83G4By2G403Ge01G401Ge04G4Bd1Ge01G401Ge01G4Fc19B519e19Bl19017Bx3GeBc29Bq17C419917Cy1901",
  "7Ey17019C827g19o7Ge35GeFp19317n1GeCr19017Gz19017Di19Da19017D719Hh19017H629417Ec19Cb19i19C919Lp",
  "19H617129C919Lt29US551Bn7GeBHl26UZ811FRq2G003131Ga05G088G425Ge02G4u4GeE43GeDTn7Ge1hGe27Ge12Ge1",
  "5GeCs1GeEg7GeKf1GeBp4GeO42Gg01G401GeBBk7G4D16Ge017"]

/-- Code points with no parts of their own that stand for a text with marks at
its ends, such as a mark on a space: how many marks it starts with, and how
many it ends with. -/
def looseMarks : List (Nat × Nat × Nat × Nat) := quadsOf <| numbersOf [
  "EoEo01EvEv01F0F001F4F401MkMm01U8Ud01YqYq01Z0Z001Z1Z102EFzEFz02EG1EG102IRpIRp01IRrIRs01IRtIRt02",
  "IS5IS702ISlISn02IT1IT202IThITi01IU7IU701IVaIVa01NHnNHo01NLvNLv11NLxNLy11NM2NM711NMnNN711NUmNV2",
  "01NYsNYs01NYvNYv01NZ4NZ401NZiNZi01NZlNZl01OA2OA201OAbOAb01OAgOAg01OArOAr01OAuOAu01CQVgCQVh01",
  "CQVsCQVt01CRAjCRAl01CRAmCRAr02CRC0CRC001CRE1CRE101CREqCREs02CRGsCRGt01CRO9CROc01CRPcCRPe01CRPg",
  "CRPg01CRPiCRPr01CRPtCRQ401CRT1CRT601CRXqCRXr11CRXvCRXv11CRXxCRXy11CRY2CRY711CRYqCRYv11CRYyCRZ3",
  "11CRZ6CRZb11CRZeCRZg11CRZnCRZn01FGFvFGFv01"]

/-- The class that a code point has in some runs, or zero. -/
def classIn : List Nat → Nat → Nat
  | skipped :: marks :: mark :: runs, code =>
    if code < skipped then 0
    else if code < skipped + marks then mark
    else classIn runs (code - (skipped + marks))
  | _, _ => 0

def markClass (code : Nat) : Nat := classIn markRuns code

def standIn? (code : Nat) : Option Nat :=
  (standInPairs.lookup code).or (ideographRuns.findSome? fun (first, text) =>
    if first ≤ code then (pointsOf text)[code - first]? else none)

def parts? (code : Nat) : Option (List Nat) :=
  if code < 0xc0 then none
  else
    match (compositePairs.lookup code).or (oneWayPairs.lookup code) with
    | some (a, b) => some [a, b]
    | none => (standIn? code).map fun image => [image]

def isSecondPart (code : Nat) : Bool :=
  0x300 ≤ code && compositePairs.any fun (_, _, second) => second == code

/-- The composite of two parts, if there is one. Parts are looked up by their
low sixteen bits: the first part may stand in any plane, and the composite is
the same. -/
def composite? (a b : Nat) : Option Nat :=
  if isSecondPart b then
    (compositePairs.find? fun (_, first, second) =>
      first % 0x10000 == a % 0x10000 && second % 0x10000 == b % 0x10000).map Prod.fst
  else none

end TemplateCompiler
