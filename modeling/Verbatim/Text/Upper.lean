/-!
# Upper case

The full upper-case mapping (Unicode 14). Most characters go to one character at a fixed distance; they come in runs, in
which either every character or every second one is mapped. The others stand alone, and some of them go to two or three
characters. The tables are texts of words between blanks.
-/

namespace Verbatim.Text

def words (rows : List String) : List (List Char) := rows.flatMap fun row => (row.splitOn " ").map String.toList

/-- The runs in which every character is mapped: the first one, the last one, and where the first one goes. -/
def fullRuns : List (List Char) :=
  words
    [ "azA àöÀ øþØ ȿɀⱾ ɖɗƉ ʊʋƱ ͻͽϽ έίΈ αρΑ σϋΣ ύώΎ аяА ѐџЀ աֆԱ აჺᲐ ჽჿᲽ ᏸᏽᏰ ᲃᲄС ἀἇἈ ἐἕἘ ἠἧἨ ἰἷἸ ὀὅὈ ὠὧὨ ὰάᾺ ὲήῈ ὶίῚ ὸόῸ",
      "ὺύῪ ὼώῺ ᾰᾱᾸ ῐῑῘ ῠῡῨ ⅰⅿⅠ ⓐⓩⒶ ⰰⱟⰀ ⴀⴥႠ ꭰꮿᎠ ａｚＡ 𐐨𐑏𐐀 𐓘𐓻𐒰 𐖗𐖡𐕰 𐖣𐖱𐕼 𐖳𐖹𐖌 𐖻𐖼𐖔 𐳀𐳲𐲀 𑣀𑣟𑢠 𖹠𖹿𖹀 𞤢𞥃𞤀" ]

/-- The runs in which every second character is mapped. -/
def halfRuns : List (List Char) :=
  words
    [ "āįĀ ĳķĲ ĺňĹ ŋŷŊ źžŹ ƃƅƂ ơƥƠ ƴƶƳ ǎǜǍ ǟǯǞ ǹȟǸ ȣȳȢ ɇɏɆ ͱͳͰ ϙϯϘ ѡҁѠ ҋҿҊ ӂӎӁ ӑԯӐ ḁẕḀ ạỿẠ ὑὗὙ ⱨⱬⱧ ⲁⳣⲀ ⳬⳮⳫ ꙁꙭꙀ ꚁꚛꚀ ꜣꜯꜢ",
      "ꜳꝯꜲ ꝺꝼꝹ ꝿꞇꝾ ꞑꞓꞐ ꞗꞩꞖ ꞵꟃꞴ ꟈꟊꟇ ꟗꟙꟖ" ]

/-- The characters that stand alone, each with its upper-case form behind it. -/
def loneForms : List (List Char) :=
  words
    [ "µΜ ßSS ÿŸ ıI ŉʼN ſS ƀɃ ƈƇ ƌƋ ƒƑ ƕǶ ƙƘ ƚȽ ƞȠ ƨƧ ƭƬ ưƯ ƹƸ ƽƼ ƿǷ ǅǄ ǆǄ ǈǇ ǉǇ ǋǊ ǌǊ ǝƎ ǰJ\u030c ǲǱ ǳǱ ǵǴ ȼȻ ɂɁ ɐⱯ ɑⱭ",
      "ɒⱰ ɓƁ ɔƆ əƏ ɛƐ ɜꞫ ɠƓ ɡꞬ ɣƔ ɥꞍ ɦꞪ ɨƗ ɩƖ ɪꞮ ɫⱢ ɬꞭ ɯƜ ɱⱮ ɲƝ ɵƟ ɽⱤ ʀƦ ʂꟅ ʃƩ ʇꞱ ʈƮ ʉɄ ʌɅ ʒƷ ʝꞲ ʞꞰ \u0345Ι ͷͶ",
      "ΐΙ\u0308\u0301 άΆ ΰΥ\u0308\u0301 ςΣ όΌ ϐΒ ϑΘ ϕΦ ϖΠ ϗϏ ϰΚ ϱΡ ϲϹ ϳͿ ϵΕ ϸϷ ϻϺ ӏӀ ևԵՒ ᲀВ ᲁД ᲂО ᲅТ ᲆЪ ᲇѢ ᲈꙊ ᵹꝽ ᵽⱣ ᶎꟆ",
      "ẖH\u0331 ẗT\u0308 ẘW\u030a ẙY\u030a ẚAʾ ẛṠ ὐΥ\u0313 ὒΥ\u0313\u0300 ὔΥ\u0313\u0301 ὖΥ\u0313\u0342 ᾀἈΙ ᾁἉΙ ᾂἊΙ ᾃἋΙ",
      "ᾄἌΙ ᾅἍΙ ᾆἎΙ ᾇἏΙ ᾈἈΙ ᾉἉΙ ᾊἊΙ ᾋἋΙ ᾌἌΙ ᾍἍΙ ᾎἎΙ ᾏἏΙ ᾐἨΙ ᾑἩΙ ᾒἪΙ ᾓἫΙ ᾔἬΙ ᾕἭΙ ᾖἮΙ ᾗἯΙ ᾘἨΙ ᾙἩΙ ᾚἪΙ ᾛἫΙ ᾜἬΙ ᾝἭΙ ᾞἮΙ ᾟἯΙ",
      "ᾠὨΙ ᾡὩΙ ᾢὪΙ ᾣὫΙ ᾤὬΙ ᾥὭΙ ᾦὮΙ ᾧὯΙ ᾨὨΙ ᾩὩΙ ᾪὪΙ ᾫὫΙ ᾬὬΙ ᾭὭΙ ᾮὮΙ ᾯὯΙ ᾲᾺΙ ᾳΑΙ ᾴΆΙ ᾶΑ\u0342 ᾷΑ\u0342Ι ᾼΑΙ ιΙ ῂῊΙ ῃΗΙ",
      "ῄΉΙ ῆΗ\u0342 ῇΗ\u0342Ι ῌΗΙ ῒΙ\u0308\u0300 ΐΙ\u0308\u0301 ῖΙ\u0342 ῗΙ\u0308\u0342 ῢΥ\u0308\u0300 ΰΥ\u0308\u0301",
      "ῤΡ\u0313 ῥῬ ῦΥ\u0342 ῧΥ\u0308\u0342 ῲῺΙ ῳΩΙ ῴΏΙ ῶΩ\u0342 ῷΩ\u0342Ι ῼΩΙ ⅎℲ ↄↃ ⱡⱠ ⱥȺ ⱦȾ ⱳⱲ ⱶⱵ ⳳⳲ ⴧჇ ⴭჍ ꞌꞋ ꞔꟄ ꟑꟐ ꟶꟵ",
      "ꭓꞳ ﬀFF ﬁFI ﬂFL ﬃFFI ﬄFFL ﬅST ﬆST ﬓՄՆ ﬔՄԵ ﬕՄԻ ﬖՎՆ ﬗՄԽ" ]

/-- The upper-case form of a character in a run of which every `step`-th character is mapped. -/
def upperInRun (step : Nat) (c : Char) : List Char → Option (List Char)
  | [first, last, upper] =>
    if first ≤ c && c ≤ last && (c.toNat - first.toNat) % step == 0 then
      some [Char.ofNat (upper.toNat + (c.toNat - first.toNat))]
    else none
  | _ => none

/-- The upper-case form of a character that stands alone. -/
def upperAlone (c : Char) : List Char → Option (List Char)
  | first :: form => if first = c then some form else none
  | [] => none

def upperChar (c : Char) : List Char :=
  let form := fullRuns.findSome? (upperInRun 1 c) <|> halfRuns.findSome? (upperInRun 2 c) <|> loneForms.findSome? (upperAlone c)
  form.getD [c]

def upper (s : String) : String := String.ofList (s.toList.flatMap upperChar)

end Verbatim.Text
