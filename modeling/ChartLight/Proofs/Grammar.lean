import ChartLight.Characteristic.Reading
import ChartLight.Proofs.Trim

/-! The grammar of characteristics in normal form. Each relation says how one part is written and
what it means, without regard to how a text is taken apart; `Written` puts the parts together.
White space may stand between two parts, and separators after a colour. -/

namespace ChartLight

open Number Text

/-- Above zero and at most an hour. -/
def InHour (seconds : Binary64) : Prop :=
  ∃ rank, seconds = .finite false rank ∧ 0 < units rank ∧ units rank ≤ 3600 * unitsInOne

structure Digits (cs : List Char) : Prop where
  ne_nil : cs ≠ []
  isDigit : ∀ c ∈ cs, c.isDigit = true

/-- `digits` or `digits.digits`, and the number it names. -/
inductive Numeral : List Char → Decimal → Prop
  | whole {ds : List Char} (hds : Digits ds) : Numeral ds ⟨Nat.ofDigitChars 10 ds 0, 0⟩
  | point {ds es : List Char} (hds : Digits ds) (hes : Digits es) :
      Numeral (ds ++ '.' :: es) ⟨Nat.ofDigitChars 10 (ds ++ es) 0, -es.length⟩

def Color.capitals : Color → List Char
  | .white => ['W']
  | .red => ['R']
  | .green => ['G']
  | .yellow => ['Y']
  | .blue => ['B', 'U']

/-- Colour codes, each followed by hyphens and white space as it likes. -/
inductive ColorsText : List Char → List Color → Prop
  | nil : ColorsText [] []
  | cons {separators rest : List Char} {colors : List Color} (color : Color)
      (hseparators : ∀ c ∈ separators, isSeparator c = true) (hrest : ColorsText rest colors) :
      ColorsText (color.capitals ++ separators ++ rest) (color :: colors)

/-- A number of at most 99 between white space. -/
inductive ElementText : List Char → Nat → Prop
  | intro {a ds b : List Char} (ha : Blank a) (hds : Digits ds) (hb : Blank b)
      (hle : Nat.ofDigitChars 10 ds 0 ≤ 99) :
      ElementText (a ++ ds ++ b) (Nat.ofDigitChars 10 ds 0)

/-- Such numbers with a `+` between them. -/
inductive ElementsText : List Char → List Nat → Prop
  | one {cs : List Char} {n : Nat} (h : ElementText cs n) : ElementsText cs [n]
  | more {cs rest : List Char} {n : Nat} {ns : List Nat} (h : ElementText cs n)
      (hrest : ElementsText rest ns) : ElementsText (cs ++ '+' :: rest) (n :: ns)

/-- What numbers mean as the group of a rhythm. -/
def Group.ofElements (rhythm : Rhythm) (values : List Nat) : Group :=
  match rhythm, values with
  | .occulting, values => .eclipses values
  | _, [n] => .count n
  | _, values => .composite values

/-- A group. Only Morse lights have a letter, and they must have one; a bare number is a group where
no long flash follows. -/
inductive GroupText (rhythm : Rhythm) (tail : Bool) : List Char → Group → Prop
  | absent (hrhythm : rhythm ≠ .morse) : GroupText rhythm tail [] .single
  | letter {a b : List Char} {c : Char} (hrhythm : rhythm = .morse) (ha : Blank a)
      (hc : c.isUpper = true) (hb : Blank b) :
      GroupText rhythm tail ('(' :: a ++ c :: b ++ [')']) (.letter c)
  | parenthesized {cs : List Char} {values : List Nat} (hrhythm : rhythm ≠ .morse)
      (h : ElementsText cs values) :
      GroupText rhythm tail ('(' :: cs ++ [')']) (.ofElements rhythm values)
  | bare {ds : List Char} (hrhythm : rhythm ≠ .morse) (htail : tail = false) (hds : Digits ds)
      (hle : Nat.ofDigitChars 10 ds 0 ≤ 99) :
      GroupText rhythm tail ds (.ofElements rhythm [Nat.ofDigitChars 10 ds 0])

/-- A long flash, if any. -/
inductive TailText : List Char → Bool → Prop
  | absent : TailText [] false
  | present {a b c : List Char} (ha : Blank a) (hb : Blank b) (hc : Blank c) :
      TailText ('+' :: a ++ 'L' :: b ++ 'F' :: c ++ ['L']) true

/-- What may stand before the keyword to announce a group. -/
def groupSigns : List (List Char) := [[], ['G', 'P'], ['G', 'R']]

/-- All that stands before the period. -/
inductive BodyText (r : Reading) : List Char → Prop
  | intro {sign a keyword b group c tail d colors : List Char}
      (hsign : sign ∈ groupSigns) (ha : Blank a)
      (hkeyword : (keyword, r.rhythm) ∈ Rhythm.keywords) (hb : Blank b)
      (hgroup : GroupText r.rhythm r.longFlashTail group r.group) (hc : Blank c)
      (htail : TailText tail r.longFlashTail) (hd : Blank d)
      (hcolors : ColorsText colors r.colors) :
      BodyText r (sign ++ a ++ keyword ++ b ++ group ++ c ++ tail ++ d ++ colors)

/-- A whole text in normal form. The numeral of a period is the longest that ends where it does. -/
inductive Written (r : Reading) : List Char → Prop
  | untimed {cs : List Char} (hcs : BodyText r cs) (hperiod : r.period = none) : Written r cs
  | timed {body a numeral b : List Char} {decimal : Decimal} (hbody : BodyText r body)
      (ha : Blank a) (hlongest : ∀ c ∈ (body ++ a).getLast?, inNumeral c = false)
      (hnumeral : Numeral numeral decimal) (hb : Blank b)
      (hperiod : r.period = some (decimal.toBinary64 false))
      (hrange : InHour (decimal.toBinary64 false)) :
      Written r (body ++ a ++ numeral ++ b ++ ['S'])

end ChartLight
