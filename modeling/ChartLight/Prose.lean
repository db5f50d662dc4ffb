import ChartLight.Characteristic
import ChartLight.Morse

/-! A characteristic in plain words, in English or French. -/

namespace ChartLight

inductive Language where
  | english
  | french
  deriving DecidableEq, Repr

namespace Language

def code : Language → String
  | .english => "en"
  | .french => "fr"

/-- Reads the code or the name of a language, without regard to the case of ASCII letters. -/
def ofText? (text : String) : Option Language :=
  match String.ofList (text.toList.map Char.toLower) with
  | "en" | "english" => some .english
  | "fr" | "french" | "français" => some .french
  | _ => none

def ofCode? (code : String) : Option Language :=
  [english, french].find? (·.code == code)

end Language

namespace Rhythm

def english : Rhythm → String
  | .fixed => "fixed"
  | .flashing => "flashing"
  | .longFlashing => "long-flashing"
  | .occulting => "occulting"
  | .isophase => "isophase"
  | .quick => "quick"
  | .veryQuick => "very quick"
  | .ultraQuick => "ultra quick"
  | .interruptedQuick => "interrupted quick"
  | .interruptedVeryQuick => "interrupted very quick"
  | .interruptedUltraQuick => "interrupted ultra quick"
  | .morse => "Morse code"
  | .alternating => "alternating"

def french : Rhythm → String
  | .fixed => "fixe"
  | .flashing => "à éclats"
  | .longFlashing => "à éclats longs"
  | .occulting => "à occultations"
  | .isophase => "isophase"
  | .quick => "scintillant"
  | .veryQuick => "scintillant rapide"
  | .ultraQuick => "scintillant ultra-rapide"
  | .interruptedQuick => "scintillant discontinu"
  | .interruptedVeryQuick => "scintillant rapide discontinu"
  | .interruptedUltraQuick => "scintillant ultra-rapide discontinu"
  | .morse => "Morse"
  | .alternating => "alterné"

end Rhythm

namespace Color

/-- The English name at the beginning of a sentence. -/
def capitalized : Color → String
  | .white => "White"
  | .red => "Red"
  | .green => "Green"
  | .yellow => "Yellow"
  | .blue => "Blue"

def french : Color → String
  | .white => "blanc"
  | .red => "rouge"
  | .green => "vert"
  | .yellow => "jaune"
  | .blue => "bleu"

end Color

/-- The numbers of a group as a sum. -/
def sumText (values : List Nat) : String := String.intercalate " + " (values.map toString)

def letterText (c : Char) : String :=
  String.singleton c ++ " (" ++ (Morse.pattern? c).getD "?" ++ ")"

namespace Group

def english (rhythm : Rhythm) : Group → String
  | .single => ""
  | .count n =>
    ", group of " ++ toString n ++ (if rhythm = .longFlashing then " long" else "") ++
      (if n = 1 then " flash" else " flashes")
  | .composite parts => ", composite group of " ++ sumText parts ++ " flashes"
  | .eclipses seconds =>
    (if seconds.length = 1 then ", eclipse of " else ", eclipses of ") ++ sumText seconds ++ " s"
  | .letter c => ", letter " ++ letterText c

def french (rhythm : Rhythm) : Group → String
  | .single => ""
  | .count n =>
    ", groupe de " ++ toString n ++ (if n = 1 then " éclat" else " éclats") ++
      (if rhythm = .longFlashing then (if n = 1 then " long" else " longs") else "")
  | .composite parts => ", groupe composé de " ++ sumText parts ++ " éclats"
  | .eclipses seconds =>
    (if seconds.length = 1 then ", occultation de " else ", occultations de ") ++
      sumText seconds ++ " s"
  | .letter c => ", lettre " ++ letterText c

end Group

namespace Characteristic

def english (light : Characteristic) : String :=
  (match light.rhythm, light.altColor with
    | .alternating, some alt => "Alternating light, " ++ light.color.name ++ " and " ++ alt.name
    | rhythm, _ => light.color.capitalized ++ " " ++ rhythm.english ++ " light") ++
  light.group.english light.rhythm ++
  (if light.longFlashTail then ", followed by a long flash" else "") ++
  ", period " ++ secondsText light.period ++ " s."

/-- A decimal point is written as a comma. -/
def french (light : Characteristic) : String :=
  (match light.rhythm, light.altColor with
    | .alternating, some alt => "Feu alterné " ++ light.color.french ++ " et " ++ alt.french
    | .morse, _ => "Feu Morse " ++ light.color.french
    | rhythm, _ => "Feu " ++ light.color.french ++ " " ++ rhythm.french) ++
  light.group.french light.rhythm ++
  (if light.longFlashTail then ", suivi d'un éclat long" else "") ++
  ", période " ++
  String.ofList ((secondsText light.period).toList.map fun c => if c = '.' then ',' else c) ++ " s."

def prose (light : Characteristic) : Language → String
  | .english => light.english
  | .french => light.french

end Characteristic

end ChartLight
