/-! The rhythms of lights, their abbreviations on charts and the keywords by which a characteristic
names them. Longer keywords stand before shorter ones, so the first keyword that begins a text is
also the longest. -/

namespace ChartLight

inductive Rhythm where
  | fixed
  | flashing
  | longFlashing
  | occulting
  | isophase
  | quick
  | veryQuick
  | ultraQuick
  | interruptedQuick
  | interruptedVeryQuick
  | interruptedUltraQuick
  | morse
  | alternating
  deriving DecidableEq, Repr

namespace Rhythm

def all : List Rhythm :=
  [.fixed, .flashing, .longFlashing, .occulting, .isophase, .quick, .veryQuick, .ultraQuick,
    .interruptedQuick, .interruptedVeryQuick, .interruptedUltraQuick, .morse, .alternating]

/-- The abbreviation printed on charts. -/
def abbreviation : Rhythm → String
  | .fixed => "F"
  | .flashing => "Fl"
  | .longFlashing => "LFl"
  | .occulting => "Oc"
  | .isophase => "Iso"
  | .quick => "Q"
  | .veryQuick => "VQ"
  | .ultraQuick => "UQ"
  | .interruptedQuick => "IQ"
  | .interruptedVeryQuick => "IVQ"
  | .interruptedUltraQuick => "IUQ"
  | .morse => "Mo"
  | .alternating => "Al"

def name : Rhythm → String
  | .fixed => "fixed"
  | .flashing => "flashing"
  | .longFlashing => "long-flashing"
  | .occulting => "occulting"
  | .isophase => "isophase"
  | .quick => "quick"
  | .veryQuick => "very-quick"
  | .ultraQuick => "ultra-quick"
  | .interruptedQuick => "interrupted-quick"
  | .interruptedVeryQuick => "interrupted-very-quick"
  | .interruptedUltraQuick => "interrupted-ultra-quick"
  | .morse => "morse"
  | .alternating => "alternating"

def ofName? (name : String) : Option Rhythm := all.find? (·.name == name)

/-- Milliseconds from one flash to the next in the quick family: 60, 120 or 240 a minute. -/
def quickRate? : Rhythm → Option Nat
  | .quick | .interruptedQuick => some 1000
  | .veryQuick | .interruptedVeryQuick => some 500
  | .ultraQuick | .interruptedUltraQuick => some 250
  | _ => none

def isInterrupted : Rhythm → Bool
  | .interruptedQuick | .interruptedVeryQuick | .interruptedUltraQuick => true
  | _ => false

/-- The upper-case keywords, in the order in which they are tried. -/
def keywords : List (List Char × Rhythm) :=
  [(['I', 'V', 'Q'], .interruptedVeryQuick), (['I', 'U', 'Q'], .interruptedUltraQuick),
    (['L', 'F', 'L'], .longFlashing), (['I', 'S', 'O'], .isophase), (['O', 'C', 'C'], .occulting),
    (['A', 'L', 'T'], .alternating), (['F', 'L'], .flashing), (['O', 'C'], .occulting),
    (['I', 'Q'], .interruptedQuick), (['V', 'Q'], .veryQuick), (['U', 'Q'], .ultraQuick),
    (['M', 'O'], .morse), (['A', 'L'], .alternating), (['F'], .fixed), (['Q'], .quick)]

theorem keywords_longest_first : keywords.Pairwise fun a b => b.1.length ≤ a.1.length := by decide

end Rhythm

end ChartLight
