import ChartLight.Characteristic.Reading
import ChartLight.LoadFault
import ChartLight.Yaml.Decoding

/-! Sea marks with the lights they show: the common ones, and those of a user's catalogue. -/

namespace ChartLight

open Yaml

structure Mark where
  name : String
  /-- The characteristic, as written. -/
  light : String
  deriving DecidableEq, Repr

namespace Mark

def common : List Mark :=
  [⟨"North cardinal", "Q W"⟩, ⟨"North cardinal (very quick)", "VQ W"⟩,
    ⟨"East cardinal", "Q(3) W 10s"⟩, ⟨"East cardinal (very quick)", "VQ(3) W 5s"⟩,
    ⟨"South cardinal", "Q(6)+LFl W 15s"⟩, ⟨"South cardinal (very quick)", "VQ(6)+LFl W 10s"⟩,
    ⟨"West cardinal", "Q(9) W 15s"⟩, ⟨"West cardinal (very quick)", "VQ(9) W 10s"⟩,
    ⟨"Isolated danger", "Fl(2) W 5s"⟩, ⟨"Safe water (isophase)", "Iso W 4s"⟩,
    ⟨"Safe water (occulting)", "Oc W 6s"⟩, ⟨"Safe water (long flash)", "LFl W 10s"⟩,
    ⟨"Safe water (Morse)", "Mo(A) W 6s"⟩, ⟨"Special mark", "Fl Y 5s"⟩,
    ⟨"Emergency wreck mark", "Al BuY 3s"⟩, ⟨"Port lateral, region A", "Fl R 4s"⟩,
    ⟨"Starboard lateral, region A", "Fl G 4s"⟩,
    ⟨"Preferred channel to starboard, region A", "Fl(2+1) R 10s"⟩,
    ⟨"Preferred channel to port, region A", "Fl(2+1) G 10s"⟩,
    ⟨"Offshore structure", "Mo(U) W 15s"⟩]

/-- A text without regard to the case of its ASCII letters. -/
def foldCase (cs : List Char) : List Char := cs.map Char.toLower

/-- The first mark of a name, without regard to case or to white space around the name asked for. -/
def find? (marks : List Mark) (name : String) : Option Mark :=
  marks.find? fun mark => foldCase mark.name.toList == foldCase (Text.trim name.toList)

/-- A mark of a document; entries other than its name and characteristic are passed over. -/
def ofNode? (d : Document) (n : Node) : Option Mark := do
  let entries ← d.entries? n
  let known := (entries.map Prod.fst).filter fun key => key == "name" || key == "notation"
  let name ← d.text? (← entries.lookup "name")
  let light ← d.text? (← entries.lookup "notation")
  if known.Nodup then return ⟨name, light⟩ else none

/-- What is wrong with the first mark whose characteristic cannot be read. -/
def firstFault? (marks : List Mark) : Option LoadFault :=
  marks.findSome? fun mark =>
    match Characteristic.read mark.light with
    | .ok _ => none
    | .error fault => some (.entry mark.name fault)

/-- Reads a catalogue; every characteristic in it must be readable. -/
def readAll (text : String) : Except LoadFault (List Mark) :=
  let marks? := (Document.read? text.toList).bind fun
    | none => some []
    | some d => (d.items? d.root).bind (·.mapM (ofNode? d))
  match marks? with
  | none => .error .malformed
  | some marks =>
    match firstFault? marks with
    | some fault => .error fault
    | none => .ok marks

end Mark

end ChartLight
