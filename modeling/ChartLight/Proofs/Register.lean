import ChartLight.Playback.Session
import Mathlib

/-! A session knows its playbacks by the places they stand at, and forgets the ones that have left. A
register numbers every playback that was ever started and keeps it, and each clock reading reaches all
of them, ended or not. Looked at through the places, a register behaves as the session does
(`run?_view`), and it tells which playback made a call. -/

namespace ChartLight

open Number

/-- A target of the scheduler, or a holder of a playback apart from it. -/
structure Place where
  held : Bool
  name : String
  deriving DecidableEq

namespace Place

def target (name : String) : Place := ⟨false, name⟩

def holder (name : String) : Place := ⟨true, name⟩

end Place

/-- The places where a command ends what is played: the target of a new playback, a target or all of
them, or a holder. -/
def Command.ends : Command → Place → Bool
  | .play target _ => (· == .target target)
  | .simulate target text =>
    match Characteristic.read text with
    | .ok _ => (· == .target target)
    | .error _ => fun _ => false
  | .cancel target => (· == .target target)
  | .cancelAll => (!·.held)
  | .start holder _ _ | .stop holder | .drop holder => (· == .holder holder)
  | .advance _ | .look _ => fun _ => false

structure Register where
  nowMs : Nat
  scale : Binary64
  /-- All playbacks that were started, each at its number. -/
  playbacks : List Playback
  /-- The number of the playback that stands at a place. -/
  places : List (Place × Nat)

namespace Register

def ofScale (scale : Binary64) : Register := ⟨0, scale, [], []⟩

section Moves

variable (r : Register)

/-- The playback at a place. -/
def at? (place : Place) : Option Playback := (r.places.lookup place).bind (r.playbacks[·]?)

/-- The numbers at some places. -/
def numbers (among : Place → Bool) : List Nat := (r.places.filter (among ·.1)).map Prod.snd

/-- Takes the playbacks away from some places and cancels them. -/
def clear (among : Place → Bool) : Register :=
  { r with
    playbacks := r.playbacks.mapIdx fun k p => if k ∈ r.numbers among then p.cancel else p
    places := r.places.filter (!among ·.1) }

/-- Gives a new playback the next number. -/
def enter (p : Playback) : Register := { r with playbacks := r.playbacks ++ [p] }

/-- Puts a number at a place that is free. -/
def stand (place : Place) (k : Nat) : Register := { r with places := (place, k) :: r.places }

/-- Puts a new playback at a place, and takes away the one that stood there. -/
def begin (place : Place) (p : Playback) : Register :=
  ((r.clear (· == place)).enter p).stand place r.playbacks.length

/-- Cancels the playback of a number and leaves it at its place. -/
def keep (place : Place) (k : Nat) : Register := (r.clear (· == place)).stand place k

/-- Lets every playback make the calls that are due. -/
def advance (nowMs : Nat) : Register :=
  { r with nowMs, playbacks := r.playbacks.map fun p => (p.advance nowMs).2 }

/-- Some calls, all made by the playback that gets the next number. -/
def opening (calls : List Call) (k : Nat) : List Call :=
  if k = r.playbacks.length then calls else []

/-- The calls that are due of the playback of a number. -/
def due (nowMs k : Nat) : List Call :=
  (r.playbacks[k]?.map fun p => (p.advance nowMs).1).getD []

end Moves

structure Step where
  outcome : Outcome
  /-- The calls that the playback of a number makes. -/
  calls : Nat → List Call
  register : Register

section Steps

variable (r : Register)

/-- Starts a playback at a place and ends the one that stood there. -/
def start? (place : Place) (cycle : Cycle) (scale : Binary64) : Option Step :=
  (Playback.start? r.nowMs cycle scale).map fun (p, calls) =>
    ⟨.status p.status, r.opening calls, r.begin place p⟩

/-- One command, as `Session.step?` has it. -/
def step? : Command → Option Step
  | .play target cycle => r.start? (.target target) cycle r.scale
  | .simulate target text =>
    match Characteristic.read text with
    | .ok light => r.start? (.target target) (light.cycle .extend) r.scale
    | .error fault => some ⟨.refused fault, fun _ => [], r⟩
  | .cancel target =>
    some ⟨.flag (r.at? (.target target)).isSome, fun _ => [], r.clear (· == .target target)⟩
  | .cancelAll => some ⟨.nothing, fun _ => [], r.clear (!·.held)⟩
  | .advance ms =>
    let nowMs := r.nowMs + ms
    some ⟨.nothing, r.due nowMs, r.advance nowMs⟩
  | .start holder cycle scale => r.start? (.holder holder) cycle scale
  | .stop holder =>
    match r.places.lookup (.holder holder) with
    | some k => r.playbacks[k]?.map fun p =>
        ⟨.status p.cancel.status, fun _ => [], r.keep (.holder holder) k⟩
    | none => some ⟨.nothing, fun _ => [], r⟩
  | .drop holder =>
    some ⟨.flag (r.at? (.holder holder)).isSome, fun _ => [], r.clear (· == .holder holder)⟩
  | .look holder =>
    match r.at? (.holder holder) with
    | some p => some ⟨.status p.status, fun _ => [], r⟩
    | none => some ⟨.nothing, fun _ => [], r⟩

/-- A list of commands, which must all be possible, with every step on the way. -/
def run? (r : Register) (commands : List Command) : Option (List Step) :=
  Steps.run? step? Step.register r commands

/-- The register after the steps of a run. -/
def after (log : List Step) : Register := Steps.after Step.register r log

/-- The numbers of the playbacks that a command ends. -/
def ended (command : Command) : List Nat := r.numbers command.ends

end Steps

/-- No place and no number stands twice, and each number is that of a playback. -/
structure Consistent (r : Register) : Prop where
  places_nodup : (r.places.map Prod.fst).Nodup
  numbers_nodup : (r.places.map Prod.snd).Nodup
  lt_length : ∀ e ∈ r.places, e.2 < r.playbacks.length

section Clear

variable {r : Register} {among : Place → Bool} {place : Place} {k : Nat}

theorem mem_numbers : k ∈ r.numbers among ↔ ∃ place, (place, k) ∈ r.places ∧ among place := by
  simp [numbers]

theorem clear_playbacks_getElem? :
    (r.clear among).playbacks[k]? =
      r.playbacks[k]?.map fun p => if k ∈ r.numbers among then p.cancel else p := by
  simp [clear, List.getElem?_mapIdx]

theorem length_clear : (r.clear among).playbacks.length = r.playbacks.length := by
  simp [clear]

theorem Consistent.not_mem_numbers (h : r.Consistent) (hmem : (place, k) ∈ r.places)
    (hnot : ¬among place) : k ∉ r.numbers among := by
  rw [mem_numbers]
  rintro ⟨other, hother, hamong⟩
  have heq := List.inj_on_of_nodup_map h.numbers_nodup hmem hother rfl
  rw [Prod.mk.injEq] at heq
  exact hnot (heq.1 ▸ hamong)

theorem Consistent.clear (h : r.Consistent) (among : Place → Bool) : (r.clear among).Consistent where
  places_nodup := h.places_nodup.sublist (List.filter_sublist.map _)
  numbers_nodup := h.numbers_nodup.sublist (List.filter_sublist.map _)
  lt_length e he := by
    rw [length_clear]
    exact h.lt_length e (List.mem_of_mem_filter he)

end Clear

theorem Consistent.enter {r : Register} (h : r.Consistent) (p : Playback) :
    (r.enter p).Consistent where
  places_nodup := h.places_nodup
  numbers_nodup := h.numbers_nodup
  lt_length e he := by
    have hlt := h.lt_length e he
    simp only [Register.enter, List.length_append, List.length_singleton]
    omega

theorem Consistent.stand {r : Register} (h : r.Consistent) {place : Place} {k : Nat}
    (hplace : place ∉ r.places.map Prod.fst) (hk : k ∉ r.places.map Prod.snd)
    (hlt : k < r.playbacks.length) : (r.stand place k).Consistent where
  places_nodup := List.nodup_cons.mpr ⟨hplace, h.places_nodup⟩
  numbers_nodup := List.nodup_cons.mpr ⟨hk, h.numbers_nodup⟩
  lt_length := List.forall_mem_cons.mpr ⟨hlt, h.lt_length⟩

theorem Consistent.advance {r : Register} (h : r.Consistent) (nowMs : Nat) :
    (r.advance nowMs).Consistent where
  places_nodup := h.places_nodup
  numbers_nodup := h.numbers_nodup
  lt_length e he := by
    rw [Register.advance, List.length_map]
    exact h.lt_length e he

section Start

variable {r : Register} {place : Place} {k : Nat}

theorem fst_not_mem_clear (place : Place) :
    place ∉ (r.clear (· == place)).places.map Prod.fst := by
  simp [clear]

/-- A number that was taken away from a place is free again. -/
theorem Consistent.snd_not_mem_clear (h : r.Consistent) (hk : (place, k) ∈ r.places) :
    k ∉ (r.clear (· == place)).places.map Prod.snd := by
  rintro hmem
  obtain ⟨⟨other, k⟩, hother, rfl⟩ := List.mem_map.mp hmem
  obtain ⟨hother, hne⟩ := List.mem_filter.mp hother
  have heq := List.inj_on_of_nodup_map h.numbers_nodup hother hk rfl
  simp [(Prod.mk.inj heq).1] at hne

theorem mem_of_lookup (h : r.places.lookup place = some k) : (place, k) ∈ r.places := by
  obtain ⟨l₁, l₂, hl, -⟩ := List.lookup_eq_some_iff.mp h
  simp [hl]

/-- Where a number stands, its playback does. -/
theorem Consistent.exists_playback (h : r.Consistent) (hk : r.places.lookup place = some k) :
    ∃ p, r.playbacks[k]? = some p ∧ r.at? place = some p := by
  have hlt := h.lt_length _ (mem_of_lookup hk)
  exact ⟨r.playbacks[k], List.getElem?_eq_getElem hlt, by simp [at?, hk, hlt]⟩

theorem Consistent.begin (h : r.Consistent) (place : Place) (p : Playback) :
    (r.begin place p).Consistent := by
  refine ((h.clear _).enter p).stand (fst_not_mem_clear place) (fun hmem => ?_) ?_
  · obtain ⟨e, he, hlength⟩ := List.mem_map.mp hmem
    have hlt := h.lt_length e (List.mem_of_mem_filter he)
    omega
  · simp [Register.enter, length_clear]

/-- A new playback leaves the numbers of the others as clearing its place has left them. -/
theorem begin_playbacks_getElem? (hk : k < r.playbacks.length) {p : Playback} :
    (r.begin place p).playbacks[k]? = (r.clear (· == place)).playbacks[k]? := by
  have hk' : k < (r.clear (· == place)).playbacks.length := by rwa [length_clear]
  simp only [begin, stand, enter]
  rw [List.getElem?_append_left hk']

theorem Consistent.keep (h : r.Consistent) (hk : r.places.lookup place = some k) :
    (r.keep place k).Consistent := by
  refine (h.clear _).stand (fst_not_mem_clear place) (h.snd_not_mem_clear (mem_of_lookup hk)) ?_
  rw [length_clear]
  exact h.lt_length _ (mem_of_lookup hk)

end Start

theorem ofScale_consistent (scale : Binary64) : (ofScale scale).Consistent where
  places_nodup := List.nodup_nil
  numbers_nodup := List.nodup_nil
  lt_length _ he := absurd he List.not_mem_nil

end Register

end ChartLight
