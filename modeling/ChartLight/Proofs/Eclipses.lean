import ChartLight.Proofs.Flashes
import ChartLight.Proofs.Milliseconds
import ChartLight.Proofs.Totals
import ChartLight.Proofs.Validity

/-! An occulting light, to the millisecond. Its eclipses are dark for as long as they are written, and
what they leave of the period is lit: evenly before each, and what does not divide evenly before the
last. Where they leave nothing there is no light; without eclipses a quarter of the period is dark. -/

namespace ChartLight

open Number

/-- The light before eclipse `i` of so many, where `bright` milliseconds are shared among them. -/
def lightBefore (bright count i : Nat) : Nat :=
  bright / count + if i + 1 = count then bright % count else 0

/-- Eclipses of given seconds, eclipse `i` after light for `light i` milliseconds. -/
def Lamp.eclipsesAfter (lamp : Lamp) (light : Nat → Nat) (seconds : List Nat) : List Segment :=
  (seconds.mapIdx fun i e => [lamp.on (light i), lamp.off (e * 1000)]).flatten

section Light

/-- What is lit and what is dark are all that there is. -/
theorem totalMs_lit_add_dark (l : List Segment) :
    totalMs (l.filter (·.lit)) + totalMs (l.filter (!·.lit)) = totalMs l := by
  induction l with
  | nil => rfl
  | cons s l ih =>
    cases hlit : s.lit with
    | true => simp [hlit, totalMs_cons, ← ih, Nat.add_assoc]
    | false => simp [hlit, totalMs_cons, ← ih, Nat.add_left_comm]

end Light

namespace Lamp

variable (lamp : Lamp)

theorem eclipsesAfter_cons (light : Nat → Nat) (e : Nat) (es : List Nat) :
    lamp.eclipsesAfter light (e :: es) =
      lamp.on (light 0) :: lamp.off (e * 1000) :: lamp.eclipsesAfter (fun i => light (i + 1)) es := by
  simp [eclipsesAfter, List.mapIdx_cons]

/-- Eclipses in a row, only the last of which has other light before it. -/
theorem eclipses_eq (share lastShare : Nat) (es : List Nat) :
    lamp.eclipses share lastShare es =
      lamp.eclipsesAfter (fun i => if i + 1 = es.length then lastShare else share) es := by
  fun_induction Lamp.eclipses lamp share lastShare es with
  | case1 => rfl
  | case2 e => rfl
  | case3 e es hne ih =>
    have hmore : es.length ≠ 0 := fun hnil => hne (List.length_eq_zero_iff.1 hnil)
    rw [eclipsesAfter_cons, ih]
    simp [eclipsesAfter, hmore]

/-- The eclipses are all that is dark. -/
theorem filter_dark_eclipsesAfter (light : Nat → Nat) (seconds : List Nat) :
    (lamp.eclipsesAfter light seconds).filter (!·.lit) = seconds.map fun e => lamp.off (e * 1000) := by
  induction seconds generalizing light with
  | nil => rfl
  | cons e es ih => rw [eclipsesAfter_cons]; simp [ih]

theorem occulting_eq_eclipsesAfter {seconds : List Nat} (h : seconds ≠ []) (periodMs : Nat) :
    lamp.occulting (.eclipses seconds) periodMs =
      lamp.eclipsesAfter (lightBefore (periodMs - total seconds * 1000) seconds.length) seconds := by
  obtain ⟨e, es, rfl⟩ := List.exists_cons_of_ne_nil h
  rw [occulting_eclipses, eclipses_eq]
  congr 1
  funext i
  unfold lightBefore
  split_ifs <;> rfl

theorem totalMs_occulting {seconds : List Nat} (h : seconds ≠ []) (periodMs : Nat) :
    totalMs (lamp.occulting (.eclipses seconds) periodMs) = max periodMs (total seconds * 1000) := by
  obtain ⟨e, es, rfl⟩ := List.exists_cons_of_ne_nil h
  exact totalMs_occulting_eclipses e es periodMs

/-- The light is what the darkness leaves of the whole. -/
theorem totalMs_lit_occulting {seconds : List Nat} (h : seconds ≠ []) (periodMs : Nat) :
    totalMs ((lamp.occulting (.eclipses seconds) periodMs).filter (·.lit)) =
      periodMs - total seconds * 1000 := by
  have hdark : totalMs ((lamp.occulting (.eclipses seconds) periodMs).filter (!·.lit)) =
      total seconds * 1000 := by
    rw [occulting_eq_eclipsesAfter lamp h, filter_dark_eclipsesAfter, totalMs, List.map_map]
    exact total_map_mul seconds 1000
  have hsplit := totalMs_lit_add_dark (lamp.occulting (.eclipses seconds) periodMs)
  rw [totalMs_occulting lamp h] at hsplit
  omega

/-- Without eclipses a quarter of the period is dark. -/
theorem occulting_of_not_eclipses {group : Group} (h : ∀ seconds, group ≠ .eclipses seconds)
    (periodMs : Nat) :
    lamp.occulting group periodMs = [lamp.on (periodMs - periodMs / 4), lamp.off (periodMs / 4)] := by
  cases group with
  | eclipses seconds => exact absurd rfl (h seconds)
  | _ => rfl

end Lamp

namespace Characteristic

variable {light : Characteristic}

theorem pattern_of_no_tail (htail : light.longFlashTail = false) :
    light.pattern = light.rhythmPattern.filter (0 < ·.durationMs) := by
  rw [pattern, tailPattern_eq_nil htail, List.append_nil]

/-- Only an occulting light has eclipses, and it has at least one. -/
theorem of_eclipses (hvalid : light.fault? = none) {seconds : List Nat}
    (hgroup : light.group = .eclipses seconds) : light.rhythm = .occulting ∧ seconds ≠ [] := by
  obtain ⟨-, -, hshape⟩ := light.fault?_eq_none_iff_shape.1 hvalid
  rw [hgroup] at hshape
  cases hrhythm : light.rhythm with
  | occulting => exact ⟨rfl, by rintro rfl; simp [hrhythm, shapeFault?] at hshape⟩
  | _ => simp [hrhythm, shapeFault?] at hshape

section Cycle

variable (hrhythm : light.rhythm = .occulting) (htail : light.longFlashTail = false)

include hrhythm htail

/-- Nothing is filled up behind an occulting light. -/
theorem segments_occulting (hgroup : ∀ parts, light.group ≠ .composite parts) :
    (light.cycle .extend).segments =
      (light.lamp.occulting light.group light.periodMs).filter (0 < ·.durationMs) := by
  rw [cycle_extend_occulting hrhythm hgroup, pattern_of_no_tail htail,
    rhythmPattern_occulting hrhythm hgroup]

theorem segments_eclipses {seconds : List Nat} (hgroup : light.group = .eclipses seconds)
    (hne : seconds ≠ []) :
    (light.cycle .extend).segments =
      (light.lamp.eclipsesAfter
        (lightBefore (light.periodMs - total seconds * 1000) seconds.length) seconds).filter
          (0 < ·.durationMs) := by
  rw [segments_occulting hrhythm htail (by simp [hgroup]), hgroup,
    Lamp.occulting_eq_eclipsesAfter light.lamp hne]

theorem dark_eclipses {seconds : List Nat} (hgroup : light.group = .eclipses seconds)
    (hne : seconds ≠ []) :
    (light.cycle .extend).segments.filter (!·.lit) =
      (seconds.filter (0 < ·)).map fun e => light.lamp.off (e * 1000) := by
  rw [segments_eclipses hrhythm htail hgroup hne, List.filter_comm, Lamp.filter_dark_eclipsesAfter,
    List.filter_map]
  congr 2
  funext e
  simp

theorem totalMs_eclipses_cycle {seconds : List Nat} (hgroup : light.group = .eclipses seconds)
    (hne : seconds ≠ []) :
    (light.cycle .extend).totalMs = max light.periodMs (total seconds * 1000) := by
  rw [Cycle.totalMs, segments_occulting hrhythm htail (by simp [hgroup]), totalMs_filter, hgroup,
    Lamp.totalMs_occulting light.lamp hne]

theorem litMs_eclipses {seconds : List Nat} (hgroup : light.group = .eclipses seconds)
    (hne : seconds ≠ []) :
    (light.cycle .extend).litMs = light.periodMs - total seconds * 1000 := by
  rw [Cycle.litMs, segments_occulting hrhythm htail (by simp [hgroup]), List.filter_comm, totalMs_filter,
    hgroup, Lamp.totalMs_lit_occulting light.lamp hne]

theorem segments_quarter (hcomposite : ∀ parts, light.group ≠ .composite parts)
    (heclipses : ∀ seconds, light.group ≠ .eclipses seconds) :
    (light.cycle .extend).segments =
      light.lamp.on (light.periodMs - light.periodMs / 4) ::
        if light.periodMs / 4 = 0 then [] else [light.lamp.off (light.periodMs / 4)] := by
  have hperiod := light.periodMs_pos
  have hlit : 0 < light.periodMs - light.periodMs / 4 := by omega
  rw [segments_occulting hrhythm htail hcomposite, Lamp.occulting_of_not_eclipses _ heclipses,
    List.filter_cons_of_pos (by simpa using hlit)]
  split_ifs with hzero
  · rw [hzero]
    rfl
  · rw [List.filter_cons_of_pos (by simpa using Nat.pos_of_ne_zero hzero), List.filter_nil]

end Cycle

/-- The cycle of an occulting light that keeps the rules, without a long flash. With eclipses it is their
light and their darkness and nothing else, and the light in it is what they leave of the period; with one
number of flashes or none it is three quarters of the period lit and the rest dark. -/
theorem occulting_to_the_millisecond (hvalid : light.fault? = none) (hrhythm : light.rhythm = .occulting)
    (htail : light.longFlashTail = false) :
    let cycle := light.cycle .extend
    let period := light.periodMs
    let lamp := light.lamp
    (∀ seconds, light.group = .eclipses seconds →
      let dark := total seconds * 1000
      cycle.segments =
        (lamp.eclipsesAfter (lightBefore (period - dark) seconds.length) seconds).filter
          (0 < ·.durationMs) ∧
      cycle.segments.filter (!·.lit) =
        (seconds.filter (0 < ·)).map (fun e => lamp.off (e * 1000)) ∧
      cycle.litMs = period - dark ∧ cycle.totalMs = max period dark) ∧
    (light.group = .single ∨ (∃ n, light.group = .count n) →
      cycle.segments =
        lamp.on (period - period / 4) :: if period / 4 = 0 then [] else [lamp.off (period / 4)]) := by
  constructor
  · intro seconds hgroup
    obtain ⟨-, hne⟩ := of_eclipses hvalid hgroup
    exact ⟨segments_eclipses hrhythm htail hgroup hne, dark_eclipses hrhythm htail hgroup hne,
      litMs_eclipses hrhythm htail hgroup hne, totalMs_eclipses_cycle hrhythm htail hgroup hne⟩
  · rintro (hgroup | ⟨n, hgroup⟩)
    · exact segments_quarter hrhythm htail (by simp [hgroup]) (by simp [hgroup])
    · exact segments_quarter hrhythm htail (by simp [hgroup]) (by simp [hgroup])

/-- Three eclipses of one second leave 7000 ms of ten seconds, which three do not divide. -/
theorem occulting_to_the_millisecond_three :
    (cycle ⟨.occulting, .eclipses [1, 1, 1], .white, none, Binary64.ofNat 10, false⟩
      .extend).segments.map (fun s => (s.durationMs, s.lit)) =
      [(2333, true), (1000, false), (2333, true), (1000, false), (2334, true), (1000, false)] := by
  have hvalid : fault? ⟨.occulting, .eclipses [1, 1, 1], .white, none, Binary64.ofNat 10, false⟩ =
      none := by
    refine Readable.fault? ⟨?_, .elements (by decide) (by decide) (by decide)⟩
    dsimp only
    exact inHour_ofNat (by decide) (by decide)
  have hperiod : periodMs ⟨.occulting, .eclipses [1, 1, 1], .white, none, Binary64.ofNat 10, false⟩ =
      10 * 1000 :=
    periodMs_of_seconds (by decide) (by decide) (by dsimp only)
  obtain ⟨hsegments, -⟩ := (occulting_to_the_millisecond hvalid rfl rfl).1 [1, 1, 1] rfl
  rw [hsegments, hperiod]
  decide

end Characteristic

end ChartLight
