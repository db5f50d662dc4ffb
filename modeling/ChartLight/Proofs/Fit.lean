import ChartLight.Cycle.Fit
import Mathlib

/-! Every light has a cycle, whatever its fields hold: the clamp on the period keeps the cycle from
being empty, and filling or clipping brings it to one period. Nothing here asks that the light was
read from a text. -/

namespace ChartLight

theorem totalMs_nil : totalMs [] = 0 := rfl

theorem totalMs_cons (s : Segment) (l : List Segment) :
    totalMs (s :: l) = s.durationMs + totalMs l := rfl

theorem totalMs_append (a b : List Segment) : totalMs (a ++ b) = totalMs a + totalMs b := by
  rw [totalMs, List.map_append, total_append, ← totalMs, ← totalMs]

/-- Leaving out the segments of no length leaves the time unchanged. -/
theorem totalMs_filter (l : List Segment) :
    totalMs (l.filter (0 < ·.durationMs)) = totalMs l := by
  induction l with
  | nil => rfl
  | cons s l ih =>
    by_cases h : 0 < s.durationMs
    · rw [List.filter_cons_of_pos (by simpa using h), totalMs_cons, totalMs_cons, ih]
    · rw [List.filter_cons_of_neg (by simpa using h), totalMs_cons, ih]
      omega

theorem totalMs_clip (limit : Nat) (l : List Segment) :
    totalMs (clip limit l) = min limit (totalMs l) := by
  induction l generalizing limit with
  | nil => simp [clip, totalMs_nil]
  | cons s l ih =>
    unfold clip
    rw [totalMs_cons]
    split_ifs with h0 h
    · simp [totalMs_nil, h0]
    · rw [totalMs_cons, totalMs_nil]
      dsimp only
      omega
    · rw [totalMs_cons, ih]
      omega

theorem clip_pos {l : List Segment} (h : ∀ s ∈ l, 0 < s.durationMs) (limit : Nat) :
    ∀ s ∈ clip limit l, 0 < s.durationMs := by
  induction l generalizing limit with
  | nil => simp [clip]
  | cons s l ih =>
    obtain ⟨hs, hl⟩ := List.forall_mem_cons.mp h
    unfold clip
    split_ifs with h0 h1
    · simp
    · -- what is left of the limit is the new length, and it was checked not to be zero
      simpa using Nat.pos_of_ne_zero h0
    · exact List.forall_mem_cons.mpr ⟨hs, ih hl _⟩

theorem Number.Binary64.roundWithin_le (cap : Nat) (x : Binary64) : x.roundWithin cap ≤ cap := by
  unfold roundWithin
  split
  · exact Nat.zero_le _
  · split_ifs <;> omega
  · split_ifs
    · exact Nat.zero_le _
    · exact Nat.min_le_left _ _

namespace Characteristic

theorem periodMs_pos (light : Characteristic) : 1 ≤ light.periodMs :=
  Nat.le_max_left _ _

theorem periodMs_le (light : Characteristic) : light.periodMs ≤ 3600000 :=
  Nat.max_le.mpr ⟨by decide, Number.Binary64.roundWithin_le _ _⟩

theorem totalMs_pattern (light : Characteristic) :
    totalMs light.pattern = totalMs light.rhythmPattern + totalMs light.tailPattern := by
  rw [pattern, totalMs_filter, totalMs_append]

theorem pattern_pos (light : Characteristic) : ∀ s ∈ light.pattern, 0 < s.durationMs := by
  intro s hs
  simpa using (List.mem_filter.mp hs).2

theorem cycle_periodMs (light : Characteristic) (overrun : Overrun) :
    (light.cycle overrun).periodMs = light.periodMs := rfl

/-- The cycle is made from the period, the colour and the pattern. -/
theorem cycle_congr {a b : Characteristic} (hperiod : a.periodMs = b.periodMs)
    (hcolor : a.color = b.color) (hpattern : a.pattern = b.pattern) (overrun : Overrun) :
    a.cycle overrun = b.cycle overrun := by
  simp only [cycle, lamp, hperiod, hcolor, hpattern]

theorem cycle_totalMs_extend (light : Characteristic) :
    (light.cycle .extend).totalMs = max light.periodMs (totalMs light.pattern) := by
  simp only [Cycle.totalMs, cycle]
  split_ifs with h
  · rw [totalMs_append, totalMs_cons, totalMs_nil]
    simp only [Lamp.off]
    omega
  · omega

theorem cycle_totalMs_truncate (light : Characteristic) :
    (light.cycle .truncate).totalMs = light.periodMs := by
  simp only [Cycle.totalMs, cycle]
  split_ifs with h
  · rw [totalMs_append, totalMs_cons, totalMs_nil]
    simp only [Lamp.off]
    omega
  · rw [totalMs_clip]
    omega

theorem periodMs_le_cycle_totalMs (light : Characteristic) (overrun : Overrun) :
    light.periodMs ≤ (light.cycle overrun).totalMs := by
  cases overrun with
  | extend => rw [cycle_totalMs_extend]; exact Nat.le_max_left _ _
  | truncate => exact Nat.le_of_eq light.cycle_totalMs_truncate.symm

theorem cycle_pos (light : Characteristic) (overrun : Overrun) :
    ∀ s ∈ (light.cycle overrun).segments, 0 < s.durationMs := by
  simp only [cycle]
  split_ifs with h
  · rw [List.forall_mem_append, List.forall_mem_singleton]
    refine ⟨light.pattern_pos, ?_⟩
    simp only [Lamp.off]
    omega
  · cases overrun with
    | extend => exact light.pattern_pos
    | truncate => exact clip_pos light.pattern_pos _

/-- An empty cycle would last no time at all. -/
theorem cycle_ne_nil (light : Characteristic) (overrun : Overrun) :
    (light.cycle overrun).segments ≠ [] := by
  intro h
  have h1 := light.periodMs_le_cycle_totalMs overrun
  have h2 := light.periodMs_pos
  rw [Cycle.totalMs, h, totalMs_nil] at h1
  omega

theorem overrunNote?_isSome (light : Characteristic) (overrun : Overrun) :
    (light.overrunNote? overrun).isSome = (light.cycle overrun).overruns := by
  unfold overrunNote? Cycle.overruns
  cases overrun with
  | extend =>
    rw [cycle_totalMs_extend, cycle_periodMs]
    by_cases h : light.periodMs < totalMs light.pattern
    · simp [h, Nat.max_eq_right (Nat.le_of_lt h)]
    · simp [h, Nat.max_eq_left (Nat.le_of_not_lt h)]
  | truncate => simp [cycle_totalMs_truncate, cycle_periodMs]

/-- The cycle of any light at all, with either way of dealing with an overrun. -/
theorem cycle_fits (light : Characteristic) (overrun : Overrun) :
    let cycle := light.cycle overrun
    cycle.segments ≠ [] ∧ cycle.periodMs = light.periodMs ∧
      1 ≤ cycle.periodMs ∧ cycle.periodMs ≤ 3600000 ∧
      (∀ s ∈ cycle.segments, 0 < s.durationMs) ∧
      cycle.periodMs ≤ cycle.totalMs ∧
      (light.cycle .truncate).totalMs = light.periodMs ∧
      (light.cycle .extend).totalMs =
        max light.periodMs (totalMs light.rhythmPattern + totalMs light.tailPattern) ∧
      (light.overrunNote? overrun).isSome = cycle.overruns := by
  refine ⟨light.cycle_ne_nil overrun, rfl, light.periodMs_pos, light.periodMs_le,
    light.cycle_pos overrun, light.periodMs_le_cycle_totalMs overrun,
    light.cycle_totalMs_truncate, ?_, light.overrunNote?_isSome overrun⟩
  rw [cycle_totalMs_extend, totalMs_pattern]

end Characteristic

end ChartLight
