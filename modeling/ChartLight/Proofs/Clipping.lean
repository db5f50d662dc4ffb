import ChartLight.Proofs.Fit

/-! A cycle that is clipped to its period and the same cycle kept long show the same light for as long
as the clipped one lasts. Clipping keeps a stretch of segments from the front and shortens at most the
last of them. -/

namespace ChartLight

/-- Within the time that some segments last, one of them is shown. -/
theorem exists_segmentAt? {l : List Segment} {offset : Nat} (h : offset < totalMs l) :
    ∃ s, segmentAt? l offset = some s := by
  induction l generalizing offset with
  | nil => exact absurd h (Nat.not_lt_zero _)
  | cons s l ih =>
    unfold segmentAt?
    split_ifs with hs
    · exact ⟨s, rfl⟩
    · rw [totalMs_cons] at h
      exact ih (by omega)

/-- What is clipped away comes after the limit, so before it the same light is shown. -/
theorem segmentAt?_clip {l : List Segment} {limit offset : Nat} (hlimit : offset < limit) :
    (segmentAt? (clip limit l) offset).map (fun s => (s.lit, s.color)) =
      (segmentAt? l offset).map (fun s => (s.lit, s.color)) := by
  induction l generalizing limit offset with
  | nil => rfl
  | cons s l ih =>
    unfold clip
    split_ifs with h0 hshort
    · omega
    · have hs : offset < s.durationMs := by omega
      simp [segmentAt?, hlimit, hs]
    · by_cases hs : offset < s.durationMs
      · simp [segmentAt?, hs]
      · simp only [segmentAt?, if_neg hs]
        exact ih (by omega)

/-- Clipping keeps a front part; the segment that crosses the limit, or ends at it, is the last. -/
theorem clip_eq_append {l : List Segment} {limit : Nat} (hpos : 0 < limit) (hle : limit ≤ totalMs l) :
    ∃ kept s rest ms, l = kept ++ s :: rest ∧
      clip limit l = kept ++ [{ s with durationMs := ms }] ∧ 0 < ms ∧ ms ≤ s.durationMs := by
  induction l generalizing limit with
  | nil => exact absurd (Nat.lt_of_lt_of_le hpos hle) (Nat.lt_irrefl 0)
  | cons s l ih =>
    unfold clip
    rw [if_neg (Nat.ne_of_gt hpos)]
    split_ifs with hshort
    · exact ⟨[], s, l, limit, rfl, rfl, hpos, Nat.le_of_lt hshort⟩
    · by_cases hedge : limit = s.durationMs
      · -- the limit falls on the end of this segment, which is kept whole
        refine ⟨[], s, l, s.durationMs, rfl, ?_, hedge ▸ hpos, Nat.le_refl _⟩
        rw [hedge, Nat.sub_self]
        cases l <;> simp [clip]
      · rw [totalMs_cons] at hle
        obtain ⟨kept, t, rest, ms, hl, hclip, hms, hmsle⟩ :=
          @ih (limit - s.durationMs) (by omega) (by omega)
        exact ⟨s :: kept, t, rest, ms, by rw [hl]; rfl, by rw [hclip]; rfl, hms, hmsle⟩

/-- Clipping begins behind the segments that end by the limit. -/
theorem clip_append {a : List Segment} (hpos : ∀ s ∈ a, 0 < s.durationMs) {limit : Nat}
    (h : totalMs a ≤ limit) (b : List Segment) :
    clip limit (a ++ b) = a ++ clip (limit - totalMs a) b := by
  induction a generalizing limit with
  | nil => rfl
  | cons s a ih =>
    obtain ⟨hs, ha⟩ := List.forall_mem_cons.mp hpos
    rw [totalMs_cons] at h ⊢
    rw [List.cons_append, clip, if_neg (by omega), if_neg (by omega), ih ha (by omega), Nat.sub_sub,
      List.cons_append]

/-- Segments that end by the limit are all kept. -/
theorem clip_of_totalMs_le {l : List Segment} (hpos : ∀ s ∈ l, 0 < s.durationMs) {limit : Nat}
    (h : totalMs l ≤ limit) : clip limit l = l := by
  have hclip := clip_append hpos h []
  rwa [List.append_nil, clip, List.append_nil] at hclip

theorem clip_zero (segments : List Segment) : clip 0 segments = [] := by
  cases segments <;> rfl

/-- Clipping changes no more of a segment than its length. -/
theorem exists_mem_of_mem_clip {limit : Nat} {segments : List Segment} {s : Segment}
    (h : s ∈ clip limit segments) : ∃ t ∈ segments, s.lit = t.lit ∧ s.color = t.color := by
  induction segments generalizing limit with
  | nil => cases h
  | cons segment rest ih =>
    rw [clip] at h
    split_ifs at h with hzero hlong
    · cases h
    · rw [List.mem_singleton.1 h]
      exact ⟨segment, List.mem_cons_self, rfl, rfl⟩
    · rcases List.mem_cons.1 h with rfl | hrest
      · exact ⟨s, List.mem_cons_self, rfl, rfl⟩
      · obtain ⟨t, ht, hsame⟩ := ih hrest
        exact ⟨t, List.mem_cons_of_mem segment ht, hsame⟩

namespace Characteristic

variable (light : Characteristic)

theorem overruns_extend_iff :
    (light.cycle .extend).overruns = true ↔ light.periodMs < totalMs light.pattern := by
  rw [Cycle.overruns, cycle_totalMs_extend, cycle_periodMs, decide_eq_true_iff, lt_max_iff]
  simp

theorem cycle_truncate_of_le (h : totalMs light.pattern ≤ light.periodMs) :
    light.cycle .truncate = light.cycle .extend := by
  simp only [cycle]
  split_ifs with hshort
  · rfl
  · rw [clip_of_totalMs_le light.pattern_pos h]

theorem cycle_segments_of_lt (h : light.periodMs < totalMs light.pattern) :
    (light.cycle .extend).segments = light.pattern ∧
      (light.cycle .truncate).segments = clip light.periodMs light.pattern := by
  have hlong : ¬totalMs light.pattern < light.periodMs := by omega
  simp only [cycle, if_neg hlong, and_self]

/-- Clipping is to the cycle what its first period is to it: as long as nothing overruns there is no
difference, and where something does, it lasts just the period, at every millisecond of which both show
the same light. -/
theorem truncate_shows_first_period (light : Characteristic) :
    let whole := light.cycle Overrun.extend
    let clipped := light.cycle Overrun.truncate
    (whole.overruns = false → clipped = whole) ∧
    (whole.overruns = true →
      clipped.totalMs = light.periodMs ∧
      (∀ offset < light.periodMs, ∃ s t, segmentAt? clipped.segments offset = some s ∧
        segmentAt? whole.segments offset = some t ∧ s.lit = t.lit ∧ s.color = t.color) ∧
      ∃ kept last rest ms, whole.segments = kept ++ last :: rest ∧
        clipped.segments = kept ++ [{ last with durationMs := ms }] ∧
        0 < ms ∧ ms ≤ last.durationMs) := by
  refine ⟨fun hfits => ?_, fun hlong => ?_⟩
  · rw [← Bool.not_eq_true, overruns_extend_iff, not_lt] at hfits
    exact light.cycle_truncate_of_le hfits
  · rw [overruns_extend_iff] at hlong
    obtain ⟨hwhole, hclipped⟩ := light.cycle_segments_of_lt hlong
    rw [hwhole, hclipped]
    refine ⟨light.cycle_totalMs_truncate, fun offset hoffset => ?_,
      clip_eq_append light.periodMs_pos (Nat.le_of_lt hlong)⟩
    obtain ⟨t, ht⟩ := exists_segmentAt? (Nat.lt_trans hoffset hlong)
    have hsame := segmentAt?_clip (l := light.pattern) hoffset
    rw [ht, Option.map_some, Option.map_eq_some_iff] at hsame
    obtain ⟨s, hs, heq⟩ := hsame
    exact ⟨s, t, hs, ht, (Prod.mk.inj heq).1, (Prod.mk.inj heq).2⟩

/-- Two long flashes with their gap do not fit five seconds: the period ends within the second. -/
theorem truncate_shows_first_period_crossing :
    let light : Characteristic :=
      { ofRhythm .longFlashing with group := .count 2, period := Number.Binary64.ofNat 5 }
    (light.cycle .extend).overruns = true ∧ (light.cycle .truncate).totalMs = 5000 ∧
      ∃ kept last rest ms, (light.cycle .extend).segments = kept ++ last :: rest ∧
        (light.cycle .truncate).segments = kept ++ [{ last with durationMs := ms }] ∧
        0 < ms ∧ ms ≤ last.durationMs := by
  intro light
  have hcycle : (light.cycle .extend).overruns = true ∧ light.periodMs = 5000 := by decide +kernel
  obtain ⟨hlong, hperiod⟩ := hcycle
  obtain ⟨htotal, -, hsplit⟩ := (truncate_shows_first_period light).2 hlong
  exact ⟨hlong, htotal.trans hperiod, hsplit⟩

end Characteristic

end ChartLight
