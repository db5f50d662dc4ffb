import ChartLight.Proofs.Occulting

/-! How long a segment can be. Of a light that keeps the rules none lasts more than an hour: flashes,
gaps and pauses have fixed lengths, an eclipse has at most 99 seconds, and all else is a part of the
period. -/

namespace ChartLight

section Members

theorem mem_intersperse {α : Type} {sep a : α} {l : List α} (h : a ∈ l.intersperse sep) :
    a = sep ∨ a ∈ l := by
  induction l using List.intersperse.induct with
  | case1 => exact Or.inr h
  | case2 b => exact Or.inr h
  | case3 b rest hne ih =>
    obtain ⟨c, rest, rfl⟩ : ∃ c r, rest = c :: r := List.exists_cons_of_ne_nil hne
    rw [List.intersperse_cons_cons, List.mem_cons, List.mem_cons] at h
    rcases h with rfl | rfl | h
    · exact Or.inr List.mem_cons_self
    · exact Or.inl rfl
    · exact (ih h).imp_right (List.mem_cons_of_mem b)

variable {lamp : Lamp} {s : Segment}

theorem mem_flashes {count flashMs gapMs : Nat} (h : s ∈ lamp.flashes count flashMs gapMs) :
    s = lamp.off gapMs ∨ s = lamp.on flashMs :=
  (mem_intersperse h).imp_right List.eq_of_mem_replicate

theorem mem_flatten_replicate {α : Type} {n : Nat} {l : List α} {a : α}
    (h : a ∈ (List.replicate n l).flatten) : a ∈ l := by
  obtain ⟨l', hl', ha⟩ := List.mem_flatten.1 h
  rwa [List.eq_of_mem_replicate hl'] at ha

theorem mem_quickFlashes {count rateMs : Nat} (h : s ∈ lamp.quickFlashes count rateMs) :
    s = lamp.on (rateMs / 2) ∨ s = lamp.off (rateMs - rateMs / 2) := by
  simpa using mem_flatten_replicate h

theorem mem_composite {parts : List Nat} (h : s ∈ lamp.composite parts) :
    s = lamp.off 1500 ∨ s = lamp.on 500 ∨ s = lamp.off 500 := by
  obtain ⟨l, hl, hs⟩ := List.mem_flatten.1 h
  rcases mem_intersperse hl with rfl | hpart
  · exact Or.inl (List.mem_singleton.1 hs)
  · obtain ⟨n, -, rfl⟩ := List.mem_map.1 hpart
    right
    simpa using mem_flatten_replicate hs

theorem mem_morse {symbols : List Morse.Symbol} (h : s ∈ lamp.morse symbols) :
    s = lamp.off 300 ∨ s = lamp.on 300 ∨ s = lamp.on 900 := by
  refine (mem_intersperse h).imp_right fun hs => ?_
  obtain ⟨symbol, -, rfl⟩ := List.mem_map.1 hs
  cases symbol with
  | dot => exact Or.inl rfl
  | dash => exact Or.inr rfl

/-- A share and what does not divide evenly are no more than what is shared out. -/
theorem share_add_rest_le (bright : Nat) {n : Nat} (hn : 0 < n) :
    bright / n + bright % n ≤ bright := by
  have hshared := Nat.div_add_mod bright n
  have hshare := Nat.le_mul_of_pos_left (bright / n) hn
  omega

theorem length_le_of_mem_occulting {group : Group} {periodMs limit : Nat}
    (hperiod : periodMs ≤ limit) (hgroup : ∀ n ∈ group.values, n * 1000 ≤ limit)
    (h : s ∈ lamp.occulting group periodMs) : s.durationMs ≤ limit := by
  unfold Lamp.occulting at h
  split at h
  · next e es =>
    have hshared := @share_add_rest_le (periodMs - total (e :: es) * 1000) (es.length + 1)
      (Nat.succ_pos es.length)
    rcases mem_eclipses h with rfl | rfl | ⟨e', he', rfl⟩
    · rw [Lamp.durationMs_on, List.length_cons]
      omega
    · rw [Lamp.durationMs_on, List.length_cons]
      omega
    · exact hgroup e' he'
  · simp only [List.mem_cons, List.not_mem_nil, or_false] at h
    rcases h with rfl | rfl
    · rw [Lamp.durationMs_on]
      omega
    · rw [Lamp.durationMs_off]
      omega

end Members

namespace Characteristic

variable {light : Characteristic}

theorem quickRate?_le {rhythm : Rhythm} {rate : Nat} (h : rhythm.quickRate? = some rate) :
    rate ≤ 1000 := by
  cases rhythm <;> cases h <;> decide

theorem length_le_of_mem_rhythmPattern (hgroup : ∀ n ∈ light.group.values, n ≤ 99) {s : Segment}
    (h : s ∈ light.rhythmPattern) : s.durationMs ≤ 3600000 := by
  have hperiod := light.periodMs_le
  unfold rhythmPattern at h
  split at h
  · rcases mem_composite h with rfl | rfl | rfl <;> simp
  · dsimp only at h
    split at h
    · rw [List.mem_singleton.1 h]
      exact hperiod
    · rcases mem_flashes h with rfl | rfl <;> simp
    · rcases mem_flashes h with rfl | rfl <;> simp
    · simp only [List.mem_cons, List.not_mem_nil, or_false] at h
      rcases h with rfl | rfl <;> simp <;> omega
    · refine length_le_of_mem_occulting hperiod (fun n hn => ?_) h
      have hle := hgroup n hn
      omega
    · rcases mem_morse h with rfl | rfl | rfl <;> simp
    · split at h
      · simp only [List.mem_cons, List.not_mem_nil, or_false] at h
        rcases h with rfl | rfl <;> simp <;> omega
      · rw [List.mem_singleton.1 h]
        exact hperiod
    · split at h
      · next rate hrate =>
        have hle := quickRate?_le hrate
        rcases mem_quickFlashes h with rfl | rfl <;> simp <;> omega
      · cases h

theorem mem_tailPattern {s : Segment} (h : s ∈ light.tailPattern) : s = light.lamp.on 2000 := by
  unfold tailPattern at h
  split_ifs at h
  · exact List.mem_singleton.1 h
  · cases h

theorem mem_pattern {s : Segment} (h : s ∈ light.pattern) :
    s ∈ light.rhythmPattern ∨ s = light.lamp.on 2000 :=
  (List.mem_append.1 (List.mem_of_mem_filter h)).imp_right mem_tailPattern

theorem length_le_of_mem_pattern (hgroup : ∀ n ∈ light.group.values, n ≤ 99) {s : Segment}
    (h : s ∈ light.pattern) : s.durationMs ≤ 3600000 := by
  rcases mem_pattern h with hrhythm | rfl
  · exact length_le_of_mem_rhythmPattern hgroup hrhythm
  · simp

theorem length_le_of_mem_clip {limit : Nat} {segments : List Segment} {s : Segment}
    (h : s ∈ clip limit segments) : s.durationMs ≤ limit := by
  induction segments generalizing limit with
  | nil => cases h
  | cons segment rest ih =>
    rw [clip] at h
    split_ifs at h with hzero hlong
    · cases h
    · rw [List.mem_singleton.1 h]
    · rcases List.mem_cons.1 h with rfl | hrest
      · exact Nat.le_of_not_lt hlong
      · exact Nat.le_trans (ih hrest) (Nat.sub_le _ _)

/-- A segment of the pattern, whole or clipped, or the darkness that fills the period. -/
theorem mem_cycle {overrun : Overrun} {s : Segment} (h : s ∈ (light.cycle overrun).segments) :
    s ∈ light.pattern ∨ s ∈ clip light.periodMs light.pattern ∨
      ∃ ms ≤ light.periodMs, s = light.lamp.off ms := by
  simp only [cycle] at h
  split_ifs at h
  · refine (List.mem_append.1 h).imp_right fun hfill => Or.inr ?_
    exact ⟨_, Nat.sub_le _ _, List.mem_singleton.1 hfill⟩
  · cases overrun with
    | extend => exact Or.inl h
    | truncate => exact Or.inr (Or.inl h)

/-- No segment of a cycle lasts more than an hour, nor does the darkness that fills the period. -/
theorem length_le_of_mem_cycle (hgroup : ∀ n ∈ light.group.values, n ≤ 99) {overrun : Overrun}
    {s : Segment} (h : s ∈ (light.cycle overrun).segments) : s.durationMs ≤ 3600000 := by
  have hperiod := light.periodMs_le
  rcases mem_cycle h with hpattern | hclip | ⟨ms, hms, rfl⟩
  · exact length_le_of_mem_pattern hgroup hpattern
  · exact Nat.le_trans (length_le_of_mem_clip hclip) hperiod
  · exact Nat.le_trans hms hperiod

end Characteristic

end ChartLight
