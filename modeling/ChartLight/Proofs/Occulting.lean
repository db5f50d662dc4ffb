import ChartLight.Proofs.Fit

/-! Occulting lights. What the eclipses leave of the period is shared out without loss, so the pattern
lasts at least the period and nothing is filled up behind it; and all darkness in it is that of the
eclipses. -/

namespace ChartLight

namespace Lamp

variable (lamp : Lamp) (ms : Nat)

@[simp] theorem durationMs_on : (lamp.on ms).durationMs = ms := rfl

@[simp] theorem durationMs_off : (lamp.off ms).durationMs = ms := rfl

@[simp] theorem lit_on : (lamp.on ms).lit = true := rfl

@[simp] theorem lit_off : (lamp.off ms).lit = false := rfl

@[simp] theorem color_on : (lamp.on ms).color = lamp.color := rfl

@[simp] theorem color_off : (lamp.off ms).color = lamp.color := rfl

end Lamp

section Eclipses

variable {lamp : Lamp} {share lastShare : Nat}

/-- A light share or an eclipse. -/
theorem mem_eclipses {es : List Nat} {s : Segment} (h : s ∈ lamp.eclipses share lastShare es) :
    s = lamp.on share ∨ s = lamp.on lastShare ∨ ∃ e ∈ es, s = lamp.off (e * 1000) := by
  fun_induction Lamp.eclipses lamp share lastShare es with
  | case1 => cases h
  | case2 e =>
    simp only [List.mem_cons, List.not_mem_nil, or_false] at h
    rcases h with rfl | rfl
    · exact Or.inr (Or.inl rfl)
    · exact Or.inr (Or.inr ⟨e, List.mem_cons_self, rfl⟩)
  | case3 e es hne ih =>
    rcases List.mem_cons.1 h with rfl | h
    · exact Or.inl rfl
    · rcases List.mem_cons.1 h with rfl | h
      · exact Or.inr (Or.inr ⟨e, List.mem_cons_self, rfl⟩)
      · rcases ih h with hshare | hlast | ⟨e', he', hdark⟩
        · exact Or.inl hshare
        · exact Or.inr (Or.inl hlast)
        · exact Or.inr (Or.inr ⟨e', List.mem_cons_of_mem e he', hdark⟩)

theorem totalMs_eclipses (e : Nat) (es : List Nat) :
    totalMs (lamp.eclipses share lastShare (e :: es)) =
      share * es.length + lastShare + total (e :: es) * 1000 := by
  induction es generalizing e with
  | nil => simp [Lamp.eclipses, totalMs_cons, totalMs_nil, total]
  | cons e' es ih =>
    have hcons : lamp.eclipses share lastShare (e :: e' :: es) =
        lamp.on share :: lamp.off (e * 1000) :: lamp.eclipses share lastShare (e' :: es) := rfl
    have htotal : total (e :: e' :: es) = e + total (e' :: es) := rfl
    rw [hcons, totalMs_cons, totalMs_cons, ih, htotal, List.length_cons, Nat.mul_add_one share]
    simp only [Lamp.durationMs_on, Lamp.durationMs_off]
    omega

theorem occulting_eclipses (e : Nat) (es : List Nat) (periodMs : Nat) :
    lamp.occulting (.eclipses (e :: es)) periodMs =
      lamp.eclipses ((periodMs - total (e :: es) * 1000) / (es.length + 1))
        ((periodMs - total (e :: es) * 1000) / (es.length + 1) +
          (periodMs - total (e :: es) * 1000) % (es.length + 1)) (e :: es) := rfl

/-- The shares and what does not divide evenly are all that the eclipses leave. -/
theorem totalMs_occulting_eclipses (e : Nat) (es : List Nat) (periodMs : Nat) :
    totalMs (lamp.occulting (.eclipses (e :: es)) periodMs) =
      max periodMs (total (e :: es) * 1000) := by
  rw [occulting_eclipses, totalMs_eclipses]
  generalize total (e :: es) * 1000 = dark
  have hshared := Nat.div_add_mod (periodMs - dark) (es.length + 1)
  rw [Nat.add_one_mul, Nat.mul_comm] at hshared
  omega

theorem periodMs_le_totalMs_occulting (lamp : Lamp) (group : Group) (periodMs : Nat) :
    periodMs ≤ totalMs (lamp.occulting group periodMs) := by
  unfold Lamp.occulting
  split
  · next e es => exact (totalMs_occulting_eclipses e es periodMs).symm ▸ Nat.le_max_left _ _
  · simp only [totalMs_cons, totalMs_nil, Lamp.durationMs_on, Lamp.durationMs_off]
    omega

end Eclipses

namespace Characteristic

variable {light : Characteristic}

theorem rhythmPattern_occulting (hrhythm : light.rhythm = .occulting)
    (hgroup : ∀ parts, light.group ≠ .composite parts) :
    light.rhythmPattern = light.lamp.occulting light.group light.periodMs := by
  unfold rhythmPattern
  split
  · next parts hparts => exact absurd hparts (hgroup parts)
  · rw [hrhythm]

theorem cycle_extend_of_le (h : light.periodMs ≤ totalMs light.pattern) :
    (light.cycle .extend).segments = light.pattern := by
  simp only [cycle, if_neg (Nat.not_lt.2 h)]

theorem cycle_extend_occulting (hrhythm : light.rhythm = .occulting)
    (hgroup : ∀ parts, light.group ≠ .composite parts) :
    (light.cycle .extend).segments = light.pattern := by
  refine cycle_extend_of_le ?_
  rw [totalMs_pattern, rhythmPattern_occulting hrhythm hgroup]
  have hle := periodMs_le_totalMs_occulting light.lamp light.group light.periodMs
  omega

end Characteristic

end ChartLight
