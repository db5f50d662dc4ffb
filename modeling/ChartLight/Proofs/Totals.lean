import ChartLight.Proofs.Lengths

/-! How long the pattern of a light lasts. Flashes and the darkness between them have fixed lengths, so
their number decides; all else is made of the period, apart from eclipses, which last as long as
they are written. -/

namespace ChartLight

section Sums

variable {α : Type}

theorem total_map_intersperse (f : α → Nat) (sep : α) (l : List α) :
    total ((l.intersperse sep).map f) = total (l.map f) + (l.length - 1) * f sep := by
  induction l using List.intersperse.induct with
  | case1 => simp [total]
  | case2 a => simp [total]
  | case3 a rest hne ih =>
    obtain ⟨b, rest, rfl⟩ : ∃ b r, rest = b :: r := List.exists_cons_of_ne_nil hne
    rw [List.intersperse_cons_cons, List.map_cons, List.map_cons, total, total, ih]
    simp only [List.map_cons, total, List.length_cons, Nat.add_sub_cancel, Nat.add_one_mul]
    omega

theorem total_replicate (n k : Nat) : total (List.replicate n k) = n * k := by
  induction n with
  | zero => simp [total]
  | succ n ih => rw [List.replicate_succ, total, ih, Nat.add_one_mul, Nat.add_comm]

theorem total_map_mul (ns : List Nat) (k : Nat) : total (ns.map (· * k)) = total ns * k := by
  induction ns with
  | nil => simp [total]
  | cons n ns ih => rw [List.map_cons, total, total, ih, Nat.add_mul]

theorem total_le_length_mul {ns : List Nat} {k : Nat} (h : ∀ n ∈ ns, n ≤ k) :
    total ns ≤ ns.length * k := by
  induction ns with
  | nil => exact Nat.zero_le _
  | cons n ns ih =>
    obtain ⟨hn, hns⟩ := List.forall_mem_cons.1 h
    have hle := ih hns
    rw [total, List.length_cons, Nat.add_one_mul]
    omega

theorem totalMs_le_of_sublist {l l' : List Segment} (h : l.Sublist l') : totalMs l ≤ totalMs l' := by
  induction h with
  | slnil => exact Nat.le_refl _
  | cons s _ ih => exact Nat.le_trans ih (Nat.le_add_left _ _)
  | cons_cons s _ ih => exact Nat.add_le_add_left ih _

theorem totalMs_intersperse (sep : Segment) (l : List Segment) :
    totalMs (l.intersperse sep) = totalMs l + (l.length - 1) * sep.durationMs :=
  total_map_intersperse Segment.durationMs sep l

theorem totalMs_replicate (n : Nat) (s : Segment) :
    totalMs (List.replicate n s) = n * s.durationMs := by
  rw [totalMs, List.map_replicate, total_replicate]

theorem totalMs_flatten (l : List (List Segment)) : totalMs l.flatten = total (l.map totalMs) := by
  induction l with
  | nil => rfl
  | cons segments l ih => rw [List.flatten_cons, totalMs_append, ih]; rfl

theorem totalMs_flatten_replicate (n : Nat) (l : List Segment) :
    totalMs (List.replicate n l).flatten = n * totalMs l := by
  rw [totalMs_flatten, List.map_replicate, total_replicate]

end Sums

namespace Lamp

variable (lamp : Lamp)

theorem totalMs_flashes (count flashMs gapMs : Nat) :
    totalMs (lamp.flashes count flashMs gapMs) = count * flashMs + (count - 1) * gapMs := by
  rw [flashes, totalMs_intersperse, totalMs_replicate, List.length_replicate, durationMs_on,
    durationMs_off]

theorem totalMs_part (count : Nat) : totalMs (lamp.part count) = count * 1000 := by
  rw [part, totalMs_flatten_replicate]
  rfl

theorem totalMs_quickFlashes (count rateMs : Nat) :
    totalMs (lamp.quickFlashes count rateMs) = count * rateMs := by
  rw [quickFlashes, totalMs_flatten_replicate, totalMs_cons, totalMs_cons, totalMs_nil,
    durationMs_on, durationMs_off]
  congr 1
  omega

theorem composite_cons_cons (n m : Nat) (parts : List Nat) :
    lamp.composite (n :: m :: parts) =
      lamp.part (min n Group.maxElement) ++ lamp.off 1500 :: lamp.composite (m :: parts) := by
  simp only [composite, List.map_cons, List.intercalate_cons_cons, List.append_assoc,
    List.singleton_append]

theorem totalMs_composite (parts : List Nat) :
    totalMs (lamp.composite parts) =
      total (parts.map fun n => min n Group.maxElement * 1000) + (parts.length - 1) * 1500 := by
  rw [composite, List.intercalate, totalMs_flatten, total_map_intersperse, List.map_map,
    List.length_map]
  congr 2
  exact List.map_congr_left fun n _ => lamp.totalMs_part _

/-- A part lasts 99 s at most, and the pause before the next a second and a half. -/
theorem totalMs_composite_le (parts : List Nat) :
    totalMs (lamp.composite parts) ≤ 99000 * parts.length + 1500 * (parts.length - 1) := by
  have hparts : total (parts.map fun n => min n Group.maxElement * 1000) ≤ parts.length * 99000 := by
    rw [← List.length_map fun n => min n Group.maxElement * 1000]
    refine total_le_length_mul fun ms hms => ?_
    obtain ⟨n, -, rfl⟩ := List.mem_map.1 hms
    exact Nat.mul_le_mul_right 1000 (Nat.min_le_right n Group.maxElement)
  rw [totalMs_composite]
  omega

theorem totalMs_morse_le (symbols : List Morse.Symbol) :
    totalMs (lamp.morse symbols) ≤ symbols.length * 1200 := by
  rw [morse, totalMs_intersperse, durationMs_off]
  generalize hmarks : symbols.map _ = marks
  have hlength : marks.length = symbols.length := by rw [← hmarks, List.length_map]
  have hle : totalMs marks ≤ (marks.map Segment.durationMs).length * 900 := by
    refine total_le_length_mul fun ms hms => ?_
    rw [← hmarks, List.map_map] at hms
    obtain ⟨symbol, -, rfl⟩ := List.mem_map.1 hms
    cases symbol with
    | dot => exact Nat.le_of_ble_eq_true rfl
    | dash => exact Nat.le_refl 900
  rw [List.length_map] at hle
  omega

end Lamp

theorem Morse.length_symbols_le (c : Char) : (symbols c).length ≤ 5 := by
  unfold symbols
  split
  · next code hcode =>
    rw [List.length_map]
    unfold pattern? at hcode
    split at hcode <;> cases hcode <;> decide
  · exact Nat.zero_le 5

theorem Group.flashCount?_le {group : Group} {n : Nat} (h : group.flashCount? = some n) : n ≤ 99 := by
  unfold flashCount? at h
  split at h
  · split_ifs at h
    cases h
    exact Nat.min_le_right _ _
  · cases h

theorem Group.one_le_flashCount? {group : Group} {n : Nat} (h : group.flashCount? = some n) :
    1 ≤ n := by
  unfold flashCount? at h
  split at h
  · split_ifs at h with hzero
    cases h
    exact Nat.le_min.2 ⟨Nat.pos_of_ne_zero hzero, by decide⟩
  · cases h

namespace Characteristic

variable {light : Characteristic}

theorem flashCount?_getD_le (group : Group) : group.flashCount?.getD 1 ≤ 99 := by
  cases h : group.flashCount? with
  | none => decide
  | some n => exact Group.flashCount?_le h

/-- Quick flashes fit the period, or there are only so many. -/
theorem quickCount_mul_le (light : Characteristic) (rate : Nat) :
    light.quickCount rate * rate ≤ max (99 * rate) light.periodMs := by
  unfold quickCount
  split
  · next n hn =>
    exact Nat.le_trans (Nat.mul_le_mul_right rate (Group.flashCount?_le hn)) (Nat.le_max_left _ _)
  · dsimp only
    generalize hwindow : (if light.rhythm.isInterrupted = true then
      light.periodMs - light.periodMs / 4 else light.periodMs) = window
    have hle : window ≤ light.periodMs := by
      rw [← hwindow]
      split_ifs <;> omega
    have hfit := Nat.div_mul_le_self window rate
    rcases Nat.le_total 1 (window / rate) with hone | hone
    · rw [Nat.max_eq_right hone]
      omega
    · rw [Nat.max_eq_left hone]
      omega

/-- Without a list of numbers nothing lasts longer than the longest period. -/
theorem totalMs_rhythmPattern_le (hcomposite : ∀ parts, light.group ≠ .composite parts)
    (heclipses : light.rhythm = .occulting → ∀ e es, light.group ≠ .eclipses (e :: es)) :
    totalMs light.rhythmPattern ≤ 3600000 := by
  have hperiod := light.periodMs_le
  unfold rhythmPattern
  split
  · next parts hparts => exact absurd hparts (hcomposite parts)
  · dsimp only
    have hcount := flashCount?_getD_le light.group
    split
    · simpa [totalMs_cons, totalMs_nil] using hperiod
    · rw [Lamp.totalMs_flashes]
      omega
    · rw [Lamp.totalMs_flashes]
      omega
    · simp only [totalMs_cons, totalMs_nil, Lamp.durationMs_on, Lamp.durationMs_off]
      omega
    · next hrhythm =>
      unfold Lamp.occulting
      split
      · next e es hgroup => exact absurd hgroup (heclipses hrhythm e es)
      · simp only [totalMs_cons, totalMs_nil, Lamp.durationMs_on, Lamp.durationMs_off]
        omega
    · refine Nat.le_trans (Lamp.totalMs_morse_le _ _) ?_
      cases light.group.letter? with
      | none => decide
      | some c => exact Nat.le_trans (Nat.mul_le_mul_right 1200 (Morse.length_symbols_le c)) (by decide)
    · split
      · simp only [totalMs_cons, totalMs_nil, Lamp.durationMs_on]
        omega
      · simpa [totalMs_cons, totalMs_nil] using hperiod
    · split
      · next rate hrate =>
        have hrate := quickRate?_le hrate
        have hquick := light.quickCount_mul_le rate
        rw [Lamp.totalMs_quickFlashes]
        omega
      · decide

theorem totalMs_tailPattern_le (light : Characteristic) : totalMs light.tailPattern ≤ 2000 := by
  unfold tailPattern
  split_ifs
  · exact Nat.le_refl _
  · exact Nat.zero_le _

end Characteristic

end ChartLight
