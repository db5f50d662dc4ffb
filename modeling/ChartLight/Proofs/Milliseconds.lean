import ChartLight.Proofs.Fit
import ChartLight.Proofs.WaitOrder

/-! Periods of whole milliseconds. The double nearest to such a period, and its product with a
thousand, are each off by half a unit in the last of 53 places. Up to an hour that is far less than
half a millisecond, so a cycle lasts for the milliseconds that are meant. -/

namespace ChartLight

open Number

section Ratios

variable {m n d e : Nat}

/-- A smaller ratio has no larger double. -/
theorem nearestRank_ratio_mono (hd : 0 < d) (he : 0 < e) (h : m * e ≤ n * d) :
    nearestRank m d ≤ nearestRank n e := by
  rw [← nearestRank_mul_mul he m d, ← nearestRank_mul_mul hd n e, Nat.mul_comm e d]
  apply nearestRank_mono
  rwa [Nat.mul_comm e m, Nat.mul_comm d n]

/-- Equal ratios have one double. -/
theorem ofRatio_eq_of_mul_eq (hd : 0 < d) (he : 0 < e) (h : m * e = n * d) (negative : Bool) :
    Binary64.ofRatio negative m d = Binary64.ofRatio negative n e := by
  have hscaled : m * unitsInOne * e = n * unitsInOne * d := by
    rw [Nat.mul_right_comm, h, Nat.mul_right_comm]
  have hrank : nearestRank (m * unitsInOne) d = nearestRank (n * unitsInOne) e :=
    Nat.le_antisymm (nearestRank_ratio_mono hd he (Nat.le_of_eq hscaled))
      (nearestRank_ratio_mono he hd (Nat.le_of_eq hscaled.symm))
  rw [Binary64.ofRatio, Binary64.ofRatio, hrank]

/-- A ratio from a millisecond up to an hour, which is a double itself, may be a period. -/
theorem inHour_ofRatio (hd : 0 < d) (hshort : d ≤ m * 1000) (hlong : m ≤ 3600 * d) :
    InHour (Binary64.ofRatio false m d) := by
  obtain ⟨rank, hrank, hval⟩ := exists_rank_ofRatio hd (by omega : m < 2 ^ 60 * d) false
  have hpos : 0 < units rank := by
    have hnear := (units_nearestRank_near hd (m * unitsInOne)).1
    have hone := Nat.mul_le_mul hshort unitsInOne_large.1
    rw [Nat.mul_right_comm] at hone
    by_contra hzero
    rw [← hval, Nat.eq_zero_of_not_pos hzero, Nat.zero_mul] at hnear
    omega
  refine ⟨rank, hrank, hpos, ?_⟩
  have hscaled : m * unitsInOne * 1 ≤ 3600 * unitsInOne * d := by
    rw [Nat.mul_one, Nat.mul_right_comm]
    exact Nat.mul_le_mul_right unitsInOne hlong
  rw [hval, ← units_nearestRank_whole (n := 3600) (by decide)]
  exact units_mono (nearestRank_ratio_mono hd Nat.one_pos hscaled)

theorem inHour_ofNat {n : Nat} (hpos : 0 < n) (hhour : n ≤ 3600) : InHour (Binary64.ofNat n) := by
  rw [Binary64.ofNat]
  exact inHour_ofRatio Nat.one_pos (by omega) (by omega)

/-- Whole seconds are printed as such. -/
theorem secondsText_ofNat {n : Nat} (hn : n < 2 ^ 53) : secondsText (Binary64.ofNat n) = toString n := by
  obtain ⟨rank, hrank, hunits⟩ := ofNat_whole hn
  have hwhole : (Binary64.finite false rank).isWhole = true := by
    rw [Binary64.isWhole, hunits, Nat.mul_mod_left]
    rfl
  have hfloor : (Binary64.finite false rank).floorWithin (Nat.pow 2 64 - 1) = n := by
    have hcap : 2 ^ 53 ≤ Nat.pow 2 64 - 1 := by decide
    rw [Binary64.floorWithin, if_neg Bool.false_ne_true, hunits,
      Nat.mul_div_cancel _ unitsInOne_pos]
    exact Nat.min_eq_right (Nat.le_trans (Nat.le_of_lt hn) hcap)
  rw [secondsText, hrank, if_pos hwhole, hfloor]

end Ratios

theorem roundUp_eq_of_near {n one k : Nat} (hlow : 2 * (k * one) ≤ 2 * n + one)
    (hhigh : 2 * n < 2 * (k * one) + one) : roundUp n one = k := by
  have hone : 0 < 2 * one := by omega
  rw [roundUp, Nat.div_eq_iff hone, Nat.mul_left_comm]
  omega

namespace Characteristic

theorem ofRhythm_period (rhythm : Rhythm) : (ofRhythm rhythm).period = defaultPeriod := by
  rw [ofRhythm]

theorem inHour_defaultPeriod : InHour defaultPeriod := by
  rw [defaultPeriod]
  exact inHour_ofNat (by decide) (by decide)

variable {light : Characteristic} {ms m d : Nat}

theorem periodMs_of_thousandths (hpos : 0 < ms) (hhour : ms ≤ 3600000)
    (hperiod : light.period = Binary64.ofRatio false ms 1000) : light.periodMs = ms := by
  obtain ⟨x, hx, hlow, hhigh⟩ := ofRatio_near (m := ms) (d := 1000) (by decide) (by omega)
  have hlarge := unitsInOne_large.1
  have hscaled := Nat.mul_le_mul_right unitsInOne hhour
  have hlt : units x * 1000 / 1 < 2 ^ 60 * unitsInOne := by
    rw [Nat.div_one]
    omega
  obtain ⟨hnear, hnear'⟩ := units_nearestRank_near Nat.one_pos (units x * 1000)
  have hround : roundUp (units (nearestRank (units x * 1000) 1)) unitsInOne = ms :=
    roundUp_eq_of_near (by omega) (by omega)
  rw [periodMs, hperiod, hx, mul_ofNat (by decide), ofRank_of_rank_lt (nearestRank_lt hlt),
    Binary64.roundWithin, if_neg Bool.false_ne_true]
  dsimp only
  rw [hround, maxPeriod]
  omega

/-- A cycle lasts for the whole milliseconds of its period. -/
theorem periodMs_of_ratio (hpos : 0 < m) (h : m * 1000 = ms * d) (hhour : ms ≤ 3600000)
    (hperiod : light.period = Binary64.ofRatio false m d) : light.periodMs = ms := by
  have hproduct : 0 < ms * d := h ▸ Nat.mul_pos hpos (by decide)
  have hthousandths : Binary64.ofRatio false m d = Binary64.ofRatio false ms 1000 :=
    ofRatio_eq_of_mul_eq (Nat.pos_of_mul_pos_left hproduct) (by decide) h false
  exact periodMs_of_thousandths (Nat.pos_of_mul_pos_right hproduct) hhour
    (hperiod.trans hthousandths)

theorem periodMs_of_seconds {n : Nat} (hpos : 0 < n) (hhour : n ≤ 3600)
    (hperiod : light.period = Binary64.ofNat n) : light.periodMs = n * 1000 := by
  rw [Binary64.ofNat] at hperiod
  exact periodMs_of_ratio hpos (Nat.mul_one _).symm (by omega) hperiod

theorem periodMs_of_default (hperiod : light.period = defaultPeriod) : light.periodMs = 10000 :=
  periodMs_of_seconds (n := 10) (by decide) (by decide) hperiod

end Characteristic

end ChartLight
