import ChartLight.Playback
import ChartLight.Proofs.Shortest

/-! The wait of a segment at a scale of one. The seconds of a segment are put together from two
roundings and a rounded sum, and none of these is off by more than half a unit in the last of 53
places. For durations up to an hour that is far less than half a nanosecond, so the wait is the
duration itself. -/

namespace ChartLight

open Number

section Rounding

variable {n d : Nat}

/-- A rounded quotient is off by at most one half. -/
theorem roundEven_near (hd : 0 < d) (n : Nat) :
    2 * n ≤ 2 * (roundEven n d * d) + d ∧ 2 * (roundEven n d * d) ≤ 2 * n + d := by
  have hdivide := Nat.div_add_mod n d
  have hrest := Nat.mod_lt n hd
  rw [Nat.mul_comm] at hdivide
  unfold roundEven
  dsimp only
  split_ifs with hlow hhigh
  · omega
  · rw [Nat.add_one_mul (n / d)]
    omega
  · rcases Nat.mod_two_eq_zero_or_one (n / d) with heven | hodd
    · rw [heven, Nat.add_zero]
      omega
    · rw [hodd, Nat.add_one_mul (n / d)]
      omega

theorem roundEven_le_of_lt {k : Nat} (h : n / d < k) : roundEven n d ≤ k := by
  unfold roundEven
  dsimp only
  split_ifs <;> omega

theorem le_roundEven_of_le {k : Nat} (h : k ≤ n / d) : k ≤ roundEven n d := by
  unfold roundEven
  dsimp only
  split_ifs <;> omega

/-- The magnitude of a rank that is given by 53 places and a scale. After the largest number of 53
places comes the next scale. -/
theorem units_scaled {q shift : Nat} (hq : q ≤ 2 ^ 53) (hfull : shift = 0 ∨ 2 ^ 52 ≤ q) :
    units (shift * 2 ^ 52 + q) = q * 2 ^ shift := by
  rw [units_eq]
  rcases Nat.lt_or_ge q (2 ^ 52) with hsmall | hlarge
  · obtain rfl : shift = 0 := by omega
    rw [if_pos (by omega)]
    simp
  · obtain ⟨m, rfl⟩ := Nat.exists_eq_add_of_le hlarge
    rcases Nat.lt_or_ge m (2 ^ 52) with hm | hm
    · have hscale : (shift * 2 ^ 52 + (2 ^ 52 + m)) / 2 ^ 52 = shift + 1 := by omega
      have hplaces : (shift * 2 ^ 52 + (2 ^ 52 + m)) % 2 ^ 52 = m := by omega
      rw [hscale, hplaces, if_neg (Nat.succ_ne_zero shift), Nat.add_sub_cancel]
    · obtain rfl : m = 2 ^ 52 := by omega
      have hscale : (shift * 2 ^ 52 + (2 ^ 52 + 2 ^ 52)) / 2 ^ 52 = shift + 2 := by omega
      have hplaces : (shift * 2 ^ 52 + (2 ^ 52 + 2 ^ 52)) % 2 ^ 52 = 0 := by omega
      have htwice : 2 ^ (shift + 1) = 2 ^ shift * 2 := pow_succ 2 shift
      rw [hscale, hplaces, if_neg (Nat.succ_ne_zero (shift + 1)), Nat.add_succ_sub_one, htwice]
      omega

/-- Cut down to 53 places, a quotient keeps its first place, unless it had fewer. -/
theorem scaled_quotient (n d : Nat) :
    n / (d * 2 ^ ((n / d).log2 - 52)) < 2 ^ 53 ∧
      ((n / d).log2 - 52 = 0 ∨ 2 ^ 52 ≤ n / (d * 2 ^ ((n / d).log2 - 52))) := by
  rw [← Nat.div_div_eq_div_mul]
  generalize n / d = m
  have hupper : m < 2 ^ (m.log2 + 1) := Nat.lt_log2_self
  rw [Nat.div_lt_iff_lt_mul (Nat.two_pow_pos _), ← Nat.pow_add]
  refine ⟨Nat.lt_of_lt_of_le hupper (Nat.pow_le_pow_right (by decide) (by omega)), ?_⟩
  by_cases hshort : m.log2 ≤ 52
  · exact Or.inl (by omega)
  · right
    have hne : m ≠ 0 := by
      rintro rfl
      simp at hshort
    rw [Nat.le_div_iff_mul_le (Nat.two_pow_pos _), ← Nat.pow_add]
    have hplaces : 52 + (m.log2 - 52) = m.log2 := by omega
    rw [hplaces]
    exact Nat.log2_self_le hne

theorem units_nearestRank (n d : Nat) :
    units (nearestRank n d) =
      roundEven n (d * 2 ^ ((n / d).log2 - 52)) * 2 ^ ((n / d).log2 - 52) := by
  obtain ⟨hlt, hfull⟩ := scaled_quotient n d
  rw [nearestRank_eq]
  exact units_scaled (roundEven_le_of_lt hlt) (hfull.imp_right le_roundEven_of_le)

/-- The nearest magnitude is off by half a unit in its last place. -/
theorem units_nearestRank_near (hd : 0 < d) (n : Nat) :
    2 ^ 53 * n ≤ 2 ^ 53 * (units (nearestRank n d) * d) + (n + 2 ^ 52 * d) ∧
      2 ^ 53 * (units (nearestRank n d) * d) ≤ 2 ^ 53 * n + (n + 2 ^ 52 * d) := by
  obtain ⟨hlow, hhigh⟩ := roundEven_near (d := d * 2 ^ ((n / d).log2 - 52))
    (Nat.mul_pos hd (Nat.two_pow_pos _)) n
  have hunits : units (nearestRank n d) * d =
      roundEven n (d * 2 ^ ((n / d).log2 - 52)) * (d * 2 ^ ((n / d).log2 - 52)) := by
    rw [units_nearestRank, Nat.mul_assoc, Nat.mul_comm d]
  -- the unit is that of whole quotients, or it is small against the quotient
  have hunit : 2 ^ 52 * (d * 2 ^ ((n / d).log2 - 52)) ≤ n + 2 ^ 52 * d := by
    obtain ⟨-, hwhole | hfull⟩ := scaled_quotient n d
    · rw [hwhole, Nat.pow_zero, Nat.mul_one]
      omega
    · have hle := (Nat.le_div_iff_mul_le (Nat.mul_pos hd (Nat.two_pow_pos _))).1 hfull
      omega
  rw [hunits]
  generalize roundEven n (d * 2 ^ ((n / d).log2 - 52)) * (d * 2 ^ ((n / d).log2 - 52)) = near at *
  generalize d * 2 ^ ((n / d).log2 - 52) = unit at *
  omega

/-- A power of two whose exponent is named, since no proof may evaluate it. -/
theorem exists_unitsInOne_eq : ∃ places, places = 1074 ∧ unitsInOne = 2 ^ places := by
  unfold unitsInOne
  generalize 1074 = places
  exact ⟨places, rfl, rfl⟩

/-- There is room below and above one. -/
theorem unitsInOne_large : 2 ^ 60 ≤ unitsInOne ∧ unitsInOne.log2 < 2000 := by
  obtain ⟨places, hplaces, hone⟩ := exists_unitsInOne_eq
  rw [hone, Nat.log2_two_pow]
  exact ⟨Nat.pow_le_pow_right (by decide) (by omega), by omega⟩

theorem unitsInOne_pos : 0 < unitsInOne :=
  Nat.lt_of_lt_of_le (Nat.two_pow_pos 60) unitsInOne_large.1

/-- Moderate quotients are far from infinity. -/
theorem nearestRank_lt (h : n / d < 2 ^ 60 * unitsInOne) : nearestRank n d < rankBound := by
  have hunits : unitsInOne < 2 ^ (unitsInOne.log2 + 1) := Nat.lt_log2_self
  have hplaces := unitsInOne_large.2
  generalize unitsInOne.log2 = places at hunits hplaces
  have hlog : (n / d).log2 ≤ 60 + (places + 1) := by
    have hpow : n / d < 2 ^ (60 + (places + 1)) := by
      rw [Nat.pow_add]
      exact Nat.lt_trans h (Nat.mul_lt_mul_of_pos_left hunits (Nat.two_pow_pos 60))
    by_cases hzero : n / d = 0
    · rw [hzero]
      simp
    · exact Nat.le_of_lt ((Nat.log2_lt hzero).2 hpow)
  have hround := roundEven_le_of_lt (scaled_quotient n d).1
  have hbound : rankBound = 2047 * 2 ^ 52 := rfl
  rw [nearestRank_eq, hbound]
  omega

theorem roundEven_eq_of_near {k : Nat} (hlow : 2 * (k * d) < 2 * n + d)
    (hhigh : 2 * n < 2 * (k * d) + d) : roundEven n d = k := by
  have hd : 0 < d := by
    rcases Nat.eq_zero_or_pos d with rfl | hd
    · omega
    · exact hd
  obtain ⟨hnear, hnear'⟩ := roundEven_near hd n
  rcases Nat.lt_trichotomy (roundEven n d) k with hless | heq | hmore
  · have hstep := Nat.mul_le_mul_right d (Nat.succ_le_of_lt hless)
    rw [Nat.succ_mul] at hstep
    omega
  · exact heq
  · have hstep := Nat.mul_le_mul_right d (Nat.succ_le_of_lt hmore)
    rw [Nat.succ_mul] at hstep
    omega

end Rounding

section Arithmetic

theorem ofRank_of_rank_lt {negative : Bool} {r : Nat} (h : r < rankBound) :
    Binary64.ofRank negative r = .finite negative ⟨r, h⟩ := ofRank_of_lt negative ⟨r, h⟩

theorem exists_rank_ofRatio {m d : Nat} (hd : 0 < d) (hm : m < 2 ^ 60 * d) (negative : Bool) :
    ∃ rank : Fin rankBound, Binary64.ofRatio negative m d = .finite negative rank ∧
      rank.val = nearestRank (m * unitsInOne) d := by
  have hlt : m * unitsInOne / d < 2 ^ 60 * unitsInOne := by
    rw [Nat.div_lt_iff_lt_mul hd, Nat.mul_right_comm]
    exact Nat.mul_lt_mul_of_pos_right hm unitsInOne_pos
  exact ⟨⟨_, nearestRank_lt hlt⟩, ofRank_of_rank_lt _, rfl⟩

/-- Whole numbers of 53 places are doubles. -/
theorem units_nearestRank_whole {n : Nat} (hn : n < 2 ^ 53) :
    units (nearestRank (n * unitsInOne) 1) = n * unitsInOne := by
  obtain ⟨places, hplaces, hone⟩ := exists_unitsInOne_eq
  obtain ⟨scale, hscale⟩ : ∃ scale, (n * unitsInOne / 1).log2 - 52 = scale := ⟨_, rfl⟩
  -- the last place of the number is not below a unit
  have hle : scale ≤ places := by
    rcases Nat.eq_zero_or_pos (n * unitsInOne) with hzero | hpos
    · rw [hzero, Nat.zero_div, Nat.log2_zero] at hscale
      omega
    · have hlt : n * unitsInOne / 1 < 2 ^ (53 + places) := by
        rw [Nat.div_one, hone, Nat.pow_add]
        exact Nat.mul_lt_mul_of_pos_right hn (Nat.two_pow_pos places)
      rw [Nat.div_one] at hscale hlt
      have hlog := (Nat.log2_lt (Nat.pos_iff_ne_zero.mp hpos)).2 hlt
      omega
  have hsplit : n * unitsInOne = 2 ^ scale * (n * 2 ^ (places - scale)) := by
    rw [hone, Nat.mul_left_comm, ← Nat.pow_add, Nat.add_sub_cancel' hle]
  have hround : roundEven (n * unitsInOne) (2 ^ scale) = n * 2 ^ (places - scale) := by
    have hscaled := roundEven_mul_mul (Nat.two_pow_pos scale) (n * 2 ^ (places - scale)) 1
    rwa [← hsplit, Nat.mul_one, roundEven_one] at hscaled
  rw [units_nearestRank, hscale, Nat.one_mul, hround, Nat.mul_comm, ← hsplit]

theorem ofNat_whole {n : Nat} (hn : n < 2 ^ 53) :
    ∃ rank, Binary64.ofNat n = .finite false rank ∧ units rank = n * unitsInOne := by
  obtain ⟨rank, hrank, hval⟩ := exists_rank_ofRatio Nat.one_pos (by omega : n < 2 ^ 60 * 1) false
  exact ⟨rank, hrank, hval ▸ units_nearestRank_whole hn⟩

theorem ofNat_one :
    ∃ rank, Binary64.ofNat 1 = .finite false rank ∧ units rank = unitsInOne := by
  obtain ⟨rank, hrank, hunits⟩ := ofNat_whole (n := 1) (by decide)
  exact ⟨rank, hrank, hunits.trans (Nat.one_mul _)⟩

theorem positive_ofNat_one :
    ((Binary64.ofNat 1).isFinite && (Binary64.ofNat 1).isPositive) = true := by
  obtain ⟨one, hone, hunits⟩ := ofNat_one
  have hne : one.val ≠ 0 := by
    rw [← units_pos_iff, hunits]
    exact unitsInOne_pos
  rw [hone]
  simpa [Binary64.isFinite, Binary64.isPositive] using hne

/-- A finite number times a whole one. -/
theorem mul_ofNat {n : Nat} (hn : n < 2 ^ 53) (negative : Bool) (rank : Fin rankBound) :
    (Binary64.finite negative rank).mul (Binary64.ofNat n) =
      Binary64.ofRank negative (nearestRank (units rank * n) 1) := by
  obtain ⟨whole, hwhole, hunits⟩ := ofNat_whole hn
  have hscaled := nearestRank_mul_mul unitsInOne_pos (units rank * n) 1
  rw [Nat.mul_comm, Nat.mul_one, Nat.mul_assoc] at hscaled
  rw [hwhole, Binary64.mul, hunits, hscaled, Bool.bne_false]

theorem mul_ofNat_one (negative : Bool) (rank : Fin rankBound) :
    (Binary64.finite negative rank).mul (Binary64.ofNat 1) = .finite negative rank := by
  rw [mul_ofNat (by decide), Nat.mul_one, nearestRank_units]
  exact ofRank_of_lt negative rank

/-- A ratio, off by half a unit in the last of 53 places. -/
theorem ofRatio_near {m d : Nat} (hd : 0 < d) (hm : m < 2 ^ 60 * d) :
    ∃ rank, Binary64.ofRatio false m d = .finite false rank ∧
      2 ^ 53 * (m * unitsInOne) ≤
        2 ^ 53 * (units rank * d) + (m * unitsInOne + 2 ^ 52 * d) ∧
      2 ^ 53 * (units rank * d) ≤
        2 ^ 53 * (m * unitsInOne) + (m * unitsInOne + 2 ^ 52 * d) := by
  obtain ⟨rank, hrank, hval⟩ := exists_rank_ofRatio hd hm false
  exact ⟨rank, hrank, hval ▸ units_nearestRank_near hd _⟩

/-- The sum of two numbers, off by as much. -/
theorem add_near {x y : Fin rankBound} (h : units x + units y < 2 ^ 60 * unitsInOne) :
    ∃ rank, (Binary64.finite false x).add (.finite false y) = .finite false rank ∧
      2 ^ 53 * (units x + units y) ≤
        2 ^ 53 * units rank + (units x + units y + 2 ^ 52) ∧
      2 ^ 53 * units rank ≤
        2 ^ 53 * (units x + units y) + (units x + units y + 2 ^ 52) := by
  have hlt : (units x + units y) / 1 < 2 ^ 60 * unitsInOne := by rwa [Nat.div_one]
  have hnear := units_nearestRank_near Nat.one_pos (units x + units y)
  rw [Nat.mul_one, Nat.mul_one] at hnear
  exact ⟨⟨_, nearestRank_lt hlt⟩, by rw [Binary64.add, if_pos rfl, ofRank_of_rank_lt], hnear⟩

end Arithmetic

/-- The errors of an hour's whole seconds, of the rest of a second and of the sum of both: together
they are small against a nanosecond. -/
theorem sum_near {one whole rest x y z : Nat} (hone : 2 ^ 60 ≤ one) (hwhole : whole ≤ 3600 * one)
    (hrest : rest ≤ 1000000000 * one)
    (hx : 2 ^ 53 * whole ≤ 2 ^ 53 * x + (whole + 2 ^ 52))
    (hx' : 2 ^ 53 * x ≤ 2 ^ 53 * whole + (whole + 2 ^ 52))
    (hy : 2 ^ 53 * rest ≤ 2 ^ 53 * (y * 1000000000) + (rest + 2 ^ 52 * 1000000000))
    (hy' : 2 ^ 53 * (y * 1000000000) ≤ 2 ^ 53 * rest + (rest + 2 ^ 52 * 1000000000))
    (hz : 2 ^ 53 * (x + y) ≤ 2 ^ 53 * z + (x + y + 2 ^ 52))
    (hz' : 2 ^ 53 * z ≤ 2 ^ 53 * (x + y) + (x + y + 2 ^ 52)) :
    2 * (whole * 1000000000 + rest) < 2 * (z * 1000000000) + one ∧
      2 * (z * 1000000000) < 2 * (whole * 1000000000 + rest) + one := by
  constructor <;> omega

/-- Milliseconds in seconds, for an hour at most, are off by less than half a nanosecond. -/
theorem secondsOfMs_near {ms : Nat} (hms : ms ≤ 3600000) :
    ∃ rank, secondsOfMs ms = .finite false rank ∧
      2 * (ms * 1000000 * unitsInOne) < 2 * (units rank * 1000000000) + unitsInOne ∧
      2 * (units rank * 1000000000) < 2 * (ms * 1000000 * unitsInOne) + unitsInOne := by
  obtain ⟨x, hx, hxlow, hxhigh⟩ :=
    ofRatio_near (m := ms / 1000) (d := 1) Nat.one_pos (by omega)
  obtain ⟨y, hy, hylow, hyhigh⟩ :=
    ofRatio_near (m := ms % 1000 * 1000000) (d := 1000000000) (by decide) (by omega)
  have hwhole : ms / 1000 * unitsInOne ≤ 3600 * unitsInOne :=
    Nat.mul_le_mul_right _ (by omega)
  have hrest : ms % 1000 * 1000000 * unitsInOne ≤ 1000000000 * unitsInOne :=
    Nat.mul_le_mul_right _ (by omega)
  have hsplit : ms * 1000000 * unitsInOne =
      ms / 1000 * unitsInOne * 1000000000 + ms % 1000 * 1000000 * unitsInOne := by
    have hms' : ms * 1000000 = ms / 1000 * 1000000000 + ms % 1000 * 1000000 := by omega
    rw [hms', Nat.add_mul, Nat.mul_right_comm]
  have hsmall : units x + units y < 2 ^ 60 * unitsInOne := by
    have hlarge := unitsInOne_large.1
    omega
  obtain ⟨z, hz, hzlow, hzhigh⟩ := add_near hsmall
  rw [Nat.mul_one] at hxlow hxhigh
  refine ⟨z, by rw [secondsOfMs, Binary64.ofNat, hx, hy, hz], ?_⟩
  rw [hsplit]
  exact sum_near unitsInOne_large.1 hwhole hrest hxlow hxhigh hylow hyhigh hzlow hzhigh

/-- At a scale of one, a segment is shown for its duration, to the nanosecond. -/
theorem waitNs?_one {s : Segment} (h : s.durationMs ≤ 3600000) :
    waitNs? (Binary64.ofNat 1) s = some (s.durationMs * 1000000) := by
  obtain ⟨rank, hseconds, hlow, hhigh⟩ := secondsOfMs_near h
  have hlimit : 3600000 * 1000000 < Nat.pow 2 64 * 1000000000 := by decide
  have hbound := Nat.lt_of_le_of_lt (Nat.mul_le_mul_right 1000000 h) hlimit
  rw [waitNs?, if_pos positive_ofNat_one, hseconds, mul_ofNat_one, Binary64.nanoseconds?,
    roundEven_eq_of_near hlow hhigh, if_pos hbound]

end ChartLight
