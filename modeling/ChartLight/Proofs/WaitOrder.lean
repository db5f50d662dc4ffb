import ChartLight.Proofs.Waits

/-! Waits keep the order of durations and scales. Every rounding on the way to a wait is monotone, so a
shorter segment, or a smaller scale, never makes a longer wait, and it never makes one too long where
the other was not. -/

namespace ChartLight

open Number

section Rounding

variable {m n d : Nat}

theorem roundEven_mono (h : n ≤ m) : roundEven n d ≤ roundEven m d := by
  have hquotient : n / d ≤ m / d := Nat.div_le_div_right h
  rcases Nat.lt_or_eq_of_le hquotient with hlt | heq
  · calc roundEven n d
      _ ≤ n / d + 1 := roundEven_le_of_lt (Nat.lt_succ_self _)
      _ ≤ m / d := hlt
      _ ≤ roundEven m d := le_roundEven_of_le (Nat.le_refl _)
  · -- between the same two neighbours the rests decide
    have hn := Nat.div_add_mod n d
    have hm := Nat.div_add_mod m d
    unfold roundEven
    dsimp only
    rw [heq] at hn ⊢
    have hrest : n % d ≤ m % d := by omega
    have hone := Nat.mod_lt (m / d) Nat.two_pos
    split_ifs <;> omega

/-- The nearest double keeps the order: at one scale by rounding, and a larger scale begins above the
largest 53 places of a smaller one. -/
theorem nearestRank_mono (h : n ≤ m) : nearestRank n d ≤ nearestRank m d := by
  have hquotient : n / d ≤ m / d := Nat.div_le_div_right h
  have hlog : (n / d).log2 - 52 ≤ (m / d).log2 - 52 := by
    rw [Nat.log2_eq_log_two, Nat.log2_eq_log_two]
    exact Nat.sub_le_sub_right (Nat.log_mono_right hquotient) 52
  rw [nearestRank_eq, nearestRank_eq]
  rcases Nat.lt_or_eq_of_le hlog with hlt | heq
  · have hplaces := roundEven_le_of_lt (scaled_quotient n d).1
    have hfull : 2 ^ 52 ≤ roundEven m (d * 2 ^ ((m / d).log2 - 52)) := by
      rcases (scaled_quotient m d).2 with hzero | hfull
      · omega
      · exact le_roundEven_of_le hfull
    omega
  · rw [heq]
    exact Nat.add_le_add_left (roundEven_mono h) _

theorem units_mono {x y : Nat} (h : x ≤ y) : units x ≤ units y := by
  by_contra hlt
  have hback := nearestRank_mono (d := 1) (Nat.le_of_not_le hlt)
  rw [nearestRank_units, nearestRank_units] at hback
  rw [Nat.le_antisymm h hback] at hlt
  exact hlt (Nat.le_refl _)

theorem units_le_iff {x y : Nat} : units x ≤ units y ↔ x ≤ y := by
  constructor
  · intro h
    have hback := nearestRank_mono (d := 1) h
    rwa [nearestRank_units, nearestRank_units] at hback
  · exact units_mono

end Rounding

section Arithmetic

variable {x y s t : Fin rankBound}

/-- What is above zero and finite is a rank, and not the first. -/
theorem exists_rank_of_positive {scale : Binary64} (hfinite : scale.isFinite = true)
    (hpositive : scale.isPositive = true) : ∃ rank, scale = .finite false rank ∧ 0 < units rank := by
  cases scale with
  | nan => cases hpositive
  | infinite negative => cases hfinite
  | finite negative rank =>
    obtain ⟨hsign, hrank⟩ := Bool.and_eq_true _ _ ▸ hpositive
    cases negative with
    | true => cases hsign
    | false => exact ⟨rank, rfl, (units_pos_iff _).mpr (bne_iff_ne.mp hrank)⟩

theorem positive_of_units_pos (h : 0 < units s) :
    ((Binary64.finite false s).isFinite && (Binary64.finite false s).isPositive) = true := by
  have hne := (units_pos_iff _).mp h
  simpa [Binary64.isFinite, Binary64.isPositive] using hne

/-- Smaller factors have a smaller product, which is finite where that of the larger is. -/
theorem mul_mono (hx : units x ≤ units y) (hs : units s ≤ units t) {product : Fin rankBound}
    (h : (Binary64.finite false y).mul (.finite false t) = .finite false product) :
    ∃ smaller, (Binary64.finite false x).mul (.finite false s) = .finite false smaller ∧
      units smaller ≤ units product := by
  have hrank : nearestRank (units x * units s) unitsInOne ≤
      nearestRank (units y * units t) unitsInOne := nearestRank_mono (Nat.mul_le_mul hx hs)
  unfold Binary64.mul at h ⊢
  dsimp only at h ⊢
  rw [Bool.bne_false] at h ⊢
  unfold Binary64.ofRank at h
  split_ifs at h with hlt
  have hproduct := (Binary64.finite.inj h).2
  refine ⟨_, ofRank_of_rank_lt (Nat.lt_of_le_of_lt hrank hlt), ?_⟩
  rw [← hproduct]
  exact units_mono hrank

theorem nanoseconds?_mono (h : units x ≤ units y) {ns : Nat}
    (hy : (Binary64.finite false y).nanoseconds? = some ns) :
    ∃ fewer ≤ ns, (Binary64.finite false x).nanoseconds? = some fewer := by
  have hround : roundEven (units x * 1000000000) unitsInOne ≤
      roundEven (units y * 1000000000) unitsInOne := roundEven_mono (Nat.mul_le_mul_right _ h)
  unfold Binary64.nanoseconds? at hy ⊢
  dsimp only at hy ⊢
  split_ifs at hy with hlt
  rw [← Option.some.inj hy]
  exact ⟨_, hround, if_pos (Nat.lt_of_le_of_lt hround hlt)⟩

/-- Within an hour, more milliseconds are more seconds. -/
theorem secondsOfMs_mono {a b : Nat} (h : a ≤ b) (hb : b ≤ 3600000) :
    ∃ x y, secondsOfMs a = .finite false x ∧ secondsOfMs b = .finite false y ∧ units x ≤ units y := by
  obtain ⟨x, hx, -, hxhigh⟩ := secondsOfMs_near (Nat.le_trans h hb)
  rcases Nat.lt_or_eq_of_le h with hlt | rfl
  · obtain ⟨y, hy, hylow, -⟩ := secondsOfMs_near hb
    refine ⟨x, y, hx, hy, ?_⟩
    -- a whole millisecond is far more than the two roundings take away
    have hstep : (a + 1) * 1000000 * unitsInOne ≤ b * 1000000 * unitsInOne :=
      Nat.mul_le_mul_right _ (Nat.mul_le_mul_right _ hlt)
    have hsplit : (a + 1) * 1000000 * unitsInOne =
        a * 1000000 * unitsInOne + 1000000 * unitsInOne := by
      rw [Nat.add_one_mul, Nat.add_mul]
    omega
  · exact ⟨x, x, hx, hx, Nat.le_refl _⟩

end Arithmetic

section Waits

variable {s t : Fin rankBound} {short long : Segment}

theorem waitNs?_eq (hs : 0 < units s) (segment : Segment) :
    waitNs? (.finite false s) segment =
      ((secondsOfMs segment.durationMs).mul (.finite false s)).nanoseconds? := by
  rw [waitNs?, if_pos (positive_of_units_pos hs)]

/-- A wait that can be timed comes from a finite number of seconds. -/
theorem exists_product_of_waitNs? (ht : 0 < units t) {y : Fin rankBound}
    (hy : secondsOfMs long.durationMs = .finite false y) {wait : Nat}
    (hwait : waitNs? (.finite false t) long = some wait) :
    ∃ product, (Binary64.finite false y).mul (.finite false t) = .finite false product ∧
      (Binary64.finite false product).nanoseconds? = some wait := by
  rw [waitNs?_eq ht, hy] at hwait
  unfold Binary64.mul Binary64.ofRank at hwait ⊢
  dsimp only at hwait ⊢
  rw [Bool.bne_false] at hwait ⊢
  split_ifs at hwait ⊢ with hlt
  · exact ⟨_, rfl, hwait⟩
  · cases hwait

/-- A shorter segment at a smaller scale waits no longer, and its wait can be timed where the longer one
can. -/
theorem waitNs?_mono (hs : 0 < units s) (hst : units s ≤ units t)
    (hduration : short.durationMs ≤ long.durationMs) (hlong : long.durationMs ≤ 3600000) {wait : Nat}
    (hwait : waitNs? (.finite false t) long = some wait) :
    ∃ shorter ≤ wait, waitNs? (.finite false s) short = some shorter := by
  obtain ⟨x, y, hx, hy, hxy⟩ := secondsOfMs_mono hduration hlong
  obtain ⟨product, hproduct, hns⟩ := exists_product_of_waitNs? (Nat.lt_of_lt_of_le hs hst) hy hwait
  obtain ⟨smaller, hsmaller, hle⟩ := mul_mono hxy hst hproduct
  obtain ⟨fewer, hfewer, heq⟩ := nanoseconds?_mono hle hns
  exact ⟨fewer, hfewer, by rw [waitNs?_eq hs, hx, hsmaller, heq]⟩

end Waits

end ChartLight
