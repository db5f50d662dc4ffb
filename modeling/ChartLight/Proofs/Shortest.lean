import ChartLight.Number.Shortest
import ChartLight.Proofs.Period

/-! A double is read back from its text. Every decimal that is tried for it was itself read back, so
what has to be shown is that the number in full names it and that printing a decimal changes neither
its value nor its nearest double. -/

namespace ChartLight

open Number

section Rank

theorem nearestRank_eq (n d : Nat) :
    nearestRank n d =
      ((n / d).log2 - 52) * 2 ^ 52 + roundEven n (d * 2 ^ ((n / d).log2 - 52)) := rfl

/-- Scaling a ratio leaves the double nearest to it. -/
theorem nearestRank_mul_mul {c : Nat} (hc : 0 < c) (n d : Nat) :
    nearestRank (c * n) (c * d) = nearestRank n d := by
  rw [nearestRank_eq, nearestRank_eq, Nat.mul_div_mul_left _ _ hc, Nat.mul_assoc,
    roundEven_mul_mul hc]

theorem log2_units {r : Nat} (h : r / 2 ^ 52 ≠ 0) : (units r).log2 = 52 + (r / 2 ^ 52 - 1) := by
  have hmod : r % 2 ^ 52 < 2 ^ 52 := Nat.mod_lt _ (Nat.two_pow_pos _)
  have hpow : 0 < 2 ^ (r / 2 ^ 52 - 1) := Nat.two_pow_pos _
  rw [units_eq, if_neg h]
  generalize r % 2 ^ 52 = m at *
  generalize r / 2 ^ 52 - 1 = e at *
  have hpos : (2 ^ 52 + m) * 2 ^ e ≠ 0 := Nat.mul_ne_zero (by omega) (by omega)
  have hnext : 2 ^ (52 + e + 1) = 2 ^ 53 * 2 ^ e := by
    rw [← Nat.pow_add]
    congr 1
    omega
  rw [Nat.log2_eq_iff hpos, hnext, Nat.pow_add]
  constructor
  · exact Nat.mul_le_mul_right _ (by omega)
  · exact Nat.mul_lt_mul_of_pos_right (by omega) hpow

/-- A magnitude is its own nearest double. -/
theorem nearestRank_units (r : Nat) : nearestRank (units r) 1 = r := by
  rw [nearestRank_eq, Nat.div_one, Nat.one_mul]
  by_cases h : r / 2 ^ 52 = 0
  · have hr : r < 2 ^ 52 := by omega
    have hunits : units r = r := by rw [units_eq, if_pos h]
    have hshift : r.log2 - 52 = 0 := by
      by_cases hzero : r = 0
      · rw [hzero]
        rfl
      · have := (Nat.log2_lt hzero).2 hr
        omega
    rw [hunits, hshift, Nat.zero_mul, Nat.pow_zero, roundEven_one, Nat.zero_add]
  · -- the scale divides the magnitude, so nothing is rounded
    have hunits : units r = 2 ^ (r / 2 ^ 52 - 1) * (2 ^ 52 + r % 2 ^ 52) := by
      rw [units_eq, if_neg h, Nat.mul_comm]
    have hround : roundEven (units r) (2 ^ (r / 2 ^ 52 - 1)) = 2 ^ 52 + r % 2 ^ 52 := by
      have hscale := roundEven_mul_mul (Nat.two_pow_pos (r / 2 ^ 52 - 1)) (2 ^ 52 + r % 2 ^ 52) 1
      rwa [Nat.mul_one, roundEven_one, ← hunits] at hscale
    rw [log2_units h, Nat.add_sub_cancel_left, hround]
    omega

theorem nearestRank_units_mul {c : Nat} (hc : 0 < c) (r : Nat) : nearestRank (units r * c) c = r := by
  have h := nearestRank_mul_mul hc (units r) 1
  rwa [Nat.mul_one, nearestRank_units, Nat.mul_comm] at h

theorem rank_eq (d : Decimal) : d.rank = nearestRank (d.num * unitsInOne) d.den := rfl

/-- A number of units in full, for units of any power of one half: the denominator is cancelled by
the units in one. -/
theorem rank_of_halves {places : Nat} (h : unitsInOne = Nat.pow 2 places) (r : Nat) :
    (⟨units r * Nat.pow 5 places, -places⟩ : Decimal).rank = r := by
  have hnum : (⟨units r * Nat.pow 5 places, -places⟩ : Decimal).num =
      units r * Nat.pow 5 places := by
    rw [Decimal.num, Int.toNat_neg_natCast]
    exact Nat.mul_one _
  have hden : (⟨units r * Nat.pow 5 places, -places⟩ : Decimal).den = Nat.pow 10 places := by
    rw [Decimal.den, Int.neg_neg, Int.toNat_natCast]
  have hten : Nat.pow 5 places * Nat.pow 2 places = Nat.pow 10 places :=
    (Nat.mul_pow 5 2 places).symm
  rw [rank_eq, hnum, hden, h, Nat.mul_assoc, hten]
  exact nearestRank_units_mul (Nat.pow_pos (by decide)) r

theorem rank_exactDecimal (r : Nat) : (exactDecimal r).rank = r := by
  have hhalves : unitsInOne = Nat.pow 2 1074 := by
    unfold unitsInOne
    rfl
  exact rank_of_halves hhalves r

theorem rank_shortestDecimal (tie : Tie) (r : Nat) : (shortestDecimal tie r).rank = r := by
  unfold shortestDecimal
  split_ifs with h
  · have hnum : (⟨0, 0⟩ : Decimal).num = 0 := rfl
    have hden : (⟨0, 0⟩ : Decimal).den = 1 := rfl
    rw [rank_eq, hnum, hden, Nat.zero_mul, h]
    exact nearestRank_units 0
  · cases hfound : (List.range' 1 17).findSome? fun n =>
        ((gridNeighbours tie r n).map Decimal.reduce).find? (·.rank = r) with
    | none => exact rank_exactDecimal r
    | some d =>
      obtain ⟨n, -, hn⟩ := List.exists_of_findSome?_eq_some hfound
      simpa using List.find?_some hn

end Rank

section Text

theorem digits_toDigits (n : Nat) : Digits (Nat.toDigits 10 n) :=
  ⟨Nat.toDigits_ne_nil, fun _ hc => Nat.isDigit_of_mem_toDigits (by decide) (by decide) hc⟩

theorem isDigit_of_mem_replicate {n : Nat} {c : Char} (h : c ∈ List.replicate n '0') :
    c.isDigit = true := by
  rw [List.eq_of_mem_replicate h]
  rfl

theorem numeral_toText_whole {d : Decimal} (h : 0 ≤ d.exponent) :
    Numeral d.toText ⟨d.num, 0⟩ := by
  have htext : d.toText = Nat.toDigits 10 d.digits ++ List.replicate d.exponent.toNat '0' := by
    rw [Decimal.toText, if_pos h]
  have hdigits : Digits d.toText := by
    rw [htext]
    refine ⟨by simp [Nat.toDigits_ne_nil], fun c hc => ?_⟩
    rcases List.mem_append.1 hc with h | h
    · exact (digits_toDigits _).isDigit c h
    · exact isDigit_of_mem_replicate h
  have hvalue : Nat.ofDigitChars 10 d.toText 0 = d.num := by
    rw [htext, Nat.ofDigitChars_append, Nat.ofDigitChars_ten_toDigits,
      Nat.ofDigitChars_replicate_zero, Nat.mul_comm, Decimal.num]
    rfl
  rw [← hvalue]
  exact Numeral.whole hdigits

/-- A point put into digits, with `places` of them behind it. -/
theorem numeral_cut {cs : List Char} {places : Nat} (hcs : ∀ c ∈ cs, c.isDigit = true)
    (hplaces : 0 < places) (hlength : places < cs.length) :
    Numeral (cs.take (cs.length - places) ++ '.' :: cs.drop (cs.length - places))
      ⟨Nat.ofDigitChars 10 cs 0, -places⟩ := by
  have hcut := List.take_append_drop (cs.length - places) cs
  have hdrop : (cs.drop (cs.length - places)).length = places := by
    rw [List.length_drop]
    omega
  have hds : Digits (cs.take (cs.length - places)) := by
    refine ⟨List.ne_nil_of_length_pos ?_, fun c hc => hcs c (List.mem_of_mem_take hc)⟩
    rw [List.length_take]
    omega
  have hes : Digits (cs.drop (cs.length - places)) :=
    ⟨List.ne_nil_of_length_pos (by omega), fun c hc => hcs c (List.mem_of_mem_drop hc)⟩
  have hnumeral := Numeral.point hds hes
  rwa [hcut, hdrop] at hnumeral

theorem numeral_toText_point {d : Decimal} (h : d.exponent < 0) : Numeral d.toText d := by
  have hplaces : 0 < (-d.exponent).toNat := by omega
  have hexponent : -((-d.exponent).toNat : Int) = d.exponent := by omega
  obtain ⟨zeros, hzeros⟩ : ∃ zeros, zeros =
    List.replicate ((-d.exponent).toNat + 1 - (Nat.toDigits 10 d.digits).length) '0' := ⟨_, rfl⟩
  have hlength : (-d.exponent).toNat < (zeros ++ Nat.toDigits 10 d.digits).length := by
    rw [List.length_append, hzeros, List.length_replicate]
    omega
  have hvalue : Nat.ofDigitChars 10 (zeros ++ Nat.toDigits 10 d.digits) 0 = d.digits := by
    rw [hzeros, Nat.ofDigitChars_append, Nat.ofDigitChars_replicate_zero, Nat.mul_zero,
      Nat.ofDigitChars_ten_toDigits]
  have hdigits : ∀ c ∈ zeros ++ Nat.toDigits 10 d.digits, c.isDigit = true := by
    intro c hc
    rcases List.mem_append.1 hc with h | h
    · exact isDigit_of_mem_replicate (hzeros ▸ h)
    · exact (digits_toDigits _).isDigit c h
  have hnumeral := numeral_cut hdigits hplaces hlength
  rw [hvalue, hexponent] at hnumeral
  rw [Decimal.toText, if_neg (by omega)]
  dsimp only
  rwa [← hzeros]

/-- Printing a decimal keeps the double nearest to it. -/
theorem numeral_toText (d : Decimal) : ∃ e, Numeral d.toText e ∧ e.rank = d.rank := by
  by_cases h : 0 ≤ d.exponent
  · refine ⟨⟨d.num, 0⟩, numeral_toText_whole h, ?_⟩
    have hnum : (⟨d.num, 0⟩ : Decimal).num = d.num := Nat.mul_one _
    have hden : (⟨d.num, 0⟩ : Decimal).den = d.den := by
      rw [Decimal.den, Decimal.den]
      congr 1
      dsimp only
      omega
    rw [rank_eq, rank_eq, hnum, hden]
  · exact ⟨d, numeral_toText_point (by omega), rfl⟩

end Text

section Seconds

theorem ofRank_of_lt (negative : Bool) (rank : Fin rankBound) :
    Binary64.ofRank negative rank.val = .finite negative rank := by
  rw [Binary64.ofRank, dif_pos rank.isLt]

/-- The seconds of a period are read back from their text. -/
theorem numeral_secondsText {seconds : Binary64} (h : InHour seconds) :
    ∃ d, Numeral (secondsText seconds).toList d ∧ d.toBinary64 false = seconds := by
  obtain ⟨rank, rfl, -, hle⟩ := h
  rw [secondsText]
  split_ifs with hwhole
  · have hdvd : unitsInOne ∣ units rank :=
      Nat.dvd_of_mod_eq_zero (by simpa [Binary64.isWhole] using hwhole)
    have hsmall : units rank / unitsInOne ≤ 3600 := Nat.div_le_of_le_mul (by rwa [Nat.mul_comm])
    have hcap : 3600 ≤ Nat.pow 2 64 - 1 := by decide
    have hfloor : (Binary64.finite false rank).floorWithin (Nat.pow 2 64 - 1) =
        units rank / unitsInOne := by
      simp only [Binary64.floorWithin, Bool.false_eq_true, if_false]
      exact Nat.min_eq_right (Nat.le_trans hsmall hcap)
    generalize hn : units rank / unitsInOne = n at *
    rw [hfloor, Nat.toString_eq_ofList_toDigits, String.toList_ofList]
    have hnumeral := Numeral.whole (digits_toDigits n)
    rw [Nat.ofDigitChars_ten_toDigits] at hnumeral
    refine ⟨_, hnumeral, ?_⟩
    have hnum : (⟨n, 0⟩ : Decimal).num = n := Nat.mul_one _
    have hden : (⟨n, 0⟩ : Decimal).den = 1 := rfl
    have hunits : n * unitsInOne = units rank := by rw [← hn, Nat.div_mul_cancel hdvd]
    rw [Decimal.toBinary64, rank_eq, hnum, hden, hunits, nearestRank_units]
    exact ofRank_of_lt false rank
  · obtain ⟨d, hd, hrank⟩ := numeral_toText (shortestDecimal .up rank)
    refine ⟨d, by simpa [Binary64.toText, signText] using hd, ?_⟩
    rw [Decimal.toBinary64, hrank, rank_shortestDecimal]
    exact ofRank_of_lt false rank

end Seconds

end ChartLight
