import ChartLight.Proofs.Spelling
import ChartLight.Proofs.WaitOrder

/-! What a written period comes to. The double that a decimal names is the nearest there is, and a numeral
is read as the decimal that is written, with one exception: a point before its first digit is taken for
the point of an abbreviation, and what is read is the number behind it. -/

namespace ChartLight

open Number Text

section Nearest

namespace Number

/-- How far a magnitude is from a decimal, in units of the denominator. -/
def Decimal.distance (d : Decimal) (rank : Nat) : Nat :=
  Nat.dist (units rank * d.den) (d.num * unitsInOne)

/-- No double is nearer to a decimal, and another that is as near leaves it the even rank. -/
structure Decimal.Nearest (d : Decimal) (rank : Fin rankBound) : Prop where
  le : ∀ other : Fin rankBound, d.distance rank ≤ d.distance other
  even : ∀ other : Fin rankBound, other ≠ rank → d.distance other = d.distance rank →
    rank.val % 2 = 0

end Number

variable {n d : Nat}

/-- A rounded quotient is nearest among the whole ones, and even if it is not alone in that. -/
theorem roundEven_nearest (hd : 0 < d) (n k : Nat) :
    Nat.dist (roundEven n d * d) n ≤ Nat.dist (k * d) n ∧
      (k ≠ roundEven n d → Nat.dist (k * d) n = Nat.dist (roundEven n d * d) n →
        roundEven n d % 2 = 0) := by
  have hdivide := Nat.div_add_mod n d
  have hrest := Nat.mod_lt n hd
  rw [Nat.mul_comm] at hdivide
  -- a whole multiple lies below the quotient, on it, just above it, or beyond that
  have hplace : (k < n / d ∧ k * d + d ≤ n / d * d) ∨ k = n / d ∨ k = n / d + 1 ∨
      (n / d + 1 < k ∧ n / d * d + d + d ≤ k * d) := by
    rcases Nat.lt_trichotomy k (n / d) with hlt | heq | hgt
    · have hle : (k + 1) * d ≤ n / d * d := Nat.mul_le_mul_right d hlt
      rw [Nat.add_one_mul] at hle
      exact Or.inl ⟨hlt, hle⟩
    · exact Or.inr (Or.inl heq)
    · rcases Nat.lt_or_eq_of_le (Nat.succ_le_of_lt hgt) with hlt | heq
      · have hle : (n / d + 1 + 1) * d ≤ k * d := Nat.mul_le_mul_right d hlt
        rw [Nat.add_one_mul, Nat.add_one_mul] at hle
        exact Or.inr (Or.inr (Or.inr ⟨hlt, hle⟩))
      · exact Or.inr (Or.inr (Or.inl heq.symm))
  have habove : (n / d + 1) * d = n / d * d + d := Nat.add_one_mul _ _
  have hround : (roundEven n d = n / d ∧ 2 * (n % d) ≤ d ∧ (2 * (n % d) = d → n / d % 2 = 0)) ∨
      (roundEven n d = n / d + 1 ∧ d ≤ 2 * (n % d) ∧ (2 * (n % d) = d → n / d % 2 = 1)) := by
    unfold roundEven
    dsimp only
    split_ifs <;> omega
  unfold Nat.dist
  rcases hround with ⟨hround, hhalf, htie⟩ | ⟨hround, hhalf, htie⟩
  all_goals
    rw [hround]
    rcases hplace with ⟨hk, hle⟩ | rfl | rfl | ⟨hk, hle⟩ <;> omega

/-- A magnitude is a whole number of steps of a scale, or lies below the 53 places of that scale. -/
theorem units_cases (rank scale : Nat) :
    (∃ k, units rank = k * 2 ^ scale) ∨ (scale ≠ 0 ∧ units rank < 2 ^ 52 * 2 ^ scale) := by
  have hplaces : rank % 2 ^ 52 < 2 ^ 52 := Nat.mod_lt _ (Nat.two_pow_pos _)
  rw [units_eq]
  by_cases hscale : scale = 0
  · exact Or.inl ⟨_, by rw [hscale, Nat.pow_zero, Nat.mul_one]⟩
  · split_ifs with hsmall
    · have hone : 2 ^ 52 * 1 ≤ 2 ^ 52 * 2 ^ scale := Nat.mul_le_mul_left _ Nat.one_le_two_pow
      exact Or.inr ⟨hscale, by omega⟩
    · rcases Nat.lt_or_ge (rank / 2 ^ 52 - 1) scale with hlt | hge
      · right
        refine ⟨hscale, ?_⟩
        generalize rank / 2 ^ 52 - 1 = places at *
        calc (2 ^ 52 + rank % 2 ^ 52) * 2 ^ places
          _ < 2 ^ 53 * 2 ^ places := Nat.mul_lt_mul_of_pos_right (by omega) (Nat.two_pow_pos _)
          _ = 2 ^ 52 * 2 ^ (places + 1) := by rw [Nat.pow_succ 2 places]; omega
          _ ≤ 2 ^ 52 * 2 ^ scale := Nat.mul_le_mul_left _ (Nat.pow_le_pow_right Nat.two_pos hlt)
      · left
        refine ⟨(2 ^ 52 + rank % 2 ^ 52) * 2 ^ (rank / 2 ^ 52 - 1 - scale), ?_⟩
        rw [Nat.mul_assoc, ← Nat.pow_add, Nat.sub_add_cancel hge]

theorem units_injective {x y : Nat} (h : units x = units y) : x = y :=
  Nat.le_antisymm (units_le_iff.1 (Nat.le_of_eq h)) (units_le_iff.1 (Nat.le_of_eq h.symm))

/-- The rank that rounding gives is the nearest. A magnitude between the steps of its scale lies below
them all, and so farther away. -/
theorem nearestRank_nearest (hd : 0 < d) (n rank : Nat) :
    Nat.dist (units (nearestRank n d) * d) n ≤ Nat.dist (units rank * d) n ∧
      (rank ≠ nearestRank n d →
        Nat.dist (units rank * d) n = Nat.dist (units (nearestRank n d) * d) n →
        nearestRank n d % 2 = 0) := by
  have hunits := units_nearestRank n d
  have heq := nearestRank_eq n d
  have hfull := (scaled_quotient n d).2
  generalize (n / d).log2 - 52 = scale at *
  have hstep : 0 < d * 2 ^ scale := Nat.mul_pos hd (Nat.two_pow_pos _)
  have hnear : units (nearestRank n d) * d = roundEven n (d * 2 ^ scale) * (d * 2 ^ scale) := by
    rw [hunits, Nat.mul_assoc, Nat.mul_comm d]
  rcases units_cases rank scale with ⟨k, hk⟩ | ⟨hscale, hlow⟩
  · have hother : units rank * d = k * (d * 2 ^ scale) := by
      rw [hk, Nat.mul_assoc, Nat.mul_comm d]
    obtain ⟨hle, htie⟩ := roundEven_nearest hstep n k
    rw [hnear, hother]
    refine ⟨hle, fun hne hsame => ?_⟩
    have hk' : k ≠ roundEven n (d * 2 ^ scale) := by
      rintro rfl
      exact hne (units_injective (hk.trans hunits.symm))
    have heven := htie hk' hsame
    omega
  · have hplaces : 2 ^ 52 ≤ n / (d * 2 ^ scale) := hfull.resolve_left hscale
    have hbelow : 2 ^ 52 * (d * 2 ^ scale) ≤ n := (Nat.le_div_iff_mul_le hstep).1 hplaces
    have hless : units rank * d < 2 ^ 52 * (d * 2 ^ scale) := by
      have hmul := Nat.mul_lt_mul_of_pos_right hlow hd
      rwa [Nat.mul_assoc, Nat.mul_comm (2 ^ scale)] at hmul
    obtain ⟨hle, -⟩ := roundEven_nearest hstep n (2 ^ 52)
    rw [hnear]
    generalize roundEven n (d * 2 ^ scale) * (d * 2 ^ scale) = near at *
    generalize 2 ^ 52 * (d * 2 ^ scale) = first at *
    unfold Nat.dist at *
    omega

theorem Number.Decimal.den_pos (d : Decimal) : 0 < d.den := Nat.pow_pos (by decide)

/-- The double that a decimal names is the nearest. -/
theorem Number.Decimal.nearest_of_rank_eq {d : Decimal} {rank : Fin rankBound} (h : d.rank = rank) :
    d.Nearest rank := by
  have hnear := nearestRank_nearest d.den_pos (d.num * unitsInOne)
  rw [← rank_eq, h] at hnear
  exact ⟨fun other => (hnear other).1, fun other hne hsame =>
    (hnear other).2 (fun heq => hne (Fin.ext heq)) hsame⟩

end Nearest

section Numerals

/-- A numeral as one may write it, with at most one point anywhere in it, and the decimal it stands for. -/
inductive WrittenNumeral : List Char → Decimal → Prop
  | whole {ds : List Char} (hds : Digits ds) : WrittenNumeral ds ⟨Nat.ofDigitChars 10 ds 0, 0⟩
  | point {ds es : List Char} (hdigits : Digits (ds ++ es)) :
      WrittenNumeral (ds ++ '.' :: es) ⟨Nat.ofDigitChars 10 (ds ++ es) 0, -es.length⟩

/-- The decimal that is read for a numeral: without a point that comes first. -/
def Number.Decimal.asRead (d : Decimal) (numeral : List Char) : Decimal :=
  if '.' ∈ numeral.head? then ⟨d.digits, 0⟩ else d

variable {h n : List Char} {d : Decimal}

theorem WrittenNumeral.inNumeral (hn : WrittenNumeral n d) : ∀ c ∈ n, inNumeral c = true := by
  cases hn with
  | whole hds => exact hds.inNumeral
  | point hdigits =>
    intro c hc
    rcases List.mem_append.1 hc with hc | hc
    · exact hdigits.inNumeral c (List.mem_append_left _ hc)
    · rcases List.mem_cons.1 hc with rfl | hc
      · rfl
      · exact hdigits.inNumeral c (List.mem_append_right _ hc)

/-- Of a written numeral a point that comes first or last is dropped. -/
theorem WrittenNumeral.dropPoints_eq (hn : WrittenNumeral n d) :
    ∃ numeral, Numeral numeral (d.asRead n) ∧
      dropPoints false (n ++ ['S']) = numeral ++ ['S'] := by
  unfold Number.Decimal.asRead
  cases hn with
  | whole hds =>
    have hfirst : '.' ∉ n.head? := fun h => hds.point_not_mem (List.mem_of_head? h)
    rw [if_neg hfirst]
    exact ⟨n, Numeral.whole hds, dropPoints_numeral (Numeral.whole hds) false⟩
  | @point ds es hdigits =>
    by_cases hds : ds = []
    · subst hds
      have hfirst : '.' ∈ ([] ++ '.' :: es).head? := rfl
      rw [if_pos hfirst]
      exact ⟨es, Numeral.whole hdigits, dropPoints_numeral (Numeral.whole hdigits) false⟩
    · have hwhole : Digits ds := ⟨hds, fun c hc => hdigits.isDigit c (List.mem_append_left _ hc)⟩
      have hfirst : '.' ∉ (ds ++ '.' :: es).head? := by
        rw [List.head?_append_of_ne_nil _ hds]
        exact fun h => hwhole.point_not_mem (List.mem_of_head? h)
      rw [if_neg hfirst]
      by_cases hes : es = []
      · subst hes
        refine ⟨ds, ?_, ?_⟩
        · simpa using Numeral.whole hwhole
        · rw [List.append_assoc, dropPoints_append_of_not_mem hwhole.point_not_mem,
            hwhole.getLast?_isDigit]
          rfl
      · have hpoint : Numeral (ds ++ '.' :: es) _ := Numeral.point hwhole
          ⟨hes, fun c hc => hdigits.isDigit c (List.mem_append_right _ hc)⟩
        exact ⟨_, hpoint, dropPoints_numeral hpoint false⟩

/-- White space before a part keeps it apart from what stands in front, which trimming may take away. -/
theorem trim_append_of_blank {front rest : List Char} {c : Char} (hc : isBlank c = true)
    (hne : rest ≠ []) (hrest : Tight rest) :
    ∃ head, trim (front ++ [c] ++ rest) = head ++ rest ∧ ∀ e ∈ head.getLast?, isBlank e = true := by
  obtain ⟨a, ha, hfront⟩ := trimStart_split (front ++ [c])
  have hfirst : ∀ e ∈ (trimStart (front ++ [c])).head?, isBlank e = false := head_trimStart
  refine ⟨trimStart (front ++ [c]), ?_, fun e he => ?_⟩
  · generalize trimStart (front ++ [c]) = head at *
    have htight : Tight (head ++ rest) := by
      constructor
      · intro e he
        exact (head?_append_cases he).elim (hfirst e) (hrest.head e)
      · rw [List.getLast?_append_of_ne_nil _ hne]
        exact hrest.last
    have htrim := trim_append_append ha htight Blank.nil
    rwa [List.append_nil, ← List.append_assoc, ← hfront] at htrim
  · have hmem : e ∈ (front ++ [c]).getLast? := hfront ▸ mem_getLast?_append he
    rw [List.getLast?_concat] at hmem
    rwa [← Option.some.inj hmem]

/-- Behind white space, a numeral with its `s` is the end of the normal form. -/
theorem normalize_append_numeral (hh : ∃ c ∈ h.getLast?, isBlank c = true) (hn : WrittenNumeral n d) :
    ∃ head numeral, normalize (h ++ n ++ ['s']) = head ++ numeral ++ ['S'] ∧
      (∀ c ∈ head.getLast?, inNumeral c = false) ∧ Numeral numeral (d.asRead n) := by
  obtain ⟨c, hc, hblank⟩ := hh
  obtain ⟨h, rfl⟩ := List.getLast?_eq_some_iff.1 (Option.mem_def.1 hc)
  obtain ⟨numeral, hnumeral, hpoints⟩ := hn.dropPoints_eq
  have hspace : Blank [c] := List.forall_mem_singleton.2 hblank
  have hs : upperCase ['s'] = ['S'] := rfl
  have hlast : (upperCase h ++ [c]).getLast? = some c := List.getLast?_concat
  have hcut : '.' ∉ (upperCase h ++ [c]).getLast? := by
    rw [hlast]
    exact fun heq => hspace.point_not_mem (List.mem_singleton.2 (Option.some.inj heq).symm)
  have hdropped : dropPoints false (upperCase (h ++ [c] ++ n ++ ['s'])) =
      dropPoints false (upperCase h) ++ [c] ++ (numeral ++ ['S']) := by
    rw [upperCase_append, upperCase_append, upperCase_append, upperCase_blank hspace,
      upperCase_of_inNumeral hn.inNumeral, hs, List.append_assoc _ n, dropPoints_append (absurd · hcut),
      dropPoints_append_blank _ hspace, hlast, Option.map_some, Option.getD_some,
      hspace.isDigit_eq_false c List.mem_cons_self, hpoints]
  have htight : Tight (numeral ++ ['S']) := by
    constructor
    · intro e he
      rw [List.head?_append_of_ne_nil _ hnumeral.ne_nil] at he
      exact isBlank_eq_false_of_inNumeral (hnumeral.inNumeral e (List.mem_of_head? he))
    · intro e he
      rw [List.getLast?_concat] at he
      rw [← Option.some.inj he]
      rfl
  obtain ⟨head, htrim, hend⟩ := trim_append_of_blank hblank (by simp) htight
  refine ⟨head, numeral, ?_, fun e he => ?_, hnumeral⟩
  · rw [normalize_eq, hdropped, htrim, List.append_assoc]
  · by_contra hin
    have hnot := isBlank_eq_false_of_inNumeral (by simpa using hin)
    rw [hend e he] at hnot
    cases hnot

end Numerals

section Reading

variable {head numeral rest : List Char} {d : Decimal} {period : Option Binary64}

/-- What is taken for the period is the numeral before the final `S`. -/
theorem period_of_takePeriod (hlongest : ∀ c ∈ head.getLast?, inNumeral c = false)
    (hnumeral : Numeral numeral d) (h : takePeriod (head ++ numeral ++ ['S']) = .ok (rest, period)) :
    period = some (d.toBinary64 false) ∧ InHour (d.toBinary64 false) := by
  have hrun := takePeriod_run hlongest hnumeral.ne_nil hnumeral.inNumeral Blank.nil
  rw [List.append_nil, h] at hrun
  obtain ⟨seconds, hseconds, heq⟩ := map_eq_ok_iff.1 hrun.symm
  obtain ⟨decimal, hdecimal, rfl, hrange⟩ := (readSeconds_eq_ok_iff _ _).1 hseconds
  rw [ofPoint?_of_numeral hnumeral] at hdecimal
  obtain rfl := Option.some.inj hdecimal
  exact ⟨(Prod.mk.inj heq).2.symm, hrange⟩

/-- A decimal that names a number of seconds names a rank. -/
theorem exists_rank_of_inHour (h : InHour (d.toBinary64 false)) :
    ∃ rank : Fin rankBound, d.toBinary64 false = .finite false rank ∧ d.rank = rank ∧
      0 < units rank := by
  obtain ⟨rank, hrank, hpos, -⟩ := h
  refine ⟨rank, hrank, ?_, hpos⟩
  unfold Decimal.toBinary64 Binary64.ofRank at hrank
  split_ifs at hrank with hlt
  rw [← (Binary64.finite.inj hrank).2]

end Reading

section Misread

variable {digits places : Nat} {rank : Fin rankBound}

/-- Zero is nearer to a decimal with places than the number of all its digits. -/
theorem not_nearest_of_places (hdigits : 0 < digits) (hplaces : 0 < places)
    (h : (⟨digits, 0⟩ : Decimal).rank = rank) : ¬(⟨digits, -places⟩ : Decimal).Nearest rank := by
  intro hnearest
  have hunits : units 0 = 0 := rfl
  have hnum : (⟨digits, -places⟩ : Decimal).num = digits := by
    rw [Decimal.num, Int.toNat_neg_natCast]
    exact Nat.mul_one _
  have hden : (⟨digits, -places⟩ : Decimal).den = 10 ^ places := by
    rw [Decimal.den, Int.neg_neg, Int.toNat_natCast]
    rfl
  have hrank : nearestRank (digits * unitsInOne) 1 = rank := by
    rw [← h, rank_eq]
    have hnum : (⟨digits, 0⟩ : Decimal).num = digits := Nat.mul_one _
    rw [hnum]
    rfl
  have hten : 10 ^ 1 ≤ 10 ^ places := Nat.pow_le_pow_right (by decide) hplaces
  have hmul := Nat.mul_le_mul_left (units rank) hten
  have hone : unitsInOne ≤ digits * unitsInOne := Nat.le_mul_of_pos_left _ hdigits
  have hlarge := unitsInOne_large.1
  have hnear := (units_nearestRank_near Nat.one_pos (digits * unitsInOne)).1
  have hle := hnearest.le ⟨0, by decide⟩
  rw [hrank] at hnear
  simp only [Decimal.distance, hnum, hden, hunits, Nat.dist] at hle
  generalize digits * unitsInOne = value at *
  generalize units rank * 10 ^ places = scaled at *
  omega

/-- The number of the digits is not zero where it is read as a period. -/
theorem digits_pos_of_inHour (h : InHour ((⟨digits, 0⟩ : Decimal).toBinary64 false)) : 0 < digits := by
  rw [Nat.pos_iff_ne_zero]
  rintro rfl
  obtain ⟨rank, -, hrank, hpos⟩ := exists_rank_of_inHour h
  have hzero : (⟨0, 0⟩ : Decimal).rank = 0 := by
    have hnum : (⟨0, 0⟩ : Decimal).num = 0 := rfl
    have hden : (⟨0, 0⟩ : Decimal).den = 1 := rfl
    rw [rank_eq, hnum, hden, Nat.zero_mul]
    exact nearestRank_units 0
  rw [← hrank, hzero] at hpos
  exact Nat.lt_irrefl 0 hpos

theorem WrittenNumeral.exponent_of_point {n : List Char} {d : Decimal} (hn : WrittenNumeral n d)
    (hpoint : '.' ∈ n.head?) : ∃ places : Nat, 0 < places ∧ d.exponent = -places := by
  cases hn with
  | whole hds => exact absurd (List.mem_of_head? hpoint) hds.point_not_mem
  | @point ds es hdigits =>
    cases ds with
    | nil => exact ⟨es.length, List.length_pos_iff.2 hdigits.ne_nil, rfl⟩
    | cons c ds =>
      obtain rfl := Option.some.inj hpoint
      exact absurd List.mem_cons_self hdigits.point_not_mem

end Misread

namespace Characteristic

/-- A numeral behind white space is read as the double nearest to it, unless a point comes first. Then the
number behind the point is read, which is never the nearest. -/
theorem written_period_iff {h n : String} {d : Decimal} {defaultPeriod : Binary64}
    {light : Characteristic} (hblank : ∃ c ∈ h.toList.getLast?, isBlank c = true)
    (hn : WrittenNumeral n.toList d) (hread : readWith defaultPeriod (h ++ n ++ "s") = .ok light) :
    light.period = (d.asRead n.toList).toBinary64 false ∧
      ((∃ rank, light.period = .finite false rank ∧ d.Nearest rank) ↔ '.' ∉ n.toList.head?) := by
  obtain ⟨-, r, hwritten, rfl⟩ := readWith_eq_ok_iff.1 hread
  have htext : (h ++ n ++ "s").toList = h.toList ++ n.toList ++ ['s'] := by
    simp only [String.toList_append]
    rfl
  obtain ⟨head, numeral, hnormal, hlongest, hnumeral⟩ := normalize_append_numeral hblank hn
  rw [htext, hnormal] at hwritten
  obtain ⟨rest, -, -, -, htake, -⟩ := ofNormal_eq_ok_iff.1 (ofNormal_complete hwritten)
  obtain ⟨hperiod, hrange⟩ := period_of_takePeriod hlongest hnumeral htake
  have hlight : (r.characteristic defaultPeriod).period = (d.asRead n.toList).toBinary64 false := by
    rw [characteristic_period, hperiod, Option.getD_some]
  obtain ⟨rank, hfinite, hrank, -⟩ := exists_rank_of_inHour hrange
  refine ⟨hlight, ?_⟩
  rw [hlight, hfinite]
  unfold Decimal.asRead at hrange hrank
  constructor
  · rintro ⟨other, hother, hnearest⟩ hpoint
    rw [← (Binary64.finite.inj hother).2] at hnearest
    rw [if_pos hpoint] at hrange hrank
    obtain ⟨places, hplaces, hexponent⟩ := hn.exponent_of_point hpoint
    obtain ⟨digits, exponent⟩ := d
    subst hexponent
    exact not_nearest_of_places (digits_pos_of_inHour hrange) hplaces hrank hnearest
  · intro hpoint
    rw [if_neg hpoint] at hrank
    exact ⟨rank, rfl, Decimal.nearest_of_rank_eq hrank⟩

/-- The point between two digits and the places behind it are read, with a zero that adds nothing. -/
theorem written_period_iff_tenths :
    ∃ light, read "Fl 2.50s" = .ok light ∧
      ∃ rank, light.period = .finite false rank ∧ (⟨250, -2⟩ : Decimal).Nearest rank := by
  have hread : read ("Fl " ++ "2.50" ++ "s") =
      .ok { ofRhythm .flashing with period := Binary64.ofRatio false 5 2 } := by
    decide +kernel
  have hnumeral : WrittenNumeral "2.50".toList ⟨250, -2⟩ :=
    @WrittenNumeral.point ['2'] ['5', '0'] ⟨by decide, List.all_eq_true.1 (by decide)⟩
  have hblank : ∃ c ∈ "Fl ".toList.getLast?, isBlank c = true := ⟨' ', by decide, by decide⟩
  obtain ⟨-, hnearest⟩ := written_period_iff hblank hnumeral hread
  exact ⟨_, hread, hnearest.2 (by decide)⟩

/-- Behind white space `.5s` is five seconds. -/
theorem not_forall_written_period :
    ¬ ∀ (h n : String) (d : Decimal) (light : Characteristic),
      (∃ c ∈ h.toList.getLast?, isBlank c = true) → WrittenNumeral n.toList d →
      read (h ++ n ++ "s") = .ok light →
      ∃ rank, light.period = .finite false rank ∧ d.Nearest rank := by
  intro hall
  -- five seconds stay a variable, since no step but the reading may work out their rank
  obtain ⟨five, hfive, hread⟩ : ∃ five : Decimal, five = ⟨5, 0⟩ ∧ read ("Fl " ++ ".5" ++ "s") =
      .ok { ofRhythm .flashing with period := five.toBinary64 false } :=
    ⟨_, rfl, by decide +kernel⟩
  have hnumeral : WrittenNumeral ".5".toList ⟨5, -1⟩ :=
    @WrittenNumeral.point [] ['5'] ⟨by decide, List.all_eq_true.1 (by decide)⟩
  have hblank : ∃ c ∈ "Fl ".toList.getLast?, isBlank c = true := ⟨' ', by decide, by decide⟩
  obtain ⟨rank, hperiod, hnearest⟩ := hall _ _ _ _ hblank hnumeral hread
  obtain ⟨other, hother, hrank, -⟩ := exists_rank_of_inHour (readable_of_readWith hread).period
  rw [hother] at hperiod
  rw [(Binary64.finite.inj hperiod).2, hfive] at hrank
  exact not_nearest_of_places (Nat.succ_pos 4) Nat.one_pos hrank hnearest

end Characteristic

end ChartLight
