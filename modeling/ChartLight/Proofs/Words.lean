import ChartLight.Proofs.Clipping
import ChartLight.Proofs.Flashes
import ChartLight.Proofs.Totals

/-! The cycle of a light laid out in words of 64 bits, where every sum, difference and product is
checked: the layout ends without a cycle as soon as a result is below zero or too large for a word.
It gives the cycle and its times whenever the segments of the light add up to a word, and nothing
otherwise. Flashes never add up to more. Eclipses do, as they have no limit but that of their numbers. -/

namespace ChartLight

namespace Word

/-- An exact result, if it is a word. -/
def ofInt? (n : Int) : Option Nat := if 0 ≤ n ∧ n < 2 ^ 64 then some n.toNat else none

def add? (a b : Nat) : Option Nat := ofInt? (a + b)

def sub? (a b : Nat) : Option Nat := ofInt? (a - b)

def mul? (a b : Nat) : Option Nat := ofInt? (a * b)

/-- Words added up one after the other. -/
def sum? (ns : List Nat) : Option Nat := ns.foldlM add? 0

theorem ofInt?_natCast (n : Nat) : ofInt? n = if n < 2 ^ 64 then some n else none := by
  unfold ofInt?
  by_cases h : n < 2 ^ 64
  · rw [if_pos h, if_pos (by omega), Int.toNat_natCast]
  · rw [if_neg h, if_neg (by omega)]

theorem add?_eq (a b : Nat) : add? a b = if a + b < 2 ^ 64 then some (a + b) else none := by
  rw [add?, ← Nat.cast_add, ofInt?_natCast]

theorem mul?_eq (a b : Nat) : mul? a b = if a * b < 2 ^ 64 then some (a * b) else none := by
  rw [mul?, ← Nat.cast_mul, ofInt?_natCast]

theorem sub?_of_le {a b : Nat} (h : b ≤ a) (ha : a < 2 ^ 64) : sub? a b = some (a - b) := by
  rw [sub?, ← Nat.cast_sub h, ofInt?_natCast, if_pos (by omega)]

theorem foldlM_add? (ns : List Nat) {sum : Nat} (h : sum < 2 ^ 64) :
    ns.foldlM add? sum = if sum + total ns < 2 ^ 64 then some (sum + total ns) else none := by
  induction ns generalizing sum with
  | nil => rw [total, Nat.add_zero, if_pos h]; rfl
  | cons n ns ih =>
    rw [List.foldlM_cons, add?_eq, total, ← Nat.add_assoc]
    by_cases hn : sum + n < 2 ^ 64
    · rw [if_pos hn, ← ih hn]
      rfl
    · -- what is added to a sum that is too large cannot bring it back
      rw [if_neg hn, if_neg (by omega)]
      rfl

/-- No sum on the way is larger than the last, so only that one matters. -/
theorem sum?_eq (ns : List Nat) : sum? ns = if total ns < 2 ^ 64 then some (total ns) else none := by
  rw [sum?, foldlM_add? ns (by decide), Nat.zero_add]

theorem mapM_mul?_eq (ns : List Nat) (k : Nat) :
    ns.mapM (mul? · k) =
      if ∀ n ∈ ns, n * k < 2 ^ 64 then some (ns.map (· * k)) else none := by
  induction ns with
  | nil => simp
  | cons n ns ih =>
    rw [List.mapM_cons, ih, mul?_eq]
    simp only [List.forall_mem_cons]
    by_cases hn : n * k < 2 ^ 64
    · by_cases hns : ∀ m ∈ ns, m * k < 2 ^ 64
      · rw [if_pos hn, if_pos hns, if_pos ⟨hn, hns⟩]
        rfl
      · rw [if_pos hn, if_neg hns, if_neg (mt And.right hns)]
        rfl
    · rw [if_neg hn, if_neg (mt And.left hn)]
      rfl

end Word

theorem le_total_of_mem {ns : List Nat} {n : Nat} (h : n ∈ ns) : n ≤ total ns := by
  induction ns with
  | nil => cases h
  | cons m ns ih =>
    rw [total]
    rcases List.mem_cons.1 h with rfl | h
    · exact Nat.le_add_right _ _
    · exact Nat.le_trans (ih h) (Nat.le_add_left _ _)

/-- Products and their sum are words just if the sum is. -/
theorem Word.sum?_mul (ns : List Nat) (k : Nat) :
    (ns.mapM (mul? · k)).bind sum? =
      if total ns * k < 2 ^ 64 then some (total ns * k) else none := by
  rw [mapM_mul?_eq]
  by_cases h : ∀ n ∈ ns, n * k < 2 ^ 64
  · rw [if_pos h, Option.bind_some, sum?_eq, total_map_mul]
  · rw [if_neg h, Option.bind_none, if_neg]
    intro htotal
    exact h fun n hn => Nat.lt_of_le_of_lt (Nat.mul_le_mul_right k (le_total_of_mem hn)) htotal

namespace Lamp

/-- An occulting light in words. -/
def occultingInWords? (lamp : Lamp) (group : Group) (periodMs : Nat) : Option (List Segment) :=
  match group with
  | .eclipses (e :: es) => do
    let seconds := e :: es
    let dark ← (seconds.mapM (Word.mul? · 1000)).bind Word.sum?
    let bright := periodMs - dark
    let share := bright / seconds.length
    let lastShare ← Word.add? share (bright % seconds.length)
    return lamp.eclipses share lastShare seconds
  | _ => do
    let lit ← Word.sub? periodMs (periodMs / 4)
    let dark ← Word.sub? periodMs lit
    return [lamp.on lit, lamp.off dark]

theorem occultingInWords?_eq (lamp : Lamp) (group : Group) {periodMs : Nat}
    (hperiod : periodMs < 2 ^ 64) :
    lamp.occultingInWords? group periodMs =
      if totalMs (lamp.occulting group periodMs) < 2 ^ 64 then some (lamp.occulting group periodMs)
      else none := by
  unfold occultingInWords?
  split
  · next e es =>
    dsimp only
    rw [Word.sum?_mul, totalMs_occulting_eclipses]
    by_cases hdark : total (e :: es) * 1000 < 2 ^ 64
    · have hshare := @share_add_rest_le (periodMs - total (e :: es) * 1000) (e :: es).length
        (Nat.succ_pos _)
      rw [if_pos hdark, if_pos (by omega), Option.bind_eq_bind, Option.bind_some, Word.add?_eq,
        if_pos (by omega)]
      rfl
    · rw [if_neg hdark, if_neg (by omega)]
      rfl
  · next hgroup =>
    have hplain : lamp.occulting group periodMs =
        [lamp.on (periodMs - periodMs / 4), lamp.off (periodMs / 4)] := by
      unfold occulting
      split
      · next e es => exact absurd rfl (hgroup e es)
      · rfl
    rw [Word.sub?_of_le (Nat.div_le_self _ _) hperiod, Option.bind_eq_bind, Option.bind_some,
      Word.sub?_of_le (Nat.sub_le _ _) hperiod, hplain, if_pos, Nat.sub_sub_self (Nat.div_le_self _ _)]
    · rfl
    · simp only [totalMs_cons, totalMs_nil, durationMs_on, durationMs_off]
      omega

end Lamp

/-- The first `limit` milliseconds of some segments in words, where `elapsedMs` are over. -/
def clipInWords? (limit elapsedMs : Nat) : List Segment → Option (List Segment)
  | [] => some []
  | segment :: rest =>
    if limit ≤ elapsedMs then some []
    else do
      let leftMs ← Word.sub? limit elapsedMs
      let durationMs := min segment.durationMs leftMs
      let elapsedMs ← Word.add? elapsedMs durationMs
      let rest ← clipInWords? limit elapsedMs rest
      return { segment with durationMs } :: rest

theorem clipInWords?_eq {limit elapsedMs : Nat} (hle : elapsedMs ≤ limit) (hlimit : limit < 2 ^ 64)
    (l : List Segment) : clipInWords? limit elapsedMs l = some (clip (limit - elapsedMs) l) := by
  induction l generalizing elapsedMs with
  | nil => rfl
  | cons s l ih =>
    unfold clipInWords? clip
    by_cases hover : limit ≤ elapsedMs
    · rw [if_pos hover, if_pos (Nat.sub_eq_zero_of_le hover)]
    · rw [if_neg hover, if_neg (by omega), Word.sub?_of_le hle hlimit, Option.bind_eq_bind,
        Option.bind_some]
      dsimp only
      rw [Word.add?_eq, if_pos (by omega), Option.bind_some, ih (by omega)]
      split_ifs with hshort
      · -- the limit falls into this segment, and nothing is left of it for the rest
        rw [Nat.min_eq_right (Nat.le_of_lt hshort), Nat.add_sub_cancel' hle, Nat.sub_self]
        cases l <;> simp [clip]
      · rw [Nat.min_eq_left (Nat.le_of_not_lt hshort), Nat.sub_add_eq]
        rfl

namespace Characteristic

def quickCountInWords? (light : Characteristic) (rateMs : Nat) : Option Nat :=
  match light.group.flashCount? with
  | some n => some n
  | none => do
    let window ← if light.rhythm.isInterrupted then Word.sub? light.periodMs (light.periodMs / 4)
      else some light.periodMs
    return max 1 (window / rateMs)

/-- A quick light in words. -/
def quickInWords? (light : Characteristic) (rateMs : Nat) : Option (List Segment) := do
  let count ← light.quickCountInWords? rateMs
  let dark ← Word.sub? rateMs (rateMs / 2)
  return (List.replicate count [light.lamp.on (rateMs / 2), light.lamp.off dark]).flatten

/-- The segments of the rhythm in words. Where all lengths are given there is nothing to work out. -/
def rhythmInWords? (light : Characteristic) : Option (List Segment) :=
  let lamp := light.lamp
  let period := light.periodMs
  match light.group with
  | .composite _ => some light.rhythmPattern
  | group =>
    match light.rhythm with
    | .isophase => do
      let dark ← Word.sub? period (period / 2)
      return [lamp.on (period / 2), lamp.off dark]
    | .occulting => lamp.occultingInWords? group period
    | .alternating =>
      match light.altColor with
      | some altColor => do
        let rest ← Word.sub? period (period / 2)
        return [lamp.on (period / 2), ⟨rest, true, altColor⟩]
      | none => some light.rhythmPattern
    | rhythm =>
      match rhythm.quickRate? with
      | some rate => light.quickInWords? rate
      | none => some light.rhythmPattern

/-- A pattern of some length in words, fitted to the period. -/
def fitInWords? (light : Characteristic) (overrun : Overrun) (pattern : List Segment) (total : Nat) :
    Option (List Segment) :=
  if total < light.periodMs then do
    let fill ← Word.sub? light.periodMs total
    return pattern ++ [light.lamp.off fill]
  else if light.periodMs < total then
    match overrun with
    | .extend => some pattern
    | .truncate => clipInWords? light.periodMs 0 pattern
  else some pattern

/-- The cycle in words, with the time it lasts and the time it is lit. -/
def cycleInWords? (light : Characteristic) (overrun : Overrun) : Option (Cycle × Nat × Nat) := do
  let rhythm ← light.rhythmInWords?
  let pattern := (rhythm ++ light.tailPattern).filter (0 < ·.durationMs)
  let total ← Word.sum? (pattern.map Segment.durationMs)
  let segments ← light.fitInWords? overrun pattern total
  let totalMs ← Word.sum? (segments.map Segment.durationMs)
  let litMs ← Word.sum? ((segments.filter (·.lit)).map Segment.durationMs)
  return (⟨light.periodMs, segments⟩, totalMs, litMs)

section Layout

variable (light : Characteristic)

theorem periodMs_lt_word : light.periodMs < 2 ^ 64 :=
  Nat.lt_of_le_of_lt light.periodMs_le (by decide)

theorem quickCountInWords?_eq (rate : Nat) :
    light.quickCountInWords? rate = some (light.quickCount rate) := by
  unfold quickCountInWords? quickCount
  cases light.group.flashCount? with
  | some n => rfl
  | none =>
    cases light.rhythm.isInterrupted with
    | true =>
      rw [if_pos rfl, if_pos rfl, Word.sub?_of_le (Nat.div_le_self _ _) light.periodMs_lt_word]
      rfl
    | false => rfl

theorem quickInWords?_eq {rate : Nat} (hrate : rate ≤ 1000) :
    light.quickInWords? rate = some (light.lamp.quickFlashes (light.quickCount rate) rate) := by
  rw [quickInWords?, quickCountInWords?_eq, Option.bind_eq_bind, Option.bind_some,
    Word.sub?_of_le (Nat.div_le_self _ _) (by omega)]
  rfl

/-- The rhythm is laid out as it is, unless it is eclipses that do not add up to a word. -/
theorem rhythmInWords?_cases :
    light.rhythmInWords? = some light.rhythmPattern ∨
      light.rhythmInWords? = none ∧ 2 ^ 64 ≤ totalMs light.rhythmPattern := by
  have hhalf := Word.sub?_of_le (Nat.div_le_self light.periodMs 2) light.periodMs_lt_word
  by_cases hcomposite : ∃ parts, light.group = .composite parts
  · obtain ⟨parts, hparts⟩ := hcomposite
    exact Or.inl (by rw [rhythmInWords?, hparts])
  · push Not at hcomposite
    unfold rhythmInWords?
    split
    · next parts hparts => exact absurd hparts (hcomposite parts)
    · dsimp only
      split
      · next hrhythm =>
        left
        rw [hhalf, rhythmPattern_isophase hcomposite hrhythm]
        rfl
      · next hrhythm =>
        rw [rhythmPattern_occulting hrhythm hcomposite,
          Lamp.occultingInWords?_eq _ _ light.periodMs_lt_word]
        split_ifs with hfits
        · exact Or.inl rfl
        · exact Or.inr ⟨rfl, Nat.le_of_not_lt hfits⟩
      · next hrhythm =>
        left
        split
        · next altColor halt =>
          rw [hhalf, rhythmPattern_alternating hcomposite hrhythm halt]
          rfl
        · rfl
      · left
        split
        · next rate hrate =>
          rw [light.quickInWords?_eq (quickRate?_le hrate), rhythmPattern_quick hcomposite hrate]
        · rfl

theorem fitInWords?_eq (overrun : Overrun) :
    light.fitInWords? overrun light.pattern (totalMs light.pattern) =
      some (light.cycle overrun).segments := by
  unfold fitInWords? cycle
  dsimp only
  split_ifs with hshort hlong
  · rw [Word.sub?_of_le (Nat.le_of_lt hshort) light.periodMs_lt_word]
    rfl
  · cases overrun with
    | extend => rfl
    | truncate => exact clipInWords?_eq (Nat.zero_le _) light.periodMs_lt_word _
  · cases overrun with
    | extend => rfl
    | truncate => rw [clip_of_totalMs_le light.pattern_pos (Nat.le_of_not_lt hlong)]

theorem cycle_totalMs_le (overrun : Overrun) :
    (light.cycle overrun).totalMs ≤ max light.periodMs (totalMs light.pattern) := by
  cases overrun with
  | extend => exact Nat.le_of_eq light.cycle_totalMs_extend
  | truncate => exact light.cycle_totalMs_truncate ▸ Nat.le_max_left _ _

/-- The layout in words is that of the light, as long as its segments add up to a word. -/
theorem cycleInWords?_eq (overrun : Overrun) :
    light.cycleInWords? overrun =
      if totalMs light.pattern < 2 ^ 64 then
        some (light.cycle overrun, (light.cycle overrun).totalMs, (light.cycle overrun).litMs)
      else none := by
  have hsum (l : List Segment) : Word.sum? (l.map Segment.durationMs) =
      if totalMs l < 2 ^ 64 then some (totalMs l) else none := Word.sum?_eq _
  have hpattern := light.totalMs_pattern
  rcases light.rhythmInWords?_cases with hrhythm | ⟨hrhythm, hlong⟩
  · have hfit : light.cycleInWords? overrun =
        (Word.sum? (light.pattern.map Segment.durationMs)).bind fun total => do
          let segments ← light.fitInWords? overrun light.pattern total
          let totalMs ← Word.sum? (segments.map Segment.durationMs)
          let litMs ← Word.sum? ((segments.filter (·.lit)).map Segment.durationMs)
          return (⟨light.periodMs, segments⟩, totalMs, litMs) := by
      rw [cycleInWords?, hrhythm]
      rfl
    rw [hfit, hsum]
    split_ifs with hword
    · have htotal : totalMs (light.cycle overrun).segments < 2 ^ 64 :=
        Nat.lt_of_le_of_lt (light.cycle_totalMs_le overrun)
          (Nat.max_lt.2 ⟨light.periodMs_lt_word, hword⟩)
      have hlit : totalMs ((light.cycle overrun).segments.filter (·.lit)) < 2 ^ 64 :=
        Nat.lt_of_le_of_lt (totalMs_le_of_sublist List.filter_sublist) htotal
      rw [Option.bind_some, light.fitInWords?_eq]
      simp only [Option.bind_eq_bind, Option.bind_some, hsum, if_pos htotal, if_pos hlit]
      rfl
    · rfl
  · rw [cycleInWords?, hrhythm, if_neg (by omega)]
    rfl

/-- Only a list of numbers can take a light beyond a word: parts of a group, by how many there are, or
eclipses, by what they add up to. -/
theorem list_of_word_le (h : 2 ^ 64 ≤ totalMs light.pattern) :
    (∃ parts, light.group = .composite parts ∧ 2 ^ 64 ≤ parts.length * 100500 + 2000) ∨
      light.rhythm = .occulting ∧
        ∃ seconds, light.group = .eclipses seconds ∧ 2 ^ 64 ≤ total seconds * 1000 + 2000 := by
  have htail := light.totalMs_tailPattern_le
  have hperiod := light.periodMs_le
  rw [totalMs_pattern] at h
  by_cases hcomposite : ∃ parts, light.group = .composite parts
  · obtain ⟨parts, hparts⟩ := hcomposite
    have hle := light.lamp.totalMs_composite_le parts
    rw [rhythmPattern_composite hparts] at h
    exact Or.inl ⟨parts, hparts, by omega⟩
  · push Not at hcomposite
    by_cases heclipses : light.rhythm = .occulting ∧ ∃ e es, light.group = .eclipses (e :: es)
    · obtain ⟨hrhythm, e, es, hgroup⟩ := heclipses
      rw [rhythmPattern_occulting hrhythm hcomposite, hgroup, totalMs_occulting_eclipses] at h
      exact Or.inr ⟨hrhythm, e :: es, hgroup, by omega⟩
    · push Not at heclipses
      have hle := light.totalMs_rhythmPattern_le hcomposite heclipses
      omega

theorem cycleInWords?_eq_none_of_eclipses {light : Characteristic} {seconds : List Nat}
    {overrun : Overrun} (hrhythm : light.rhythm = .occulting)
    (hgroup : light.group = .eclipses seconds) (h : 2 ^ 64 ≤ total seconds * 1000) :
    light.cycleInWords? overrun = none := by
  rw [cycleInWords?_eq, if_neg]
  rw [totalMs_pattern, rhythmPattern_occulting hrhythm (by simp [hgroup]), hgroup]
  cases seconds with
  | nil => simp [total] at h
  | cons e es =>
    rw [totalMs_occulting_eclipses]
    omega

end Layout

/-- A light can be laid out in words, with its own cycle as the outcome, just if its segments add up to
a word. Those of flashes do, with fewer than some 180 million million parts, and those of eclipses just
as far as their seconds do. -/
theorem laid_out_in_words_iff (light : Characteristic) (overrun : Overrun) :
    (light.cycleInWords? overrun = none ↔ 2 ^ 64 ≤ totalMs light.pattern) ∧
    (∀ result, light.cycleInWords? overrun = some result →
      result = (light.cycle overrun, (light.cycle overrun).totalMs, (light.cycle overrun).litMs)) ∧
    (2 ^ 64 ≤ totalMs light.pattern →
      (∃ parts, light.group = .composite parts ∧ 2 ^ 64 ≤ parts.length * 100500 + 2000) ∨
        light.rhythm = .occulting ∧
          ∃ seconds, light.group = .eclipses seconds ∧ 2 ^ 64 ≤ total seconds * 1000 + 2000) := by
  refine ⟨?_, fun result hresult => ?_, light.list_of_word_le⟩
  · rw [cycleInWords?_eq]
    split_ifs with hword
    · simpa using hword
    · simpa using hword
  · rw [cycleInWords?_eq] at hresult
    split_ifs at hresult
    exact (Option.some.inj hresult).symm

/-- Three eclipses of the greatest number of 32 bits last four centuries, and still are laid out. -/
theorem laid_out_in_words_centuries :
    let light : Characteristic :=
      { ofRhythm .occulting with group := .eclipses (List.replicate 3 4294967295) }
    ∃ result, light.cycleInWords? .extend = some result ∧ result.1 = light.cycle .extend ∧
      result.2.1 = 12884901885000 := by
  intro light
  obtain ⟨hnone, hresult, -⟩ := laid_out_in_words_iff light .extend
  have hword : totalMs light.pattern < 2 ^ 64 := by decide +kernel
  obtain ⟨result, h⟩ := Option.ne_none_iff_exists'.1 (mt hnone.1 (Nat.not_le.2 hword))
  have htotal : (light.cycle .extend).totalMs = 12884901885000 := by decide +kernel
  exact ⟨result, h, by rw [hresult result h], by rw [hresult result h, htotal]⟩

/-- Eclipses have no limit: from 4294968 of the greatest number of 32 bits on, their sum is no word. -/
theorem not_forall_laid_out_in_words :
    ¬ ∀ (light : Characteristic) (overrun : Overrun), (∀ n ∈ light.group.values, n < 2 ^ 32) →
      (light.cycleInWords? overrun).isSome := by
  intro hall
  -- the list stays a variable, since it is far too long to be looked at
  obtain ⟨seconds, hseconds⟩ : ∃ seconds, seconds = List.replicate 4294968 4294967295 := ⟨_, rfl⟩
  have hle : ∀ n ∈ seconds, n < 2 ^ 32 := by
    rw [hseconds]
    intro n hn
    rw [List.eq_of_mem_replicate hn]
    norm_num
  have htotal : 2 ^ 64 ≤ total seconds * 1000 := by
    rw [hseconds, total_replicate]
    norm_num
  have hlaid := hall { ofRhythm .occulting with group := .eclipses seconds } .extend hle
  rw [cycleInWords?_eq_none_of_eclipses rfl rfl htotal] at hlaid
  cases hlaid

end Characteristic

end ChartLight
