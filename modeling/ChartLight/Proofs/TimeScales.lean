import ChartLight.Proofs.Clipping
import ChartLight.Proofs.Lengths
import ChartLight.Proofs.Milliseconds
import ChartLight.Proofs.RoundTrip
import ChartLight.Proofs.Rounds
import ChartLight.Proofs.Validity
import ChartLight.Settings

/-! Which time scales can be played. Settings are accepted with any scale above zero, but a very small
one leaves no time to a segment of a millisecond, and a very large one makes the wait of an hour too
long to be timed. Waits keep the order of scales and durations, so these two segments decide for all
others, and each of them is all that a light shows which can be read. -/

namespace ChartLight

open Number

/-- The magnitude of a finite number, in units. -/
def Number.Binary64.magnitude : Binary64 → Nat
  | .finite _ rank => units rank
  | _ => 0

section Extremes

/-- A segment as short as any. -/
def Segment.blink : Segment := ⟨1, true, .white⟩

/-- A segment as long as any. -/
def Segment.hour : Segment := ⟨3600000, true, .white⟩

namespace Characteristic

/-- A light that is lit all the time. -/
def steady (period : Binary64) : Characteristic := { ofRhythm .fixed with period }

theorem steady_period (period : Binary64) : (steady period).period = period := rfl

theorem readable_steady {period : Binary64} (h : InHour period) : (steady period).Readable :=
  ⟨h, .single Rhythm.noConfusion⟩

theorem pattern_steady (period : Binary64) :
    (steady period).pattern = [⟨(steady period).periodMs, true, .white⟩] := by
  have hrhythm : (steady period).rhythmPattern = [⟨(steady period).periodMs, true, .white⟩] := rfl
  have htail : (steady period).tailPattern = [] := rfl
  have hpos := (steady period).periodMs_pos
  rw [pattern, hrhythm, htail, List.append_nil, List.filter_eq_self, List.forall_mem_singleton]
  exact decide_eq_true hpos

/-- It shows one segment, as long as its period. -/
theorem cycle_steady (period : Binary64) (overrun : Overrun) :
    ((steady period).cycle overrun).segments = [⟨(steady period).periodMs, true, .white⟩] := by
  have htotal : totalMs (steady period).pattern = (steady period).periodMs := by
    rw [pattern_steady, totalMs_cons, totalMs_nil, Nat.add_zero]
  have hextend : ((steady period).cycle .extend).segments = (steady period).pattern :=
    cycle_extend_of_le (Nat.le_of_eq htotal.symm)
  rw [← pattern_steady]
  cases overrun with
  | extend => exact hextend
  | truncate => rw [cycle_truncate_of_le _ (Nat.le_of_eq htotal), hextend]

end Characteristic

theorem exists_light_of_blink :
    ∃ light : Characteristic, light.Readable ∧
      ∀ overrun, (light.cycle overrun).segments = [.blink] := by
  have hperiod : InHour (Binary64.ofRatio false 1 1000) :=
    inHour_ofRatio (by decide) (by decide) (by decide)
  have hms : (Characteristic.steady (Binary64.ofRatio false 1 1000)).periodMs = 1 :=
    Characteristic.periodMs_of_thousandths (by decide) (by decide) (Characteristic.steady_period _)
  refine ⟨_, Characteristic.readable_steady hperiod, fun overrun => ?_⟩
  rw [Characteristic.cycle_steady, hms, Segment.blink]

theorem exists_light_of_hour :
    ∃ light : Characteristic, light.Readable ∧
      ∀ overrun, (light.cycle overrun).segments = [.hour] := by
  have hperiod : InHour (Binary64.ofNat 3600) := inHour_ofNat (by decide) (by decide)
  have hms : (Characteristic.steady (Binary64.ofNat 3600)).periodMs = 3600 * 1000 :=
    Characteristic.periodMs_of_seconds (by decide) (by decide) (Characteristic.steady_period _)
  refine ⟨_, Characteristic.readable_steady hperiod, fun overrun => ?_⟩
  rw [Characteristic.cycle_steady, hms, Segment.hour]

/-- Every segment of a light that can be read lies between the two. -/
theorem durationMs_of_mem_cycle {text : String} {defaultPeriod : Binary64} {light : Characteristic}
    (hread : Characteristic.readWith defaultPeriod text = .ok light) {overrun : Overrun}
    {segment : Segment} (h : segment ∈ (light.cycle overrun).segments) :
    Segment.blink.durationMs ≤ segment.durationMs ∧ segment.durationMs ≤ Segment.hour.durationMs := by
  have hvalid : light.fault? = none := (Characteristic.readable_of_readWith hread).fault?
  have hgroup := ((Characteristic.fault?_eq_none_iff_shape light).mp hvalid).2.1
  exact ⟨light.cycle_pos overrun segment h, Characteristic.length_le_of_mem_cycle hgroup h⟩

end Extremes

section Thresholds

/-- The scale at which the wait of a segment becomes another, and the double just below. -/
structure Threshold (segment : Segment) (scale : Binary64) (waitBelow waitAt : Option Nat) where
  below : Fin rankBound
  limit : Fin rankBound
  limit_eq : limit.val = below.val + 1
  scale_eq : scale = .finite false limit
  waitBelow_eq : waitNs? (.finite false below) segment = waitBelow
  waitAt_eq : waitNs? (.finite false limit) segment = waitAt

variable {s : Fin rankBound}

/-- What is true of some waits and of all shorter ones, is true of a segment below one scale and from
there on no more. -/
theorem Threshold.exists_wait_iff_lt {segment : Segment} {scale : Binary64}
    {waitBelow waitAt : Option Nat} (t : Threshold segment scale waitBelow waitAt)
    (hsegment : segment.durationMs ≤ 3600000) {Q : Nat → Prop}
    (hQ : ∀ shorter wait, shorter ≤ wait → Q wait → Q shorter)
    (hbelow : ∃ wait, waitBelow = some wait ∧ Q wait)
    (hlimit : ¬∃ wait, waitAt = some wait ∧ Q wait) (hs : 0 < units s) :
    (∃ wait, waitNs? (.finite false s) segment = some wait ∧ Q wait) ↔ units s < scale.magnitude := by
  have hmagnitude : scale.magnitude = units t.limit := congrArg Binary64.magnitude t.scale_eq
  have hnext := t.limit_eq
  rw [hmagnitude]
  rw [← t.waitBelow_eq] at hbelow
  rw [← t.waitAt_eq] at hlimit
  have hdown {u v : Fin rankBound} (hu : 0 < units u) (huv : units u ≤ units v) :
      (∃ wait, waitNs? (.finite false v) segment = some wait ∧ Q wait) →
        ∃ wait, waitNs? (.finite false u) segment = some wait ∧ Q wait := by
    rintro ⟨wait, hwait, hq⟩
    obtain ⟨shorter, hle, hshorter⟩ := waitNs?_mono hu huv (Nat.le_refl _) hsegment hwait
    exact ⟨shorter, hshorter, hQ shorter wait hle hq⟩
  have hpos : 0 < units t.limit := by
    rw [units_pos_iff]
    omega
  constructor
  · intro hwait
    by_contra hge
    exact hlimit (hdown hpos (Nat.le_of_not_lt hge) hwait)
  · intro hlt
    have hle : units s ≤ units t.below := by
      rw [← Nat.not_le, units_le_iff] at hlt
      rw [units_le_iff]
      omega
    exact hdown hs hle hbelow

/-- A millisecond is left no time below half a millionth of its length. -/
def blinkThreshold : Threshold .blink (Binary64.ofRatio false 5 10000000) (some 0) (some 1) where
  below := ⟨4512825593480736140, by decide⟩
  limit := ⟨4512825593480736141, by decide⟩
  limit_eq := rfl
  scale_eq := by decide +kernel
  waitBelow_eq := by decide +kernel
  waitAt_eq := by decide +kernel

/-- An hour can be timed if it is stretched to less than `2 ^ 64` seconds. -/
def hourThreshold :
    Threshold .hour (Binary64.ofNat 5124095576030431) (some 18446744073709547520000000000) none where
  below := ⟨4841990095371943134, by decide⟩
  limit := ⟨4841990095371943135, by decide⟩
  limit_eq := rfl
  scale_eq := by decide +kernel
  waitBelow_eq := by decide +kernel
  waitAt_eq := by decide +kernel

/-- An hour can be waited for from the start of the clock if it is stretched to less than `2 ^ 63`
seconds. -/
def clockThreshold : Threshold .hour (Binary64.ofRatio false 5124095576030431 2)
    (some 9223372036854773760000000000) (some clockBound) where
  below := ⟨4837486495744572638, by decide⟩
  limit := ⟨4837486495744572639, by decide⟩
  limit_eq := rfl
  scale_eq := by decide +kernel
  waitBelow_eq := by decide +kernel
  waitAt_eq := by decide +kernel

theorem blink_wait_eq_zero_iff (hs : 0 < units s) :
    waitNs? (.finite false s) .blink = some 0 ↔
      units s < (Binary64.ofRatio false 5 10000000).magnitude := by
  have hdown : ∀ shorter wait, shorter ≤ wait → wait = 0 → shorter = 0 := by omega
  rw [← blinkThreshold.exists_wait_iff_lt (by decide) hdown ⟨0, rfl, rfl⟩ (by simp) hs]
  simp only [exists_eq_right]

theorem hour_wait_isSome_iff (hs : 0 < units s) :
    (waitNs? (.finite false s) .hour).isSome ↔
      units s < (Binary64.ofNat 5124095576030431).magnitude := by
  have hdown : ∀ shorter wait : Nat, shorter ≤ wait → True → True := fun _ _ _ _ => trivial
  rw [← hourThreshold.exists_wait_iff_lt (by decide) hdown ⟨_, rfl, trivial⟩ (by simp) hs]
  simp only [and_true, Option.isSome_iff_exists]

theorem hour_wait_lt_iff (hs : 0 < units s) :
    (∃ wait, waitNs? (.finite false s) .hour = some wait ∧ wait < clockBound) ↔
      units s < (Binary64.ofRatio false 5124095576030431 2).magnitude :=
  clockThreshold.exists_wait_iff_lt (by decide) (fun _ _ => Nat.lt_of_le_of_lt)
    ⟨_, rfl, by decide⟩ (by simp) hs

/-- A smaller ratio has no larger magnitude. -/
theorem magnitude_ofRatio_le {m n d e : Nat} (hd : 0 < d) (he : 0 < e) (hn : n < 2 ^ 60 * e)
    (h : m * e ≤ n * d) :
    (Binary64.ofRatio false m d).magnitude ≤ (Binary64.ofRatio false n e).magnitude := by
  have hm : m < 2 ^ 60 * d := by
    apply Nat.lt_of_mul_lt_mul_right
    calc m * e ≤ n * d := h
      _ < 2 ^ 60 * e * d := Nat.mul_lt_mul_of_pos_right hn hd
      _ = 2 ^ 60 * d * e := Nat.mul_right_comm _ _ _
  obtain ⟨x, hx, hxval⟩ := exists_rank_ofRatio hd hm false
  obtain ⟨y, hy, hyval⟩ := exists_rank_ofRatio he hn false
  have hscaled : m * unitsInOne * e ≤ n * unitsInOne * d := by
    rw [Nat.mul_right_comm, Nat.mul_right_comm n]
    exact Nat.mul_le_mul_right unitsInOne h
  rw [hx, hy, Binary64.magnitude, Binary64.magnitude, hxval, hyval]
  exact units_mono (nearestRank_ratio_mono hd he hscaled)

theorem magnitude_ofNat {n : Nat} (hn : n < 2 ^ 53) :
    (Binary64.ofNat n).magnitude = n * unitsInOne := by
  obtain ⟨rank, hrank, hunits⟩ := ofNat_whole hn
  rw [hrank, Binary64.magnitude, hunits]

end Thresholds

namespace Settings

variable {s : Settings}

theorem fault?_eq_none (h : s.fault? = none) :
    (∃ rank, s.timeScale = .finite false rank ∧ 0 < units rank) ∧ InHour s.defaultPeriod := by
  unfold fault? at h
  split_ifs at h with hscale hperiod
  rw [Bool.or_eq_true, Bool.not_eq_true', Bool.not_eq_true', not_or, Bool.not_eq_false,
    Bool.not_eq_false] at hscale
  rw [Option.not_isSome_iff_eq_none, periodFault?_eq_none_iff] at hperiod
  exact ⟨exists_rank_of_positive hscale.1 hscale.2, hperiod⟩

theorem default_timeScale : default.timeScale = Binary64.ofNat 1 := by
  rw [default]

theorem fault?_default : default.fault? = none := by
  have hscale := positive_ofNat_one
  rw [Bool.and_eq_true] at hscale
  have hperiod := (periodFault?_eq_none_iff _).mpr Characteristic.inHour_defaultPeriod
  rw [fault?, default, hscale.1, hscale.2, hperiod]
  rfl

/-- Under settings that are accepted, every light that can be written can be read. -/
theorem readWith_toText (h : s.fault? = none) {light : Characteristic} (hlight : light.Readable) :
    Characteristic.readWith s.defaultPeriod light.toText = .ok light :=
  Characteristic.readWith_toText hlight (fault?_eq_none h).2

/-- A playback of a text that was started under some settings. -/
def Plays (s : Settings) (text : String) (nowMs : Nat) (p : Playback) : Prop :=
  ∃ light calls, Characteristic.readWith s.defaultPeriod text = .ok light ∧
    Playback.start? nowMs (light.cycle s.overrun) s.timeScale = some (p, calls)

/-- A cycle takes time when a millisecond is left some. -/
theorem Plays.cycleNs?_ne_zero {text : String} {nowMs : Nat} {p : Playback} (h : s.Plays text nowMs p)
    {rank : Fin rankBound} (hscale : s.timeScale = .finite false rank) (hpos : 0 < units rank)
    (hleast : (Binary64.ofRatio false 5 10000000).magnitude ≤ units rank) : p.cycleNs? ≠ some 0 := by
  obtain ⟨light, calls, hread, hstart⟩ := h
  intro hzero
  rw [Playback.start?_cycleNs? hstart] at hzero
  cases hsegments : (light.cycle s.overrun).segments with
  | nil => exact light.cycle_ne_nil s.overrun hsegments
  | cons first rest =>
    rw [hsegments, List.map_cons, together_cons, Option.map₂_eq_some_iff] at hzero
    obtain ⟨wait, others, hwait, -, hsum⟩ := hzero
    have hfirst : first ∈ (light.cycle s.overrun).segments := hsegments ▸ List.mem_cons_self
    obtain ⟨hlong, hhour⟩ := durationMs_of_mem_cycle hread hfirst
    rw [hscale] at hwait
    obtain ⟨shorter, hle, hshorter⟩ := waitNs?_mono hpos (Nat.le_refl _) hlong hhour hwait
    obtain rfl : shorter = 0 := by omega
    have hlt := (blink_wait_eq_zero_iff hpos).mp hshorter
    exact Nat.not_le_of_lt hlt hleast

/-- Of the settings that are accepted, those make only finitely many calls of any text by any time
whose scale is half a millionth or more. Below that, the cycle of some text takes no time. -/
theorem plays_finitely_iff (h : s.fault? = none) :
    (∀ text nowMs p, s.Plays text nowMs p → p.cycleNs? ≠ some 0 ∧ ∀ nowNs,
      {k | ∃ deadline ≤ nowNs, (Playback.next^[k] p).deadline = some deadline}.Finite) ↔
      (Binary64.ofRatio false 5 10000000).magnitude ≤ s.timeScale.magnitude := by
  obtain ⟨⟨rank, hscale, hpos⟩, -⟩ := fault?_eq_none h
  rw [hscale, Binary64.magnitude]
  constructor
  · intro hall
    by_contra hlt
    have hwait := (blink_wait_eq_zero_iff hpos).mpr (Nat.lt_of_not_le hlt)
    obtain ⟨light, hlight, hcycle⟩ := exists_light_of_blink
    have hfirst := hcycle s.overrun
    rw [← hscale] at hwait
    have hclock : 0 * 1000000 + 0 < clockBound := by decide
    have hstart := (Playback.start?_cons_eq_some_iff hfirst).mpr ⟨0, hwait, hclock, rfl, rfl⟩
    refine (hall light.toText 0 _ ⟨light, _, readWith_toText h hlight, hstart⟩).1 ?_
    rw [Playback.start?_cycleNs? hstart, hfirst, List.map_singleton, hwait]
    rfl
  · intro hleast text nowMs p hplays
    have hcycle := hplays.cycleNs?_ne_zero hscale hpos hleast
    obtain ⟨light, calls, -, hstart⟩ := hplays
    exact ⟨hcycle, Playback.finite_due (Playback.start?_timed hstart) hcycle⟩

/-- Settings that leave everything out have a scale of one, which is far above the bound. -/
theorem plays_finitely_default : default.fault? = none ∧
    ∀ text nowMs p, default.Plays text nowMs p → p.cycleNs? ≠ some 0 ∧ ∀ nowNs,
      {k | ∃ deadline ≤ nowNs, (Playback.next^[k] p).deadline = some deadline}.Finite := by
  have hleast : (Binary64.ofRatio false 5 10000000).magnitude ≤ default.timeScale.magnitude := by
    rw [default_timeScale, Binary64.ofNat]
    exact magnitude_ofRatio_le (by decide) Nat.one_pos (by decide) (by decide)
  exact ⟨fault?_default, (plays_finitely_iff fault?_default).mpr hleast⟩

/-- Settings with a scale of `1e-10` are accepted, but then a flash every five seconds is called over
and over before any time has passed. -/
theorem calls_without_end : ∃ s p, read "time-scale: 1e-10\n" = .ok s ∧ s.fault? = none ∧
    s.Plays "Fl 5s" 0 p ∧ p.cycleNs? = some 0 ∧
    {k | ∃ deadline ≤ 0, (Playback.next^[k] p).deadline = some deadline}.Infinite := by
  let s : Settings := { default with timeScale := Binary64.ofRatio false 1 10000000000 }
  let light : Characteristic := ⟨.flashing, .single, .white, none, Binary64.ofNat 5, false⟩
  have hsettings : read "time-scale: 1e-10\n" = .ok s := by decide +kernel
  have haccepted : s.fault? = none := by decide +kernel
  have hread : Characteristic.readWith s.defaultPeriod "Fl 5s" = .ok light := by decide +kernel
  have hcycle : (light.cycle s.overrun).segments =
      [⟨500, true, .white⟩, ⟨4500, false, .white⟩] := by decide +kernel
  have hflash : waitNs? s.timeScale ⟨500, true, .white⟩ = some 0 := by decide +kernel
  have hdark : waitNs? s.timeScale ⟨4500, false, .white⟩ = some 0 := by decide +kernel
  have hclock : 0 * 1000000 + 0 < clockBound := by decide
  obtain ⟨p, calls, hstart, hdeadline⟩ : ∃ p calls,
      Playback.start? 0 (light.cycle s.overrun) s.timeScale = some (p, calls) ∧
        p.deadline = some 0 :=
    ⟨_, _, (Playback.start?_cons_eq_some_iff hcycle).mpr ⟨0, hflash, hclock, rfl, rfl⟩, rfl⟩
  have hzero : p.cycleNs? = some 0 := by
    rw [Playback.start?_cycleNs? hstart, hcycle, List.map_cons, List.map_singleton, hflash, hdark]
    rfl
  refine ⟨s, p, hsettings, haccepted, ⟨light, calls, hread, hstart⟩, hzero, ?_⟩
  refine Playback.infinite_due (Playback.start?_timed hstart) ?_ hzero hdeadline (Nat.le_refl 0)
  rw [(Playback.start?_waits hstart).1, hcycle]
  decide

/-- Every text can be started at some time if a segment of an hour could be. -/
theorem starts_iff (h : s.fault? = none) (nowMs : Nat) :
    (∀ text light, Characteristic.readWith s.defaultPeriod text = .ok light →
      (Playback.start? nowMs (light.cycle s.overrun) s.timeScale).isSome) ↔
      ∃ wait, waitNs? s.timeScale .hour = some wait ∧ nowMs * 1000000 + wait < clockBound := by
  obtain ⟨⟨rank, hscale, hpos⟩, -⟩ := fault?_eq_none h
  constructor
  · intro hall
    obtain ⟨light, hlight, hcycle⟩ := exists_light_of_hour
    obtain ⟨⟨p, calls⟩, hstart⟩ := Option.isSome_iff_exists.mp
      (hall light.toText light (readWith_toText h hlight))
    obtain ⟨wait, hwait, hclock, -⟩ :=
      (Playback.start?_cons_eq_some_iff (hcycle s.overrun)).mp hstart
    exact ⟨wait, hwait, hclock⟩
  · rintro ⟨wait, hwait, hclock⟩ text light hread
    cases hsegments : (light.cycle s.overrun).segments with
    | nil => exact absurd hsegments (light.cycle_ne_nil s.overrun)
    | cons first rest =>
      have hfirst : first ∈ (light.cycle s.overrun).segments := hsegments ▸ List.mem_cons_self
      have hhour := (durationMs_of_mem_cycle hread hfirst).2
      rw [hscale] at hwait
      obtain ⟨shorter, hle, hshorter⟩ :=
        waitNs?_mono hpos (Nat.le_refl _) hhour (Nat.le_refl Segment.hour.durationMs) hwait
      rw [← hscale] at hshorter
      have hearlier : nowMs * 1000000 + shorter < clockBound := by omega
      exact Option.isSome_iff_exists.mpr ⟨_,
        (Playback.start?_cons_eq_some_iff hsegments).mpr ⟨shorter, hshorter, hearlier, rfl, rfl⟩⟩

/-- Every wait of every text can be timed if that of an hour can. -/
theorem waits_isSome_iff (h : s.fault? = none) :
    (∀ text light, Characteristic.readWith s.defaultPeriod text = .ok light →
      ∀ segment ∈ (light.cycle s.overrun).segments, (waitNs? s.timeScale segment).isSome) ↔
      (waitNs? s.timeScale .hour).isSome := by
  obtain ⟨⟨rank, hscale, hpos⟩, -⟩ := fault?_eq_none h
  constructor
  · intro hall
    obtain ⟨light, hlight, hcycle⟩ := exists_light_of_hour
    apply hall light.toText light (readWith_toText h hlight)
    rw [hcycle]
    exact List.mem_singleton_self _
  · intro hhour text light hread segment hsegment
    obtain ⟨wait, hwait⟩ := Option.isSome_iff_exists.mp hhour
    have hle := (durationMs_of_mem_cycle hread hsegment).2
    rw [hscale] at hwait ⊢
    obtain ⟨shorter, -, hshorter⟩ :=
      waitNs?_mono hpos (Nat.le_refl _) hle (Nat.le_refl Segment.hour.durationMs) hwait
    rw [hshorter]
    rfl

/-- When every wait can be timed, a playback that has been started always has a next deadline. -/
theorem Plays.deadline_isSome {text : String} {nowMs : Nat} {p : Playback} (h : s.Plays text nowMs p)
    (hwaits : ∀ text light, Characteristic.readWith s.defaultPeriod text = .ok light →
      ∀ segment ∈ (light.cycle s.overrun).segments, (waitNs? s.timeScale segment).isSome) (k : Nat) :
    (Playback.next^[k] p).deadline.isSome := by
  obtain ⟨light, calls, hread, hstart⟩ := h
  have hall : ∀ wait ∈ p.waits, wait.isSome := by
    rw [(Playback.start?_waits hstart).2]
    intro wait hwait
    obtain ⟨segment, hsegment, rfl⟩ := List.mem_map.mp (List.mem_toArray.mp hwait)
    exact hwaits text light hread segment hsegment
  cases hsegments : (light.cycle s.overrun).segments with
  | nil => exact absurd hsegments (light.cycle_ne_nil s.overrun)
  | cons first rest =>
    have hne : 0 < p.segments.size := by
      rw [(Playback.start?_waits hstart).1, hsegments]
      exact Nat.succ_pos _
    obtain ⟨wait, -, -, hp, -⟩ := (Playback.start?_cons_eq_some_iff hsegments).mp hstart
    have hfirst : p.deadline.isSome := by
      rw [hp]
      rfl
    exact Playback.deadline_isSome_iterate (Playback.start?_timed hstart) hne hall hfirst k

/-- Of the settings that are accepted, those can time every wait of every text whose scale stretches an
hour to less than `2 ^ 64` seconds, and a playback that was started then never lacks its next deadline.
Every text can be started at once if an hour is stretched to less than `2 ^ 63` seconds. -/
theorem plays_throughout_iff (h : s.fault? = none) :
    ((∀ text light, Characteristic.readWith s.defaultPeriod text = .ok light →
      ∀ segment ∈ (light.cycle s.overrun).segments, (waitNs? s.timeScale segment).isSome) ↔
      s.timeScale.magnitude < (Binary64.ofNat 5124095576030431).magnitude) ∧
    ((∀ text light, Characteristic.readWith s.defaultPeriod text = .ok light →
      (Playback.start? 0 (light.cycle s.overrun) s.timeScale).isSome) ↔
      s.timeScale.magnitude < (Binary64.ofRatio false 5124095576030431 2).magnitude) ∧
    (s.timeScale.magnitude < (Binary64.ofNat 5124095576030431).magnitude →
      ∀ text nowMs p, s.Plays text nowMs p → ∀ k, (Playback.next^[k] p).deadline.isSome) := by
  obtain ⟨⟨rank, hscale, hpos⟩, -⟩ := fault?_eq_none h
  have hmagnitude : s.timeScale.magnitude = units rank := by rw [hscale, Binary64.magnitude]
  have hwaits := waits_isSome_iff h
  have hstarts := starts_iff h 0
  have htimed := hour_wait_isSome_iff hpos
  have hclock := hour_wait_lt_iff hpos
  rw [← hscale, ← hmagnitude] at htimed hclock
  simp only [Nat.zero_mul, Nat.zero_add] at hstarts
  refine ⟨hwaits.trans htimed, hstarts.trans hclock, fun hlt text nowMs p hplays k => ?_⟩
  exact hplays.deadline_isSome (hwaits.mpr (htimed.mpr hlt)) k

/-- Settings that leave everything out are far from both bounds. -/
theorem plays_throughout_default : default.fault? = none ∧
    (∀ text light, Characteristic.readWith default.defaultPeriod text = .ok light →
      (Playback.start? 0 (light.cycle default.overrun) default.timeScale).isSome) ∧
    ∀ text nowMs p, default.Plays text nowMs p → ∀ k, (Playback.next^[k] p).deadline.isSome := by
  have hone : default.timeScale.magnitude < (Binary64.ofNat 2).magnitude := by
    rw [default_timeScale, magnitude_ofNat (by decide), magnitude_ofNat (by decide)]
    exact Nat.mul_lt_mul_of_pos_right (by decide) unitsInOne_pos
  have hstarts : (Binary64.ofNat 2).magnitude ≤
      (Binary64.ofRatio false 5124095576030431 2).magnitude :=
    magnitude_ofRatio_le Nat.one_pos (by decide) (by decide) (by decide)
  have htimed : (Binary64.ofNat 2).magnitude ≤ (Binary64.ofNat 5124095576030431).magnitude :=
    magnitude_ofRatio_le Nat.one_pos Nat.one_pos (by decide) (by decide)
  obtain ⟨-, hall, hon⟩ := plays_throughout_iff fault?_default
  exact ⟨fault?_default, hall.mpr (Nat.lt_of_lt_of_le hone hstarts),
    hon (Nat.lt_of_lt_of_le hone htimed)⟩

/-- Settings with a scale of `1e300` are accepted, but then a flash every five seconds cannot be
started, since its first wait is too long to be timed. -/
theorem never_starts : ∃ s light, read "time-scale: 1e300\n" = .ok s ∧ s.fault? = none ∧
    Characteristic.readWith s.defaultPeriod "Fl 5s" = .ok light ∧
    (∃ segment ∈ (light.cycle s.overrun).segments, waitNs? s.timeScale segment = none) ∧
    ∀ nowMs, Playback.start? nowMs (light.cycle s.overrun) s.timeScale = none := by
  let s : Settings := { default with timeScale := Binary64.ofNat (Nat.pow 10 300) }
  let light : Characteristic := ⟨.flashing, .single, .white, none, Binary64.ofNat 5, false⟩
  have hsettings : read "time-scale: 1e300\n" = .ok s := by decide +kernel
  have haccepted : s.fault? = none := by decide +kernel
  have hread : Characteristic.readWith s.defaultPeriod "Fl 5s" = .ok light := by decide +kernel
  have hcycle : (light.cycle s.overrun).segments =
      [⟨500, true, .white⟩, ⟨4500, false, .white⟩] := by decide +kernel
  have hflash : waitNs? s.timeScale ⟨500, true, .white⟩ = none := by decide +kernel
  refine ⟨s, light, hsettings, haccepted, hread, ⟨_, hcycle ▸ List.mem_cons_self, hflash⟩,
    fun nowMs => ?_⟩
  rw [Option.eq_none_iff_forall_ne_some]
  rintro ⟨p, calls⟩ hstart
  obtain ⟨wait, hwait, -⟩ := (Playback.start?_cons_eq_some_iff hcycle).mp hstart
  rw [hflash] at hwait
  cases hwait

end Settings

end ChartLight
