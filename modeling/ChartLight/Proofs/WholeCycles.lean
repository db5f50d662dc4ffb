import ChartLight.CommandLine.Watch
import ChartLight.Proofs.Gaps
import ChartLight.Proofs.Rounds

/-! What a show has written when it ends. Calls keep the order of the cycle and lines the order of the
calls, however far the writer lags behind, so at any time the lines written and those that wait are the
first ones of the cycle going round. The writer stops at the limit, which is a number of whole cycles. -/

namespace ChartLight

open Number

namespace Playback

variable {p : Playback}

section Shown

theorem length_shown (n : Nat) (p : Playback) : (p.shown n).length = n := by
  induction n generalizing p with
  | zero => rfl
  | succ n ih => rw [shown, List.length_cons, ih]

theorem shown_add (m n : Nat) (p : Playback) :
    p.shown (m + n) = p.shown m ++ (next^[m] p).shown n := by
  induction m generalizing p with
  | zero => rw [Nat.zero_add]; rfl
  | succ m ih => rw [Nat.succ_add, shown, shown, ih, Function.iterate_succ_apply, List.cons_append]

theorem take_shown (k n : Nat) (p : Playback) : (p.shown n).take k = p.shown (min k n) := by
  rcases Nat.le_total k n with hle | hle
  · obtain ⟨rest, rfl⟩ := Nat.exists_eq_add_of_le hle
    rw [Nat.min_eq_left hle, shown_add, List.take_left' (length_shown k p)]
  · rw [Nat.min_eq_right hle, List.take_of_length_le (by rwa [length_shown])]

theorem getElem?_shown {k n : Nat} (h : k < n) (p : Playback) :
    (p.shown n)[k]? = some (next^[k] p).current := by
  induction k generalizing n p with
  | zero =>
    obtain ⟨n, rfl⟩ := Nat.exists_eq_add_of_le' h
    rfl
  | succ k ih =>
    obtain ⟨n, rfl⟩ := Nat.exists_eq_add_of_le' (Nat.zero_lt_of_lt h)
    rw [shown, List.getElem?_cons_succ, ih (Nat.lt_of_succ_lt_succ h), Function.iterate_succ_apply]

/-- From the first segment on, the index counts up and goes round. -/
theorem iterate_next_index_of_zero (hindex : p.index = 0) (k : Nat) :
    (next^[k] p).index = k % p.segments.size := by
  cases k with
  | zero => rw [Function.iterate_zero_apply, hindex, Nat.zero_mod]
  | succ k =>
    have hround := iterate_next_index k p
    rw [hindex, Nat.zero_add] at hround
    rw [Function.iterate_succ_apply', next, iterate_next_segments, hround, Nat.add_comm]

theorem shown_round (hindex : p.index = 0) : p.shown p.segments.size = p.segments.toList := by
  refine List.ext_getElem? fun k => ?_
  rcases Nat.lt_or_ge k p.segments.size with hlt | hge
  · rw [getElem?_shown hlt, current, iterate_next_segments, iterate_next_index_of_zero hindex,
      Nat.mod_eq_of_lt hlt, Array.getElem?_toList, Array.getElem?_eq_getElem hlt, Option.getD_some]
  · rw [List.getElem?_eq_none (by rwa [length_shown]), List.getElem?_eq_none (by simpa using hge)]

/-- Whole rounds of what is played, from its first segment on. -/
theorem shown_rounds {cycle : Cycle} (hindex : p.index = 0)
    (hsegments : p.segments = cycle.segments.toArray) (m : Nat) :
    p.shown (m * cycle.segments.length) = cycle.rounds m := by
  have hsize : p.segments.size = cycle.segments.length := by rw [hsegments, List.size_toArray]
  induction m generalizing p with
  | zero => rw [Nat.zero_mul]; rfl
  | succ m ih =>
    have hagain : (next^[p.segments.size] p).index = 0 := by
      rw [iterate_next_index_of_zero hindex, Nat.mod_self]
    have hrest := ih hagain (by rw [iterate_next_segments, hsegments])
      (by rw [iterate_next_segments, hsize])
    rw [Nat.succ_mul, Nat.add_comm, ← hsize, shown_add, shown_round hindex, hsize]
    rw [hsize] at hrest
    rw [hrest, hsegments, cycle.rounds_succ]

end Shown

end Playback

namespace CommandLine

section Watch

variable {s : Show} {w w' : Watch} {called limit : Nat}

namespace Show

theorem line?_eq_some_iff {count : Nat} {segment : Segment} {line : String} :
    s.line? count segment = some line ↔
      (∀ limit ∈ s.limit, count < limit) ∧ lampLine s.styled segment = line := by
  unfold line?
  cases s.limit <;> simp

theorem line?_eq_none_iff {count : Nat} {segment : Segment} :
    s.line? count segment = none ↔ ∃ limit, s.limit = some limit ∧ limit ≤ count := by
  unfold line?
  cases s.limit <;> simp

/-- The lines of the first `n` segments, one by one. -/
def firstLines (s : Show) (n : Nat) : List String := (s.playback.shown n).map (lampLine s.styled)

theorem length_firstLines (s : Show) (n : Nat) : (s.firstLines n).length = n := by
  rw [firstLines, List.length_map, Playback.length_shown]

theorem take_firstLines (s : Show) (k n : Nat) :
    (s.firstLines n).take k = s.firstLines (min k n) := by
  rw [firstLines, ← List.map_take, Playback.take_shown, firstLines]

theorem firstLines_succ (s : Show) (n : Nat) :
    s.firstLines (n + 1) =
      s.firstLines n ++ [lampLine s.styled (Playback.next^[n] s.playback).current] := by
  rw [firstLines, Playback.shown_add, List.map_append, firstLines]
  rfl

/-- The show goes on: what has been called is written or waits. -/
structure Going (s : Show) (called : Nat) (w : Watch) : Prop where
  ended : w.ended = false
  playback : w.playback = Playback.next^[called] s.playback
  lines : w.written ++ w.pending.map (lampLine s.styled) = s.firstLines (called + 1)
  within : ∀ limit ∈ s.limit, w.written.length ≤ limit

/-- The show is over, with as many lines as its limit. -/
structure Over (s : Show) (w : Watch) : Prop where
  ended : w.ended = true
  cancelled : w.playback.cancelled = true
  lines : ∃ limit, s.limit = some limit ∧ w.written = s.firstLines limit

theorem going_opening (hlive : s.playback.cancelled = false) : s.Going 0 s.opening where
  ended := rfl
  playback := rfl
  lines := by
    rw [opening, hlive]
    rfl
  within := fun _ _ => Nat.zero_le _

namespace Going

/-- What is written are the first lines. -/
theorem written_eq (h : s.Going called w) : w.written = s.firstLines w.written.length := by
  have hlength := congrArg List.length h.lines
  rw [List.length_append, length_firstLines] at hlength
  have htake := congrArg (List.take w.written.length) h.lines
  rwa [List.take_left, take_firstLines, Nat.min_eq_left (by omega)] at htake

theorem call (h : s.Going called w) :
    s.Going (called + 1)
      { w with
        playback := w.playback.next
        pending := w.pending ++ [w.playback.next.current] } where
  ended := h.ended
  playback := by rw [h.playback, Function.iterate_succ_apply']
  lines := by
    rw [firstLines_succ, ← h.lines, h.playback, Function.iterate_succ_apply', List.map_append,
      List.append_assoc]
    rfl
  within := h.within

theorem write (h : s.Going called w) {segment : Segment} {rest : List Segment} {line : String}
    (hpending : w.pending = segment :: rest)
    (hline : s.line? w.written.length segment = some line) :
    s.Going called { w with pending := rest, written := w.written ++ [line] } := by
  obtain ⟨hwithin, rfl⟩ := line?_eq_some_iff.1 hline
  refine ⟨h.ended, h.playback, ?_, fun limit hlimit => ?_⟩
  · rw [← h.lines, hpending, List.map_cons, List.append_assoc, List.singleton_append]
  · rw [List.length_append]
    exact hwithin limit hlimit

theorem stop (h : s.Going called w) {segment : Segment} (rest : List Segment)
    (hline : s.line? w.written.length segment = none) :
    s.Over { w with playback := w.playback.cancel, pending := rest, ended := true } := by
  obtain ⟨limit, hlimit, hle⟩ := line?_eq_none_iff.1 hline
  have heq : w.written.length = limit := Nat.le_antisymm (h.within limit hlimit) hle
  exact ⟨rfl, rfl, limit, hlimit, heq ▸ h.written_eq⟩

end Going

/-- Going on, or over. -/
def Sound (s : Show) (w : Watch) : Prop := (∃ called, s.Going called w) ∨ s.Over w

theorem Sound.step (h : s.Sound w) (hstep : s.Step w w') : s.Sound w' := by
  rcases h with ⟨called, hgoing⟩ | hover
  · cases hstep with
    | call => exact Or.inl ⟨called + 1, hgoing.call⟩
    | write segment rest line _ hpending hline => exact Or.inl ⟨called, hgoing.write hpending hline⟩
    | stop segment rest _ _ hline => exact Or.inr (hgoing.stop rest hline)
  · -- nobody calls or writes any more
    cases hstep with
    | call deadline hlive =>
      rw [hover.cancelled] at hlive
      cases hlive
    | write segment rest line hended =>
      rw [hover.ended] at hended
      cases hended
    | stop segment rest hended =>
      rw [hover.ended] at hended
      cases hended

theorem sound_of_reached (hlive : s.playback.cancelled = false)
    (hreached : Relation.ReflTransGen s.Step s.opening w) : s.Sound w := by
  induction hreached with
  | refl => exact Or.inl ⟨0, going_opening hlive⟩
  | tail _ hstep ih => exact ih.step hstep

/-- Lines are written in order, and all of them by the end. -/
theorem Sound.written (h : s.Sound w) (hlimit : s.limit = some limit) :
    w.written <+: s.firstLines limit ∧ (w.ended = true → w.written = s.firstLines limit) := by
  rcases h with ⟨called, hgoing⟩ | hover
  · refine ⟨?_, fun hended => ?_⟩
    · rw [hgoing.written_eq, ← Nat.min_eq_left (hgoing.within limit hlimit), ← take_firstLines]
      exact List.take_prefix _ _
    · rw [hgoing.ended] at hended
      cases hended
  · obtain ⟨limit', hlimit', hwritten⟩ := hover.lines
    obtain rfl := Option.some.inj (hlimit.symm.trans hlimit')
    exact ⟨hwritten ▸ List.prefix_refl _, fun _ => hwritten⟩

/-- The first `n` deadlines are on the clock. -/
def OnClock (s : Show) (n : Nat) : Prop :=
  ∀ k < n, ∃ deadline < clockBound, (Playback.next^[k] s.playback).deadline = some deadline

section Ending

variable (hlive : s.playback.cancelled = false) (hlimit : s.limit = some limit)
  (hclock : s.OnClock limit)

include hlive hlimit hclock

/-- A writer that has nothing to take has a call ahead. -/
theorem Going.exists_pending (h : s.Going called w) :
    ∃ called' w', Relation.ReflTransGen s.Step w w' ∧ s.Going called' w' ∧ w'.pending ≠ [] ∧
      w'.written = w.written := by
  by_cases hpending : w.pending = []
  · have hlines := congrArg List.length h.lines
    rw [hpending, List.map_nil, List.append_nil, length_firstLines] at hlines
    have hcalled : called < limit := hlines.symm.trans_le (h.within limit hlimit)
    obtain ⟨deadline, hbound, hdeadline⟩ := hclock called hcalled
    rw [← h.playback] at hdeadline
    have hgoes : w.playback.cancelled = false := by
      rw [h.playback, Playback.iterate_next_cancelled, hlive]
    exact ⟨called + 1, _, Relation.ReflTransGen.single (Step.call w deadline hgoes hdeadline hbound),
      h.call, List.concat_ne_nil _ _, rfl⟩
  · exact ⟨called, w, Relation.ReflTransGen.refl, h, hpending, rfl⟩

/-- It writes one more line, or the show ends. -/
theorem Going.exists_line (h : s.Going called w) :
    ∃ w', Relation.ReflTransGen s.Step w w' ∧ (w'.ended = true ∨
      ∃ called', s.Going called' w' ∧ w'.written.length = w.written.length + 1) := by
  obtain ⟨called', v, hreached, hgoing, hpending, hwritten⟩ :=
    h.exists_pending hlive hlimit hclock
  obtain ⟨segment, rest, hcons⟩ := List.exists_cons_of_ne_nil hpending
  cases hline : s.line? v.written.length segment with
  | none =>
    exact ⟨_, hreached.tail (Step.stop v segment rest hgoing.ended hcons hline), Or.inl rfl⟩
  | some line =>
    refine ⟨_, hreached.tail (Step.write v segment rest line hgoing.ended hcons hline), Or.inr ?_⟩
    exact ⟨called', hgoing.write hcons hline, by rw [List.length_append, hwritten]; rfl⟩

/-- With a limit, a show can always come to its end. -/
theorem Going.exists_ended (h : s.Going called w) :
    ∃ w', Relation.ReflTransGen s.Step w w' ∧ w'.ended = true := by
  -- line by line, as long as some are missing
  induction hmissing : limit - w.written.length using Nat.strongRecOn generalizing w called with
  | ind missing ih =>
    obtain ⟨w', hreached, hended | ⟨called', hgoing, hlength⟩⟩ :=
      h.exists_line hlive hlimit hclock
    · exact ⟨w', hreached, hended⟩
    · have hwithin := hgoing.within limit hlimit
      obtain ⟨last, hrest, hended⟩ := ih (limit - w'.written.length) (by omega) hgoing rfl
      exact ⟨last, hreached.trans hrest, hended⟩

theorem Sound.exists_ended (h : s.Sound w) :
    ∃ w', Relation.ReflTransGen s.Step w w' ∧ w'.ended = true := by
  rcases h with ⟨called, hgoing⟩ | hover
  · exact hgoing.exists_ended hlive hlimit hclock
  · exact ⟨w, Relation.ReflTransGen.refl, hover.ended⟩

end Ending

end Show

end Watch

section Play

variable {settings : Settings} {marks : List Mark} {text : String} {light : Characteristic}

theorem respond_play (hlight : resolve marks settings text = .ok light) (styled : Bool)
    (cycles : Option Nat) (speed : Option Binary64) :
    respond styled settings marks (.play text cycles speed) =
      playResponse styled settings light cycles speed := by
  rw [respond, respond.withLight, hlight]

/-- A light is played from its first segment on, unless the first wait is beyond the clock. -/
theorem playResponse_cases (styled : Bool) (settings : Settings) (light : Characteristic)
    (cycles : Option Nat) (speed : Option Binary64) :
    let cycle := light.cycle settings.overrun
    let header := headerText styled settings.language light
    let limit := cycles.map fun n => min (max n 1 * cycle.segments.length) (2 ^ 64 - 1)
    let answer := playResponse styled settings light cycles speed
    (answer = .overlong header ∧ Playback.start? 0 cycle (scaleFor settings speed) = none) ∨
      ∃ s, answer = .show s ∧ s.header = header ∧ s.limit = limit ∧ s.styled = styled ∧
        s.playback.index = 0 ∧ s.playback.segments = cycle.segments.toArray ∧
        s.playback.cancelled = false := by
  intro cycle header limit answer
  obtain ⟨first, rest, hcycle⟩ := List.exists_cons_of_ne_nil (light.cycle_ne_nil settings.overrun)
  cases hstart : Playback.start? 0 cycle (scaleFor settings speed) with
  | none =>
    refine Or.inl ⟨?_, rfl⟩
    unfold answer playResponse
    dsimp only
    rw [hstart]
  | some started =>
    obtain ⟨p, calls⟩ := started
    have hanswer : answer =
        .show ⟨header, p, limit, styled, light.overrunNote? settings.overrun⟩ := by
      unfold answer playResponse
      dsimp only
      rw [hstart]
      rfl
    obtain ⟨wait, -, -, rfl, -⟩ := (Playback.start?_cons_eq_some_iff hcycle).1 hstart
    exact Or.inr ⟨_, hanswer, rfl, rfl, rfl, rfl, rfl, rfl⟩

/-- A light that is played for a number of cycles is shown in whole cycles, at any speed and any scale of
time. The lines of its segments are written in order, at the end all of them, and as long as the clock
goes on the end can be reached. Only lines that a word of 64 bits cannot count are left out. -/
theorem play_shows_whole_cycles (hlight : resolve marks settings text = .ok light) (styled : Bool)
    (n : Nat) :
    let cycle := light.cycle settings.overrun
    let header := headerText styled settings.language light
    let whole := (cycle.rounds (max n 1)).map (lampLine styled)
    let lines := whole.take (2 ^ 64 - 1)
    whole.length = max n 1 * cycle.segments.length ∧
    (max n 1 * cycle.segments.length < 2 ^ 64 → lines = whole) ∧
    ∀ (scale : Binary64) (speed : Option Binary64),
      let retimed := { settings with timeScale := scale }
      let answer := respond styled retimed marks (.play text (some n) speed)
      (answer = .overlong header ∧ Playback.start? 0 cycle (scaleFor retimed speed) = none) ∨
      ∃ s, answer = .show s ∧ s.header = header ∧ answer.output = header ++ String.join lines ∧
        ∀ w, Relation.ReflTransGen s.Step s.opening w →
          w.written <+: lines ∧ (w.ended = true → w.written = lines) ∧
          (s.OnClock lines.length →
            ∃ w', Relation.ReflTransGen s.Step w w' ∧ w'.ended = true ∧ w'.written = lines) := by
  intro cycle header whole lines
  have hwhole : whole.length = max n 1 * cycle.segments.length := by
    rw [List.length_map, cycle.length_rounds]
  refine ⟨hwhole, fun hword => ?_, fun scale speed => ?_⟩
  · rw [← hwhole] at hword
    exact List.take_of_length_le (Nat.le_sub_one_of_lt hword)
  intro retimed answer
  have hretimed : resolve marks retimed text = .ok light := hlight
  have hanswer : answer = playResponse styled retimed light (some n) speed :=
    respond_play hretimed styled (some n) speed
  rcases playResponse_cases styled retimed light (some n) speed with
    hover | ⟨s, hshow, hheader, hlimit, rfl, hindex, hsegments, hlive⟩
  · exact Or.inl (hanswer ▸ hover)
  -- the limit is a number of whole rounds, or the largest word
  have hlines : s.firstLines (min (max n 1 * cycle.segments.length) (2 ^ 64 - 1)) = lines := by
    rw [Nat.min_comm, ← Show.take_firstLines, Show.firstLines, Playback.shown_rounds hindex hsegments]
  have hlength := congrArg List.length hlines
  rw [Show.length_firstLines] at hlength
  rw [hlength] at hlines
  rw [Option.map_some, hlength] at hlimit
  refine Or.inr ⟨s, hanswer.trans hshow, hheader, ?_, fun w hreached => ?_⟩
  · have htext : s.lines lines.length = String.join (s.firstLines lines.length) := rfl
    rw [hanswer, hshow, Response.output, hheader, hlimit, Option.getD_some, htext, hlines]
  have hsound := Show.sound_of_reached hlive hreached
  have hwritten := hsound.written hlimit
  rw [hlines] at hwritten
  refine ⟨hwritten.1, hwritten.2, fun hclock => ?_⟩
  obtain ⟨w', hrest, hended⟩ := hsound.exists_ended hlive hlimit hclock
  have hfinal := (Show.sound_of_reached hlive (hreached.trans hrest)).written hlimit
  exact ⟨w', hrest, hended, hlines ▸ hfinal.2 hended⟩

/-- An isophase light of two seconds, played for three cycles, ends with six lines. -/
theorem play_shows_whole_cycles_iso :
    ∃ s w, respond false Settings.default Mark.common (.play "Iso 2s" (some 3) none) = .show s ∧
      Relation.ReflTransGen s.Step s.opening w ∧ w.ended = true ∧
      w.written = (List.replicate 3 ["●  on    1000 ms  W\n", "○  off   1000 ms\n"]).flatten := by
  generalize hsettings : Settings.default = settings
  have hlight : resolve Mark.common settings "Iso 2s" =
      .ok { Characteristic.ofRhythm .isophase with period := Binary64.ofNat 2 } := by
    subst hsettings
    decide +kernel
  have hclock : (match respond false settings Mark.common (.play "Iso 2s" (some 3) none) with
      | .show s => (List.range 6).all fun k =>
          (Playback.next^[k] s.playback).deadline.any (decide <| · < clockBound)
      | _ => false) = true := by
    subst hsettings
    decide +kernel
  obtain ⟨-, hwhole, hplay⟩ := play_shows_whole_cycles hlight false 3
  rw [hwhole (by subst hsettings; decide +kernel)] at hplay
  obtain ⟨hover, -⟩ | ⟨s, hshow, -, -, hruns⟩ := hplay settings.timeScale none
  · rw [hover] at hclock
    cases hclock
  · rw [hshow] at hclock
    obtain ⟨-, -, hends⟩ := hruns s.opening Relation.ReflTransGen.refl
    obtain ⟨w, hreached, hended, hwritten⟩ := hends fun k hk => by
      have hsix : k < 6 := by
        subst hsettings
        exact hk.trans_eq (by decide +kernel)
      have hdue := List.all_eq_true.1 hclock k (List.mem_range.2 hsix)
      obtain ⟨deadline, hdeadline, hbound⟩ := (Option.any_eq_true _ _).1 hdue
      exact ⟨deadline, of_decide_eq_true hbound, hdeadline⟩
    refine ⟨s, w, hshow, hreached, hended, hwritten.trans ?_⟩
    subst hsettings
    decide +kernel

end Play

end CommandLine

end ChartLight
