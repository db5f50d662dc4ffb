import ChartLight.Playback
import Mathlib

/-! Playbacks in any state that they can be in, also where a wait cannot be timed. After one round
of the cycle the deadline has moved by all its waits, so a clock reading leaves nothing due of a
cycle that takes time; then it does not matter at which readings the calls were made. -/

namespace ChartLight

open Number

section Waits

/-- Waits together; none of a wait that cannot be timed. -/
def together (waits : List (Option Nat)) : Option Nat := (waits.mapM id).map total

theorem together_nil : together [] = some 0 := rfl

theorem together_cons (wait : Option Nat) (waits : List (Option Nat)) :
    together (wait :: waits) = Option.map₂ (· + ·) wait (together waits) := by
  unfold together
  rw [List.mapM_cons, id_eq]
  cases wait with
  | none => rfl
  | some w => cases waits.mapM id <;> rfl

theorem together_append (early late : List (Option Nat)) :
    together (early ++ late) = Option.map₂ (· + ·) (together early) (together late) := by
  induction early with
  | nil =>
    rw [together_nil, List.nil_append]
    cases together late with
    | none => rfl
    | some t => simp
  | cons wait early ih =>
    rw [List.cons_append, together_cons, together_cons, ih, Option.map₂_assoc Nat.add_assoc]

theorem together_concat (waits : List (Option Nat)) (wait : Option Nat) :
    together (waits ++ [wait]) = Option.map₂ (· + ·) (together waits) wait := by
  rw [together_append, together_cons, together_nil]
  cases wait with
  | none => rfl
  | some w => rfl

/-- Waits that begin with another come to the same. -/
theorem together_rotate (waits : List (Option Nat)) (k : Nat) :
    together (waits.rotate k) = together waits := by
  rw [List.rotate_eq_drop_append_take_mod, together_append, Option.map₂_comm Nat.add_comm,
    ← together_append, List.take_append_drop]

end Waits

namespace Playback

variable {p : Playback}

theorem cycleNs?_eq_together (p : Playback) : p.cycleNs? = together p.waits.toList := rfl

/-- Every segment has its wait. -/
def Timed (p : Playback) : Prop := p.waits.size = p.segments.size

/-- No call is due by some nanosecond. -/
def Quiet (nowNs : Nat) (p : Playback) : Prop :=
  ∀ deadline, p.deadline = some deadline → nowNs < deadline

section Iterate

theorem next_deadline (p : Playback) :
    p.next.deadline =
      Option.map₂ (· + ·) p.deadline p.waits[(p.index + 1) % p.segments.size]?.join := by
  unfold next
  dsimp only
  cases p.deadline with
  | none => rfl
  | some d => cases p.waits[(p.index + 1) % p.segments.size]?.join <;> rfl

theorem iterate_next_segments (k : Nat) (p : Playback) : (next^[k] p).segments = p.segments := by
  induction k with
  | zero => rfl
  | succ k ih => rwa [Function.iterate_succ_apply']

theorem iterate_next_waits (k : Nat) (p : Playback) : (next^[k] p).waits = p.waits := by
  induction k with
  | zero => rfl
  | succ k ih => rwa [Function.iterate_succ_apply']

theorem iterate_next_cycleNs? (k : Nat) (p : Playback) : (next^[k] p).cycleNs? = p.cycleNs? := by
  rw [cycleNs?_eq_together, iterate_next_waits, ← cycleNs?_eq_together]

/-- The index goes round. -/
theorem iterate_next_index (k : Nat) (p : Playback) :
    ((next^[k] p).index + 1) % p.segments.size = (p.index + 1 + k) % p.segments.size := by
  induction k with
  | zero => rfl
  | succ k ih =>
    have hindex : (next^[k + 1] p).index = ((next^[k] p).index + 1) % p.segments.size := by
      rw [Function.iterate_succ_apply', next, iterate_next_segments]
    rw [hindex, ih, Nat.mod_add_mod, ← Nat.add_assoc]

/-- The waits of the next `k` segments. -/
def upcoming (p : Playback) (k : Nat) : List (Option Nat) :=
  (List.range k).map fun i => p.waits[(p.index + 1 + i) % p.segments.size]?.join

/-- After `k` segments the deadline has moved by their waits. -/
theorem iterate_next_deadline (k : Nat) (p : Playback) :
    (next^[k] p).deadline = Option.map₂ (· + ·) p.deadline (together (p.upcoming k)) := by
  induction k with
  | zero =>
    cases hdeadline : p.deadline <;> simp [hdeadline, upcoming, together_nil]
  | succ k ih =>
    have hupcoming : p.upcoming (k + 1) =
        p.upcoming k ++ [p.waits[(p.index + 1 + k) % p.segments.size]?.join] := by
      rw [upcoming, List.range_succ, List.map_append]
      rfl
    rw [Function.iterate_succ_apply', next_deadline, iterate_next_segments, iterate_next_waits,
      iterate_next_index, ih, hupcoming, together_concat, Option.map₂_assoc Nat.add_assoc]

/-- The waits of a whole round, from whichever segment on, are those of the cycle. -/
theorem upcoming_round (h : p.Timed) :
    p.upcoming p.segments.size = p.waits.toList.rotate (p.index + 1) := by
  have hlength : p.waits.toList.length = p.segments.size := by rw [Array.length_toList, h]
  apply List.ext_getElem
  · rw [upcoming, List.length_map, List.length_range, List.length_rotate, hlength]
  · intro i hi _
    have hsize : i < p.segments.size := by simpa [upcoming] using hi
    have hlt : (p.index + 1 + i) % p.segments.size < p.waits.size := by
      rw [h]
      exact Nat.mod_lt _ (Nat.zero_lt_of_lt hsize)
    rw [List.getElem_rotate]
    simp only [upcoming, List.getElem_map, List.getElem_range, hlength, Array.getElem_toList,
      Array.getElem?_eq_getElem hlt, Option.join_some, Nat.add_comm i]

/-- One round later, the next segment is due one cycle later. -/
theorem deadline_after_round (h : p.Timed) :
    (next^[p.segments.size] p).deadline = Option.map₂ (· + ·) p.deadline p.cycleNs? := by
  rw [iterate_next_deadline, upcoming_round h, together_rotate, cycleNs?_eq_together]

theorem Timed.iterate (h : p.Timed) (k : Nat) : (Playback.next^[k] p).Timed := by
  rwa [Timed, iterate_next_waits, iterate_next_segments]

theorem deadline_after_rounds (h : p.Timed) {cycle : Nat} (hcycle : p.cycleNs? = some cycle)
    (q : Nat) : (next^[p.segments.size * q] p).deadline = p.deadline.map (· + cycle * q) := by
  induction q with
  | zero => cases hdeadline : p.deadline <;> simp [hdeadline]
  | succ q ih =>
    have hround := deadline_after_round (h.iterate (p.segments.size * q))
    rw [iterate_next_segments, iterate_next_cycleNs?, hcycle, ih] at hround
    rw [Nat.mul_succ, Nat.add_comm, Function.iterate_add_apply, hround]
    cases p.deadline with
    | none => rfl
    | some d => simp [Nat.mul_succ, Nat.add_assoc]

/-- Where every wait can be timed, there is always a next deadline. -/
theorem deadline_isSome_iterate (h : p.Timed) (hne : 0 < p.segments.size)
    (hwaits : ∀ wait ∈ p.waits, wait.isSome) (hstart : p.deadline.isSome) (k : Nat) :
    (next^[k] p).deadline.isSome := by
  induction k with
  | zero => exact hstart
  | succ k ih =>
    have hlt : ((next^[k] p).index + 1) % p.segments.size < p.waits.size := by
      rw [h]
      exact Nat.mod_lt _ hne
    obtain ⟨deadline, hdeadline⟩ := Option.isSome_iff_exists.mp ih
    obtain ⟨wait, hwait⟩ := Option.isSome_iff_exists.mp (hwaits _ (Array.getElem_mem hlt))
    rw [Function.iterate_succ_apply', next_deadline, iterate_next_segments, iterate_next_waits,
      hdeadline, Array.getElem?_eq_getElem hlt, Option.join_some, hwait]
    rfl

end Iterate

section Quiet

variable {nowNs : Nat}

theorem quiet_of_deadline_eq_none (h : p.deadline = none) : p.Quiet nowNs := by
  intro deadline hdeadline
  rw [h] at hdeadline
  cases hdeadline

theorem Quiet.next (h : p.Quiet nowNs) : p.next.Quiet nowNs := by
  intro deadline hdeadline
  rw [next_deadline, Option.map₂_eq_some_iff] at hdeadline
  obtain ⟨d, wait, hd, -, rfl⟩ := hdeadline
  exact Nat.lt_add_right wait (h d hd)

theorem Quiet.iterate (h : p.Quiet nowNs) (k : Nat) : (Playback.next^[k] p).Quiet nowNs := by
  induction k with
  | zero => exact h
  | succ k ih =>
    rw [Function.iterate_succ_apply']
    exact ih.next

/-- If a cycle takes time, no more calls are due after as many as `callBound` says. -/
theorem quiet_after_callBound (h : p.Timed) (hcycle : p.cycleNs? ≠ some 0) :
    (next^[p.callBound nowNs] p).Quiet nowNs := by
  unfold callBound
  split
  · next hzero => exact absurd hzero hcycle
  · next cycle hzero hsome =>
    have hpos : 0 < cycle := Nat.pos_of_ne_zero fun heq => hcycle (heq ▸ hsome)
    intro deadline hdeadline
    rw [deadline_after_rounds h hsome] at hdeadline
    obtain ⟨d, hd, rfl⟩ := Option.map_eq_some_iff.mp hdeadline
    rw [hd, Option.getD_some]
    have hlt := Nat.lt_mul_div_succ (nowNs - d) hpos
    omega
  · next hnone =>
    apply quiet_of_deadline_eq_none
    rw [deadline_after_round h, hnone, Option.map₂_none_right]

/-- Of a cycle that takes time only so many calls are due by any nanosecond. -/
theorem finite_due (h : p.Timed) (hcycle : p.cycleNs? ≠ some 0) (nowNs : Nat) :
    {k | ∃ deadline ≤ nowNs, (next^[k] p).deadline = some deadline}.Finite := by
  refine (Set.finite_lt_nat (p.callBound nowNs)).subset ?_
  rintro k ⟨deadline, hdue, hdeadline⟩
  by_contra hge
  obtain ⟨extra, rfl⟩ := Nat.exists_eq_add_of_le (Nat.le_of_not_lt hge)
  rw [Nat.add_comm, Function.iterate_add_apply] at hdeadline
  have hlt := (quiet_after_callBound h hcycle).iterate extra deadline hdeadline
  omega

/-- A cycle that takes no time comes round for good before any time has passed. -/
theorem infinite_due (h : p.Timed) (hne : 0 < p.segments.size) (hzero : p.cycleNs? = some 0)
    {start : Nat} (hstart : p.deadline = some start) (hnow : start ≤ nowNs) :
    {k | ∃ deadline ≤ nowNs, (next^[k] p).deadline = some deadline}.Infinite := by
  have hrounds : Set.range (p.segments.size * ·) ⊆
      {k | ∃ deadline ≤ nowNs, (next^[k] p).deadline = some deadline} := by
    rintro _ ⟨q, rfl⟩
    refine ⟨start, hnow, ?_⟩
    rw [deadline_after_rounds h hzero, hstart, Option.map_some, Nat.zero_mul, Nat.add_zero]
  have hinjective : Function.Injective (p.segments.size * ·) :=
    fun a b hab => Nat.eq_of_mul_eq_mul_left hne hab
  exact (Set.infinite_range_of_injective hinjective).mono hrounds

end Quiet

section CallDue

variable {nowNs : Nat}

theorem callDue_of_quiet (h : p.Quiet nowNs) (bound : Nat) : callDue nowNs bound p = ([], p) := by
  cases bound with
  | zero => rfl
  | succ bound =>
    rw [callDue]
    split
    · rfl
    · next deadline hdeadline => rw [if_neg (Nat.not_le_of_lt (h deadline hdeadline))]

/-- The next segment is called when its deadline has passed. -/
theorem callDue_of_due {deadline : Nat} (hdeadline : p.deadline = some deadline)
    (hdue : deadline ≤ nowNs) (bound : Nat) :
    callDue nowNs (bound + 1) p =
      (⟨tickOf deadline, p.next.current⟩ :: (callDue nowNs bound p.next).1,
        (callDue nowNs bound p.next).2) := by
  rw [callDue, hdeadline]
  dsimp only
  rw [if_pos hdue]

theorem quiet_or_due (nowNs : Nat) (p : Playback) :
    p.Quiet nowNs ∨ ∃ deadline, p.deadline = some deadline ∧ deadline ≤ nowNs := by
  cases hdeadline : p.deadline with
  | none => exact Or.inl (quiet_of_deadline_eq_none hdeadline)
  | some d =>
    rcases Nat.lt_or_ge nowNs d with hlt | hge
    · refine Or.inl fun deadline hd => ?_
      rw [hdeadline] at hd
      cases hd
      exact hlt
    · exact Or.inr ⟨d, rfl, hge⟩

/-- A bound that suffices for nothing to be due afterwards does so for the calls too. -/
theorem quiet_callDue {bound : Nat} (h : (next^[bound] p).Quiet nowNs) :
    (callDue nowNs bound p).2.Quiet nowNs := by
  induction bound generalizing p with
  | zero => exact h
  | succ bound ih =>
    rcases quiet_or_due nowNs p with hquiet | ⟨deadline, hdeadline, hdue⟩
    · rwa [callDue_of_quiet hquiet]
    · rw [callDue_of_due hdeadline hdue]
      rw [Function.iterate_succ_apply] at h
      exact ih h

/-- Calls made up to one time, and then up to a later one, are those made up to the later one. -/
theorem callDue_append {laterNs : Nat} (hle : nowNs ≤ laterNs) (early late : Nat) (p : Playback) :
    let first := callDue nowNs early p
    let second := callDue laterNs late first.2
    callDue laterNs (first.1.length + late) p = (first.1 ++ second.1, second.2) := by
  induction early generalizing p with
  | zero =>
    intro first second
    have hfirst : first = ([], p) := rfl
    rw [hfirst, List.length_nil, Nat.zero_add]
    rfl
  | succ early ih =>
    rcases quiet_or_due nowNs p with hquiet | ⟨deadline, hdeadline, hdue⟩
    · rw [callDue_of_quiet hquiet]
      intro first second
      rw [List.length_nil, Nat.zero_add]
      rfl
    · rw [callDue_of_due hdeadline hdue]
      intro first second
      rw [List.length_cons, Nat.add_right_comm, callDue_of_due hdeadline (Nat.le_trans hdue hle), ih]
      rfl

/-- Once nothing is due any more, it does not matter how many calls were allowed. -/
theorem callDue_eq_of_quiet {bound other : Nat} (h : (callDue nowNs bound p).2.Quiet nowNs)
    (h' : (callDue nowNs other p).2.Quiet nowNs) :
    callDue nowNs bound p = callDue nowNs other p := by
  have hall : ∀ bound, (callDue nowNs bound p).2.Quiet nowNs → ∀ extra,
      callDue nowNs ((callDue nowNs bound p).1.length + extra) p = callDue nowNs bound p := by
    intro bound hquiet extra
    have happend := callDue_append (Nat.le_refl nowNs) bound extra p
    dsimp only at happend
    rw [callDue_of_quiet hquiet, List.append_nil] at happend
    exact happend
  have hone := hall bound h (callDue nowNs other p).1.length
  have htwo := hall other h' (callDue nowNs bound p).1.length
  rw [← hone, Nat.add_comm, htwo]

end CallDue

section Advance

theorem iterate_next_cancelled (k : Nat) (p : Playback) :
    (next^[k] p).cancelled = p.cancelled := by
  induction k with
  | zero => rfl
  | succ k ih => rwa [Function.iterate_succ_apply']

theorem exists_iterate_callDue (nowNs bound : Nat) (p : Playback) :
    ∃ k, (callDue nowNs bound p).2 = next^[k] p := by
  induction bound generalizing p with
  | zero => exact ⟨0, rfl⟩
  | succ bound ih =>
    rcases quiet_or_due nowNs p with hquiet | ⟨deadline, hdeadline, hdue⟩
    · exact ⟨0, by rw [callDue_of_quiet hquiet, Function.iterate_zero_apply]⟩
    · obtain ⟨k, hk⟩ := ih p.next
      exact ⟨k + 1, by rw [callDue_of_due hdeadline hdue, hk, Function.iterate_succ_apply]⟩

/-- A clock reading moves a playback on by some segments. -/
theorem exists_iterate_advance (nowMs : Nat) (p : Playback) :
    ∃ k, (p.advance nowMs).2 = next^[k] p := by
  unfold advance
  split_ifs
  · exact ⟨0, rfl⟩
  · exact exists_iterate_callDue _ _ p

theorem advance_cancelled (nowMs : Nat) (p : Playback) :
    (p.advance nowMs).2.cancelled = p.cancelled := by
  obtain ⟨k, hk⟩ := exists_iterate_advance nowMs p
  rw [hk, iterate_next_cancelled]

theorem advance_cycleNs? (nowMs : Nat) (p : Playback) :
    (p.advance nowMs).2.cycleNs? = p.cycleNs? := by
  obtain ⟨k, hk⟩ := exists_iterate_advance nowMs p
  rw [hk, iterate_next_cycleNs?]

theorem Timed.advance (h : p.Timed) (nowMs : Nat) : (p.advance nowMs).2.Timed := by
  obtain ⟨k, hk⟩ := exists_iterate_advance nowMs p
  rw [hk]
  exact h.iterate k

theorem advance_of_cancelled (h : p.cancelled = true) (nowMs : Nat) : p.advance nowMs = ([], p) := by
  rw [advance, if_pos h]

theorem advance_of_live (hlive : p.cancelled = false) (nowMs : Nat) :
    p.advance nowMs = callDue (nowMs * 1000000) (p.callBound (nowMs * 1000000)) p := by
  rw [advance, hlive, if_neg Bool.false_ne_true]

/-- A clock reading leaves nothing due of a cycle that takes time. -/
theorem quiet_advance (h : p.Timed) (hlive : p.cancelled = false) (hcycle : p.cycleNs? ≠ some 0)
    (nowMs : Nat) : (p.advance nowMs).2.Quiet (nowMs * 1000000) := by
  rw [advance_of_live hlive]
  exact quiet_callDue (quiet_after_callBound h hcycle)

/-- A clock reading in between changes neither the calls nor what is reached. -/
theorem advance_append (h : p.Timed) (hcycle : p.cancelled = false → p.cycleNs? ≠ some 0)
    {earlyMs lateMs : Nat} (hle : earlyMs ≤ lateMs) :
    p.advance lateMs = ((p.advance earlyMs).1 ++ ((p.advance earlyMs).2.advance lateMs).1,
      ((p.advance earlyMs).2.advance lateMs).2) := by
  cases hlive : p.cancelled with
  | true =>
    rw [advance_of_cancelled hlive earlyMs]
    rfl
  | false =>
    have htakes := hcycle hlive
    have hstillLive : (p.advance earlyMs).2.cancelled = false := by rw [advance_cancelled, hlive]
    have hend : ((p.advance earlyMs).2.advance lateMs).2.Quiet (lateMs * 1000000) := by
      refine quiet_advance (h.advance earlyMs) hstillLive ?_ lateMs
      rwa [advance_cycleNs?]
    -- both readings together are one with a bound of its own, and nothing is due after either
    have hboth := callDue_append (Nat.mul_le_mul_right 1000000 hle)
      (p.callBound (earlyMs * 1000000)) ((p.advance earlyMs).2.callBound (lateMs * 1000000)) p
    dsimp only at hboth
    rw [← advance_of_live hlive, ← advance_of_live hstillLive] at hboth
    rw [← hboth, advance_of_live hlive lateMs]
    apply callDue_eq_of_quiet
    · exact quiet_callDue (quiet_after_callBound h htakes)
    · rwa [hboth]

end Advance

section Start

variable {nowMs : Nat} {cycle : Cycle} {scale : Binary64} {calls : List Call}

/-- A start keeps the segments and takes their waits once for all. -/
theorem start?_waits (h : start? nowMs cycle scale = some (p, calls)) :
    p.segments = cycle.segments.toArray ∧ p.waits = (cycle.segments.map (waitNs? scale)).toArray := by
  have hwaits : cycle.segments.toArray.map (waitNs? scale) =
      (cycle.segments.map (waitNs? scale)).toArray := List.map_toArray
  unfold start? at h
  dsimp only at h
  split at h
  · cases h
    exact ⟨rfl, hwaits⟩
  · split at h
    · cases h
    · split_ifs at h
      cases h
      exact ⟨rfl, hwaits⟩

theorem start?_timed (h : start? nowMs cycle scale = some (p, calls)) : p.Timed := by
  obtain ⟨hsegments, hwaits⟩ := start?_waits h
  rw [Timed, hsegments, hwaits, List.size_toArray, List.size_toArray, List.length_map]

theorem start?_cycleNs? (h : start? nowMs cycle scale = some (p, calls)) :
    p.cycleNs? = together (cycle.segments.map (waitNs? scale)) := by
  rw [cycleNs?_eq_together, (start?_waits h).2]

/-- A cycle can be started just where its first deadline is on the clock. -/
theorem start?_cons_eq_some_iff {first : Segment} {rest : List Segment}
    (hcycle : cycle.segments = first :: rest) :
    start? nowMs cycle scale = some (p, calls) ↔
      ∃ wait, waitNs? scale first = some wait ∧ nowMs * 1000000 + wait < clockBound ∧
        p = ⟨cycle.segments.toArray, cycle.segments.toArray.map (waitNs? scale), 0, 0,
          some (nowMs * 1000000 + wait), false⟩ ∧ calls = [⟨nowMs, first⟩] := by
  unfold start?
  simp only [hcycle]
  cases waitNs? scale first with
  | none => simp
  | some wait =>
    dsimp only
    split_ifs with hclock
    · simp [hclock, eq_comm]
    · simp [hclock]

/-- Only a cycle with a segment is played. -/
theorem start?_cancelled (h : start? nowMs cycle scale = some (p, calls)) :
    p.cancelled = false ↔ cycle.segments ≠ [] := by
  unfold start? at h
  dsimp only at h
  split at h
  · next hnil =>
    cases h
    simp [hnil]
  · next hcons =>
    split at h
    · cases h
    · split_ifs at h
      cases h
      simp [hcons]

end Start

end Playback

end ChartLight
