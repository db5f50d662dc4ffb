import ChartLight.Playback
import Mathlib

/-! A playback that is left alone. Its state after any number of segments is known in advance, and so
is the deadline of the next: the start plus all waits so far, however late the calls were made. What
a clock reading does is to move it on to the first state whose next deadline lies ahead. -/

namespace ChartLight

open Number

theorem tickOf_le_iff (deadlineNs ms : Nat) : tickOf deadlineNs ≤ ms ↔ deadlineNs ≤ ms * 1000000 := by
  unfold tickOf
  omega

/-- Lets a playback go on through clock readings, one after the other. -/
def Playback.advanceThrough : List Nat → Playback → List Call × Playback
  | [], p => ([], p)
  | nowMs :: clock, p =>
    let (calls, p) := p.advance nowMs
    let (later, last) := advanceThrough clock p
    (calls ++ later, last)

/-- What is played, from when on, and how long each segment is shown. -/
structure Course where
  startMs : Nat
  segments : List Segment
  waitNs : Segment → Nat

namespace Course

variable (c : Course)

/-- The waits of one whole cycle together. -/
def cycleNs : Nat := total (c.segments.map c.waitNs)

/-- The segment shown after `k` others, the cycle going round and round. -/
def segmentAfter (k : Nat) : Segment := c.segments[k % c.segments.length]?.getD default

/-- When that segment is due: the start and the waits of all before it. -/
def dueNs (k : Nat) : Nat :=
  c.startMs * 1000000 + total ((List.range k).map fun i => c.waitNs (c.segmentAfter i))

def callAfter (k : Nat) : Call := ⟨tickOf (c.dueNs k), c.segmentAfter k⟩

/-- The playback while the segment after `k` others is shown. -/
def stateAfter (k : Nat) : Playback where
  segments := c.segments.toArray
  waits := (c.segments.map fun s => some (c.waitNs s)).toArray
  index := k % c.segments.length
  cycles := k / c.segments.length
  deadline := some (c.dueNs (k + 1))
  cancelled := false

theorem ne_nil_of_pos (hpos : 0 < c.cycleNs) : c.segments ≠ [] := by
  intro hnil
  rw [cycleNs, hnil] at hpos
  exact absurd hpos (Nat.lt_irrefl 0)

section Due

theorem dueNs_zero : c.dueNs 0 = c.startMs * 1000000 := Nat.add_zero _

theorem dueNs_succ (k : Nat) : c.dueNs (k + 1) = c.dueNs k + c.waitNs (c.segmentAfter k) := by
  rw [dueNs, dueNs, List.range_succ, List.map_append, total_append, ← Nat.add_assoc]
  rfl

theorem dueNs_mono {j k : Nat} (h : j ≤ k) : c.dueNs j ≤ c.dueNs k := by
  induction h with
  | refl => exact Nat.le_refl _
  | step h ih =>
    rw [dueNs_succ]
    omega

theorem getElem?_segmentAfter (hne : c.segments ≠ []) (k : Nat) :
    c.segments[k % c.segments.length]? = some (c.segmentAfter k) := by
  have hlt : k % c.segments.length < c.segments.length :=
    Nat.mod_lt _ (List.length_pos_of_ne_nil hne)
  rw [segmentAfter, List.getElem?_eq_getElem hlt, Option.getD_some]

theorem segmentAfter_add_length (k : Nat) :
    c.segmentAfter (k + c.segments.length) = c.segmentAfter k := by
  rw [segmentAfter, segmentAfter, Nat.add_mod_right]

theorem sum_first_cycle :
    total ((List.range c.segments.length).map fun i => c.waitNs (c.segmentAfter i)) = c.cycleNs := by
  rw [cycleNs]
  congr 1
  refine List.ext_getElem (by simp) fun i h _ => ?_
  have hi : i < c.segments.length := by simpa using h
  simp [segmentAfter, Nat.mod_eq_of_lt hi, hi]

/-- A whole cycle later, everything is due one cycle of waits later. -/
theorem dueNs_add_length (k : Nat) : c.dueNs (k + c.segments.length) = c.dueNs k + c.cycleNs := by
  induction k with
  | zero => rw [Nat.zero_add, dueNs, sum_first_cycle, dueNs_zero]
  | succ k ih =>
    rw [Nat.add_right_comm, dueNs_succ, ih, segmentAfter_add_length, dueNs_succ]
    omega

theorem dueNs_add_mul_length (k q : Nat) :
    c.dueNs (k + c.segments.length * q) = c.dueNs k + c.cycleNs * q := by
  induction q with
  | zero => rw [Nat.mul_zero, Nat.mul_zero, Nat.add_zero, Nat.add_zero]
  | succ q ih =>
    rw [Nat.mul_succ, ← Nat.add_assoc, dueNs_add_length, ih, Nat.mul_succ, Nat.add_assoc]

end Due

section Step

theorem stateAfter_current (k : Nat) : (c.stateAfter k).current = c.segmentAfter k := by
  simp [Playback.current, stateAfter, segmentAfter]

/-- The count of whole cycles goes up where the index comes back to zero. -/
theorem cycles_succ (n k : Nat) :
    (if (k + 1) % n = 0 then k / n + 1 else k / n) = (k + 1) / n := by
  split_ifs with h
  · exact (Nat.succ_div_of_mod_eq_zero h).symm
  · exact (Nat.succ_div_of_mod_ne_zero h).symm

/-- One segment further. -/
theorem stateAfter_next (hne : c.segments ≠ []) (k : Nat) :
    (c.stateAfter k).next = c.stateAfter (k + 1) := by
  have hwait : (c.segments.map fun s => some (c.waitNs s)).toArray[(k + 1) %
      c.segments.length]?.join = some (c.waitNs (c.segmentAfter (k + 1))) := by
    rw [List.getElem?_toArray, List.getElem?_map, getElem?_segmentAfter c hne]
    rfl
  simp only [Playback.next, stateAfter, List.size_toArray, Nat.mod_add_mod, hwait, cycles_succ,
    c.dueNs_succ (k + 1)]
  rfl

theorem stateAfter_cycleNs? (k : Nat) : (c.stateAfter k).cycleNs? = some c.cycleNs := by
  have hall : ∀ l : List Segment, (l.map fun s => some (c.waitNs s)).mapM id =
      some (l.map c.waitNs) := by
    intro l
    induction l with
    | nil => rfl
    | cons s l ih => simp [List.mapM_cons, ih]
  simp only [Playback.cycleNs?, stateAfter, hall, Option.map_some, cycleNs]

theorem stateAfter_callBound (hpos : 0 < c.cycleNs) (k nowNs : Nat) :
    (c.stateAfter k).callBound nowNs =
      c.segments.length * ((nowNs - c.dueNs (k + 1)) / c.cycleNs + 1) := by
  rw [Playback.callBound, stateAfter_cycleNs?]
  cases hcycle : c.cycleNs with
  | zero => omega
  | succ cycle => simp [stateAfter]

/-- The bound on the calls is never what ends them: what it leaves out is not due. -/
theorem lt_dueNs_callBound (hpos : 0 < c.cycleNs) (k nowNs : Nat) :
    nowNs < c.dueNs (k + 1 + (c.stateAfter k).callBound nowNs) := by
  rw [stateAfter_callBound c hpos, dueNs_add_mul_length]
  have hlt := Nat.lt_mul_div_succ (nowNs - c.dueNs (k + 1)) hpos
  omega

end Step

section Run

/-- The calls of the `m` segments that follow the one after `k` others. -/
def callsAfter (k m : Nat) : List Call := (List.range' (k + 1) m).map c.callAfter

theorem callsAfter_append (k m n : Nat) :
    c.callsAfter k m ++ c.callsAfter (k + m) n = c.callsAfter k (m + n) := by
  rw [callsAfter, callsAfter, callsAfter, ← List.map_append, Nat.add_right_comm,
    List.range'_append_1]

/-- Calls are made as long as they are due, or up to the bound. -/
theorem callDue_stateAfter (hne : c.segments ≠ []) (nowNs bound k : Nat) :
    ∃ m, Playback.callDue nowNs bound (c.stateAfter k) =
        (c.callsAfter k m, c.stateAfter (k + m)) ∧
      (m = 0 ∨ c.dueNs (k + m) ≤ nowNs) ∧ (m = bound ∨ nowNs < c.dueNs (k + m + 1)) := by
  induction bound generalizing k with
  | zero => exact ⟨0, rfl, Or.inl rfl, Or.inl rfl⟩
  | succ bound ih =>
    have hdeadline : (c.stateAfter k).deadline = some (c.dueNs (k + 1)) := rfl
    by_cases hdue : c.dueNs (k + 1) ≤ nowNs
    · obtain ⟨m, hcalls, hmade, hlast⟩ := ih (k + 1)
      have hk : k + (m + 1) = k + 1 + m := by omega
      refine ⟨m + 1, ?_, Or.inr ?_, ?_⟩
      · simp only [Playback.callDue, hdeadline, if_pos hdue, stateAfter_next c hne, hcalls,
          stateAfter_current, hk]
        rfl
      · rw [hk]
        rcases hmade with rfl | hmade
        · exact hdue
        · exact hmade
      · rw [hk]
        rcases hlast with rfl | hlast
        · exact Or.inl rfl
        · exact Or.inr hlast
    · refine ⟨0, ?_, Or.inl rfl, Or.inr (Nat.lt_of_not_le hdue)⟩
      simp only [Playback.callDue, hdeadline, if_neg hdue]
      rfl

/-- A clock reading makes exactly the calls that are due by then. -/
theorem advance_stateAfter (hpos : 0 < c.cycleNs) (nowMs k : Nat) :
    ∃ m, (c.stateAfter k).advance nowMs = (c.callsAfter k m, c.stateAfter (k + m)) ∧
      ∀ j, k < j → (j ≤ k + m ↔ (c.callAfter j).atMs ≤ nowMs) := by
  have hlive : (c.stateAfter k).cancelled = false := rfl
  obtain ⟨m, hcalls, hmade, hlast⟩ := c.callDue_stateAfter (c.ne_nil_of_pos hpos) (nowMs * 1000000)
    ((c.stateAfter k).callBound (nowMs * 1000000)) k
  refine ⟨m, ?_, fun j hj => ?_⟩
  · rw [Playback.advance, hlive, ← hcalls]
    rfl
  · have hnext : nowMs * 1000000 < c.dueNs (k + m + 1) := by
      rcases hlast with hbound | hnext
      · rw [Nat.add_right_comm, hbound]
        exact c.lt_dueNs_callBound hpos k _
      · exact hnext
    rw [callAfter, tickOf_le_iff]
    constructor
    · intro hjm
      have hle := c.dueNs_mono hjm
      rcases hmade with rfl | hmade
      · omega
      · omega
    · intro hdue
      refine Nat.le_of_not_lt fun hjm => ?_
      have hle := c.dueNs_mono (Nat.succ_le_of_lt hjm)
      rw [Nat.succ_eq_add_one] at hle
      omega

theorem advanceThrough_stateAfter (hpos : 0 < c.cycleNs) (clock : List Nat) (k : Nat) :
    ∃ m, Playback.advanceThrough clock (c.stateAfter k) =
        (c.callsAfter k m, c.stateAfter (k + m)) ∧
      ∀ j, k < j → (j ≤ k + m ↔ ∃ nowMs ∈ clock, (c.callAfter j).atMs ≤ nowMs) := by
  induction clock generalizing k with
  | nil => exact ⟨0, rfl, fun j hj => by simp; omega⟩
  | cons nowMs clock ih =>
    obtain ⟨m, hcalls, hmade⟩ := c.advance_stateAfter hpos nowMs k
    obtain ⟨n, hlater, hlaterMade⟩ := ih (k + m)
    refine ⟨m + n, ?_, fun j hj => ?_⟩
    · simp only [Playback.advanceThrough, hcalls, hlater, callsAfter_append, Nat.add_assoc]
    · -- a call is made at the first reading that is not before it
      simp only [List.mem_cons, exists_eq_or_imp, ← hmade j hj]
      by_cases hjm : j ≤ k + m
      · exact ⟨fun _ => Or.inl hjm, fun _ => by omega⟩
      · rw [← Nat.add_assoc, hlaterMade j (by omega)]
        simp [hjm]

end Run

section Start

theorem tickOf_startMs : tickOf (c.dueNs 0) = c.startMs := by
  rw [dueNs_zero, tickOf]
  omega

/-- A playback starts with its first segment. -/
theorem start?_eq (hpos : 0 < c.cycleNs) {cycle : Cycle} {scale : Binary64}
    (hcycle : cycle.segments = c.segments)
    (hwait : ∀ s ∈ c.segments, waitNs? scale s = some (c.waitNs s))
    (hclock : c.dueNs 1 < clockBound) :
    Playback.start? c.startMs cycle scale = some (c.stateAfter 0, [c.callAfter 0]) := by
  have hwaits : c.segments.toArray.map (waitNs? scale) =
      (c.segments.map fun s => some (c.waitNs s)).toArray := by
    rw [List.map_toArray, List.map_congr_left hwait]
  cases hsegments : c.segments with
  | nil => exact absurd hsegments (c.ne_nil_of_pos hpos)
  | cons first rest =>
    have hsegment : c.segmentAfter 0 = first := by simp [segmentAfter, hsegments]
    have hfirst : waitNs? scale first = some (c.waitNs first) :=
      hwait first (hsegments ▸ List.mem_cons_self)
    have hdue : c.dueNs 1 = c.startMs * 1000000 + c.waitNs first := by
      rw [dueNs_succ, dueNs_zero, hsegment]
    rw [hdue] at hclock
    rw [hsegments] at hcycle
    simp only [Playback.start?, hcycle, hfirst, if_pos hclock]
    rw [← hsegments, hwaits, callAfter, tickOf_startMs, hsegment, stateAfter, Nat.zero_mod,
      Nat.zero_div, hdue]

end Start

theorem callAfter_zero_append (m : Nat) :
    [c.callAfter 0] ++ c.callsAfter 0 m = (List.range (m + 1)).map c.callAfter := by
  rw [callsAfter, List.range_eq_range', List.range'_succ]
  rfl

theorem stateAfter_status (k : Nat) :
    (c.stateAfter k).status = ⟨true, k % c.segments.length, k / c.segments.length⟩ := rfl

end Course

/-- Lateness never adds up. However the clock is read after a start, the calls made are those whose
deadline has been reached, each of them once and in order, and a deadline is the start plus the waits
of all segments before. -/
theorem Playback.on_time (startMs : Nat) (cycle : Cycle) (scale : Binary64) {waitNs : Segment → Nat}
    (hwait : ∀ s ∈ cycle.segments, waitNs? scale s = some (waitNs s))
    (hpos : 0 < total (cycle.segments.map waitNs))
    (hclock : (Course.mk startMs cycle.segments waitNs).dueNs 1 < clockBound) :
    ∃ p first, start? startMs cycle scale = some (p, first) ∧ ∀ clock : List Nat,
      let dueNs := (Course.mk startMs cycle.segments waitNs).dueNs
      let calls := first ++ (advanceThrough clock p).1
      (∀ k, k < calls.length ↔ k = 0 ∨ ∃ nowMs ∈ clock, dueNs k ≤ nowMs * 1000000) ∧
      (∀ k call, calls[k]? = some call →
        cycle.segments[k % cycle.segments.length]? = some call.segment ∧
        (∀ ms, call.atMs ≤ ms ↔ dueNs k ≤ ms * 1000000) ∧ (k = 0 → call.atMs = startMs)) ∧
      ∀ k, calls.length = k + 1 → (advanceThrough clock p).2.status =
        ⟨true, k % cycle.segments.length, k / cycle.segments.length⟩ := by
  let c := Course.mk startMs cycle.segments waitNs
  have hne : c.segments ≠ [] := c.ne_nil_of_pos hpos
  refine ⟨c.stateAfter 0, [c.callAfter 0], c.start?_eq hpos rfl hwait hclock, fun clock => ?_⟩
  obtain ⟨m, hrun, hmade⟩ := c.advanceThrough_stateAfter hpos clock 0
  rw [hrun, Nat.zero_add, c.callAfter_zero_append]
  refine ⟨fun k => ?_, fun k call hcall => ?_, fun k hk => ?_⟩
  · rw [List.length_map, List.length_range]
    by_cases hk : k = 0
    · simp [hk]
    · have hk' := hmade k (Nat.pos_of_ne_zero hk)
      simp only [Course.callAfter, tickOf_le_iff] at hk'
      rw [← hk']
      omega
  · rw [List.getElem?_map, Option.map_eq_some_iff] at hcall
    obtain ⟨j, hj, rfl⟩ := hcall
    obtain ⟨_, hjk⟩ := List.getElem?_eq_some_iff.1 hj
    rw [List.getElem_range] at hjk
    subst hjk
    refine ⟨c.getElem?_segmentAfter hne k, fun ms => tickOf_le_iff _ _, ?_⟩
    rintro rfl
    exact c.tickOf_startMs
  · rw [List.length_map, List.length_range, Nat.add_right_cancel_iff] at hk
    rw [← hk]
    exact c.stateAfter_status m

/-- At half the durations the deadlines are 0, 0.5, 1.5, 2 and 3 milliseconds, so four calls have
been made when the clock reads 2. -/
theorem Playback.on_time_half :
    ∃ p first, start? 0 ⟨3, [⟨1, true, .red⟩, ⟨2, false, .red⟩]⟩ (Binary64.ofRatio false 1 2) =
        some (p, first) ∧ (first ++ (advanceThrough [2] p).1).length = 4 ∧
      (advanceThrough [2] p).2.status = ⟨true, 1, 1⟩ := by
  have hwait : ∀ s ∈ [Segment.mk 1 true .red, ⟨2, false, .red⟩],
      waitNs? (Binary64.ofRatio false 1 2) s = some (s.durationMs * 500000) := by
    decide +kernel
  obtain ⟨p, first, hstart, hrun⟩ := on_time 0 ⟨3, _⟩ _ hwait (by decide) (by decide +kernel)
  obtain ⟨hmade, -, hstatus⟩ := hrun [2]
  have h3 := (hmade 3).2 (Or.inr ⟨2, by decide, by decide⟩)
  have h4 := mt (hmade 4).1 (by decide)
  have hlength : (first ++ (advanceThrough [2] p).1).length = 4 := by omega
  exact ⟨p, first, hstart, hlength, hstatus 3 hlength⟩

end ChartLight
