import ChartLight.Playback.Roster
import Mathlib

/-! What stands under one name of a roster, and what it calls, after each change of the roster. -/

namespace ChartLight

namespace Roster

variable {r : Roster} {name : String}

theorem find?_filter (r : Roster) (keep : String → Bool) (name : String) :
    find? (r.filter (keep ·.1)) name = if keep name then r.find? name else none := by
  unfold find?
  induction r with
  | nil => simp
  | cons e r ih =>
    obtain ⟨other, p⟩ := e
    rw [List.filter_cons, List.lookup_cons]
    by_cases hname : name = other
    · subst hname
      cases hkeep : keep name with
      | true => simp
      | false => simpa [hkeep] using ih
    · have hname' : (name == other) = false := by simpa using hname
      rw [hname']
      cases hkeep : keep other with
      | true => simpa [hkeep, List.lookup_cons, hname'] using ih
      | false => simpa [hkeep] using ih

theorem find?_put (r : Roster) (name other : String) (p : Playback) :
    (r.put name p).find? other = if other = name then some p else r.find? other := by
  have hrest := r.find?_filter (· != name) other
  rw [find?] at hrest
  rw [find?, put, remove, List.lookup_cons, hrest]
  by_cases h : other = name
  · simp [h]
  · have h' : (other == name) = false := by simpa using h
    simp [h, h', bne]

theorem find?_advance (r : Roster) (nowMs : Nat) (name : String) :
    find? (r.advance nowMs).2 name = (r.find? name).map fun p => (p.advance nowMs).2 := by
  induction r with
  | nil => rfl
  | cons e r ih =>
    obtain ⟨other, p⟩ := e
    have hcons : (advance nowMs ((other, p) :: r)).2 =
        (other, (p.advance nowMs).2) :: (advance nowMs r).2 := rfl
    rw [hcons, find?, find?, List.lookup_cons, List.lookup_cons]
    cases name == other with
    | true => rfl
    | false => exact ih

theorem find?_eq_none (h : name ∉ r.map Prod.fst) : r.find? name = none := by
  refine List.lookup_eq_none_iff.mpr fun e he => ?_
  have hne : name ≠ e.1 := fun heq => h (heq ▸ List.mem_map_of_mem he)
  simpa using hne

/-- When no name stands twice, the calls under a name are those of the playback found there. -/
theorem advance_calls (hnodup : (r.map Prod.fst).Nodup) (nowMs : Nat) (name : String) :
    (r.advance nowMs).1.filter (·.name == name) =
      (r.find? name).elim [] fun p => (p.advance nowMs).1.map (⟨name, ·⟩) := by
  induction r with
  | nil => rfl
  | cons e r ih =>
    obtain ⟨other, p⟩ := e
    obtain ⟨hfresh, hnodup⟩ := List.nodup_cons.mp hnodup
    have hcons : (advance nowMs ((other, p) :: r)).1 =
        (p.advance nowMs).1.map (⟨other, ·⟩) ++ (advance nowMs r).1 := by simp [advance]
    rw [hcons, List.filter_append, ih hnodup]
    by_cases hname : other = name
    · subst hname
      have hnone : find? r other = none := find?_eq_none hfresh
      have hfind : find? ((other, p) :: r) other = some p := by simp [find?]
      rw [hnone, hfind, Option.elim_none, Option.elim_some, List.append_nil]
      exact List.filter_eq_self.mpr (by simp)
    · have hfind : find? ((other, p) :: r) name = find? r name := by
        have hname' : (name == other) = false := by simpa using Ne.symm hname
        rw [find?, List.lookup_cons, hname']
        rfl
      rw [hfind, List.filter_eq_nil_iff.mpr (by simp [hname]), List.nil_append]

theorem mem_names : name ∈ r.names ↔ (r.find? name).isSome := by
  rw [names, List.mem_mergeSort, Option.isSome_iff_ne_none]
  refine ⟨fun hmem hnone => ?_, fun hsome => by_contra fun hmem => hsome (find?_eq_none hmem)⟩
  obtain ⟨e, he, rfl⟩ := List.mem_map.mp hmem
  simpa using List.lookup_eq_none_iff.mp hnone e he

end Roster

end ChartLight
