import ChartLight.Proofs.Fit
import ChartLight.Proofs.Trim

/-! The group of a light can be read off its cycle. The segments are read as flashes, each lit segment
with the darkness up to the next. Darkness between two flashes comes from the rhythm alone: what fills
the period lies after the last flash, and is no gap. -/

namespace ChartLight

/-- A lit segment and the dark ones after it. -/
structure Flash where
  litMs : Nat
  darkMs : List Nat

/-- The length of a rhythm's flashes and of the gaps between them. -/
def Rhythm.flash? : Rhythm → Option (Nat × Nat)
  | .flashing => some (500, 1000)
  | .longFlashing => some (2000, 2000)
  | rhythm => rhythm.quickRate?.map fun rate => (rate / 2, rate / 2)

/-- The length of a mark of the Morse code. -/
def Morse.markMs? : Char → Option Nat
  | '.' => some 300
  | '-' => some 900
  | _ => none

theorem Rhythm.flash?_cases {rhythm : Rhythm} {flashMs gapMs : Nat}
    (h : rhythm.flash? = some (flashMs, gapMs)) :
    (rhythm = .flashing ∧ flashMs = 500 ∧ gapMs = 1000) ∨
      (rhythm = .longFlashing ∧ flashMs = 2000 ∧ gapMs = 2000) ∨
      ∃ rate, rhythm.quickRate? = some rate ∧ flashMs = rate / 2 ∧ gapMs = rate / 2 ∧
        0 < rate / 2 ∧ rate - rate / 2 = rate / 2 := by
  cases rhythm <;> simp [flash?, quickRate?] at h ⊢ <;> omega

theorem Morse.exists_pattern? {c : Char} (h : c.isUpper) : ∃ code, pattern? c = some code := by
  have hletters : ((List.range 26).all fun n => (pattern? (Char.ofNat (65 + n))).isSome) = true := by
    decide +kernel
  obtain ⟨hlow, hhigh⟩ := Text.toNat_of_isUpper h
  have hc := List.all_eq_true.mp hletters (c.toNat - 65) (List.mem_range.mpr (by omega))
  rw [show 65 + (c.toNat - 65) = c.toNat by omega, Char.ofNat_toNat] at hc
  exact Option.isSome_iff_exists.mp hc

theorem Morse.mem_pattern? {c : Char} {code : String} (h : pattern? c = some code) :
    ∀ mark ∈ code.toList, mark = '.' ∨ mark = '-' := by
  have hall : (code.toList.all fun mark => mark == '.' || mark == '-') = true := by
    unfold pattern? at h
    split at h <;> cases h <;> decide
  simpa using hall

/-- The marks of a code in milliseconds. -/
theorem Morse.map_markMs? {c : Char} {code : String} (h : pattern? c = some code) :
    code.toList.map markMs? =
      (code.toList.map fun mark => if mark = '-' then 900 else 300).map some := by
  rw [List.map_map]
  refine List.map_congr_left fun mark hmark => ?_
  rcases mem_pattern? h mark hmark with rfl | rfl <;> rfl

namespace Flash

/-- The flashes of some segments. What is dark before the first belongs to none. -/
def ofSegments : List Segment → List Flash
  | [] => []
  | s :: rest =>
    if s.lit then
      ⟨s.durationMs, (rest.takeWhile (!·.lit)).map Segment.durationMs⟩ :: ofSegments rest
    else ofSegments rest

/-- The segments of some flashes. -/
def segments (lamp : Lamp) (flashes : List Flash) : List Segment :=
  flashes.flatMap fun f => lamp.on f.litMs :: f.darkMs.map lamp.off

/-- Further darkness after the last flash. -/
def prolong (fill : List Nat) : List Flash → List Flash
  | [] => []
  | [f] => [⟨f.litMs, f.darkMs ++ fill⟩]
  | f :: g :: fs => f :: prolong fill (g :: fs)

/-- Flashes of given lengths with one gap between them. -/
def spaced (gap : Nat) (last : List Nat) : List Nat → List Flash
  | [] => []
  | [ms] => [⟨ms, last⟩]
  | ms :: ms' :: rest => ⟨ms, [gap]⟩ :: spaced gap last (ms' :: rest)

/-- The flashes of a composite group, part by part. -/
def ofParts (last : List Nat) : List Nat → List (List Flash)
  | [] => []
  | [n] => [spaced 500 last (List.replicate n 500)]
  | n :: m :: parts =>
    spaced 500 [500, 1500] (List.replicate n 500) :: ofParts last (m :: parts)

section Reading

variable (lamp : Lamp)

theorem segments_cons (f : Flash) (fs : List Flash) :
    segments lamp (f :: fs) = lamp.on f.litMs :: (f.darkMs.map lamp.off ++ segments lamp fs) := rfl

theorem map_litMs_ofSegments (l : List Segment) :
    (ofSegments l).map litMs = (l.filter (·.lit)).map Segment.durationMs := by
  induction l with
  | nil => rfl
  | cons s l ih =>
    unfold ofSegments
    by_cases h : s.lit
    · simp [h, ih]
    · simp [h, ih]

theorem ofSegments_on_cons (ms : Nat) (l : List Segment) :
    ofSegments (lamp.on ms :: l) =
      ⟨ms, (l.takeWhile (!·.lit)).map Segment.durationMs⟩ :: ofSegments l := by
  simp [ofSegments, Lamp.on]

theorem ofSegments_off_append (dark : List Nat) (l : List Segment) :
    ofSegments (dark.map lamp.off ++ l) = ofSegments l := by
  induction dark with
  | nil => rfl
  | cons ms dark ih => simp [ofSegments, Lamp.off, ih]

theorem takeWhile_off_append (dark : List Nat) (l : List Segment) :
    ((dark.map lamp.off ++ l).takeWhile (!·.lit)).map Segment.durationMs =
      dark ++ (l.takeWhile (!·.lit)).map Segment.durationMs := by
  induction dark with
  | nil => rfl
  | cons ms dark ih => simpa [Lamp.off] using ih

/-- Reading what was written gives the flashes back; darkness at the end is part of the last. -/
theorem ofSegments_segments_append (fs : List Flash) (fill : List Nat) :
    ofSegments (segments lamp fs ++ fill.map lamp.off) = prolong fill fs := by
  induction fs with
  | nil => simpa [ofSegments, segments, prolong] using ofSegments_off_append lamp fill []
  | cons f fs ih =>
    rw [segments_cons, List.cons_append, List.append_assoc, ofSegments_on_cons,
      ofSegments_off_append, takeWhile_off_append, ih]
    cases fs with
    | nil => simpa [segments, prolong] using takeWhile_off_append lamp fill []
    | cons g gs =>
      -- the next flash begins lit, so it ends the darkness of this one
      simp [segments_cons, prolong, Lamp.on]

end Reading

section Shapes

theorem map_litMs_prolong (fill : List Nat) (fs : List Flash) :
    (prolong fill fs).map litMs = fs.map litMs := by
  fun_induction prolong fill fs with
  | case1 => rfl
  | case2 f => rfl
  | case3 f g fs ih => rw [List.map_cons, ih]; rfl

theorem prolong_ne_nil (fill : List Nat) {fs : List Flash} (h : fs ≠ []) : prolong fill fs ≠ [] := by
  intro hnil
  have hlits := map_litMs_prolong fill fs
  rw [hnil, List.map_nil, eq_comm, List.map_eq_nil_iff] at hlits
  exact h hlits

theorem dropLast_prolong (fill : List Nat) (fs : List Flash) :
    (prolong fill fs).dropLast = fs.dropLast := by
  fun_induction prolong fill fs with
  | case1 => rfl
  | case2 f => rfl
  | case3 f g fs ih =>
    rw [List.dropLast_cons_of_ne_nil (prolong_ne_nil fill (List.cons_ne_nil g fs)), ih,
      List.dropLast_cons_cons]

theorem prolong_append (fill : List Nat) (fs : List Flash) {gs : List Flash} (h : gs ≠ []) :
    prolong fill (fs ++ gs) = fs ++ prolong fill gs := by
  induction fs with
  | nil => rfl
  | cons f fs ih =>
    obtain ⟨g, rest, hrest⟩ := List.exists_cons_of_ne_nil (List.append_ne_nil_of_right_ne_nil fs h)
    rw [List.cons_append, hrest, prolong, ← hrest, ih, List.cons_append]

variable (gap : Nat) (last : List Nat)

theorem map_litMs_spaced (lits : List Nat) : (spaced gap last lits).map litMs = lits := by
  fun_induction spaced gap last lits with
  | case1 => rfl
  | case2 ms => rfl
  | case3 ms ms' lits ih => rw [List.map_cons, ih]

theorem length_spaced (lits : List Nat) : (spaced gap last lits).length = lits.length := by
  rw [← List.length_map litMs, map_litMs_spaced]

theorem spaced_ne_nil {lits : List Nat} (h : lits ≠ []) : spaced gap last lits ≠ [] := by
  rw [← List.length_pos_iff_ne_nil, length_spaced]
  exact List.length_pos_of_ne_nil h

theorem dropLast_spaced (lits : List Nat) :
    (spaced gap last lits).dropLast = lits.dropLast.map fun ms => ⟨ms, [gap]⟩ := by
  fun_induction spaced gap last lits with
  | case1 => rfl
  | case2 ms => rfl
  | case3 ms ms' lits ih =>
    rw [List.dropLast_cons_of_ne_nil (spaced_ne_nil gap last (List.cons_ne_nil ms' lits)), ih,
      List.dropLast_cons_cons, List.map_cons]

theorem map_darkMs_dropLast_spaced (lits : List Nat) :
    (spaced gap last lits).dropLast.map darkMs = List.replicate (lits.length - 1) [gap] := by
  rw [dropLast_spaced, List.map_map, ← List.length_dropLast]
  exact List.map_const' ..

theorem getLast_spaced {lits : List Nat} (h : spaced gap last lits ≠ []) :
    ((spaced gap last lits).getLast h).darkMs = last := by
  fun_induction spaced gap last lits with
  | case1 => exact absurd rfl h
  | case2 ms => rfl
  | case3 ms ms' lits ih =>
    rw [List.getLast_cons (spaced_ne_nil gap last (List.cons_ne_nil ms' lits)), ih]

theorem prolong_spaced (fill : List Nat) (lits : List Nat) :
    prolong fill (spaced gap last lits) = spaced gap (last ++ fill) lits := by
  fun_induction spaced gap last lits with
  | case1 => rfl
  | case2 ms => rfl
  | case3 ms ms' lits ih =>
    rw [spaced, ← ih]
    obtain ⟨g, rest, hrest⟩ :=
      List.exists_cons_of_ne_nil (spaced_ne_nil gap last (List.cons_ne_nil ms' lits))
    rw [hrest, prolong]

end Shapes

section Written

variable (lamp : Lamp)

theorem segments_append (fs gs : List Flash) :
    segments lamp (fs ++ gs) = segments lamp fs ++ segments lamp gs := List.flatMap_append

theorem segments_prolong (fill : List Nat) {fs : List Flash} (h : fs ≠ []) :
    segments lamp (prolong fill fs) = segments lamp fs ++ fill.map lamp.off := by
  fun_induction prolong fill fs with
  | case1 => exact absurd rfl h
  | case2 f => simp [segments]
  | case3 f g fs ih =>
    rw [segments_cons, ih (List.cons_ne_nil g fs), segments_cons lamp f (g :: fs), List.cons_append,
      List.append_assoc]

theorem segments_spaced (gap : Nat) (lits : List Nat) :
    segments lamp (spaced gap [] lits) = (lits.map lamp.on).intersperse (lamp.off gap) := by
  fun_induction spaced gap [] lits with
  | case1 => rfl
  | case2 ms => rfl
  | case3 ms ms' lits ih =>
    rw [segments_cons, ih]
    rfl

/-- The same flashes where each is written with the darkness after it. -/
theorem segments_spaced_replicate (n litMs gap : Nat) :
    segments lamp (spaced gap [gap] (List.replicate n litMs)) =
      (List.replicate n [lamp.on litMs, lamp.off gap]).flatten := by
  induction n with
  | zero => rfl
  | succ n ih =>
    rw [List.replicate_succ, List.replicate_succ, List.flatten_cons, ← ih]
    cases n with
    | zero => rfl
    | succ n => rfl

theorem segments_ofParts {parts : List Nat} (h : ∀ n ∈ parts, 1 ≤ n ∧ n ≤ 99) :
    segments lamp (ofParts [500] parts).flatten = lamp.composite parts := by
  induction parts with
  | nil => rfl
  | cons n parts ih =>
    obtain ⟨⟨hpos, hle⟩, hparts⟩ := List.forall_mem_cons.mp h
    have hpart : segments lamp (spaced 500 [500] (List.replicate n 500)) =
        lamp.part (min n Group.maxElement) := by
      rw [segments_spaced_replicate, Group.maxElement, Nat.min_eq_left hle]
      rfl
    cases parts with
    | nil => simp [ofParts, Lamp.composite, hpart]
    | cons m parts =>
      have hne : spaced 500 [500] (List.replicate n 500) ≠ [] :=
        spaced_ne_nil _ _ (by simp; omega)
      -- the pause is further darkness after the last flash of the part
      rw [ofParts, List.flatten_cons, segments_append, ih hparts,
        show [500, 1500] = [500] ++ [1500] from rfl, ← prolong_spaced, segments_prolong lamp _ hne,
        hpart]
      simp [Lamp.composite, List.intercalate]

end Written

section Runs

/-- Whether a flash is followed by something else than the pause after a part. -/
def goesOn (f : Flash) : Bool := total f.darkMs != 2000

theorem mem_spaced {gap : Nat} {last lits : List Nat} {f : Flash} (h : f ∈ spaced gap last lits) :
    f.litMs ∈ lits ∧ (f.darkMs = [gap] ∨ f.darkMs = last) := by
  fun_induction spaced gap last lits with
  | case1 => simp at h
  | case2 ms =>
    rw [List.mem_singleton] at h
    subst h
    exact ⟨List.mem_singleton_self ms, Or.inr rfl⟩
  | case3 ms ms' lits ih =>
    rcases List.mem_cons.mp h with rfl | h
    · exact ⟨List.mem_cons_self, Or.inl rfl⟩
    · exact ⟨List.mem_cons_of_mem ms (ih h).1, (ih h).2⟩

theorem isChain_spaced {gap : Nat} (hgap : gap ≠ 2000) (last lits : List Nat) :
    (spaced gap last lits).IsChain fun f _ => f.goesOn := by
  have hgoes (ms : Nat) : goesOn ⟨ms, [gap]⟩ := by simpa [goesOn, total] using hgap
  fun_induction spaced gap last lits with
  | case1 => exact List.isChain_nil
  | case2 ms => exact List.isChain_singleton _
  | case3 ms ms' lits ih => exact List.isChain_cons.mpr ⟨fun _ _ => hgoes ms, ih⟩

theorem map_length_ofParts (last : List Nat) (parts : List Nat) :
    (ofParts last parts).map List.length = parts := by
  fun_induction ofParts last parts with
  | case1 => rfl
  | case2 n => simp [length_spaced]
  | case3 n m parts ih => rw [List.map_cons, ih, length_spaced, List.length_replicate]

theorem replicate_ne_nil {n : Nat} (h : 1 ≤ n) : List.replicate n 500 ≠ [] := by
  simp
  omega

theorem ne_nil_of_mem_ofParts {last parts : List Nat} (h : ∀ n ∈ parts, 1 ≤ n) {run : List Flash}
    (hrun : run ∈ ofParts last parts) : run ≠ [] := by
  rintro rfl
  have hlength := List.mem_map_of_mem (f := List.length) hrun
  rw [map_length_ofParts] at hlength
  exact absurd (h _ hlength) (by simp)

theorem flatten_ofParts_ne_nil (last : List Nat) {parts : List Nat} (h : ∀ n ∈ parts, 1 ≤ n)
    (hne : parts ≠ []) : (ofParts last parts).flatten ≠ [] := by
  have hruns : ofParts last parts ≠ [] := by
    intro hnil
    have hlength := map_length_ofParts last parts
    rw [hnil] at hlength
    exact hne hlength.symm
  obtain ⟨run, hrun⟩ := List.exists_mem_of_ne_nil _ hruns
  obtain ⟨f, hf⟩ := List.exists_mem_of_ne_nil _ (ne_nil_of_mem_ofParts h hrun)
  exact List.ne_nil_of_mem (List.mem_flatten_of_mem hrun hf)

theorem prolong_ofParts (fill last : List Nat) {parts : List Nat} (h : ∀ n ∈ parts, 1 ≤ n) :
    prolong fill (ofParts last parts).flatten = (ofParts (last ++ fill) parts).flatten := by
  fun_induction ofParts last parts with
  | case1 => rfl
  | case2 n => simp [ofParts, prolong_spaced]
  | case3 n m parts ih =>
    have hparts := (List.forall_mem_cons.mp h).2
    have hne := flatten_ofParts_ne_nil last hparts (List.cons_ne_nil m parts)
    rw [List.flatten_cons, prolong_append fill _ hne, ih hparts]
    rfl

/-- The pauses, and nothing else, part one run of flashes from the next. -/
theorem splitBy_ofParts (last : List Nat) {parts : List Nat} (h : ∀ n ∈ parts, 1 ≤ n) :
    (ofParts last parts).flatten.splitBy (fun f _ => f.goesOn) = ofParts last parts := by
  refine List.splitBy_flatten (fun hnil => ne_nil_of_mem_ofParts h hnil rfl) ?_ ?_
  · fun_induction ofParts last parts with
    | case1 => simp
    | case2 n => simpa using isChain_spaced (by decide) last _
    | case3 n m parts ih =>
      exact List.forall_mem_cons.mpr
        ⟨isChain_spaced (by decide) _ _, ih (List.forall_mem_cons.mp h).2⟩
  · fun_induction ofParts last parts with
    | case1 => exact List.isChain_nil
    | case2 n => exact List.isChain_singleton _
    | case3 n m parts ih =>
      obtain ⟨hn, hparts⟩ := List.forall_mem_cons.mp h
      refine List.isChain_cons.mpr ⟨fun run hrun => ?_, ih hparts⟩
      have hne := spaced_ne_nil 500 [500, 1500] (replicate_ne_nil hn)
      refine ⟨hne, ne_nil_of_mem_ofParts hparts (List.mem_of_mem_head? hrun), ?_⟩
      rw [goesOn, getLast_spaced]
      rfl

theorem mem_dropLast_ofParts {last parts : List Nat} {f : Flash}
    (h : f ∈ (ofParts last parts).flatten.dropLast) :
    total f.darkMs = 500 ∨ total f.darkMs = 2000 := by
  fun_induction ofParts last parts with
  | case1 => simp at h
  | case2 n =>
    rw [List.flatten_singleton, dropLast_spaced] at h
    obtain ⟨ms, -, rfl⟩ := List.mem_map.mp h
    exact Or.inl rfl
  | case3 n m parts ih =>
    rw [List.flatten_cons, List.dropLast_append] at h
    have hmem : f ∈ spaced 500 [500, 1500] (List.replicate n 500) ∨
        f ∈ (ofParts last (m :: parts)).flatten.dropLast := by
      split_ifs at h
      · exact Or.inl (List.mem_of_mem_dropLast h)
      · exact List.mem_append.mp h
    rcases hmem with hrun | hrest
    · rcases (mem_spaced hrun).2 with hdark | hdark
      · exact Or.inl (by rw [hdark]; rfl)
      · exact Or.inr (by rw [hdark]; rfl)
    · exact ih hrest

theorem mem_ofParts {last parts : List Nat} {f : Flash} (h : f ∈ (ofParts last parts).flatten) :
    f.litMs = 500 ∧ (f.darkMs = [500] ∨ f.darkMs = [500, 1500] ∨ f.darkMs = last) := by
  fun_induction ofParts last parts with
  | case1 => simp at h
  | case2 n =>
    rw [List.flatten_singleton] at h
    exact ⟨List.eq_of_mem_replicate (mem_spaced h).1, (mem_spaced h).2.imp_right Or.inr⟩
  | case3 n m parts ih =>
    rw [List.flatten_cons, List.mem_append] at h
    rcases h with h | h
    · exact ⟨List.eq_of_mem_replicate (mem_spaced h).1, (mem_spaced h).2.imp_right Or.inl⟩
    · exact ih h

end Runs

/-- A flash that leaves a trace: no segment of it has no length. -/
def Lasting (f : Flash) : Prop := 0 < f.litMs ∧ ∀ ms ∈ f.darkMs, 0 < ms

theorem pos_of_lasting (lamp : Lamp) {fs : List Flash} (h : ∀ f ∈ fs, f.Lasting) :
    ∀ s ∈ segments lamp fs, 0 < s.durationMs := by
  intro s hs
  obtain ⟨f, hf, hs⟩ := List.mem_flatMap.mp hs
  rcases List.mem_cons.mp hs with rfl | hs
  · exact (h f hf).1
  · obtain ⟨ms, hms, rfl⟩ := List.mem_map.mp hs
    exact (h f hf).2 ms hms

theorem lasting_spaced {gap : Nat} {last lits : List Nat} (hlits : ∀ ms ∈ lits, 0 < ms)
    (hgap : 0 < gap) (hlast : ∀ ms ∈ last, 0 < ms) : ∀ f ∈ spaced gap last lits, f.Lasting := by
  intro f hf
  obtain ⟨hlit, hdark | hdark⟩ := mem_spaced hf
  · exact ⟨hlits _ hlit, by simpa [hdark] using hgap⟩
  · exact ⟨hlits _ hlit, by rwa [hdark]⟩

theorem lasting_ofParts (parts : List Nat) : ∀ f ∈ (ofParts [500] parts).flatten, f.Lasting := by
  intro f hf
  obtain ⟨hlit, hdark | hdark | hdark⟩ := mem_ofParts hf <;> simp [Lasting, hlit, hdark]

end Flash

namespace Characteristic

variable (light : Characteristic)

/-- The period is filled up behind the pattern. -/
theorem cycle_extend_segments :
    ∃ fill : List Nat, (light.cycle .extend).segments = light.pattern ++ fill.map light.lamp.off := by
  simp only [cycle]
  split_ifs
  · exact ⟨[light.periodMs - totalMs light.pattern], rfl⟩
  · exact ⟨[], (List.append_nil _).symm⟩

/-- What fills the period is dark. -/
theorem countP_lit_cycle :
    (light.cycle .extend).segments.countP (·.lit) = light.pattern.countP (·.lit) := by
  obtain ⟨fill, hcycle⟩ := light.cycle_extend_segments
  simp [hcycle, List.countP_map, Function.comp_def, Lamp.off]

theorem tailPattern_eq_nil {light : Characteristic} (htail : light.longFlashTail = false) :
    light.tailPattern = [] := by
  rw [tailPattern, htail, if_neg Bool.false_ne_true]

/-- The flashes of a cycle are those of its rhythm, the last with a longer darkness. -/
theorem ofSegments_cycle {light : Characteristic} (htail : light.longFlashTail = false)
    {fs : List Flash} (hrhythm : light.rhythmPattern = Flash.segments light.lamp fs)
    (hlasting : ∀ f ∈ fs, f.Lasting) :
    ∃ fill, Flash.ofSegments (light.cycle .extend).segments = Flash.prolong fill fs := by
  have hpattern : light.pattern = Flash.segments light.lamp fs := by
    rw [pattern, tailPattern_eq_nil htail, List.append_nil, hrhythm, List.filter_eq_self]
    simpa using Flash.pos_of_lasting light.lamp hlasting
  obtain ⟨fill, hcycle⟩ := light.cycle_extend_segments
  exact ⟨fill, by rw [hcycle, hpattern, Flash.ofSegments_segments_append]⟩

theorem rhythmPattern_composite {light : Characteristic} {parts : List Nat}
    (hgroup : light.group = .composite parts) : light.rhythmPattern = light.lamp.composite parts := by
  rw [rhythmPattern, hgroup]

theorem rhythmPattern_quick {light : Characteristic} {rate : Nat}
    (hgroup : ∀ parts, light.group ≠ .composite parts)
    (hrate : light.rhythm.quickRate? = some rate) :
    light.rhythmPattern = light.lamp.quickFlashes (light.quickCount rate) rate := by
  unfold rhythmPattern
  split
  · next parts hparts => exact absurd hparts (hgroup parts)
  · cases hrhythm : light.rhythm <;> rw [hrhythm] at hrate <;> cases hrate <;> rfl

/-- Light that does not change, of a fixed light or one that has no second colour to alternate with. -/
theorem rhythmPattern_steady {light : Characteristic}
    (hgroup : ∀ parts, light.group ≠ .composite parts)
    (hsteady : light.rhythm = .fixed ∨ light.rhythm = .alternating ∧ light.altColor = none) :
    light.rhythmPattern = [light.lamp.on light.periodMs] := by
  unfold rhythmPattern
  split
  · next parts hparts => exact absurd hparts (hgroup parts)
  · rcases hsteady with hrhythm | ⟨hrhythm, halt⟩
    · rw [hrhythm]
    · rw [hrhythm, halt]

theorem rhythmPattern_isophase {light : Characteristic}
    (hgroup : ∀ parts, light.group ≠ .composite parts) (hrhythm : light.rhythm = .isophase) :
    light.rhythmPattern =
      [light.lamp.on (light.periodMs / 2), light.lamp.off (light.periodMs - light.periodMs / 2)] := by
  unfold rhythmPattern
  split
  · next parts hparts => exact absurd hparts (hgroup parts)
  · rw [hrhythm]

theorem rhythmPattern_alternating {light : Characteristic} {altColor : Color}
    (hgroup : ∀ parts, light.group ≠ .composite parts) (hrhythm : light.rhythm = .alternating)
    (halt : light.altColor = some altColor) :
    light.rhythmPattern =
      [light.lamp.on (light.periodMs / 2), ⟨light.periodMs - light.periodMs / 2, true, altColor⟩] := by
  unfold rhythmPattern
  split
  · next parts hparts => exact absurd hparts (hgroup parts)
  · rw [hrhythm, halt]

/-- A count makes as many flashes, each of the length and with the gap of the rhythm. -/
theorem rhythmPattern_count {light : Characteristic} {n flashMs gapMs : Nat}
    (hgroup : light.group = .count n) (hpos : 1 ≤ n) (hle : n ≤ 99)
    (hflash : light.rhythm.flash? = some (flashMs, gapMs)) :
    ∃ last, light.rhythmPattern =
        Flash.segments light.lamp (Flash.spaced gapMs last (List.replicate n flashMs)) ∧
      ∀ f ∈ Flash.spaced gapMs last (List.replicate n flashMs), f.Lasting := by
  have hcount : light.group.flashCount? = some n := by
    simp [Group.flashCount?, Group.count?, Group.maxElement, hgroup]
    omega
  have hflashes (flashMs gapMs : Nat) : light.lamp.flashes n flashMs gapMs =
      Flash.segments light.lamp (Flash.spaced gapMs [] (List.replicate n flashMs)) := by
    rw [Flash.segments_spaced, List.map_replicate, Lamp.flashes]
  have hlit {flashMs : Nat} (h : 0 < flashMs) : ∀ ms ∈ List.replicate n flashMs, 0 < ms :=
    fun ms hms => List.eq_of_mem_replicate hms ▸ h
  rcases Rhythm.flash?_cases hflash with ⟨hrhythm, rfl, rfl⟩ | ⟨hrhythm, rfl, rfl⟩ |
    ⟨rate, hrate, rfl, rfl, hrate_pos, heven⟩
  · refine ⟨[], ?_, Flash.lasting_spaced (hlit (by decide)) (by decide) (by simp)⟩
    rw [← hflashes, rhythmPattern, hrhythm, hgroup]
    simp [← hgroup, hcount]
  · refine ⟨[], ?_, Flash.lasting_spaced (hlit (by decide)) (by decide) (by simp)⟩
    rw [← hflashes, rhythmPattern, hrhythm, hgroup]
    simp [← hgroup, hcount]
  · refine ⟨[rate / 2], ?_, Flash.lasting_spaced (hlit hrate_pos) hrate_pos (by simpa using hrate_pos)⟩
    have hquick : light.quickCount rate = n := by rw [quickCount, hcount]
    rw [rhythmPattern_quick (by simp [hgroup]) hrate, hquick, Lamp.quickFlashes, heven,
      Flash.segments_spaced_replicate]

theorem rhythmPattern_morse {light : Characteristic} {c : Char} {code : String}
    (hrhythm : light.rhythm = .morse) (hgroup : light.group = .letter c)
    (hcode : Morse.pattern? c = some code) :
    light.rhythmPattern = Flash.segments light.lamp
      (Flash.spaced 300 [] (code.toList.map fun mark => if mark = '-' then 900 else 300)) := by
  have hsymbols : light.rhythmPattern = light.lamp.morse (Morse.symbols c) := by
    simp [rhythmPattern, hrhythm, hgroup, Group.letter?]
  rw [hsymbols, Flash.segments_spaced, Lamp.morse, Morse.symbols, hcode, List.map_map, List.map_map]
  congr 2
  funext mark
  by_cases h : mark = '-' <;> simp [h]

/-- The group of a light without a tail is what its cycle shows, however long the period is: a count
by its flashes, a composite group by the runs of flashes between the pauses, and a Morse letter by its
code. -/
theorem cycle_shows_group (light : Characteristic) (htail : light.longFlashTail = false) :
    let segments := (light.cycle .extend).segments
    let litMs := (segments.filter (·.lit)).map Segment.durationMs
    let flashes := Flash.ofSegments segments
    let gaps := flashes.dropLast.map Flash.darkMs
    (∀ n flashMs gapMs, light.group = .count n → 1 ≤ n → n ≤ 99 →
      light.rhythm.flash? = some (flashMs, gapMs) →
      litMs = List.replicate n flashMs ∧ gaps = List.replicate (n - 1) [gapMs]) ∧
    (∀ parts, light.group = .composite parts → (∀ n ∈ parts, 1 ≤ n ∧ n ≤ 99) →
      (∀ ms ∈ litMs, ms = 500) ∧ (∀ gap ∈ gaps, total gap = 500 ∨ total gap = 2000) ∧
      (flashes.splitBy fun f _ => f.goesOn).map List.length = parts) ∧
    ∀ c, light.rhythm = .morse → light.group = .letter c → c.isUpper →
      ∃ code, Morse.pattern? c = some code ∧ code.toList.map Morse.markMs? = litMs.map some ∧
        gaps = List.replicate (code.toList.length - 1) [300] := by
  intro segments litMs flashes gaps
  have hlit : litMs = flashes.map Flash.litMs := (Flash.map_litMs_ofSegments segments).symm
  refine ⟨fun n flashMs gapMs hgroup hpos hle hflash => ?_, fun parts hgroup hparts => ?_,
    fun c hrhythm hgroup hc => ?_⟩
  · obtain ⟨last, hpattern, hlasting⟩ := rhythmPattern_count hgroup hpos hle hflash
    obtain ⟨fill, hread⟩ := ofSegments_cycle htail hpattern hlasting
    have hflashes : flashes = Flash.prolong fill _ := hread
    simp only [hlit, gaps, hflashes, Flash.map_litMs_prolong, Flash.map_litMs_spaced,
      Flash.dropLast_prolong, Flash.map_darkMs_dropLast_spaced, List.length_replicate, and_self]
  · have hpattern : light.rhythmPattern =
        Flash.segments light.lamp (Flash.ofParts [500] parts).flatten := by
      rw [Flash.segments_ofParts _ hparts, rhythmPattern, hgroup]
    obtain ⟨fill, hread⟩ := ofSegments_cycle htail hpattern (Flash.lasting_ofParts parts)
    have hpos : ∀ n ∈ parts, 1 ≤ n := fun n hn => (hparts n hn).1
    have hflashes : flashes = (Flash.ofParts ([500] ++ fill) parts).flatten := by
      rw [← Flash.prolong_ofParts fill [500] hpos]
      exact hread
    simp only [hlit, gaps, hflashes]
    refine ⟨?_, ?_, by rw [Flash.splitBy_ofParts _ hpos, Flash.map_length_ofParts]⟩
    · intro ms hms
      obtain ⟨f, hf, rfl⟩ := List.mem_map.mp hms
      exact (Flash.mem_ofParts hf).1
    · intro gap hgap
      obtain ⟨f, hf, rfl⟩ := List.mem_map.mp hgap
      exact Flash.mem_dropLast_ofParts hf
  · obtain ⟨code, hcode⟩ := Morse.exists_pattern? hc
    have hmarks : ∀ ms ∈ code.toList.map (fun mark => if mark = '-' then 900 else 300), 0 < ms := by
      intro ms hms
      obtain ⟨mark, -, rfl⟩ := List.mem_map.mp hms
      split_ifs <;> decide
    obtain ⟨fill, hread⟩ := ofSegments_cycle htail (rhythmPattern_morse hrhythm hgroup hcode)
      (Flash.lasting_spaced hmarks (by decide) (by simp))
    have hflashes : flashes = Flash.prolong fill _ := hread
    refine ⟨code, hcode, ?_, ?_⟩
    · rw [hlit, hflashes, Flash.map_litMs_prolong, Flash.map_litMs_spaced, Morse.map_markMs? hcode]
    · simp only [gaps, hflashes, Flash.dropLast_prolong, Flash.map_darkMs_dropLast_spaced,
        List.length_map]

/-- Three flashes that do not fit two seconds, an occulting light with a composite group, and the
Morse letter `A`. -/
theorem cycle_shows_group_three :
    let flashing : Characteristic :=
      { ofRhythm .flashing with group := .count 3, period := Number.Binary64.ofNat 2 }
    let occulting : Characteristic := { ofRhythm .occulting with group := .composite [2, 1] }
    let morse : Characteristic := { ofRhythm .morse with group := .letter 'A' }
    let litMs (light : Characteristic) :=
      ((light.cycle .extend).segments.filter (·.lit)).map Segment.durationMs
    litMs flashing = [500, 500, 500] ∧
      ((Flash.ofSegments (occulting.cycle .extend).segments).splitBy
        fun f _ => f.goesOn).map List.length = [2, 1] ∧
      (litMs morse).map some = [some 300, some 900] := by
  intro flashing occulting morse litMs
  have hcount := (cycle_shows_group flashing rfl).1 3 500 1000 rfl (by decide) (by decide) rfl
  have hparts := (cycle_shows_group occulting rfl).2.1 [2, 1] rfl (by decide)
  obtain ⟨code, hcode, hmarks, -⟩ := (cycle_shows_group morse rfl).2.2 'A' rfl rfl rfl
  cases hcode
  exact ⟨hcount.1, hparts.2.2, hmarks.symm⟩

end Characteristic

end ChartLight
