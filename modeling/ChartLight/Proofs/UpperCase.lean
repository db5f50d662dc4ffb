import ChartLight.Proofs.Trim
import ChartLight.Text.UpperCase

/-! What upper case does to the characters that reading a text looks at. Digits, points and white space
are their own capital forms and are the capital form of nothing else, and a letter in upper case has no
other capital form, so a second time changes nothing. -/

namespace ChartLight.Text

section Letters

variable {c d : Char}

/-- The letters of a run. -/
def CapitalRun.letters (run : CapitalRun) : List Nat :=
  (List.range ((run.last - run.first) / run.step + 1)).map fun k => run.first + k * run.step

/-- All letters beyond ASCII that have a capital form. -/
def smallLetters : List Nat :=
  capitalExpansions.map Prod.fst ++ capitalRuns.flatMap CapitalRun.letters

/-- The characters that make up their capital forms. -/
def capitalLetters : List Nat :=
  capitalExpansions.flatMap Prod.snd ++
    capitalRuns.flatMap fun run => run.letters.map fun n : Nat => (n + run.offset).toNat

theorem CapitalRun.mem_letters {run : CapitalRun} {n : Nat} (h : run.covers n = true) :
    n ∈ run.letters := by
  simp only [covers, Bool.and_eq_true, decide_eq_true_eq, beq_iff_eq] at h
  obtain ⟨⟨hfirst, hlast⟩, hstep⟩ := h
  refine List.mem_map.2 ⟨(n - run.first) / run.step, List.mem_range.2 ?_, ?_⟩
  · exact Nat.lt_succ_of_le (Nat.div_le_div_right (Nat.sub_le_sub_right hlast _))
  · rw [Nat.div_mul_cancel (Nat.dvd_of_mod_eq_zero hstep), Nat.add_sub_cancel' hfirst]

/-- Numbers as the bits of one number, in which each of them can be looked up. -/
def bits (ns : List Nat) : Nat := ns.foldr (fun n m => 1 <<< n ||| m) 0

theorem testBit_bits (ns : List Nat) (n : Nat) : (bits ns).testBit n = true ↔ n ∈ ns := by
  induction ns with
  | nil => simp [bits]
  | cons m ns ih =>
    rw [bits, List.foldr_cons, ← bits, Nat.testBit_or, Bool.or_eq_true, ih, List.mem_cons,
      Nat.one_shiftLeft, Nat.testBit_two_pow, decide_eq_true_iff, eq_comm]

/-- The white space beyond ASCII. -/
def wideBlanks : List Nat :=
  [0x85, 0xA0, 0x1680] ++ List.range' 0x2000 11 ++ [0x2028, 0x2029, 0x202F, 0x205F, 0x3000]

/-- A code point above the digits that is no small letter. -/
def isSettled (n : Nat) : Bool :=
  Nat.blt 64 n && (Nat.blt n 97 || Nat.blt 122 n) &&
    (Nat.blt n 0xD800 || Nat.blt 0xDFFF n && Nat.blt n 0x110000) && !(bits smallLetters).testBit n

theorem isSettled_iff {n : Nat} :
    isSettled n = true ↔
      64 < n ∧ (n < 97 ∨ 122 < n) ∧ n.isValidChar ∧ n ∉ smallLetters := by
  simp only [isSettled, Bool.and_eq_true, Bool.or_eq_true, Nat.blt_eq, Bool.not_eq_true',
    ← Bool.not_eq_true, testBit_bits, Nat.isValidChar, and_assoc]

/-- The tables, gone through once. -/
theorem isSettled_of_mem {n : Nat} (h : n ∈ wideBlanks ++ capitalLetters) : isSettled n = true := by
  have hall : (wideBlanks ++ capitalLetters).all isSettled = true := by decide +kernel
  exact List.all_eq_true.1 hall n h

theorem toNat_toUpper (c : Char) :
    c.toUpper.toNat = if 97 ≤ c.toNat ∧ c.toNat ≤ 122 then c.toNat - 32 else c.toNat := by
  have hcase : ('a'.val ≤ c.val ∧ c.val ≤ 'z'.val) ↔ 97 ≤ c.toNat ∧ c.toNat ≤ 122 := by
    rw [UInt32.le_iff_toNat_le, UInt32.le_iff_toNat_le]
    rfl
  unfold Char.toUpper
  by_cases h : 97 ≤ c.toNat ∧ c.toNat ≤ 122
  · have hsum : (c.val + ('A'.val - 'a'.val)).toNat = (c.toNat + 4294967264) % 2 ^ 32 :=
      UInt32.toNat_add c.val ('A'.val - 'a'.val)
    rw [dif_pos (hcase.2 h), if_pos h]
    exact hsum.trans (by omega)
  · rw [dif_neg (mt hcase.1 h), if_neg h]

theorem upperChar_of_ascii (h : c.toNat < 128) : upperChar c = [c.toUpper] := by
  rw [upperChar, if_pos h]

/-- A character beyond ASCII that is no small letter is its own capital form. -/
theorem upperChar_of_not_mem (h : 128 ≤ c.toNat) (hc : c.toNat ∉ smallLetters) :
    upperChar c = [c] := by
  rw [smallLetters, List.mem_append, not_or] at hc
  have hexpansion : capitalExpansions.lookup c.toNat = none := by
    rw [List.lookup_eq_none_iff]
    intro entry hentry
    rw [bne_iff_ne]
    rintro heq
    exact hc.1 (heq ▸ List.mem_map_of_mem hentry)
  have hrun : capitalRuns.find? (·.covers c.toNat) = none := by
    rw [List.find?_eq_none]
    intro run hrun hcovers
    exact hc.2 (List.mem_flatMap.2 ⟨run, hrun, CapitalRun.mem_letters hcovers⟩)
  rw [upperChar, if_neg (Nat.not_lt.2 h)]
  simp only [hexpansion, hrun]

/-- Beyond ASCII, a character is its own capital form or has one of capital letters. -/
theorem upperChar_cases (h : 128 ≤ c.toNat) :
    upperChar c = [c] ∨
      ∃ ns, ns ≠ [] ∧ (∀ n ∈ ns, isSettled n = true) ∧ upperChar c = ns.map Char.ofNat := by
  rw [upperChar, if_neg (Nat.not_lt.2 h)]
  split
  · next ns hns =>
    right
    have hentry : (c.toNat, ns) ∈ capitalExpansions := by
      obtain ⟨before, behind, heq, -⟩ := List.lookup_eq_some_iff.1 hns
      rw [heq]
      exact List.mem_append_right _ List.mem_cons_self
    have hlong : capitalExpansions.all (!·.2.isEmpty) = true := by decide +kernel
    refine ⟨ns, ?_, fun n hn => isSettled_of_mem (List.mem_append_right _ ?_), rfl⟩
    · simpa using List.all_eq_true.1 hlong _ hentry
    · exact List.mem_append_left _ (List.mem_flatMap.2 ⟨_, hentry, hn⟩)
  · split
    · next run hrun =>
      right
      have hcovers : run.covers c.toNat = true := by simpa using List.find?_some hrun
      have hletter := CapitalRun.mem_letters hcovers
      refine ⟨[(c.toNat + run.offset).toNat], List.cons_ne_nil _ _, ?_, rfl⟩
      rw [List.forall_mem_singleton]
      refine isSettled_of_mem (List.mem_append_right _ (List.mem_append_right _ (List.mem_flatMap.2 ?_)))
      exact ⟨run, List.mem_of_find?_eq_some hrun, List.mem_map_of_mem hletter⟩
    · exact Or.inl rfl

/-- Upper case once more changes nothing. -/
theorem upperChar_of_mem_upperChar (h : d ∈ upperChar c) : upperChar d = [d] := by
  by_cases hascii : c.toNat < 128
  · rw [upperChar_of_ascii hascii, List.mem_singleton] at h
    subst h
    have hnat := toNat_toUpper c
    have hnat' := toNat_toUpper c.toUpper
    rw [upperChar_of_ascii (by split_ifs at hnat <;> omega)]
    congr 1
    apply Char.toNat_inj.1
    split_ifs at hnat hnat' <;> omega
  · rcases upperChar_cases (Nat.not_lt.1 hascii) with hself | ⟨ns, -, hns, hcapital⟩
    · rw [hself, List.mem_singleton] at h
      rw [h, hself]
    · rw [hcapital, List.mem_map] at h
      obtain ⟨n, hn, rfl⟩ := h
      obtain ⟨-, hcase, hvalid, hsmall⟩ := isSettled_iff.1 (hns n hn)
      have hnat : (Char.ofNat n).toNat = n := by rw [Char.toNat_ofNat, if_pos hvalid]
      by_cases hlow : n < 128
      · rw [upperChar_of_ascii (by rwa [hnat])]
        congr 1
        apply Char.toNat_inj.1
        rw [toNat_toUpper, if_neg (by omega)]
      · exact upperChar_of_not_mem (by rw [hnat]; omega) (by rwa [hnat])

theorem upperChar_ne_nil (c : Char) : upperChar c ≠ [] := by
  by_cases hascii : c.toNat < 128
  · rw [upperChar_of_ascii hascii]
    exact List.cons_ne_nil _ _
  · rcases upperChar_cases (Nat.not_lt.1 hascii) with hself | ⟨ns, hne, -, hcapital⟩
    · rw [hself]
      exact List.cons_ne_nil _ _
    · rw [hcapital]
      exact mt List.map_eq_nil_iff.1 hne

/-- Characters up to `@` are their own capital form, and that of no others. -/
theorem mem_upperChar_iff_of_le (hd : d.toNat ≤ 64) : d ∈ upperChar c ↔ d = c := by
  by_cases hascii : c.toNat < 128
  · have hnat := toNat_toUpper c
    rw [upperChar_of_ascii hascii, List.mem_singleton, ← Char.toNat_inj, ← Char.toNat_inj, hnat]
    split_ifs <;> omega
  · have hne : d ≠ c := by
      rintro rfl
      omega
    refine iff_of_false (fun h => ?_) hne
    rcases upperChar_cases (Nat.not_lt.1 hascii) with hself | ⟨ns, -, hns, hcapital⟩
    · rw [hself, List.mem_singleton] at h
      exact hne h
    · rw [hcapital, List.mem_map] at h
      obtain ⟨n, hn, rfl⟩ := h
      obtain ⟨hhigh, -, hvalid, -⟩ := isSettled_iff.1 (hns n hn)
      rw [Char.toNat_ofNat, if_pos hvalid] at hd
      omega

theorem isDigit_of_mem_upperChar (h : d ∈ upperChar c) : d.isDigit = c.isDigit := by
  rw [Bool.eq_iff_iff]
  constructor
  · intro hdigit
    have hd := toNat_of_isDigit hdigit
    rwa [← (mem_upperChar_iff_of_le (by omega)).1 h]
  · intro hdigit
    have hc := toNat_of_isDigit hdigit
    rw [upperChar_of_ascii (by omega), List.mem_singleton] at h
    have hnat := toNat_toUpper c
    rw [if_neg (by omega), Char.toNat_inj, ← h] at hnat
    rwa [hnat]

/-- White space is left as it is. -/
theorem upperChar_of_isBlank (h : isBlank c = true) : upperChar c = [c] := by
  by_cases hascii : c.toNat < 128
  · have hnot : ¬(97 ≤ c.toNat ∧ c.toNat ≤ 122) := by
      simp only [isBlank, Bool.or_eq_true, Bool.and_eq_true, decide_eq_true_eq, beq_iff_eq] at h
      omega
    have hnat := toNat_toUpper c
    rw [if_neg hnot, Char.toNat_inj] at hnat
    rw [upperChar_of_ascii hascii, hnat]
  · have hwide : c.toNat ∈ wideBlanks := by
      simp only [isBlank, Bool.or_eq_true, Bool.and_eq_true, decide_eq_true_eq, beq_iff_eq] at h
      simp only [wideBlanks, List.mem_append, List.mem_cons, List.mem_range'_1, List.not_mem_nil,
        or_false]
      omega
    obtain ⟨-, -, -, hsmall⟩ := isSettled_iff.1 (isSettled_of_mem (List.mem_append_left _ hwide))
    exact upperChar_of_not_mem (Nat.not_lt.1 hascii) hsmall

/-- Characters that differ only in the case of an ASCII letter have one capital form. -/
theorem upperChar_congr (h : c.toUpper = d.toUpper) : upperChar c = upperChar d := by
  have hc := toNat_toUpper c
  have hd := toNat_toUpper d
  rw [h] at hc
  by_cases hascii : c.toNat < 128
  · have hascii' : d.toNat < 128 := by split_ifs at hc hd <;> omega
    rw [upperChar_of_ascii hascii, upperChar_of_ascii hascii', h]
  · have hsame : c.toNat = d.toNat := by split_ifs at hc hd <;> omega
    rw [Char.toNat_inj.1 hsame]

end Letters

end ChartLight.Text
