import ChartLight.Proofs.Grammar

/-! The front of a text: the sign for a group and the keyword of the rhythm. The keyword that is matched
is the longest, since no keyword is tried before a longer one. So none is read for another where no letter
follows it. -/

namespace ChartLight

open Text

theorem Rhythm.keywords_head {keyword : List Char} {rhythm : Rhythm}
    (h : (keyword, rhythm) ∈ Rhythm.keywords) :
    ∃ c rest, keyword = c :: rest ∧ c.isUpper = true ∧ c ≠ 'G' := by
  have hall : ∀ k ∈ Rhythm.keywords, k.1.head?.any (fun c => c.isUpper && c != 'G') = true := by
    decide
  have hkeyword := hall _ h
  cases keyword with
  | nil => cases hkeyword
  | cons c rest =>
    have hc : c.isUpper = true ∧ c ≠ 'G' := by simpa using hkeyword
    exact ⟨c, rest, rfl, hc⟩

theorem Rhythm.keywords_isUpper {keyword : List Char} {rhythm : Rhythm}
    (h : (keyword, rhythm) ∈ Rhythm.keywords) : ∀ c ∈ keyword, c.isUpper = true := by
  have hall : Rhythm.keywords.all (·.1.all (·.isUpper)) = true := by decide
  exact List.all_eq_true.1 (List.all_eq_true.1 hall _ h)

theorem Rhythm.upperCase_abbreviation (rhythm : Rhythm) :
    (upperCase rhythm.abbreviation.toList, rhythm) ∈ Rhythm.keywords := by
  cases rhythm <;> decide

theorem Rhythm.keyword_unique {keyword : List Char} {a b : Rhythm}
    (ha : (keyword, a) ∈ Rhythm.keywords) (hb : (keyword, b) ∈ Rhythm.keywords) : a = b := by
  have hnodup : (Rhythm.keywords.map Prod.fst).Nodup := by decide
  exact (Prod.mk.inj (List.inj_on_of_nodup_map hnodup ha hb rfl)).2

/-- A keyword of the rhythm begins the text, and none that begins it is longer. -/
structure LongestKeyword (cs keyword : List Char) (rhythm : Rhythm) : Prop where
  mem : (keyword, rhythm) ∈ Rhythm.keywords
  begins : keyword <+: cs
  longest : ∀ entry ∈ Rhythm.keywords, entry.1 <+: cs → entry.1.length ≤ keyword.length

/-- Two keywords of one length that begin a text are the same. -/
theorem LongestKeyword.unique {cs keyword keyword' : List Char} {rhythm rhythm' : Rhythm}
    (h : LongestKeyword cs keyword rhythm) (h' : LongestKeyword cs keyword' rhythm') :
    keyword = keyword' ∧ rhythm = rhythm' := by
  have hlength : keyword.length = keyword'.length :=
    Nat.le_antisymm (h'.longest _ h.mem h.begins) (h.longest _ h'.mem h'.begins)
  obtain rfl : keyword = keyword' :=
    (List.prefix_of_prefix_length_le h.begins h'.begins hlength.le).eq_of_length hlength
  exact ⟨rfl, Rhythm.keyword_unique h.mem h'.mem⟩

def BeginsWithKeyword (cs : List Char) : Prop := ∃ entry ∈ Rhythm.keywords, entry.1 <+: cs

theorem matchRhythm?_eq_none_iff {cs : List Char} :
    matchRhythm? cs = none ↔ ¬BeginsWithKeyword cs := by
  simp only [BeginsWithKeyword, not_exists, not_and]
  rw [matchRhythm?, List.findSome?_eq_none_iff]
  refine forall₂_congr fun entry _ => ?_
  rw [Option.map_eq_none_iff, Option.eq_none_iff_forall_ne_some]
  exact ⟨fun hnone ⟨rest, hrest⟩ => hnone rest (List.isPrefixOf?_eq_some_iff_append_eq.2 hrest),
    fun hno rest hrest => hno ⟨rest, List.isPrefixOf?_eq_some_iff_append_eq.1 hrest⟩⟩

/-- What is matched is the longest: the keywords tried before it do not begin the text, and those that
would have been tried after it are no longer. -/
theorem longest_of_matchRhythm? {cs rest : List Char} {rhythm : Rhythm}
    (h : matchRhythm? cs = some (rhythm, rest)) :
    ∃ keyword tail, LongestKeyword cs keyword rhythm ∧ cs = keyword ++ tail ∧ rest = trim tail := by
  obtain ⟨before, ⟨keyword, rhythm'⟩, after, hsplit, hmatch, hbefore⟩ :=
    List.findSome?_eq_some_iff.1 h
  obtain ⟨tail, hprefix, heq⟩ := Option.map_eq_some_iff.1 hmatch
  obtain ⟨rfl, rfl⟩ := Prod.mk.inj heq
  have hcs : keyword ++ tail = cs := List.isPrefixOf?_eq_some_iff_append_eq.1 hprefix
  refine ⟨keyword, tail, ⟨?_, ⟨tail, hcs⟩, ?_⟩, hcs.symm, rfl⟩
  · rw [hsplit]
    exact List.mem_append_right before List.mem_cons_self
  · rintro entry hentry ⟨more, hmore⟩
    rw [hsplit, List.mem_append, List.mem_cons] at hentry
    rcases hentry with hentry | rfl | hentry
    · have hnone : entry.1.isPrefixOf? cs = none := Option.map_eq_none_iff.1 (hbefore entry hentry)
      rw [List.isPrefixOf?_eq_some_iff_append_eq.2 hmore] at hnone
      cases hnone
    · exact Nat.le_refl _
    · have hsorted := Rhythm.keywords_longest_first
      rw [hsplit] at hsorted
      exact (List.pairwise_cons.1 (List.pairwise_append.1 hsorted).2.1).1 entry hentry

theorem matchRhythm?_of_longest {keyword tail : List Char} {rhythm : Rhythm}
    (h : LongestKeyword (keyword ++ tail) keyword rhythm) :
    matchRhythm? (keyword ++ tail) = some (rhythm, trim tail) := by
  cases hmatch : matchRhythm? (keyword ++ tail) with
  | none => exact absurd ⟨_, h.mem, h.begins⟩ (matchRhythm?_eq_none_iff.1 hmatch)
  | some found =>
    obtain ⟨rhythm', rest⟩ := found
    obtain ⟨keyword', tail', h', hsplit, rfl⟩ := longest_of_matchRhythm? hmatch
    obtain ⟨rfl, rfl⟩ := h.unique h'
    rw [List.append_cancel_left hsplit]

/-- The keyword at the front of a text is the one that is matched, unless a letter follows. -/
theorem matchRhythm?_complete {keyword rest : List Char} {rhythm : Rhythm}
    (h : (keyword, rhythm) ∈ Rhythm.keywords) (hrest : ∀ c ∈ rest.head?, c.isUpper = false) :
    matchRhythm? (keyword ++ rest) = some (rhythm, trim rest) := by
  refine matchRhythm?_of_longest ⟨h, List.prefix_append keyword rest, fun entry hentry hbegins => ?_⟩
  by_contra hlonger
  -- a longer keyword would go on with what follows, and it has letters only
  obtain ⟨more, hmore⟩ := List.prefix_of_prefix_length_le (List.prefix_append keyword rest) hbegins
    (Nat.le_of_not_le hlonger)
  rw [← hmore, List.prefix_append_right_inj] at hbegins
  obtain ⟨c, more, rfl⟩ := List.exists_cons_of_ne_nil (l := more) fun hnil => by
    rw [← hmore, hnil, List.append_nil] at hlonger
    exact hlonger (Nat.le_refl _)
  obtain ⟨cs, rfl⟩ := hbegins
  have hletter := Rhythm.keywords_isUpper hentry c (hmore ▸ by simp)
  rw [hrest c rfl] at hletter
  cases hletter

theorem matchRhythm?_sound {cs rest : List Char} {rhythm : Rhythm}
    (h : matchRhythm? cs = some (rhythm, rest)) :
    ∃ keyword rest', (keyword, rhythm) ∈ Rhythm.keywords ∧ cs = keyword ++ rest' ∧
      rest = trim rest' := by
  obtain ⟨keyword, tail, hlongest, hsplit, hrest⟩ := longest_of_matchRhythm? h
  exact ⟨keyword, tail, hlongest.mem, hsplit, hrest⟩

/-- A text is matched by the longest keyword that it begins with, and by none if there is none. The
abbreviation of a rhythm is matched by that rhythm, in front of any text with which it makes no longer
keyword. -/
theorem matches_longest_keyword :
    (∀ cs, matchRhythm? cs = none ↔ ∀ entry ∈ Rhythm.keywords, ¬entry.1 <+: cs) ∧
    (∀ cs rhythm rest, matchRhythm? cs = some (rhythm, rest) ↔
      ∃ keyword tail, LongestKeyword cs keyword rhythm ∧ cs = keyword ++ tail ∧ rest = trim tail) ∧
    ∀ (rhythm : Rhythm) (tail : List Char),
      let keyword := upperCase rhythm.abbreviation.toList
      (∀ entry ∈ Rhythm.keywords, entry.1 <+: keyword ++ tail → entry.1.length ≤ keyword.length) →
        matchRhythm? (keyword ++ tail) = some (rhythm, trim tail) := by
  refine ⟨fun cs => ?_, fun cs rhythm rest => ⟨longest_of_matchRhythm?, ?_⟩, ?_⟩
  · simp only [matchRhythm?_eq_none_iff, BeginsWithKeyword, not_exists, not_and]
  · rintro ⟨keyword, tail, hlongest, rfl, rfl⟩
    exact matchRhythm?_of_longest hlongest
  · intro rhythm tail keyword hlongest
    exact matchRhythm?_of_longest
      ⟨rhythm.upperCase_abbreviation, List.prefix_append keyword tail, hlongest⟩

/-- `OC` is matched in front of a group; only in front of a `C` does it make a longer keyword. -/
theorem matches_longest_keyword_occulting :
    (∀ entry ∈ Rhythm.keywords, entry.1 <+: "OC (2)".toList → entry.1.length ≤ 2) ∧
      matchRhythm? "OC (2)".toList = some (.occulting, "(2)".toList) := by
  have hlongest : ∀ entry ∈ Rhythm.keywords, entry.1 <+: "OC (2)".toList → entry.1.length ≤ 2 := by
    decide
  obtain ⟨-, -, hmatches⟩ := matches_longest_keyword
  exact ⟨hlongest, hmatches .occulting [' ', '(', '2', ')'] hlongest⟩

/-- What is left of a text without the sign for a group that it may begin with. -/
inductive Unsigned (left : List Char) : List Char → Prop
  | intro {sign a : List Char} (hsign : sign ∈ groupSigns) (ha : Blank a)
      (hleft : ∀ c ∈ left.head?, isBlank c = false)
      (hnone : sign = [] → ∀ other ∈ groupSigns, other <+: left → other = []) :
      Unsigned left (sign ++ a ++ left)

theorem dropGroupSign_of_unsigned {left cs : List Char} (h : Unsigned left cs) :
    dropGroupSign cs = left := by
  obtain ⟨hsign, ha, hleft, hnone⟩ := h
  rename_i sign a
  have htrim : ∀ b, Blank b → trimStart (b ++ left) = left := by
    intro b hb
    rw [trimStart_append hb, trimStart_of_head hleft]
  have hno : sign = [] → ∀ other ∈ groupSigns, other ≠ [] → other.isPrefixOf? left = none := by
    intro hsign other hother hne
    rw [Option.eq_none_iff_forall_ne_some]
    intro rest hrest
    rw [List.isPrefixOf?_eq_some_iff_append_eq] at hrest
    exact hne (hnone hsign other hother ⟨rest, hrest⟩)
  simp only [groupSigns, List.mem_cons, List.not_mem_nil, or_false] at hsign
  rcases hsign with rfl | rfl | rfl
  · rw [List.nil_append, dropGroupSign, htrim a ha, hno rfl _ (by decide) (by decide),
      hno rfl _ (by decide) (by decide)]
    exact htrim [] Blank.nil
  · rw [List.append_assoc]
    exact htrim a ha
  · rw [List.append_assoc]
    exact htrim a ha

theorem unsigned_dropGroupSign {cs : List Char} (h : ∀ c ∈ cs.head?, isBlank c = false) :
    Unsigned (dropGroupSign cs) cs := by
  have hpart : ∀ {sign rest : List Char}, sign ∈ groupSigns → sign ≠ [] →
      sign.isPrefixOf? cs = some rest → Unsigned (trimStart rest) cs := by
    intro sign rest hsign hne hrest
    obtain ⟨a, ha, hsplit⟩ := trimStart_split rest
    have hcs : cs = sign ++ a ++ trimStart rest := by
      rw [List.append_assoc, ← hsplit, List.isPrefixOf?_eq_some_iff_append_eq.1 hrest]
    rw [hcs]
    exact Unsigned.intro hsign ha head_trimStart fun hnil => absurd hnil hne
  rw [dropGroupSign, trimStart_of_head h]
  cases hgp : ['G', 'P'].isPrefixOf? cs with
  | some rest => exact hpart (by decide) (by decide) hgp
  | none =>
    cases hgr : ['G', 'R'].isPrefixOf? cs with
    | some rest => exact hpart (by decide) (by decide) hgr
    | none =>
      have hnone : ∀ other ∈ groupSigns, other <+: cs → other = [] := by
        rintro other hother ⟨rest, hrest⟩
        rw [← List.isPrefixOf?_eq_some_iff_append_eq] at hrest
        simp only [groupSigns, List.mem_cons, List.not_mem_nil, or_false] at hother
        rcases hother with rfl | rfl | rfl
        · rfl
        · cases hgp.symm.trans hrest
        · cases hgr.symm.trans hrest
      rw [Option.or_none, Option.getD_none, trimStart_of_head h]
      exact Unsigned.intro List.mem_cons_self Blank.nil h fun _ => hnone

theorem dropGroupSign_complete {sign a keyword rest : List Char} {rhythm : Rhythm}
    (hsign : sign ∈ groupSigns) (ha : Blank a)
    (hkeyword : (keyword, rhythm) ∈ Rhythm.keywords) :
    dropGroupSign (sign ++ a ++ keyword ++ rest) = keyword ++ rest := by
  obtain ⟨c, keyword, rfl, hc, hg⟩ := Rhythm.keywords_head hkeyword
  have hnone : ∀ other ∈ groupSigns, other <+: c :: keyword ++ rest → other = [] := by
    rintro other hother ⟨cs, hcs⟩
    simp only [groupSigns, List.mem_cons, List.not_mem_nil, or_false] at hother
    rcases hother with rfl | rfl | rfl
    · rfl
    · exact absurd (List.cons.inj hcs).1.symm hg
    · exact absurd (List.cons.inj hcs).1.symm hg
  have hhead : ∀ d ∈ (c :: keyword ++ rest).head?, isBlank d = false := by
    intro d hd
    rw [← Option.some.inj hd]
    exact isBlank_eq_false_of_isUpper hc
  rw [List.append_assoc]
  exact dropGroupSign_of_unsigned (Unsigned.intro hsign ha hhead fun _ => hnone)

end ChartLight
