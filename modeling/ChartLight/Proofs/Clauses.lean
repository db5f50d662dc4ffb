import ChartLight.Prose
import ChartLight.Proofs.Flashes
import ChartLight.Proofs.Shortest

/-! The clauses of a sentence, each with a comma before it. A clause without a comma of its own ends
where the next begins, and clauses with different initials are not taken for one another; so a
sentence falls into its clauses in one way. What stands in the clause of a group tells the group. -/

namespace ChartLight

/-- A text is cut at the first separator in one way. -/
theorem append_cons_inj {sep : Char} {a b x y : List Char} (ha : sep ∉ a) (hb : sep ∉ b)
    (h : a ++ sep :: x = b ++ sep :: y) : a = b ∧ x = y := by
  induction a generalizing b with
  | nil =>
    cases b with
    | nil => exact ⟨rfl, (List.cons.inj h).2⟩
    | cons c b => exact absurd ((List.cons.inj h).1 ▸ List.mem_cons_self) hb
  | cons d a ih =>
    cases b with
    | nil => exact absurd ((List.cons.inj h).1 ▸ List.mem_cons_self) ha
    | cons c b =>
      obtain ⟨rfl, hrest⟩ := List.cons.inj h
      rw [List.mem_cons, not_or] at ha hb
      obtain ⟨rfl, rfl⟩ := ih ha.2 hb.2 hrest
      exact ⟨rfl, rfl⟩

/-- The code points of a literal are found without decoding it. -/
theorem not_mem_literal {c : Char} {cs : List Char} (h : c ∉ cs) : c ∉ (String.ofList cs).toList := by
  rwa [String.toList_ofList]

section Sums

theorem toDigits_injective : Function.Injective (Nat.toDigits 10) := by
  intro m n h
  have hvalue := congrArg (Nat.ofDigitChars 10 · 0) h
  simpa only [Nat.ofDigitChars_ten_toDigits] using hvalue

theorem not_mem_toDigits {c : Char} (hc : c.isDigit = false) (n : Nat) : c ∉ Nat.toDigits 10 n := by
  intro h
  rw [(digits_toDigits n).isDigit c h] at hc
  cases hc

theorem comma_not_mem_toDigits (n : Nat) : ',' ∉ Nat.toDigits 10 n := not_mem_toDigits rfl n

theorem blank_not_mem_toDigits (n : Nat) : ' ' ∉ Nat.toDigits 10 n := not_mem_toDigits rfl n

theorem comma_not_mem_morse (c : Char) : ',' ∉ ((Morse.pattern? c).getD "?").toList := by
  cases hcode : Morse.pattern? c with
  | none => decide
  | some code =>
    intro h
    rcases Morse.mem_pattern? hcode ',' h with h | h <;> cases h

theorem sumText_singleton (n : Nat) : (sumText [n]).toList = Nat.toDigits 10 n := by
  simp [sumText]

theorem sumText_cons_cons (n m : Nat) (ns : List Nat) :
    (sumText (n :: m :: ns)).toList =
      Nat.toDigits 10 n ++ ' ' :: '+' :: ' ' :: (sumText (m :: ns)).toList := by
  simp [sumText]

theorem sumText_cons_ne_nil (n : Nat) (ns : List Nat) : (sumText (n :: ns)).toList ≠ [] := by
  cases ns with
  | nil => simp [sumText_singleton, Nat.toDigits_ne_nil]
  | cons m ns => simp [sumText_cons_cons]

theorem mem_sumText {values : List Nat} {c : Char} (h : c ∈ (sumText values).toList) :
    c.isDigit = true ∨ c = ' ' ∨ c = '+' := by
  induction values with
  | nil => cases h
  | cons n values ih =>
    have hdigit (h : c ∈ Nat.toDigits 10 n) : c.isDigit = true := (digits_toDigits n).isDigit c h
    cases values with
    | nil => exact Or.inl (hdigit (by rwa [sumText_singleton] at h))
    | cons m values =>
      rw [sumText_cons_cons, List.mem_append, List.mem_cons, List.mem_cons, List.mem_cons] at h
      rcases h with h | h | h | h | h
      · exact Or.inl (hdigit h)
      · exact Or.inr (Or.inl h)
      · exact Or.inr (Or.inr h)
      · exact Or.inr (Or.inl h)
      · exact ih h

theorem comma_not_mem_sumText (values : List Nat) : ',' ∉ (sumText values).toList := by
  intro h
  rcases mem_sumText h with h | h | h <;> cases h

/-- The first number of a sum ends at the first blank. -/
theorem sumText_injective : Function.Injective sumText := by
  intro a b h
  replace h := congrArg String.toList h
  induction a generalizing b with
  | nil =>
    cases b with
    | nil => rfl
    | cons n ns => exact absurd h.symm (sumText_cons_ne_nil n ns)
  | cons n ns ih =>
    match ns, b with
    | ns, [] => exact absurd h (sumText_cons_ne_nil n ns)
    | [], [m] =>
      rw [sumText_singleton, sumText_singleton] at h
      rw [toDigits_injective h]
    | [], m :: m' :: ms =>
      rw [sumText_singleton, sumText_cons_cons] at h
      exact absurd (h ▸ List.mem_append_right _ List.mem_cons_self) (blank_not_mem_toDigits n)
    | n' :: ns, [m] =>
      rw [sumText_singleton, sumText_cons_cons] at h
      exact absurd (h ▸ List.mem_append_right _ List.mem_cons_self) (blank_not_mem_toDigits m)
    | n' :: ns, m :: m' :: ms =>
      rw [sumText_cons_cons, sumText_cons_cons] at h
      obtain ⟨hdigits, hrest⟩ :=
        append_cons_inj (blank_not_mem_toDigits n) (blank_not_mem_toDigits m) h
      have hsum := (List.cons.inj (List.cons.inj hrest).2).2
      rw [toDigits_injective hdigits, ih hsum]

theorem toList_sumText_inj {a b : List Nat} : (sumText a).toList = (sumText b).toList ↔ a = b := by
  rw [String.toList_inj, sumText_injective.eq_iff]

end Sums

/-- A clause and its initial, or none. -/
inductive Clause : Option Char → List Char → Prop
  | absent : Clause none []
  | present {c : Char} {rest : List Char} (h : ',' ∉ rest) :
      Clause (some c) (',' :: ' ' :: c :: rest)

/-- The next clause has one of some initials, whatever stands in it. -/
def Follows (initials : List Char) (cs : List Char) : Prop :=
  ∃ c ∈ initials, ∃ rest, cs = ',' :: ' ' :: c :: rest

section Clause

variable {i j : Option Char} {initials u v x y : List Char}

theorem clause_some_iff {c : Char} {cs : List Char} :
    Clause (some c) cs ↔ ∃ rest, ',' ∉ rest ∧ cs = ',' :: ' ' :: c :: rest := by
  constructor
  · rintro ⟨⟩
    exact ⟨_, ‹_›, rfl⟩
  · rintro ⟨rest, h, rfl⟩
    exact Clause.present h

theorem Clause.initial_unique (hu : Clause i u) (hv : Clause j u) : i = j := by
  cases hu with
  | absent => cases hv; rfl
  | present h => cases hv; rfl

theorem Clause.follows (hu : Clause i u) (hi : ∀ c ∈ i, c ∈ initials) (hx : Follows initials x) :
    Follows initials (u ++ x) := by
  cases hu with
  | absent => exact hx
  | @present c rest h => exact ⟨c, hi c rfl, rest ++ x, rfl⟩

/-- A clause that need not be there is told from the one after it by its initial. -/
theorem Clause.append_inj (hu : Clause i u) (hv : Clause j v) (hi : ∀ c ∈ i, c ∉ initials)
    (hj : ∀ c ∈ j, c ∉ initials) (hx : Follows initials x) (hy : Follows initials y)
    (h : u ++ x = v ++ y) : u = v ∧ x = y := by
  obtain ⟨c, hc, x, rfl⟩ := hx
  obtain ⟨d, hd, y, rfl⟩ := hy
  cases hu with
  | absent =>
    cases hv with
    | absent => exact ⟨rfl, h⟩
    | present hrest =>
      simp only [List.nil_append, List.cons_append, List.cons.injEq] at h
      exact absurd hc (h.2.2.1 ▸ hj _ rfl)
  | present hrest =>
    cases hv with
    | absent =>
      simp only [List.nil_append, List.cons_append, List.cons.injEq] at h
      exact absurd hd (h.2.2.1 ▸ hi _ rfl)
    | present hrest' =>
      simp only [List.cons_append, List.cons.injEq, true_and] at h
      obtain ⟨rfl, hnext⟩ := append_cons_inj hrest hrest' h.2
      exact ⟨by rw [h.1], by rw [hnext]⟩

end Clause

namespace Group

/-- The initial of the clause on a group. -/
def initial? : Language → Group → Option Char
  | _, .single => none
  | _, .count _ => some 'g'
  | .english, .composite _ => some 'c'
  | .french, .composite _ => some 'g'
  | .english, .eclipses _ => some 'e'
  | .french, .eclipses _ => some 'o'
  | _, .letter _ => some 'l'

/-- What a sentence says of a group. -/
def words (language : Language) (rhythm : Rhythm) (group : Group) : List Char :=
  match language with
  | .english => (group.english rhythm).toList
  | .french => (group.french rhythm).toList

theorem words_single (language : Language) (rhythm : Rhythm) : single.words language rhythm = [] := by
  cases language <;> exact String.toList_empty

theorem clause_words (language : Language) (rhythm : Rhythm) {group : Group}
    (h : group ≠ .letter ',') : Clause (group.initial? language) (group.words language rhythm) := by
  cases group with
  | single =>
    rw [words_single]
    exact Clause.absent
  | count n =>
    cases language <;> unfold initial? words english french <;>
      by_cases hone : n = 1 <;> by_cases hlong : rhythm = .longFlashing <;>
      simp [clause_some_iff, hone, hlong, comma_not_mem_toDigits]
  | composite parts =>
    cases language <;> unfold initial? words english french <;>
      simp [clause_some_iff, comma_not_mem_sumText]
  | eclipses seconds =>
    cases language <;> unfold initial? words english french <;>
      by_cases hone : seconds.length = 1 <;>
      simp [clause_some_iff, hone, comma_not_mem_sumText]
  | letter c =>
    have hc : ',' ≠ c := by
      rintro rfl
      exact h rfl
    cases language <;> unfold initial? words english french <;>
      simp [clause_some_iff, letterText, hc, comma_not_mem_morse]

/-- The number of flashes stands before the first blank after the fixed words. -/
theorem words_count (language : Language) (rhythm : Rhythm) :
    ∃ start, ∀ n, ∃ post,
      (count n).words language rhythm = start ++ (Nat.toDigits 10 n ++ ' ' :: post) := by
  cases language with
  | english =>
    refine ⟨", group of ".toList, fun n => ?_⟩
    unfold words english
    by_cases hone : n = 1 <;> by_cases hlong : rhythm = .longFlashing <;> simp [hone, hlong]
  | french =>
    refine ⟨", groupe de ".toList, fun n => ?_⟩
    unfold words french
    by_cases hone : n = 1 <;> by_cases hlong : rhythm = .longFlashing <;> simp [hone, hlong]

theorem words_count_inj {language : Language} {rhythm : Rhythm} {m n : Nat}
    (h : (count m).words language rhythm = (count n).words language rhythm) : m = n := by
  obtain ⟨start, hstart⟩ := words_count language rhythm
  obtain ⟨post, hm⟩ := hstart m
  obtain ⟨post', hn⟩ := hstart n
  rw [hm, hn] at h
  have hdigits := (append_cons_inj (blank_not_mem_toDigits m) (blank_not_mem_toDigits n)
    (List.append_cancel_left h)).1
  exact toDigits_injective hdigits

theorem words_composite_inj {language : Language} {rhythm : Rhythm} {a b : List Nat}
    (h : (composite a).words language rhythm = (composite b).words language rhythm) : a = b := by
  cases language <;> unfold words english french at h <;>
    simpa [toList_sumText_inj] using h

theorem words_eclipses_inj {language : Language} {rhythm : Rhythm} {a b : List Nat}
    (h : (eclipses a).words language rhythm = (eclipses b).words language rhythm) : a = b := by
  cases language <;> unfold words english french at h <;>
    by_cases ha : a.length = 1 <;> by_cases hb : b.length = 1 <;>
    simp [ha, hb, toList_sumText_inj] at h <;> exact h

theorem words_letter_inj {language : Language} {rhythm : Rhythm} {c d : Char}
    (h : (letter c).words language rhythm = (letter d).words language rhythm) : c = d := by
  cases language <;> unfold words english french letterText at h <;> simp at h <;> exact h.1

theorem words_count_ne_composite {language : Language} {rhythm : Rhythm} {n : Nat}
    {parts : List Nat} :
    (count n).words language rhythm ≠ (composite parts).words language rhythm := by
  intro h
  cases language <;> unfold words english french at h <;> simp at h

/-- The words on a group tell the group. -/
theorem words_inj {language : Language} {rhythm : Rhythm} {group other : Group}
    (hgroup : group ≠ .letter ',') (hother : other ≠ .letter ',')
    (h : group.words language rhythm = other.words language rhythm) : group = other := by
  have hclause := clause_words language rhythm hgroup
  have hinitial := hclause.initial_unique (h ▸ clause_words language rhythm hother)
  cases group with
  | single =>
    cases other with
    | single => rfl
    | _ => cases language <;> cases hinitial
  | count n =>
    cases other with
    | count m => rw [words_count_inj h]
    | composite parts => exact absurd h words_count_ne_composite
    | _ => cases language <;> cases hinitial
  | composite parts =>
    cases other with
    | count m => exact absurd h.symm words_count_ne_composite
    | composite others => rw [words_composite_inj h]
    | _ => cases language <;> cases hinitial
  | eclipses seconds =>
    cases other with
    | eclipses others => rw [words_eclipses_inj h]
    | _ => cases language <;> cases hinitial
  | letter c =>
    cases other with
    | letter d => rw [words_letter_inj h]
    | _ => cases language <;> cases hinitial

end Group

end ChartLight
