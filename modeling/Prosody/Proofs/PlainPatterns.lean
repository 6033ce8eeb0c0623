import Prosody.Proofs.Beginnings
import Prosody.Proofs.Derivation

/-!
# Patterns without quantifiers

A pattern without quantifiers leaves nothing open: brackets apart it is a word, and a line is
compared with this word symbol by symbol, as far as both go and the errors keep within the border.
The answer is the word if all of it was compared, and nothing otherwise.
-/

namespace Prosody

variable {loops closes led : Bool} {s t : Scheme} {w : Word} {border : ℕ}

namespace Scheme

def word : Scheme → Word
  | done => []
  | syllable _ m _ rest => m :: rest.word
  | group _ _ inside rest => inside.word ++ rest.word

def isPlain : Scheme → Bool
  | done => true
  | syllable _ _ none rest => rest.isPlain
  | syllable _ _ (some _) _ => false
  | group _ _ _ _ => false

theorem word_append (s t : Scheme) : (s ++ t).word = s.word ++ t.word := by
  induction s with
  | done => rfl
  | syllable p m q rest ih => simp [word, ih]
  | group p q inside rest _ ih => simp [word, ih]

theorem isPlain_append (hs : s.isPlain = true) (ht : t.isPlain = true) :
    (s ++ t).isPlain = true := by
  induction s with
  | done => exact ht
  | syllable p m q rest ih =>
    cases q with
    | none => exact ih hs
    | some q => cases hs
  | group p q inside rest => cases hs

theorem scanned_of_isPlain (h : s.isPlain = true) : s.scanned = {s.word} := by
  induction s with
  | done => rfl
  | syllable p m q rest ih =>
    cases q with
    | none =>
      rw [scanned, ih h, word]
      exact Set.image2_singleton
    | some q => cases h
  | group p q inside rest => cases h

theorem mem_part_of_isPlain (h : s.isPlain = true) :
    w ∈ (s.passage loops closes led).part ↔ w <+: s.word := by
  induction s generalizing led w with
  | done => exact List.prefix_nil.symm
  | syllable p m q rest ih =>
    cases q with
    | none =>
      rw [word, List.prefix_cons_iff]
      constructor
      · intro hw
        rcases hw with hnil | ⟨_, rfl, v, hv, rfl⟩
        · exact Or.inl hnil
        · exact Or.inr ⟨v, rfl, (ih h).mp hv⟩
      · intro hw
        rcases hw with hnil | ⟨v, rfl, hv⟩
        · exact Or.inl hnil
        · exact Or.inr ⟨[m], rfl, v, (ih h).mpr hv, rfl⟩
    | some q => cases h
  | group p q inside rest => cases h

/-- A line is read as far as the beginnings of the word fit it. -/
theorem lengths_of_isPlain (hne : s ≠ done) (hfull : s.Full) (h : s.isPlain = true)
    (line : List Char) :
    {j | ∃ p, s.course.Feasible border line p ∧ p.length = j} =
      {j | j ≤ line.length ∧ j ≤ s.word.length ∧
        (Word.cost (s.word.take j) line).total ≤ border} := by
  rw [Course.lengths_eq_begun, begun_course hne hfull]
  ext j
  constructor
  · intro hj
    obtain ⟨w, hw, rfl, hlen, hcost⟩ := hj
    have hprefix := (mem_part_of_isPlain h).mp hw
    rw [List.prefix_iff_eq_take.mp hprefix] at hcost
    exact ⟨hlen, hprefix.length_le, hcost⟩
  · intro hj
    obtain ⟨hline, hword, hcost⟩ := hj
    have hprefix : s.word.take j ∈ s.begun := (mem_part_of_isPlain h).mpr (s.word.take_prefix j)
    exact ⟨s.word.take j, hprefix, List.length_take_of_le hword, hline, hcost⟩

theorem scan_of_isPlain (hne : s ≠ done) (hfull : s.Full) (h : s.isPlain = true) (border : ℕ)
    (line : List Char) :
    ∃ k, IsGreatest {j | j ≤ line.length ∧ j ≤ s.word.length ∧
        (Word.cost (s.word.take j) line).total ≤ border} k ∧
      s.course.scan border line =
        { marks := if k = s.word.length then s.word else []
          tally := (if k = s.word.length then Word.cost s.word line else 0) +
            .both (line.length - k)
          overrun := decide (k < line.length) } := by
  obtain ⟨k, hk, hoverrun, t, ht, hleast⟩ := s.course.scan_spec border line
  rw [lengths_of_isPlain hne hfull h] at hk
  rw [Course.ranks_eq_words, words_course hne hfull, scanned_of_isPlain h] at hleast
  have hanswer : t = (if k = s.word.length then Word.cost s.word line else 0) ∧
      (s.course.scan border line).marks = if k = s.word.length then s.word else [] := by
    by_cases hword : k = s.word.length
    · rw [if_pos hword, if_pos hword]
      rcases hleast with ⟨⟨_, rfl, -, -, -, hrank⟩, -⟩ | ⟨hempty, -⟩
      · obtain ⟨htally, hmarks⟩ := Rank.of_injective hrank
        exact ⟨htally.symm, hmarks.symm⟩
      · obtain ⟨hline, -, hcost⟩ := hk.1
        rw [hword, List.take_length] at hcost
        have hmem : Rank.of (Word.cost s.word line) s.word ∈ (∅ : Set Rank) := by
          rw [← hempty]
          exact ⟨s.word, rfl, hword.symm, hline, hcost, rfl⟩
        exact absurd hmem (Set.notMem_empty _)
    · rw [if_neg hword, if_neg hword]
      rcases hleast with ⟨⟨_, rfl, hlen, -⟩, -⟩ | ⟨-, hanswer⟩
      · exact absurd hlen.symm hword
      · exact hanswer
  refine ⟨k, hk, Scansion.ext hanswer.2 ?_ hoverrun⟩
  rw [ht, hanswer.1]

end Scheme

namespace Phrase

def word : Phrase → Word
  | done => []
  | syllable m _ rest => m :: rest.word
  | group inside _ rest => inside.word ++ rest.word

theorem word_scheme (p : Phrase) (n : ℕ) : (p.scheme n).word = p.word := by
  induction p generalizing n with
  | done => rfl
  | syllable m run rest ih => rw [scheme, Scheme.word, word, ih]
  | group inside run rest ihi ih =>
    rw [scheme, word]
    cases run.getLast? with
    | none =>
      simp only
      rw [Scheme.word_append, ihi, ih]
    | some q =>
      simp only
      rw [Scheme.word, ihi, ih]

theorem filter_run (run : List Quantifier) :
    (run.map Quantifier.symbol).filter (· ∈ ['u', 's', 'U', 'S']) = [] := by
  rw [List.filter_eq_nil_iff, List.forall_mem_map]
  intro q _
  cases q <;> decide

theorem filter_write (p : Phrase) :
    p.write.filter (· ∈ ['u', 's', 'U', 'S']) = p.word.symbols := by
  induction p with
  | done => rfl
  | syllable m run rest ih =>
    have hletter : m.symbol ∈ ['u', 's', 'U', 'S'] := by
      rcases m with ⟨_ | _, _ | _⟩ <;> decide
    rw [write, List.filter_cons_of_pos (by simpa using hletter), List.filter_append, filter_run, ih]
    rfl
  | group inside run rest ihi ih =>
    rw [write, List.filter_cons_of_neg (by decide), List.filter_append,
      List.filter_cons_of_neg (by decide), List.filter_append, filter_run, ihi, ih, word,
      List.nil_append, Word.symbols, Word.symbols, Word.symbols, List.map_append]

theorem eq_nil_of_no_quantifier {run : List Quantifier}
    (h : ∀ q : Quantifier, q.symbol ∉ run.map Quantifier.symbol) : run = [] := by
  cases run with
  | nil => rfl
  | cons q run => exact absurd (List.mem_map_of_mem List.mem_cons_self) (h q)

theorem isPlain_scheme {p : Phrase} (h : ∀ q : Quantifier, q.symbol ∉ p.write) (n : ℕ) :
    (p.scheme n).isPlain = true := by
  induction p generalizing n with
  | done => rfl
  | syllable m run rest ih =>
    simp only [write, List.mem_cons, List.mem_append, not_or] at h
    obtain rfl := eq_nil_of_no_quantifier fun q => (h q).2.1
    exact ih (fun q => (h q).2.2) _
  | group inside run rest ihi ih =>
    simp only [write, List.mem_cons, List.mem_append, not_or] at h
    obtain rfl := eq_nil_of_no_quantifier fun q => (h q).2.2.2.1
    exact Scheme.isPlain_append (ihi (fun q => (h q).2.1) _) (ih (fun q => (h q).2.2.2.2) _)

end Phrase

namespace Gauge

variable {pattern : List Char} {g : Gauge}

/-- Without quantifiers, a line is compared with the marks of the pattern symbol by symbol, as far
as both go and the mismatches keep within the border. If all marks were compared, they are the
answer, with their mismatches; otherwise it is empty. What is left of the line counts as errors of
both kinds. -/
theorem plain_patterns_compare (hmany : '*' ∉ pattern) (hoptional : '?' ∉ pattern)
    (hwildcard : 'w' ∉ pattern) (hg : ofPattern pattern border = .ok g) :
    ∃ e : Word, e.symbols = pattern.filter (· ∈ ['u', 's', 'U', 'S']) ∧
      (∀ line, ∃ k, IsGreatest {j | j ≤ line.length ∧ j ≤ e.length ∧
          Word.mismatches .strong (e.take j) line + Word.mismatches .weak (e.take j) line ≤
            border} k ∧
        g.scan line =
          { marks := if k = e.length then e else []
            tally :=
              ⟨(if k = e.length then e.mismatches .strong line else 0) + (line.length - k),
                (if k = e.length then e.mismatches .weak line else 0) + (line.length - k)⟩
            overrun := decide (k < line.length) }) ∧
      g.scan e.symbols = ⟨e, ⟨0, 0⟩, false⟩ := by
  obtain ⟨hread, rfl⟩ := scheme_of_ofPattern hg
  obtain ⟨hne, hfull⟩ := Scheme.full_of_read hread
  obtain ⟨p, ⟨-, -, rfl⟩, hscheme⟩ := Scheme.read_eq_ok_iff.mp hread
  have hsigns : ∀ q : Quantifier, q.symbol ∉ p.write := by
    intro q
    cases q
    · exact hmany
    · exact hoptional
    · exact hwildcard
  have hplain : g.scheme.isPlain = true := by
    rw [← hscheme]
    exact Phrase.isPlain_scheme hsigns 0
  have hword : p.word = g.scheme.word := by
    rw [← hscheme, p.word_scheme]
  refine ⟨p.word, p.filter_write.symm, fun line => ?_, ?_⟩
  · obtain ⟨k, hk, hscan⟩ := Scheme.scan_of_isPlain hne hfull hplain g.border line
    rw [← hword] at hk hscan
    simp only [Word.total_cost] at hk
    refine ⟨k, hk, hscan.trans ?_⟩
    rw [Word.cost_eq_mismatches]
    split <;> rfl
  · rw [hword]
    refine Scheme.scan_symbols hne hfull ?_ _
    rw [Scheme.scanned_of_isPlain hplain]
    rfl

/-- Under one error `SU` is compared with the first mark of `US` only, and no mark is the answer. -/
theorem plain_patterns_compare_at_border :
    '*' ∉ "((U))S".toList ∧ '?' ∉ "((U))S".toList ∧ 'w' ∉ "((U))S".toList ∧
      ∃ g, ofPattern "((U))S".toList 1 = .ok g ∧ g.scan "SU".toList = ⟨[], ⟨1, 1⟩, true⟩ ∧
        g.scan "US".toList =
          ⟨[⟨.unstressed, .strong⟩, ⟨.stressed, .strong⟩], ⟨0, 0⟩, false⟩ := by
  have hmany : '*' ∉ "((U))S".toList := by decide
  have hoptional : '?' ∉ "((U))S".toList := by decide
  have hwildcard : 'w' ∉ "((U))S".toList := by decide
  have hg : ofPattern "((U))S".toList 1 = .ok _ := rfl
  obtain ⟨e, he, hcompared, hself⟩ := plain_patterns_compare hmany hoptional hwildcard hg
  have hinj : Function.Injective Mark.symbol := fun _ _ => Mark.symbol_injective
  obtain rfl : e = [⟨.unstressed, .strong⟩, ⟨.stressed, .strong⟩] :=
    List.map_injective_iff.mpr hinj he
  obtain ⟨k, hk, hscan⟩ := hcompared "SU".toList
  obtain rfl : k = 1 := by
    have hone : 1 ≤ k := hk.2 (by decide)
    have htwo : k ≠ 2 := by
      rintro rfl
      exact absurd hk.1 (by decide)
    have := hk.1.1
    change k ≤ 2 at this
    omega
  exact ⟨hmany, hoptional, hwildcard, _, hg, hscan, hself⟩

end Gauge

end Prosody
