import Prosody.Proofs.Derivation
import Prosody.Proofs.LeastWord

/-!
# Where scanning and the regular expression part

An answer may begin no word of the regular expression, as a group may be left in its middle, and a
word may not be read at all, as a repeated group may have no way out. Either happens just when it
shows in the scanned words of the pattern.
-/

namespace Prosody

variable {w : Word} {s : Scheme}

theorem Scheme.exists_mem_language (s : Scheme) : ∃ w, w ∈ s.language := by
  induction s with
  | done => exact ⟨[], rfl⟩
  | syllable place m q rest ih =>
    obtain ⟨w, hw⟩ := ih
    cases q with
    | none =>
      rw [language_syllable]
      exact ⟨[m] ++ w, Language.append_mem_mul rfl hw⟩
    | some q =>
      rw [language_quantified]
      exact ⟨[] ++ w, Language.append_mem_mul (Word.mem_of_le (q.one_le_repeated _) rfl) hw⟩
  | group place q inside rest _ ih =>
    obtain ⟨w, hw⟩ := ih
    rw [language_group]
    exact ⟨[] ++ w, Language.append_mem_mul (Word.mem_of_le (q.one_le_repeated _) rfl) hw⟩

namespace Phrase

variable {p : Phrase} {pattern : List Char}

/-- Every answer to a line that is not overrun begins a word of the regular expression just when
every scanned word does. -/
theorem answers_begin_words_iff (hp : Phrase.read pattern = .ok p) :
    (∀ border line, ((p.scheme 0).course.scan border line).overrun = false →
      ∃ w ∈ p.regex.matches', ((p.scheme 0).course.scan border line).marks <+: w) ↔
    ∀ v ∈ (p.scheme 0).scanned, ∃ w ∈ p.regex.matches', v <+: w := by
  obtain ⟨hdone, hfull⟩ := full_of_read hp
  have hne := scheme_ne_done hdone hfull 0
  have hfull := full_scheme hfull 0
  constructor
  · intro h v hv
    have hscan := Scheme.scan_symbols hne hfull hv 0
    have hv := h 0 (Word.symbols v)
    rw [hscan] at hv
    exact hv rfl
  · intro h border line hoverrun
    rcases Scheme.scan_of_not_overrun hne hfull hoverrun with hleast | ⟨-, -, hnil⟩
    · exact h _ (mem_of_isLeast_ranking hleast).1
    · obtain ⟨w, hw⟩ := (p.scheme 0).exists_mem_language
      rw [← p.matches'_regex] at hw
      rw [hnil]
      exact ⟨w, hw, List.nil_prefix⟩

theorem answers_begin_words_iff_of_nested :
    ∃ p, Phrase.read "(u?s)?S".toList = .ok p ∧
      ((∀ border line, ((p.scheme 0).course.scan border line).overrun = false →
        ∃ w ∈ p.regex.matches', ((p.scheme 0).course.scan border line).marks <+: w) ↔
      ∀ v ∈ (p.scheme 0).scanned, ∃ w ∈ p.regex.matches', v <+: w) :=
  have hp : Phrase.read "(u?s)?S".toList = .ok _ := rfl
  ⟨_, hp, answers_begin_words_iff hp⟩

/-- The phrase of `(u?s)?S`. -/
def halfOptional : Phrase :=
  .group (.syllable ⟨.unstressed, .weak⟩ [.optional] (.syllable ⟨.stressed, .weak⟩ [] .done))
    [.optional] (.syllable ⟨.stressed, .strong⟩ [] .done)

theorem read_halfOptional : Phrase.read "(u?s)?S".toList = .ok halfOptional := rfl

/-- Scanning leaves the group after the first of its two syllables. -/
theorem mem_scanned_halfOptional :
    [⟨.unstressed, .weak⟩, ⟨.stressed, .strong⟩] ∈ (halfOptional.scheme 0).scanned := by
  let u : Mark := ⟨.unstressed, .weak⟩
  let s : Mark := ⟨.stressed, .weak⟩
  let S : Mark := ⟨.stressed, .strong⟩
  change [u, S] ∈ (Scheme.group 0 .optional (.syllable 1 u (some .optional)
    (.syllable 3 s none .done)) (.syllable 6 S none .done)).scanned
  have hu : [u] ∈ Quantifier.optional.repeated {[u]} := Or.inr rfl
  have hs : [] ∈ (1 + {[s]} * 0 : Language Mark) := Or.inl rfl
  have hrest : [S] ∈ ({[S]} * 1 : Language Mark) := by
    rw [mul_one]
    rfl
  exact Or.inl ⟨_, Or.inr (Language.append_mem_mul hu hs), _, hrest, rfl⟩

theorem mem_matches'_halfOptional {w : Word} (hw : w ∈ halfOptional.regex.matches') :
    w = [⟨.stressed, .strong⟩] ∨ w = [⟨.stressed, .weak⟩, ⟨.stressed, .strong⟩] ∨
      w = [⟨.unstressed, .weak⟩, ⟨.stressed, .weak⟩, ⟨.stressed, .strong⟩] := by
  obtain ⟨u, hu, _, ⟨_, rfl, _, rfl, rfl⟩, rfl⟩ := hw
  rcases hu with rfl | ⟨v, hv, _, ⟨_, rfl, _, rfl, rfl⟩, rfl⟩
  · exact Or.inl rfl
  · rcases hv with rfl | rfl
    · exact Or.inr (Or.inl rfl)
    · exact Or.inr (Or.inr rfl)

/-- Under `(u?s)?S` the line `uS` is read as `uS`, although the words are `S`, `sS` and `usS`. -/
theorem answer_begins_no_word :
    ∃ p, Phrase.read "(u?s)?S".toList = .ok p ∧
      ((p.scheme 0).course.scan 8 "uS".toList).overrun = false ∧
      ¬∃ w ∈ p.regex.matches', ((p.scheme 0).course.scan 8 "uS".toList).marks <+: w := by
  obtain ⟨hdone, hfull⟩ := full_of_read read_halfOptional
  have hscan : (halfOptional.scheme 0).course.scan 8 "uS".toList = ⟨_, 0, false⟩ :=
    Scheme.scan_symbols (scheme_ne_done hdone hfull 0) (full_scheme hfull 0)
      mem_scanned_halfOptional 8
  refine ⟨halfOptional, read_halfOptional, ?_⟩
  rw [hscan]
  refine ⟨rfl, ?_⟩
  rintro ⟨w, hw, hprefix⟩
  rcases mem_matches'_halfOptional hw with rfl | rfl | rfl
  · exact absurd hprefix (by decide)
  · exact absurd hprefix (by decide)
  · exact absurd hprefix (by decide)

/-- Every word of the regular expression but the empty one is read to its end without errors, under
every border, just when a scanned word covers it. -/
theorem words_fit_iff (hp : Phrase.read pattern = .ok p) :
    (∀ w ∈ p.regex.matches', w ≠ [] → ∀ border,
      ((p.scheme 0).course.scan border (Word.symbols w)).overrun = false ∧
        ((p.scheme 0).course.scan border (Word.symbols w)).tally = 0 ∧
        ((p.scheme 0).course.scan border (Word.symbols w)).marks.length = w.length) ↔
    ∀ w ∈ p.regex.matches', w ≠ [] →
      ∃ v ∈ (p.scheme 0).scanned, List.Forall₂ Mark.Covers v w := by
  obtain ⟨hdone, hfull⟩ := full_of_read hp
  have hne := scheme_ne_done hdone hfull 0
  have hfull := full_scheme hfull 0
  constructor
  · intro h w hw hnil
    exact (Scheme.fits_iff hne hfull hnil 0).mp (h w hw hnil 0)
  · intro h w hw hnil border
    exact (Scheme.fits_iff hne hfull hnil border).mpr (h w hw hnil)

theorem words_fit_iff_of_optional_round :
    ∃ p, Phrase.read "(u?)*S".toList = .ok p ∧
      ((∀ w ∈ p.regex.matches', w ≠ [] → ∀ border,
        ((p.scheme 0).course.scan border (Word.symbols w)).overrun = false ∧
          ((p.scheme 0).course.scan border (Word.symbols w)).tally = 0 ∧
          ((p.scheme 0).course.scan border (Word.symbols w)).marks.length = w.length) ↔
      ∀ w ∈ p.regex.matches', w ≠ [] →
        ∃ v ∈ (p.scheme 0).scanned, List.Forall₂ Mark.Covers v w) :=
  have hp : Phrase.read "(u?)*S".toList = .ok _ := rfl
  ⟨_, hp, words_fit_iff hp⟩

/-- The phrase of `(u?)*S`. -/
def optionalRound : Phrase :=
  .group (.syllable ⟨.unstressed, .weak⟩ [.optional] .done) [.many]
    (.syllable ⟨.stressed, .strong⟩ [] .done)

theorem read_optionalRound : Phrase.read "(u?)*S".toList = .ok optionalRound := rfl

/-- There is no way out of the repeated group. -/
theorem scanned_optionalRound : (optionalRound.scheme 0).scanned = 0 := by
  simp [optionalRound, scheme, Scheme.scanned, Scheme.passage, Scheme.hasPlain, Quantifier.leaving,
    Quantifier.isMany]

/-- Under `(u?)*S` the line `S` is not read, although it is one of the words. -/
theorem word_not_read :
    ∃ p, Phrase.read "(u?)*S".toList = .ok p ∧ [⟨.stressed, .strong⟩] ∈ p.regex.matches' ∧
      ∀ border, ¬(((p.scheme 0).course.scan border "S".toList).overrun = false ∧
        ((p.scheme 0).course.scan border "S".toList).tally = 0 ∧
        ((p.scheme 0).course.scan border "S".toList).marks.length = 1) := by
  obtain ⟨hdone, hfull⟩ := full_of_read read_optionalRound
  refine ⟨optionalRound, read_optionalRound, ?_, fun border hfits => ?_⟩
  · have hrest : [(⟨.stressed, .strong⟩ : Mark)] ∈
        ({[⟨.stressed, .strong⟩]} * 1 : Language Mark) := by
      rw [mul_one]
      rfl
    exact Language.append_mem_mul (Language.nil_mem_kstar _) hrest
  · have hline : "S".toList = Word.symbols [⟨.stressed, .strong⟩] := rfl
    rw [hline] at hfits
    obtain ⟨v, hv, -⟩ := (Scheme.fits_iff (scheme_ne_done hdone hfull 0) (full_scheme hfull 0)
      (List.cons_ne_nil _ []) border).mp hfits
    rw [scanned_optionalRound] at hv
    exact absurd hv (Set.notMem_empty v)

end Phrase

end Prosody
