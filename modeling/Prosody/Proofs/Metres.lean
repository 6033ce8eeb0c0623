import Prosody.Proofs.Derivation
import Prosody.Proofs.Regularity

/-!
# The metres of the catalogue

All nine patterns are scanned as they are written. So a line matches a metre just when some word of
its regular expression has the length of the line and few enough errors, and the answer is the least
of these words.
-/

namespace Prosody

variable {s : Scheme} {border : ℕ} {line : List Char}

namespace Scheme

/-- The scheme is scanned as it is written, and no line without symbols fits it. -/
def exact (s : Scheme) : Bool := s.regular false && s.settled && s.hasPlain

theorem scanned_eq_language_of_exact (h : s.exact = true) : s.scanned = s.language := by
  rw [exact, Bool.and_eq_true, Bool.and_eq_true] at h
  exact scanned_eq_language h.1.1 h.1.2

variable (hne : s ≠ done) (hfull : s.Full) (hexact : s.exact = true)

include hne hfull hexact in
theorem nonempty_of_isMatch (h : (s.course.scan border line).isMatch = true) :
    (ranking s.language border line).Nonempty := by
  rw [← scanned_eq_language_of_exact hexact, ← words_course hne hfull]
  exact ⟨_, (Course.isLeast_of_isMatch h).1⟩

include hne hfull hexact in
theorem scan_of_exact (h : (ranking s.language border line).Nonempty) :
    (s.course.scan border line).isMatch = true ∧
      IsLeast (ranking s.language border line)
        (Rank.of (s.course.scan border line).tally (s.course.scan border line).marks) := by
  have hlanguage := scanned_eq_language_of_exact hexact
  rw [← hlanguage] at h
  obtain ⟨hoverrun, hleast⟩ := scan_of_nonempty hne hfull h
  rw [hlanguage] at hleast
  have hmarks : (s.course.scan border line).marks ≠ [] := by
    intro hnil
    have hmem := (mem_of_isLeast_ranking hleast).1
    rw [exact, Bool.and_eq_true] at hexact
    rw [hnil] at hmem
    exact nil_notMem_language hexact.2 hmem
  exact ⟨Scansion.isMatch_iff.mpr ⟨hoverrun, hmarks⟩, hleast⟩

end Scheme

namespace Metre

theorem exact_of_mem_catalogue {m : Metre} (hm : m ∈ catalogue) :
    ∃ p, Phrase.read m.pattern = .ok p ∧ (p.scheme 0).exact = true := by
  have hall : catalogue.all (fun m => match Phrase.read m.pattern with
      | .ok p => (p.scheme 0).exact
      | .error _ => false) = true := by decide
  have h := List.all_eq_true.mp hall m hm
  split at h
  · rename_i p hp
    exact ⟨p, hp, h⟩
  · cases h

theorem gauge_of_mem_catalogue {m : Metre} (hm : m ∈ catalogue) :
    ∃ p, Phrase.read m.pattern = .ok p ∧ m.gauge = .ok ⟨m.pattern, p.scheme 0, m.border⟩ ∧
      p.scheme 0 ≠ .done ∧ (p.scheme 0).Full ∧ (p.scheme 0).exact = true := by
  obtain ⟨p, hp, hexact⟩ := exact_of_mem_catalogue hm
  obtain ⟨hdone, hfull⟩ := Phrase.full_of_read hp
  refine ⟨p, hp, ?_, Phrase.scheme_ne_done hdone hfull 0, Phrase.full_scheme hfull 0, hexact⟩
  rw [gauge, Gauge.ofPattern, Scheme.read, hp]

/-- A line matches a metre of the catalogue just when some word of its regular expression has the
length of the line and no more mismatches than the metre allows. The answer is the least of these
words, with its mismatches. -/
theorem scan_eq_least_word : ∀ m ∈ catalogue, ∃ p : Phrase, ∃ g, p.Derives m.pattern ∧
    m.gauge = .ok g ∧ ∀ line,
      ((g.scan line).overrun = false ∧ (g.scan line).marks ≠ [] ↔
        (fitting p.regex.matches' m.border line).Nonempty) ∧
      ((g.scan line).overrun = false → (g.scan line).marks ≠ [] →
        IsLeast ((Word.rank · line) '' fitting p.regex.matches' m.border line)
          (toLex ((g.scan line).tally.strong, toLex ((g.scan line).tally.weak,
            (g.scan line).marks.map Mark.symbol)))) := by
  intro m hm
  obtain ⟨p, hp, hgauge, hne, hfull, hexact⟩ := gauge_of_mem_catalogue hm
  refine ⟨p, _, Phrase.read_eq_ok_iff.mp hp, hgauge, fun line => ?_⟩
  rw [p.matches'_regex 0, ← Scansion.isMatch_iff, ← ranking_eq_image]
  refine ⟨⟨fun hmatch => ?_, fun hword => ?_⟩, fun hoverrun hmarks => ?_⟩
  · have hfits := Scheme.nonempty_of_isMatch hne hfull hexact hmatch
    rwa [ranking_eq_image, Set.image_nonempty] at hfits
  · rw [← Set.image_nonempty (f := (Word.rank · line)), ← ranking_eq_image] at hword
    exact (Scheme.scan_of_exact hne hfull hexact hword).1
  · have hmatch := Scansion.isMatch_iff.mpr ⟨hoverrun, hmarks⟩
    have hfits := Scheme.nonempty_of_isMatch hne hfull hexact hmatch
    exact (Scheme.scan_of_exact hne hfull hexact hfits).2

/-- The least of the words of length four for `SSSS` has two weak mismatches, and no word comes
within three of `xxxx`. -/
theorem scan_eq_least_word_of_dolnik3 :
    dolnik3 ∈ catalogue ∧ ∃ p : Phrase, ∃ g, p.Derives dolnik3.pattern ∧ dolnik3.gauge = .ok g ∧
      g.scan "SSSS".toList = ⟨[⟨.stressed, .weak⟩, ⟨.unstressed, .weak⟩, ⟨.unstressed, .weak⟩,
        ⟨.stressed, .strong⟩], ⟨0, 2⟩, false⟩ ∧
      IsLeast ((Word.rank · "SSSS".toList) '' fitting p.regex.matches' 3 "SSSS".toList)
        (toLex (0, toLex (2, "suuS".toList))) ∧
      (g.scan "xxxx".toList).overrun = true ∧ fitting p.regex.matches' 3 "xxxx".toList = ∅ := by
  have hm : dolnik3 ∈ catalogue := by simp [catalogue]
  obtain ⟨p, g, hp, hg, hscan⟩ := scan_eq_least_word dolnik3 hm
  have hgauge : dolnik3.gauge = .ok _ := rfl
  obtain rfl := Except.ok.inj (hg.symm.trans hgauge)
  refine ⟨hm, p, _, hp, hg, rfl, (hscan "SSSS".toList).2 rfl (by decide), rfl, ?_⟩
  have hnone := (hscan "xxxx".toList).1.not.mp fun hmatch => by cases hmatch.1
  exact Set.not_nonempty_iff_eq_empty.mp hnone

end Metre

end Prosody
