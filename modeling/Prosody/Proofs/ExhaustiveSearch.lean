import Prosody.Proofs.ChartPaths
import Prosody.Proofs.Survivors

/-!
# Scanning is exhaustive search

Scanning merges readings that meet and drops those over the border. Its answer is nonetheless that
of a search through all paths of the greatest feasible length.
-/

namespace Prosody

variable {s : Scheme}

namespace Scheme

def feasibleLengths (s : Scheme) (border : ℕ) (line : List Char) : Set ℕ :=
  {k | ∃ p, s.chart.Fits border line p ∧ p.length = k}

/-- The ranks of the feasible paths of length `k` that reach the last unquantified syllable
directly under the whole. -/
def completeRanks (s : Scheme) (border : ℕ) (line : List Char) (k : ℕ) : Set Rank :=
  {r | ∃ p, s.chart.Fits border line p ∧ s.chart.Reaches (p.endsAt 0) ∧ p.length = k ∧
    Word.rank p.marks line = r}

theorem feasibleLengths_eq (s : Scheme) (border : ℕ) (line : List Char) :
    s.feasibleLengths border line = {k | ∃ p, s.course.Feasible border line p ∧ p.length = k} := by
  simp only [feasibleLengths, feasible_iff_fits]

theorem ranks_eq_completeRanks (hs : s.places.Pairwise (· < ·)) (border : ℕ) (line : List Char)
    (k : ℕ) : s.course.ranks border line k = s.completeRanks border line k := by
  ext r
  refine exists_congr fun p => ?_
  rw [Path.rank, Path.cost_eq, ← Word.rank_eq, ← feasible_iff_fits]
  refine and_congr_right fun hp => and_congr_left fun _ => ?_
  exact Chart.completes_iff_reaches hs (endsAt_le_size hp.1 (Nat.zero_le _))

/-- With `k` the greatest length of a feasible path, a line of `n` symbols is overrun just when `k`
is less than `n`. Less the `n - k` symbols left over, errors and marks of the scansion are the least
among all feasible complete paths of length `k`, and nothing if there is none. -/
theorem scan_eq_exhaustive_search {pattern : List Char} (hs : Scheme.read pattern = .ok s)
    (border : ℕ) (line : List Char) :
    ∃ k, IsGreatest (s.feasibleLengths border line) k ∧
      ((s.course.scan border line).overrun = true ↔ k < line.length) ∧
      ∃ strong weak,
        (s.course.scan border line).tally.strong = strong + (line.length - k) ∧
        (s.course.scan border line).tally.weak = weak + (line.length - k) ∧
        (IsLeast (s.completeRanks border line k) (toLex (strong, toLex (weak,
            (s.course.scan border line).marks.map Mark.symbol))) ∨
          s.completeRanks border line k = ∅ ∧ strong = 0 ∧ weak = 0 ∧
            (s.course.scan border line).marks = []) := by
  obtain ⟨p, -, rfl⟩ := exists_phrase_of_read hs
  have hplaces := p.pairwise_places_scheme 0
  obtain ⟨k, hk, hoverrun, t, ht, hrank⟩ := Course.scan_spec (p.scheme 0).course border line
  rw [ranks_eq_completeRanks hplaces] at hrank
  rw [← feasibleLengths_eq] at hk
  refine ⟨k, hk, ?_, t.strong, t.weak, ?_, ?_, ?_⟩
  · rw [hoverrun, decide_eq_true_iff]
  · rw [ht]
    rfl
  · rw [ht]
    rfl
  · rcases hrank with hleast | ⟨hempty, rfl, hmarks⟩
    · exact Or.inl hleast
    · exact Or.inr ⟨hempty, rfl, rfl, hmarks⟩

/-- The line `SU` under `US` and a border of one error: the second symbol is left over, and no path
of length one is complete. -/
theorem scan_eq_exhaustive_search_at_border :
    ∃ s, Scheme.read "US".toList = .ok s ∧
      s.course.scan 1 "SU".toList = ⟨[], ⟨1, 1⟩, true⟩ ∧
      IsGreatest (s.feasibleLengths 1 "SU".toList) 1 ∧ s.completeRanks 1 "SU".toList 1 = ∅ := by
  have h : Scheme.read "US".toList = .ok (.syllable 0 ⟨.unstressed, .strong⟩ none
      (.syllable 1 ⟨.stressed, .strong⟩ none .done)) := rfl
  obtain ⟨k, hk, hoverrun, strong, weak, hstrong, hweak, hleast⟩ :=
    scan_eq_exhaustive_search h 1 "SU".toList
  have hlt : k < 2 := hoverrun.mp rfl
  change 1 = strong + (2 - k) at hstrong
  obtain rfl : k = 1 := by omega
  refine ⟨_, h, rfl, hk, ?_⟩
  rcases hleast with ⟨⟨p, -, -, hlen, hrank⟩, -⟩ | ⟨hempty, -⟩
  · have hmarks : p.marks.map Mark.symbol = [] := congrArg (fun r => (ofLex (ofLex r).2).2) hrank
    rw [List.map_eq_nil_iff, ← List.length_eq_zero_iff, Path.length_marks, hlen] at hmarks
    cases hmarks
  · exact hempty

end Scheme

end Prosody
