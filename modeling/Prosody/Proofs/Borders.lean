import Prosody.Proofs.LeastWord

/-!
# Scanning under two borders

A lower border admits fewer paths. So a line that is overrun stays overrun, and a line that is read
to its end is read no worse under the wider border. The two answers agree if the one under the wider
border keeps within the lower one, or if the line is too short to exceed it.
-/

namespace Prosody

variable {c d : Course} {a b : ℕ} {line : List Char} {p : Path}

attribute [ext] Scansion

/-- The first answer leaves symbols over only if the second does. If the second comes to the end of
the line, so does the first, with no more errors. -/
structure Scansion.NoWorse (s t : Scansion) : Prop where
  overrun : t.overrun = false → s.overrun = false
  isMatch : t.isMatch = true → s.isMatch = true ∧ s.tally ≤ t.tally

theorem Word.total_cost_le (w : Word) (line : List Char) : (w.cost line).total ≤ line.length := by
  induction w generalizing line with
  | nil => exact Nat.zero_le _
  | cons m w ih =>
    cases line with
    | nil => exact Nat.le_refl _
    | cons symbol line =>
      have hhead := m.total_cost_le symbol
      have hrest := ih line
      rw [cost, Tally.total_add, List.length_cons]
      omega

theorem ranking_mono (L : Language Mark) (line : List Char) (hab : a ≤ b) :
    ranking L a line ⊆ ranking L b line := by
  rintro _ ⟨w, hw, hlen, hcost, rfl⟩
  exact ⟨w, hw, hlen, hcost.trans hab, rfl⟩

namespace Course

theorem Feasible.mono (hab : a ≤ b) (h : c.Feasible a line p) : c.Feasible b line p :=
  ⟨h.1, h.2.1, h.2.2.trans hab⟩

/-- The answer depends only on how long feasible paths are and on the ranks of the complete ones. -/
theorem scan_congr_ranks
    (hlengths : {j | ∃ p, c.Feasible a line p ∧ p.length = j} =
      {j | ∃ p, d.Feasible b line p ∧ p.length = j})
    (hranks : ∀ k, c.ranks a line k = d.ranks b line k) : c.scan a line = d.scan b line := by
  obtain ⟨k, hk, hoverrun, t, ht, hrank⟩ := c.scan_spec a line
  obtain ⟨k', hk', hoverrun', t', ht', hrank'⟩ := d.scan_spec b line
  rw [hlengths] at hk
  obtain rfl := hk.unique hk'
  rw [hranks] at hrank
  have hsame : t = t' ∧ (c.scan a line).marks = (d.scan b line).marks := by
    rcases hrank with hleast | ⟨hempty, rfl, hmarks⟩
    · rcases hrank' with hleast' | ⟨hempty, -⟩
      · exact Rank.of_injective (hleast.unique hleast')
      · exact absurd hempty hleast.nonempty.ne_empty
    · rcases hrank' with hleast' | ⟨-, rfl, hmarks'⟩
      · exact absurd hempty hleast'.nonempty.ne_empty
      · exact ⟨rfl, hmarks.trans hmarks'.symm⟩
  apply Scansion.ext
  · exact hsame.2
  · rw [ht, ht', hsame.1]
  · rw [hoverrun, hoverrun']

theorem scan_congr (hfeasible : ∀ p, c.Feasible a line p ↔ d.Feasible b line p)
    (hcomplete : ∀ p, c.Feasible a line p → (c.Complete p ↔ d.Complete p)) :
    c.scan a line = d.scan b line := by
  apply scan_congr_ranks
  · simp only [hfeasible]
  · intro k
    ext r
    apply exists_congr
    intro p
    rw [← hfeasible p]
    apply and_congr_right
    intro hp
    rw [hcomplete p hp]

/-- A border that allows as many errors as the line has symbols excludes no path. -/
theorem scan_eq_of_length_le (ha : line.length ≤ a) (hab : a ≤ b) :
    c.scan a line = c.scan b line := by
  refine scan_congr (fun p => ⟨Feasible.mono hab, fun hp => ⟨hp.1, hp.2.1, ?_⟩⟩) fun _ _ => Iff.rfl
  rw [p.cost_eq]
  exact (Word.total_cost_le p.marks line).trans ha

theorem overrun_eq_false_of_lengths
    (hlengths : {j | ∃ p, c.Feasible a line p ∧ p.length = j} ⊆
      {j | ∃ p, d.Feasible b line p ∧ p.length = j})
    (h : (c.scan a line).overrun = false) : (d.scan b line).overrun = false := by
  obtain ⟨k, ⟨hk, -⟩, hoverrun, -⟩ := c.scan_spec a line
  obtain ⟨k', ⟨-, hk'⟩, hoverrun', -⟩ := d.scan_spec b line
  have hle : k ≤ k' := hk' (hlengths hk)
  rw [hoverrun, decide_eq_false_iff_not] at h
  rw [hoverrun', decide_eq_false_iff_not]
  omega

theorem isMatch_of_words
    (hwords : ∀ w ∈ c.words, w.length = line.length → (Word.cost w line).total ≤ a →
      ∃ v ∈ d.words, v.length = line.length ∧ (Word.cost v line).total ≤ b ∧
        Word.cost v line ≤ Word.cost w line)
    (h : (c.scan a line).isMatch = true) :
    (d.scan b line).isMatch = true ∧ (d.scan b line).tally ≤ (c.scan a line).tally := by
  obtain ⟨hw, hlen, hcost, hborder⟩ := mem_of_isLeast_ranking (isLeast_of_isMatch h)
  rw [hcost] at hborder ⊢
  obtain ⟨v, hv, hlenv, htotal, hle⟩ := hwords _ hw hlen hborder
  have hmem : Rank.of (Word.cost v line) v ∈ ranking d.words b line :=
    ⟨v, hv, hlenv, htotal, rfl⟩
  have hline : line ≠ [] := by
    rintro rfl
    exact (Scansion.isMatch_iff.mp h).2 (List.length_eq_zero_iff.mp hlen)
  have hmatch := isMatch_of_nonempty hline ⟨_, hmem⟩
  exact ⟨hmatch, Tally.le_trans (Rank.tally_le ((isLeast_of_isMatch hmatch).2 hmem)) hle⟩

theorem noWorse_of_le (hab : a ≤ b) (line : List Char) :
    (c.scan b line).NoWorse (c.scan a line) where
  overrun := overrun_eq_false_of_lengths fun _ ⟨p, hp, hlen⟩ => ⟨p, hp.mono hab, hlen⟩
  isMatch := isMatch_of_words fun w hw hlen hborder =>
    ⟨w, hw, hlen, hborder.trans hab, Tally.le_refl _⟩

theorem overrun_of_le (hab : a ≤ b) (h : (c.scan b line).overrun = true) :
    (c.scan a line).overrun = true := by
  by_contra hread
  rw [Bool.not_eq_true] at hread
  rw [(noWorse_of_le hab line).overrun hread] at h
  cases h

theorem isMatch_of_le (hab : a ≤ b) (h : (c.scan a line).isMatch = true) :
    (c.scan b line).isMatch = true ∧ (c.scan b line).tally ≤ (c.scan a line).tally :=
  (noWorse_of_le hab line).isMatch h

theorem scan_eq_of_total_le (hab : a ≤ b) (h : (c.scan b line).isMatch = true)
    (htotal : (c.scan b line).tally.total ≤ a) : c.scan a line = c.scan b line := by
  have hleast := isLeast_of_isMatch h
  obtain ⟨hw, hlen, hcost, -⟩ := mem_of_isLeast_ranking hleast
  have hmem : Rank.of (c.scan b line).tally (c.scan b line).marks ∈ ranking c.words a line := by
    rw [hcost] at htotal ⊢
    exact ⟨_, hw, hlen, htotal, rfl⟩
  have hleast' : IsLeast (ranking c.words a line) _ :=
    ⟨hmem, lowerBounds_mono_set (ranking_mono c.words line hab) hleast.2⟩
  obtain ⟨hoverrun, hanswer⟩ := scan_of_nonempty ⟨_, hmem⟩
  obtain ⟨htally, hmarks⟩ := Rank.of_injective (hanswer.unique hleast')
  exact Scansion.ext hmarks htally (hoverrun.trans (Scansion.isMatch_iff.mp h).1.symm)

end Course

namespace Gauge

variable {pattern : List Char} {g h : Gauge}

theorem scheme_of_ofPattern (hg : ofPattern pattern b = .ok g) :
    Scheme.read pattern = .ok g.scheme ∧ g.border = b := by
  unfold ofPattern at hg
  split at hg
  · cases hg
  · rename_i s hs
    cases hg
    exact ⟨hs, rfl⟩

theorem scan_of_ofPattern (hg : ofPattern pattern b = .ok g) :
    ∃ s, Scheme.read pattern = .ok s ∧ g.scan = s.course.scan b := by
  obtain ⟨hread, rfl⟩ := scheme_of_ofPattern hg
  exact ⟨g.scheme, hread, rfl⟩

theorem noWorse_of_le (hg : ofPattern pattern a = .ok g) (hh : ofPattern pattern b = .ok h)
    (hab : a ≤ b) (line : List Char) : (h.scan line).NoWorse (g.scan line) := by
  obtain ⟨s, hs, hgs⟩ := scan_of_ofPattern hg
  obtain ⟨t, ht, hht⟩ := scan_of_ofPattern hh
  rw [hs] at ht
  cases ht
  rw [hgs, hht]
  exact Course.noWorse_of_le hab line

/-- Under a lower border no line is read better: it is overrun if it is overrun under the wider one,
and it is read to its end only if it is so there, with no fewer errors. The answers are the same if
the line is read under the wider border within the lower one, or has no more symbols than this
allows errors. -/
theorem lowering_border (hg : ofPattern pattern a = .ok g) (hh : ofPattern pattern b = .ok h)
    (hab : a ≤ b) (line : List Char) :
    ((h.scan line).overrun = true → (g.scan line).overrun = true) ∧
      ((g.scan line).isMatch = true →
        (h.scan line).isMatch = true ∧ (h.scan line).tally ≤ (g.scan line).tally) ∧
      ((h.scan line).isMatch = true → (h.scan line).tally.total ≤ a → g.scan line = h.scan line) ∧
      (line.length ≤ a → g.scan line = h.scan line) := by
  obtain ⟨s, hs, hgs⟩ := scan_of_ofPattern hg
  obtain ⟨t, ht, hht⟩ := scan_of_ofPattern hh
  obtain rfl : s = t := by
    rw [hs] at ht
    exact Except.ok.inj ht
  rw [hgs, hht]
  exact ⟨Course.overrun_of_le hab, Course.isMatch_of_le hab, Course.scan_eq_of_total_le hab,
    fun hline => Course.scan_eq_of_length_le hline hab⟩

/-- On `SS` the lower border keeps `US` with one strong error, and the wider one prefers `uu` with
two weak errors. -/
theorem lowering_border_of_two_groups :
    ∃ g h, ofPattern "(US)?(uu)?".toList 1 = .ok g ∧ ofPattern "(US)?(uu)?".toList 2 = .ok h ∧
      1 ≤ 2 ∧ g.scan "SS".toList ≠ h.scan "SS".toList ∧
      ((h.scan "SS".toList).overrun = true → (g.scan "SS".toList).overrun = true) ∧
      ((g.scan "SS".toList).isMatch = true → (h.scan "SS".toList).isMatch = true ∧
        (h.scan "SS".toList).tally ≤ (g.scan "SS".toList).tally) ∧
      ((h.scan "SS".toList).isMatch = true → (h.scan "SS".toList).tally.total ≤ 1 →
        g.scan "SS".toList = h.scan "SS".toList) ∧
      (2 ≤ 1 → g.scan "SS".toList = h.scan "SS".toList) :=
  have hg : ofPattern "(US)?(uu)?".toList 1 = .ok _ := rfl
  have hh : ofPattern "(US)?(uu)?".toList 2 = .ok _ := rfl
  ⟨_, _, hg, hh, by decide, by decide, lowering_border hg hh (by decide) "SS".toList⟩

end Gauge

end Prosody
