import Prosody.Proofs.Borders
import Prosody.Proofs.Convergence
import Prosody.Proofs.Improvement

/-!
# Charges under a raised border

A metre never charges a line more than one error of both kinds for each syllable, and this is what a
line costs that is not read to its end. A line that is read costs at most one error for each
syllable. So a border that is raised may turn unread lines into read ones, or read lines into better
ones, but no line and no poem costs more than before.
-/

namespace Prosody

variable {c : Classifier} {g h : Gauge} {line : Line} {e : LineScore} {pattern : List Char}
  {i longest a b : ℕ}

theorem Tally.le_of_le_of_le {t : Tally} {n : ℕ} (hstrong : t.strong ≤ n) (hweak : t.weak ≤ n) :
    t ≤ ⟨n, n⟩ := by
  simp only [le_iff]
  omega

theorem Gauge.total_tally_le (hmatch : (g.scan line).isMatch = true) :
    (g.scan line).tally.total ≤ line.length := by
  rw [tally_of_isMatch hmatch]
  exact Word.total_cost_le _ line

structure LineScore.Fair (g : Gauge) (line : Line) (e : LineScore) : Prop where
  scansion : e.scansion = g.scan line
  unread : e.scansion.isMatch = false → e.charge = ⟨line.length, line.length⟩
  read : e.scansion.isMatch = true → e.charge = e.scansion.tally ∧ e.charge.total ≤ line.length
  strong_le : e.charge.strong ≤ line.length
  weak_le : e.charge.weak ≤ line.length

theorem LineScore.Fair.charge_le {e' : LineScore} (he : e.Fair g line) (he' : e'.Fair h line)
    (hscan : (h.scan line).NoWorse (g.scan line)) : e'.charge ≤ e.charge := by
  by_cases hmatch : (g.scan line).isMatch = true
  · obtain ⟨hmatch', hle⟩ := hscan.isMatch hmatch
    rw [(he.read (he.scansion ▸ hmatch)).1, (he'.read (he'.scansion ▸ hmatch')).1, he.scansion,
      he'.scansion]
    exact hle
  · rw [Bool.not_eq_true] at hmatch
    rw [he.unread (he.scansion ▸ hmatch)]
    exact Tally.le_of_le_of_le he'.strong_le he'.weak_le

/-- Two gauges skip a line, or the second of them charges no more for it than the first. -/
inductive Undercuts (longest : ℕ) (g h : Gauge) (line : Line) :
    Option LineScore → Option LineScore → Prop where
  | skipped (hline : line = [] ∨ longest < line.length) : Undercuts longest g h line none none
  | scanned {e e' : LineScore} (hline : line ≠ [] ∧ line.length ≤ longest) (fair : e.Fair g line)
      (fair' : e'.Fair h line) (charge_le : e'.charge ≤ e.charge) :
      Undercuts longest g h line (some e) (some e')

theorem Undercuts.charge_le {entry entry' : Option LineScore}
    (hentry : Undercuts longest g h line entry entry') :
    Score.charge entry' ≤ Score.charge entry := by
  cases hentry with
  | skipped _ => exact Tally.le_refl _
  | scanned _ _ _ hle => exact hle

namespace Classifier

theorem skips_eq_true_iff : c.skips line = true ↔ line = [] ∨ c.longest < line.length := by
  rw [skips, Bool.or_eq_true, List.isEmpty_iff, decide_eq_true_iff]

theorem scoreLine_of_skips (hskip : c.skips line = true) (i : ℕ) : c.scoreLine g i line = none :=
  if_pos hskip

theorem isSome_scoreLine (c : Classifier) (g : Gauge) (i : ℕ) (line : Line) :
    (c.scoreLine g i line).isSome = !c.skips line := by
  unfold scoreLine
  cases c.skips line with
  | true => rfl
  | false =>
    rw [if_neg Bool.false_ne_true]
    dsimp only
    split <;> rfl

theorem fair_scoreLine (hscore : c.scoreLine g i line = some e) : e.Fair g line := by
  rcases c.scoreLine_cases g i line with
    ⟨hnone, -⟩ | ⟨hmatch, hentry, -⟩ | ⟨-, hmatch, hentry, -⟩
  · rw [hnone] at hscore
    cases hscore
  · rw [hentry] at hscore
    cases hscore
    refine ⟨rfl, fun _ => rfl, fun hread => ?_, le_rfl, le_rfl⟩
    rw [hmatch] at hread
    cases hread
  · rw [hentry] at hscore
    cases hscore
    have htotal := Gauge.total_tally_le hmatch
    refine ⟨rfl, fun hunread => ?_, fun _ => ⟨rfl, htotal⟩, ?_, ?_⟩
    · rw [entry, hmatch] at hunread
      cases hunread
    · exact (Nat.le_add_right _ _).trans htotal
    · exact (Nat.le_add_left _ _).trans htotal

theorem undercuts_scoreLine (c : Classifier) (i : ℕ)
    (hscan : (h.scan line).NoWorse (g.scan line)) :
    Undercuts c.longest g h line (c.scoreLine g i line) (c.scoreLine h i line) := by
  cases hskip : c.skips line with
  | true =>
    rw [scoreLine_of_skips hskip, scoreLine_of_skips hskip]
    exact .skipped (skips_eq_true_iff.mp hskip)
  | false =>
    have hsome (g : Gauge) : (c.scoreLine g i line).isSome = true := by
      rw [isSome_scoreLine, hskip, Bool.not_false]
    obtain ⟨e, he⟩ := Option.isSome_iff_exists.mp (hsome g)
    obtain ⟨e', he'⟩ := Option.isSome_iff_exists.mp (hsome h)
    rw [he, he']
    have hfair := fair_scoreLine he
    have hfair' := fair_scoreLine he'
    exact .scanned (skips_eq_false_iff.mp hskip) hfair hfair' (hfair.charge_le hfair' hscan)

theorem charges_le (c : Classifier) (i : ℕ) (poem : Poem)
    (hscan : ∀ line, (h.scan line).NoWorse (g.scan line)) :
    Score.charges (c.scoreLines h i poem) ≤ Score.charges (c.scoreLines g i poem) := by
  induction poem generalizing i with
  | nil => exact Tally.le_refl _
  | cons line poem ih =>
    rw [scoreLines, scoreLines, Score.charges_cons, Score.charges_cons]
    exact Tally.add_le_add (c.undercuts_scoreLine i (hscan line)).charge_le (ih (i + 1))

structure ChargesNoMore (c : Classifier) (poem : Poem) (name : String) (g h : Gauge) : Prop where
  tally_le : (c.score poem (name, h)).tally ≤ (c.score poem (name, g)).tally
  lines : ∀ (i : ℕ) (line : Line), poem[i]? = some line → ∃ entry entry',
    (c.score poem (name, g)).lines[i]? = some entry ∧
    (c.score poem (name, h)).lines[i]? = some entry' ∧ Undercuts c.longest g h line entry entry'

/-- If the border of a pattern is raised, no line and no poem costs more. -/
theorem raising_border_charges_no_more (hg : Gauge.ofPattern pattern a = .ok g) (hab : a ≤ b) :
    ∃ h, Gauge.ofPattern pattern b = .ok h ∧
      ∀ (c : Classifier) poem name, c.ChargesNoMore poem name g h := by
  obtain ⟨hread, -⟩ := Gauge.scheme_of_ofPattern hg
  have hh : Gauge.ofPattern pattern b = .ok ⟨pattern, g.scheme, b⟩ := by
    rw [Gauge.ofPattern, hread]
  have hscan := Gauge.noWorse_of_le hg hh hab
  refine ⟨_, hh, fun c poem name => ⟨c.charges_le 0 poem hscan, fun i line hline => ?_⟩⟩
  refine ⟨_, _, ?_, ?_, c.undercuts_scoreLine i (hscan line)⟩
  · rw [score, getElem?_scoreLines, hline, Nat.zero_add, Option.map_some]
  · rw [score, getElem?_scoreLines, hline, Nat.zero_add, Option.map_some]

/-- An iambic metre that may answer for three errors reads a line that it charged in full. -/
theorem raising_border_charges_no_more_of_iambos :
    ∃ g, Gauge.ofPattern "(us)*(uS)(U)?".toList 1 = .ok g ∧ 1 ≤ 3 ∧
      ∃ h, Gauge.ofPattern "(us)*(uS)(U)?".toList 3 = .ok h ∧
        (score ⟨[], 20⟩ ["uuUU".toList] ("iambos", g)).tally = ⟨4, 4⟩ ∧
        (score ⟨[], 20⟩ ["uuUU".toList] ("iambos", h)).tally = ⟨1, 1⟩ ∧
        ∀ (c : Classifier) poem name, c.ChargesNoMore poem name g h := by
  have hg : Gauge.ofPattern "(us)*(uS)(U)?".toList 1 = .ok _ := rfl
  have hh : Gauge.ofPattern "(us)*(uS)(U)?".toList 3 = .ok _ := rfl
  obtain ⟨h, hraised, hcharges⟩ := raising_border_charges_no_more hg (b := 3) (by decide)
  obtain rfl := Except.ok.inj (hraised.symm.trans hh)
  exact ⟨_, hg, by decide, _, hraised, by decide +kernel, by decide +kernel, hcharges⟩

end Classifier

end Prosody
