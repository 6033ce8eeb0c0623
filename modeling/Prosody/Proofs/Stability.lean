import Prosody.Proofs.CorrectedLines

/-!
# Correcting under one metre is stable

On a line of strong marks a correction turns a syllable over. A word that comes out better after the
corrections than the word they were made for would have had no more strong errors before, and none
of its weak errors could outweigh that. So the same word wins again, now without strong errors, and
there is nothing left to correct.
-/

namespace Prosody

variable {a : Char} {v w : Word} {line : Line} {poem : Poem} {border : ℕ} {g : Gauge}

def Sharp (line : Line) : Prop := ∀ a ∈ line, a = 'U' ∨ a = 'S'

namespace Mark

theorem strong_cost_correct (ha : a = 'U' ∨ a = 'S') (m : Mark) :
    (m.cost (m.correct a)).strong = 0 := by
  rcases ha with rfl | rfl <;> rcases m with ⟨_ | _, _ | _⟩ <;> decide

/-- What a mark without a strong error on the corrected syllable costs on the syllable before, where
the correction is due to the mark `e`. -/
theorem cost_of_clean (ha : a = 'U' ∨ a = 'S') (e m : Mark)
    (h : (m.cost (e.correct a)).strong = 0) :
    (m.cost a).strong ≤ (e.cost a).strong ∧
      (m.cost a).total ≤ (e.cost a).strong + (m.cost (e.correct a)).weak ∧
      ((m.cost a).strong = (e.cost a).strong → (m.cost a).weak = (m.cost (e.correct a)).weak) := by
  revert h
  rcases ha with rfl | rfl <;> rcases e with ⟨_ | _, _ | _⟩ <;> rcases m with ⟨_ | _, _ | _⟩ <;>
    decide

end Mark

namespace Word

theorem strong_cost_correct (hline : Sharp line) (w : Word) :
    (w.cost (w.correct line)).strong = 0 := by
  induction w generalizing line with
  | nil => rfl
  | cons m w ih =>
    cases line with
    | nil => rfl
    | cons a line =>
      obtain ⟨ha, hline⟩ := List.forall_mem_cons.mp hline
      rw [correct, cost, Tally.strong_add, Mark.strong_cost_correct ha, ih hline]

/-- What a word without a strong error on the corrected line costs on the line before. -/
theorem cost_of_clean (hline : Sharp line) (hw : w.length = line.length)
    (hv : v.length = line.length) (h : (v.cost (w.correct line)).strong = 0) :
    (v.cost line).strong ≤ (w.cost line).strong ∧
      (v.cost line).total ≤ (w.cost line).strong + (v.cost (w.correct line)).weak ∧
      ((v.cost line).strong = (w.cost line).strong →
        (v.cost line).weak = (v.cost (w.correct line)).weak) := by
  induction line generalizing v w with
  | nil =>
    rw [List.length_nil, List.length_eq_zero_iff] at hv hw
    subst hv hw
    exact ⟨Nat.le_refl _, Nat.le_refl _, fun _ => rfl⟩
  | cons a line ih =>
    cases v with
    | nil => simp at hv
    | cons m v =>
      cases w with
      | nil => simp at hw
      | cons e w =>
        obtain ⟨ha, hline⟩ := List.forall_mem_cons.mp hline
        simp only [correct, cost, Tally.strong_add, Tally.weak_add, Tally.total_add] at h ⊢
        have hhead := Mark.cost_of_clean ha e m (by omega)
        have hrest := ih hline (Nat.succ.inj hw) (Nat.succ.inj hv) (by omega)
        simp only [Tally.total] at hhead hrest ⊢
        omega

end Word

/-- The least word for a sharp line is still the least one once its corrections are made. -/
theorem isLeast_ranking_correct {L : Language Mark} {t : Tally} (hline : Sharp line)
    (h : IsLeast (ranking L border line) (Rank.of t w)) :
    IsLeast (ranking L border (w.correct line)) (Rank.of ⟨0, t.weak⟩ w) := by
  obtain ⟨hw, hlen, hcost, hborder⟩ := mem_of_isLeast_ranking h
  have hstrong := Word.strong_cost_correct hline w
  have hweak : (w.cost (w.correct line)).weak = t.weak := by
    have hcorrect := congrArg Tally.weak (w.cost_correct line 0 0)
    rw [Tally.weak_add, ← hcost] at hcorrect
    exact hcorrect
  have hnew : w.cost (w.correct line) = ⟨0, t.weak⟩ := Tally.ext hstrong hweak
  rw [Tally.total] at hborder
  constructor
  · refine ⟨w, hw, ?_, ?_, ?_⟩
    · rw [hlen, w.length_correct]
    · rw [Tally.total, hstrong, hweak]
      omega
    · rw [hnew]
  · rintro _ ⟨v, hv, hvlen, -, rfl⟩
    rw [w.length_correct] at hvlen
    by_contra! hlt
    have hafter : (Word.cost v (w.correct line)).strong = 0 ∧
        ((Word.cost v (w.correct line)).weak < t.weak ∨
          (Word.cost v (w.correct line)).weak = t.weak ∧ v < w) := by
      rw [Rank.of_lt_iff] at hlt
      rcases hlt with (hlt | hlt) | ⟨heq, hlt⟩
      · exact absurd hlt (Nat.not_lt_zero _)
      · exact ⟨hlt.1, Or.inl hlt.2⟩
      · rw [heq]
        exact ⟨rfl, Or.inr ⟨rfl, hlt⟩⟩
    -- a word that overtakes has no strong error left, so it was in the running before
    obtain ⟨hle, htotal, hsame⟩ := Word.cost_of_clean hline hlen hvlen hafter.1
    rw [← hcost] at hle htotal hsame
    have hmem : Rank.of (Word.cost v line) v ∈ ranking L border line := by
      refine ⟨v, hv, hvlen, ?_, rfl⟩
      omega
    have hfirst := h.2 hmem
    rw [← not_lt, Rank.of_lt_iff] at hfirst
    apply hfirst
    rcases Nat.lt_or_eq_of_le hle with hless | heq
    · exact Or.inl (Or.inl hless)
    · rcases hafter.2 with hless | ⟨hweak', hless⟩
      · exact Or.inl (Or.inr ⟨heq, (hsame heq).trans_lt hless⟩)
      · exact Or.inr ⟨Tally.ext heq ((hsame heq).trans hweak'), hless⟩

theorem Gauge.scan_correct (hline : Sharp line) (hne : line ≠ [])
    (h : (g.scan line).isMatch = true) :
    (g.scan (Word.correct (g.scan line).marks line)).isMatch = true ∧
      (g.scan (Word.correct (g.scan line).marks line)).marks = (g.scan line).marks ∧
      (g.scan (Word.correct (g.scan line).marks line)).tally = ⟨0, (g.scan line).tally.weak⟩ := by
  have hleast := isLeast_ranking_correct hline (isLeast_of_isMatch h)
  have hne' : Word.correct (g.scan line).marks line ≠ [] := by
    rw [ne_eq, ← List.length_eq_zero_iff, Word.length_correct, List.length_eq_zero_iff]
    exact hne
  have hmatch := isMatch_of_nonempty hne' ⟨_, hleast.1⟩
  obtain ⟨htally, hmarks⟩ := Rank.of_injective ((isLeast_of_isMatch hmatch).unique hleast)
  exact ⟨hmatch, hmarks, htally⟩

def LineScore.isMatch (e : LineScore) : Bool := e.scansion.isMatch

/-- What becomes of the entry of a line when a metre's corrections are made: it is the same word
without strong errors if the line was read to its end, and the same entry if not. -/
inductive Settles : Option LineScore → Option LineScore → Prop where
  | skipped : Settles none none
  | unread {s : LineScore} (unread : s.isMatch = false) (corrections : s.corrections = []) :
      Settles (some s) (some s)
  | read {s t : LineScore} (read : s.isMatch = true) (read_again : t.isMatch = true)
      (marks : t.scansion.marks = s.scansion.marks)
      (tally : t.scansion.tally = ⟨0, s.scansion.tally.weak⟩)
      (charge : t.charge = ⟨0, s.charge.weak⟩) (corrections : t.corrections = []) :
      Settles (some s) (some t)

namespace Score

def strongErrors : List (Option LineScore) → ℕ
  | [] => 0
  | none :: entries => strongErrors entries
  | some e :: entries => (if e.isMatch then e.scansion.tally.strong else 0) + strongErrors entries

theorem corrections_of_settles {name : String} {entries later : List (Option LineScore)}
    (h : List.Forall₂ Settles entries later) : corrections ⟨name, later⟩ = [] := by
  induction h with
  | nil => rfl
  | cons hentry _ ih =>
    rw [corrections_cons, ih, List.append_nil]
    cases hentry with
    | skipped => rfl
    | unread _ hcorrections => exact hcorrections
    | read _ _ _ _ _ hcorrections => exact hcorrections

end Score

namespace Classifier

def single (metre : String × Gauge) (longest : ℕ) : Classifier := ⟨[metre], longest⟩

theorem best?_single (metre : String × Gauge) (longest : ℕ) (poem : Poem) :
    ((single metre longest).classify poem).best? =
      some ((single metre longest).score poem metre) := by
  simp [single, classify, Classification.best?, Classification.metre, Score.leader?]

theorem settles_scoreLine (hline : Sharp line) (c : Classifier) (g : Gauge) (i : ℕ) :
    Settles (c.scoreLine g i line) (c.scoreLine g i (c.correct g line)) := by
  have hskips := c.skips_correct g line
  rcases c.scoreLine_cases g i line with
    ⟨hscore, hcorrect⟩ | ⟨hmatch, hscore, hcorrect⟩ | ⟨hskip, hmatch, hscore, hcorrect⟩
  · rw [hcorrect, hscore]
    exact .skipped
  · rw [hcorrect, hscore]
    exact .unread hmatch rfl
  · rw [hskip] at hskips
    have hne := ne_nil_of_skips_eq_false hskip
    obtain ⟨hmatch', hmarks, htally⟩ := Gauge.scan_correct hline hne hmatch
    rw [← hcorrect] at hmatch' hmarks htally
    rw [scoreLine_of_isMatch hskips hmatch', hscore]
    refine .read hmatch hmatch' hmarks htally htally ?_
    -- no strong error is left that a correction could take away
    have hcost := congrArg Tally.strong
      (Word.cost_correct (g.scan (c.correct g line)).marks (c.correct g line) i 0)
    rw [← Gauge.tally_of_isMatch hmatch', htally, Tally.strong_add] at hcost
    exact List.length_eq_zero_iff.mp (Nat.eq_zero_of_add_eq_zero_left hcost)

theorem settles_scoreLines (hpoem : ∀ line ∈ poem, Sharp line) (c : Classifier) (g : Gauge)
    (i : ℕ) :
    List.Forall₂ Settles (c.scoreLines g i poem) (c.scoreLines g i (poem.map (c.correct g))) := by
  induction poem generalizing i with
  | nil => exact .nil
  | cons line poem ih =>
    obtain ⟨hline, hpoem⟩ := List.forall_mem_cons.mp hpoem
    exact .cons (settles_scoreLine hline c g i) (ih hpoem (i + 1))

theorem length_corrections (hpoem : ∀ line ∈ poem, Sharp line) (c : Classifier) (name : String)
    (g : Gauge) (i : ℕ) :
    (Score.corrections ⟨name, c.scoreLines g i poem⟩).length =
      Score.strongErrors (c.scoreLines g i poem) := by
  induction poem generalizing i with
  | nil => rfl
  | cons line poem ih =>
    obtain ⟨hline, hpoem⟩ := List.forall_mem_cons.mp hpoem
    rw [scoreLines, Score.corrections_cons, List.length_append, ih hpoem (i + 1)]
    rcases c.scoreLine_cases g i line with
      ⟨hscore, -⟩ | ⟨hmatch, hscore, -⟩ | ⟨-, hmatch, hscore, -⟩
    · rw [hscore]
      exact Nat.zero_add _
    · rw [hscore, Score.strongErrors, LineScore.isMatch, hmatch]
      rfl
    · have hcost := congrArg Tally.strong (Word.cost_correct (g.scan line).marks line i 0)
      rw [← Gauge.tally_of_isMatch hmatch, Tally.strong_add, Word.strong_cost_correct hline,
        Nat.zero_add] at hcost
      rw [hscore, Score.strongErrors, LineScore.isMatch, entry, hmatch, if_pos rfl, ← hcost]
      rfl

structure Stable (c : Classifier) (poem : Poem) (r t : Score) : Prop where
  before : (c.classify poem).best? = some r
  after : (c.classify (c.improve poem)).best? = some t
  length_corrections : r.corrections.length = Score.strongErrors r.lines
  entries : List.Forall₂ Settles r.lines t.lines
  no_corrections : t.corrections = []
  unchanged : c.improve (c.improve poem) = c.improve poem

/-- Correcting a poem under a single metre is stable where each syllable is surely stressed or
surely not. -/
theorem correcting_is_stable (metre : String × Gauge) (longest : ℕ)
    (hpoem : ∀ line ∈ poem, Sharp line) : ∃ r t, (single metre longest).Stable poem r t := by
  have hbest := best?_single metre longest
  have hsettles := settles_scoreLines hpoem (single metre longest) metre.2 0
  rw [← improve_eq (hbest poem)] at hsettles
  have hnone : Score.corrections
      ((single metre longest).score ((single metre longest).improve poem) metre) = [] :=
    Score.corrections_of_settles hsettles
  refine ⟨_, _, hbest poem, hbest _, length_corrections hpoem _ _ _ 0, hsettles, hnone, ?_⟩
  apply improve_of_corrections_eq_nil
  rw [Classification.corrections, hbest]
  exact hnone

/-- A missing stress, a line without fault, and one that the metre cannot read. -/
theorem correcting_is_stable_of_iambos :
    ∃ g, Metre.iambos.gauge = .ok g ∧
      (∀ line ∈ ["UUUU".toList, "USUS".toList, "U".toList], Sharp line) ∧
      (single ("iambos", g) 20).improve ["UUUU".toList, "USUS".toList, "U".toList] =
        ["USUU".toList, "USUS".toList, "U".toList] ∧
      ∃ r t, (single ("iambos", g) 20).Stable ["UUUU".toList, "USUS".toList, "U".toList] r t :=
  have h : ∀ line ∈ ["UUUU".toList, "USUS".toList, "U".toList], Sharp line := by
    simp [Sharp]
  ⟨_, rfl, h, by decide +kernel, correcting_is_stable ("iambos", _) 20 h⟩

end Classifier

end Prosody
