import Prosody.Proofs.Charges
import Mathlib.Data.List.Forall2
import Mathlib.Data.List.Perm.Basic

/-!
# Scores line by line

What a metre makes of a line does not depend on the other lines. The number of the line is only
found in its corrections. So the scores of two poems add up to the score of the poems one after the
other, the order of the lines does not matter to the errors, and lines that are skipped do not
matter at all.
-/

namespace Prosody

variable {c : Classifier} {g : Gauge} {poem poem' : Poem} {line : Line}

def LineScore.outcome (e : LineScore) : Scansion × Tally := (e.scansion, e.charge)

def Score.outcomes (s : Score) : List (Option (Scansion × Tally)) :=
  s.lines.map (Option.map LineScore.outcome)

namespace Correction

def down (n : ℕ) (cor : Correction) : Correction := { cor with line := n + cor.line }

/-- Two corrections are alike except for the line, and the number of the first line is listed under
that of the second. -/
def Renumbers (numbers : List ℕ) (cor cor' : Correction) : Prop :=
  numbers[cor'.line]? = some cor.line ∧ cor.syllable = cor'.syllable ∧ cor.change = cor'.change

theorem between_add (n i k : ℕ) (pattern : List Char) (line : Line) :
    between (n + i) k pattern line = (between i k pattern line).map (down n) := by
  induction pattern generalizing k line with
  | nil => rfl
  | cons expected pattern ih =>
    cases line with
    | nil => rfl
    | cons a line =>
      rw [between, between, ih]
      cases Change.due? expected a <;> rfl

end Correction

def LineScore.down (n : ℕ) (e : LineScore) : LineScore :=
  { e with corrections := e.corrections.map (Correction.down n) }

namespace Score

theorem charges_append (entries entries' : List (Option LineScore)) :
    charges (entries ++ entries') = charges entries + charges entries' := by
  induction entries with
  | nil => exact (Tally.zero_add _).symm
  | cons entry entries ih =>
    rw [List.cons_append, charges_cons, charges_cons, ih, Tally.add_assoc]

theorem corrections_append (name : String) (entries entries' : List (Option LineScore)) :
    corrections ⟨name, entries ++ entries'⟩ =
      corrections ⟨name, entries⟩ ++ corrections ⟨name, entries'⟩ := List.flatMap_append

theorem proposals_down (n : ℕ) (entry : Option LineScore) :
    proposals (entry.map (LineScore.down n)) =
      (proposals entry).map (Correction.down n) := by
  cases entry <;> rfl

end Score

namespace Classifier

theorem scoreLine_add (c : Classifier) (g : Gauge) (n i : ℕ) (line : Line) :
    c.scoreLine g (n + i) line = (c.scoreLine g i line).map (LineScore.down n) := by
  rw [scoreLine, scoreLine]
  simp only [Correction.between_add]
  split_ifs <;> rfl

theorem scoreLine_eq_down (c : Classifier) (g : Gauge) (n : ℕ) (line : Line) :
    c.scoreLine g n line = (c.scoreLine g 0 line).map (LineScore.down n) :=
  c.scoreLine_add g n 0 line

def cost (c : Classifier) (g : Gauge) (line : Line) : Tally := Score.charge (c.scoreLine g 0 line)

theorem charge_scoreLine (c : Classifier) (g : Gauge) (i : ℕ) (line : Line) :
    Score.charge (c.scoreLine g i line) = c.cost g line := by
  rw [cost, scoreLine_eq_down c g i]
  cases c.scoreLine g 0 line <;> rfl

def outcome (c : Classifier) (g : Gauge) (line : Line) : Option (Scansion × Tally) :=
  (c.scoreLine g 0 line).map LineScore.outcome

theorem outcome_scoreLine (c : Classifier) (g : Gauge) (i : ℕ) (line : Line) :
    (c.scoreLine g i line).map LineScore.outcome = c.outcome g line := by
  rw [outcome, scoreLine_eq_down c g i]
  cases c.scoreLine g 0 line <;> rfl

theorem scoreLines_append (c : Classifier) (g : Gauge) (i : ℕ) (poem poem' : Poem) :
    c.scoreLines g i (poem ++ poem') =
      c.scoreLines g i poem ++ c.scoreLines g (poem.length + i) poem' := by
  induction poem generalizing i with
  | nil => rw [List.nil_append, scoreLines, List.nil_append, List.length_nil, Nat.zero_add]
  | cons line poem ih =>
    rw [List.cons_append, scoreLines, scoreLines, List.cons_append, ih, List.length_cons,
      Nat.add_assoc, Nat.add_comm 1 i]

theorem charges_scoreLines (c : Classifier) (g : Gauge) (i : ℕ) (poem : Poem) :
    Score.charges (c.scoreLines g i poem) = (poem.map (c.cost g)).foldr (· + ·) 0 := by
  induction poem generalizing i with
  | nil => rfl
  | cons line poem ih =>
    rw [scoreLines, Score.charges_cons, charge_scoreLine, ih, List.map_cons, List.foldr_cons]

theorem map_outcome_scoreLines (c : Classifier) (g : Gauge) (i : ℕ) (poem : Poem) :
    (c.scoreLines g i poem).map (Option.map LineScore.outcome) = poem.map (c.outcome g) := by
  induction poem generalizing i with
  | nil => rfl
  | cons line poem ih =>
    rw [scoreLines, List.map_cons, List.map_cons, outcome_scoreLine, ih]

theorem outcomes_score (c : Classifier) (poem : Poem) (metre : String × Gauge) :
    (c.score poem metre).outcomes = poem.map (c.outcome metre.2) :=
  c.map_outcome_scoreLines metre.2 0 poem

theorem corrections_scoreLines_add (c : Classifier) (name : String) (g : Gauge) (n i : ℕ)
    (poem : Poem) : Score.corrections ⟨name, c.scoreLines g (n + i) poem⟩ =
      (Score.corrections ⟨name, c.scoreLines g i poem⟩).map (Correction.down n) := by
  induction poem generalizing i with
  | nil => rfl
  | cons line poem ih =>
    rw [scoreLines, scoreLines, Score.corrections_cons, Score.corrections_cons, List.map_append,
      scoreLine_add, Score.proposals_down, Nat.add_assoc, ih]

theorem scoreLine_eq_none_iff {i : ℕ} :
    c.scoreLine g i line = none ↔ line = [] ∨ c.longest < line.length := by
  rw [← Option.not_isSome_iff_eq_none, isSome_scoreLine, Bool.not_eq_true, Bool.not_eq_false',
    skips_eq_true_iff]

theorem forall₂_scoreLines (c : Classifier) (g : Gauge) (i : ℕ) (poem : Poem) :
    List.Forall₂ (fun line entry => entry = none ↔ line = [] ∨ c.longest < line.length) poem
      (c.scoreLines g i poem) := by
  induction poem generalizing i with
  | nil => exact .nil
  | cons line poem ih => exact .cons scoreLine_eq_none_iff (ih (i + 1))

theorem tally_append (c : Classifier) (poem poem' : Poem) (metre : String × Gauge) :
    (c.score (poem ++ poem') metre).tally =
      (c.score poem metre).tally + (c.score poem' metre).tally := by
  have hplace := (c.charges_scoreLines metre.2 (poem.length + 0) poem').trans
    (c.charges_scoreLines metre.2 0 poem').symm
  rw [score, Score.tally, scoreLines_append, Score.charges_append, hplace]
  rfl

theorem corrections_score_append (c : Classifier) (poem poem' : Poem) (metre : String × Gauge) :
    (c.score (poem ++ poem') metre).corrections = (c.score poem metre).corrections ++
      (c.score poem' metre).corrections.map (Correction.down poem.length) := by
  rw [score, scoreLines_append, Score.corrections_append, corrections_scoreLines_add]
  rfl

theorem tally_of_perm (hperm : poem.Perm poem') (metre : String × Gauge) :
    (c.score poem metre).tally = (c.score poem' metre).tally := by
  have hcomm : LeftCommutative fun a b : Tally => a + b := ⟨fun a b d => by
    ext <;> exact Nat.add_left_comm _ _ _⟩
  rw [score, score, Score.tally, Score.tally, charges_scoreLines, charges_scoreLines]
  exact (hperm.map (c.cost metre.2)).foldr_eq 0

theorem metre_congr (h : ∀ metre, (c.score poem metre).tally = (c.score poem' metre).tally) :
    (c.classify poem).metre = (c.classify poem').metre := by
  rw [Classification.metre, Classification.metre, classify, classify, Score.leader?_map,
    Score.leader?_map]
  simp only [h]
  cases c.gauges.argmin fun metre => (c.score poem' metre).tally.rank <;> rfl

def kept (c : Classifier) (poem : Poem) : Poem := poem.filter fun line => !c.skips line

def keptNumbers (c : Classifier) (poem : Poem) : List ℕ := poem.findIdxs fun line => !c.skips line

theorem kept_cons_of_skips (hskip : c.skips line = true) : c.kept (line :: poem) = c.kept poem :=
  List.filter_cons_of_neg (by rw [hskip]; decide)

theorem kept_cons_of_not_skips (hskip : c.skips line = false) :
    c.kept (line :: poem) = line :: c.kept poem := List.filter_cons_of_pos (by rw [hskip]; decide)

theorem outcomes_kept (c : Classifier) (poem : Poem) (metre : String × Gauge) :
    (c.score (c.kept poem) metre).outcomes =
      (c.score poem metre).outcomes.filter Option.isSome := by
  rw [outcomes_score, outcomes_score, kept, List.filter_map]
  apply congrArg
  apply List.filter_congr
  intro line _
  rw [Function.comp_apply, outcome, Option.isSome_map, isSome_scoreLine]

theorem tally_kept (c : Classifier) (poem : Poem) (metre : String × Gauge) :
    (c.score (c.kept poem) metre).tally = (c.score poem metre).tally := by
  rw [score, score, Score.tally, Score.tally, charges_scoreLines, charges_scoreLines]
  induction poem with
  | nil => rfl
  | cons line poem ih =>
    cases hskip : c.skips line with
    | true =>
      have hcost : c.cost metre.2 line = 0 := by
        rw [cost, scoreLine_of_skips hskip]
        rfl
      rw [kept_cons_of_skips hskip, ih, List.map_cons, List.foldr_cons, hcost, Tally.zero_add]
    | false =>
      rw [kept_cons_of_not_skips hskip, List.map_cons, List.map_cons, List.foldr_cons,
        List.foldr_cons, ih]

theorem renumbers_corrections (c : Classifier) (name : String) (g : Gauge) (before : List ℕ)
    (i : ℕ) (poem : Poem) :
    List.Forall₂ (Correction.Renumbers (before ++ poem.findIdxs (fun line => !c.skips line) i))
      (Score.corrections ⟨name, c.scoreLines g i poem⟩)
      (Score.corrections ⟨name, c.scoreLines g before.length (c.kept poem)⟩) := by
  -- `before` lists where the lines stood that were kept so far, and the poem goes on with line `i`
  induction poem generalizing before i with
  | nil => exact .nil
  | cons line poem ih =>
    cases hskip : c.skips line with
    | true =>
      rw [kept_cons_of_skips hskip, scoreLines, Score.corrections_cons, scoreLine_of_skips hskip,
        List.findIdxs_cons, hskip, Bool.not_true, if_neg Bool.false_ne_true]
      exact ih before (i + 1)
    | false =>
      rw [kept_cons_of_not_skips hskip, scoreLines, scoreLines, Score.corrections_cons,
        Score.corrections_cons, List.findIdxs_cons, hskip, Bool.not_false, if_pos rfl]
      have hrest := ih (before ++ [i]) (i + 1)
      rw [List.append_assoc, List.length_append, List.length_singleton] at hrest
      refine List.rel_append ?_ hrest
      -- the line has the same corrections in both places, but for the number of the line
      rw [scoreLine_eq_down c g i, scoreLine_eq_down c g before.length, Score.proposals_down,
        Score.proposals_down, List.forall₂_map_left_iff, List.forall₂_map_right_iff,
        List.forall₂_same]
      intro cor hcor
      have hline := (turns_of_mem_proposals hcor).1
      refine ⟨?_, rfl, rfl⟩
      simp only [Correction.down, hline, Nat.add_zero]
      rw [List.getElem?_append_right le_rfl, Nat.sub_self]
      rfl

structure ScoresLineByLine (c : Classifier) (metre : String × Gauge) : Prop where
  tally_append : ∀ A B,
    (c.score (A ++ B) metre).tally = (c.score A metre).tally + (c.score B metre).tally
  outcomes_append : ∀ A B,
    (c.score (A ++ B) metre).outcomes = (c.score A metre).outcomes ++ (c.score B metre).outcomes
  corrections_append : ∀ A B, (c.score (A ++ B) metre).corrections =
    (c.score A metre).corrections ++
      (c.score B metre).corrections.map (Correction.down A.length)
  skipped : ∀ A,
    List.Forall₂ (fun line entry => entry = none ↔ line = [] ∨ c.longest < line.length) A
      (c.score A metre).lines
  tally_perm : ∀ A B, A.Perm B → (c.score A metre).tally = (c.score B metre).tally
  tally_kept : ∀ A, (c.score (c.kept A) metre).tally = (c.score A metre).tally
  outcomes_kept : ∀ A,
    (c.score (c.kept A) metre).outcomes = (c.score A metre).outcomes.filter Option.isSome
  corrections_kept : ∀ A, List.Forall₂ (Correction.Renumbers (c.keptNumbers A))
    (c.score A metre).corrections (c.score (c.kept A) metre).corrections

/-- Every metre scores a poem line by line. So the order of the lines and the lines that are skipped
have no influence on which metre leads. -/
theorem scores_are_additive (c : Classifier) :
    (∀ metre, c.ScoresLineByLine metre) ∧
      (∀ A B : Poem, A.Perm B → (c.classify A).metre = (c.classify B).metre) ∧
      ∀ A, (c.classify (c.kept A)).metre = (c.classify A).metre := by
  refine ⟨fun metre => ?_, fun A B hperm => metre_congr (tally_of_perm hperm), fun A => ?_⟩
  · exact
      { tally_append := fun A B => c.tally_append A B metre
        outcomes_append := fun A B => by
          rw [outcomes_score, outcomes_score, outcomes_score, List.map_append]
        corrections_append := fun A B => c.corrections_score_append A B metre
        skipped := c.forall₂_scoreLines metre.2 0
        tally_perm := fun A B hperm => tally_of_perm hperm metre
        tally_kept := fun A => c.tally_kept A metre
        outcomes_kept := fun A => c.outcomes_kept A metre
        corrections_kept := c.renumbers_corrections metre.1 metre.2 [] 0 }
  · exact metre_congr (c.tally_kept A)

/-- An empty line, one that is too long and one with an error, in two orders. -/
theorem scores_are_additive_of_three_lines :
    ∃ c, ofMetres [Metre.iambos, Metre.choreios] 4 = .ok c ∧
      List.Perm ["".toList, "USUSUS".toList, "SSUS".toList]
        ["SSUS".toList, "".toList, "USUSUS".toList] ∧
      (∀ metre, c.ScoresLineByLine metre) ∧
      (c.classify ["".toList, "USUSUS".toList, "SSUS".toList]).metre = "iambos" ∧
      (c.classify ["".toList, "USUSUS".toList, "SSUS".toList]).metre =
        (c.classify ["SSUS".toList, "".toList, "USUSUS".toList]).metre ∧
      ∀ A, (c.classify (c.kept A)).metre = (c.classify A).metre := by
  have hc : ofMetres [Metre.iambos, Metre.choreios] 4 = .ok _ := rfl
  have hperm : List.Perm ["".toList, "USUSUS".toList, "SSUS".toList]
      ["SSUS".toList, "".toList, "USUSUS".toList] := by decide
  obtain ⟨hscores, hmetre, hkept⟩ := scores_are_additive _
  exact ⟨_, hc, hperm, hscores, by decide +kernel, hmetre _ _ hperm, hkept⟩

end Classifier

end Prosody
