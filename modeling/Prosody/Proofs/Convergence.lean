import Prosody.Proofs.CorrectedLines
import Prosody.Proofs.Leaders
import Mathlib.Algebra.Order.BigOperators.Group.Finset
import Mathlib.Logic.Function.Iterate

/-!
# Improving a poem again and again

What a metre answers for falls by one strong error with each correction it proposes, whatever else
the improved lines bring. The best metre of the next round can only be better. So no correction is
wasted: all rounds together propose no more of them than there were strong errors at first, and a
round without corrections is the last one that matters.
-/

namespace Prosody

variable {c : Classifier} {poem : Poem} {s : Score}

namespace Tally

theorem add_strong_le_iff {a b : Tally} (n : ℕ) :
    a + ⟨n, 0⟩ ≤ b ↔ n ≤ b.strong ∧ a ≤ ⟨b.strong - n, b.weak⟩ := by
  simp only [le_iff, strong_add, weak_add]
  omega

theorem le_of_add_le {a b d : Tally} (h : a + d ≤ b) : a ≤ b := by
  simp only [le_iff, strong_add, weak_add] at *
  omega

theorem strong_add_le {a b : Tally} {n : ℕ} (h : a + ⟨n, 0⟩ ≤ b) : a.strong + n ≤ b.strong := by
  simp only [le_iff, strong_add] at h
  omega

end Tally

namespace Score

def charge : Option LineScore → Tally
  | none => 0
  | some s => s.charge

theorem charges_cons (entry : Option LineScore) (entries : List (Option LineScore)) :
    charges (entry :: entries) = charge entry + charges entries := by
  cases entry with
  | none => exact (Tally.zero_add _).symm
  | some s => rfl

end Score

namespace Classifier

/-- A corrected line costs its metre at least one strong error less for each correction. -/
theorem charge_correct (c : Classifier) (g : Gauge) (i : ℕ) (line : Line) :
    Score.charge (c.scoreLine g i (c.correct g line)) +
        ⟨(Score.proposals (c.scoreLine g i line)).length, 0⟩ ≤
      Score.charge (c.scoreLine g i line) := by
  have hskips := c.skips_correct g line
  rcases c.scoreLine_cases g i line with
    ⟨hscore, hcorrect⟩ | ⟨-, hscore, hcorrect⟩ | ⟨hskip, hmatch, hscore, hcorrect⟩
  · rw [hcorrect, hscore]
    exact Tally.le_refl _
  · rw [hcorrect, hscore]
    exact Tally.le_refl _
  · -- the word of the line still fits the corrected one, where it has fewer errors
    have hmem := Gauge.mem_ranks_correct hmatch
    rw [← hcorrect] at hmem
    rw [hskip] at hskips
    have hmatch' := Gauge.isMatch_of_nonempty (ne_nil_of_skips_eq_false hskips) ⟨_, hmem⟩
    have hle := Rank.tally_le ((Gauge.isLeast_of_isMatch hmatch').2 hmem)
    have hcost := Word.cost_correct (g.scan line).marks line i 0
    rw [← hcorrect, ← Gauge.tally_of_isMatch hmatch] at hcost
    rw [scoreLine_of_isMatch hskips hmatch', hscore]
    simp only [Score.charge, Score.proposals, entry]
    rw [← hcost]
    exact Tally.add_le_add hle (Tally.le_refl _)

/-- So does a poem with the corrections of a metre. -/
theorem charges_correct (c : Classifier) (name : String) (g : Gauge) (i : ℕ) (poem : Poem) :
    Score.charges (c.scoreLines g i (poem.map (c.correct g))) +
        ⟨(Score.corrections ⟨name, c.scoreLines g i poem⟩).length, 0⟩ ≤
      Score.charges (c.scoreLines g i poem) := by
  induction poem generalizing i with
  | nil => exact Tally.le_refl _
  | cons line poem ih =>
    rw [List.map_cons, scoreLines, scoreLines, Score.charges_cons, Score.charges_cons,
      Score.corrections_cons, List.length_append]
    have h := Tally.add_le_add (c.charge_correct g i line) (ih (i + 1))
    simp only [Tally.le_iff, Tally.strong_add, Tally.weak_add] at h ⊢
    omega

variable (hnames : (c.gauges.map Prod.fst).Nodup)

include hnames in
theorem best?_cases (poem : Poem) :
    (c.gauges = [] ∧ (c.classify poem).best? = none) ∨
      ∃ metre ∈ c.gauges, (c.classify poem).best? = some (c.score poem metre) ∧
        ∀ other ∈ c.gauges, (c.score poem metre).tally ≤ (c.score poem other).tally := by
  rw [← c.map_metre_scores poem] at hnames
  rw [Classification.best?_eq_leader? hnames]
  cases hleader : Score.leader? (c.classify poem).scores with
  | none =>
    rw [Score.leader?_eq_none_iff] at hleader
    exact Or.inl ⟨List.map_eq_nil_iff.mp hleader, rfl⟩
  | some s =>
    obtain ⟨hmem, hle⟩ := Score.leader?_spec hleader
    obtain ⟨metre, hmetre, rfl⟩ := List.mem_map.mp hmem
    exact Or.inr ⟨metre, hmetre, rfl, fun other hother => hle _ (List.mem_map_of_mem hother)⟩

end Classifier

def Classification.errors (r : Classification) : Tally :=
  match r.best? with
  | none => 0
  | some s => s.tally

namespace Classifier

variable (hnames : (c.gauges.map Prod.fst).Nodup)

include hnames in
theorem errors_improve (poem : Poem) :
    (c.classify (c.improve poem)).errors + ⟨(c.classify poem).corrections.length, 0⟩ ≤
      (c.classify poem).errors := by
  rcases best?_cases hnames poem with ⟨-, hbest⟩ | ⟨metre, hmetre, hbest, -⟩
  · have hcorrections : (c.classify poem).corrections = [] := by
      rw [Classification.corrections, hbest]
    rw [improve, hcorrections]
    exact Tally.le_refl _
  · have hold : (c.classify poem).errors = (c.score poem metre).tally := by
      rw [Classification.errors, hbest]
    have hcorrections : (c.classify poem).corrections = (c.score poem metre).corrections := by
      rw [Classification.corrections, hbest]
    have hmetre_le := c.charges_correct metre.1 metre.2 0 poem
    rw [← improve_eq hbest] at hmetre_le
    rcases best?_cases hnames (c.improve poem) with ⟨hnone, -⟩ | ⟨metre', -, hbest', hle⟩
    · rw [hnone] at hmetre
      exact absurd hmetre List.not_mem_nil
    · have hnew : (c.classify (c.improve poem)).errors =
          (c.score (c.improve poem) metre').tally := by
        rw [Classification.errors, hbest']
      rw [hnew, hold, hcorrections]
      exact Tally.le_trans (Tally.add_le_add (hle metre hmetre) (Tally.le_refl _)) hmetre_le

def improved (c : Classifier) (poem : Poem) (k : ℕ) : Poem := c.improve^[k] poem

def round (c : Classifier) (poem : Poem) (k : ℕ) : Classification := c.classify (c.improved poem k)

theorem improved_succ (c : Classifier) (poem : Poem) (k : ℕ) :
    c.improved poem (k + 1) = c.improve (c.improved poem k) :=
  Function.iterate_succ_apply' _ _ _

theorem rounds_eq (c : Classifier) (poem : Poem) (n : ℕ) :
    c.rounds n poem =
      (List.range n).map fun k => (c.round poem k, c.improved poem (k + 1)) := by
  induction n generalizing poem with
  | zero => rfl
  | succ n ih =>
    have hrest : c.rounds n (c.improve poem) = (List.range n).map fun k =>
        (c.round poem (k + 1), c.improved poem (k + 2)) := ih (c.improve poem)
    rw [List.range_succ_eq_map, List.map_cons, List.map_map]
    exact congrArg _ hrest

theorem improved_eq_of_le {k j : ℕ} (h : (c.round poem k).corrections = []) (hkj : k ≤ j) :
    c.improved poem j = c.improved poem k := by
  induction j, hkj using Nat.le_induction with
  | base => rfl
  | succ j _ ih => rw [improved_succ, ih, improve_of_corrections_eq_nil h]

include hnames in
theorem errors_round_succ (poem : Poem) (k : ℕ) :
    (c.round poem (k + 1)).errors + ⟨(c.round poem k).corrections.length, 0⟩ ≤
      (c.round poem k).errors := by
  have h := errors_improve hnames (c.improved poem k)
  rwa [← improved_succ] at h

include hnames in
/-- All rounds before round `n`, and the strong errors that round `n` still finds. -/
theorem sum_corrections_add_le (poem : Poem) (n : ℕ) :
    ∑ k ∈ Finset.range n, (c.round poem k).corrections.length + (c.round poem n).errors.strong ≤
      (c.round poem 0).errors.strong := by
  induction n with
  | zero => simp
  | succ n ih =>
    have hstep := Tally.strong_add_le (errors_round_succ hnames poem n)
    rw [Finset.sum_range_succ]
    omega

include hnames in
/-- There are not more rounds with corrections than strong errors at first. -/
theorem exists_corrections_eq_nil (poem : Poem) :
    ∃ k ≤ (c.round poem 0).errors.strong, (c.round poem k).corrections = [] := by
  by_contra! hall
  have hone : ∀ k ∈ Finset.range ((c.round poem 0).errors.strong + 1),
      1 ≤ (c.round poem k).corrections.length := by
    intro k hk
    exact List.length_pos_iff.mpr (hall k (Nat.lt_succ_iff.mp (Finset.mem_range.mp hk)))
  have hcount := Finset.sum_le_sum hone
  have hsum := sum_corrections_add_le hnames poem ((c.round poem 0).errors.strong + 1)
  rw [← Finset.card_eq_sum_ones, Finset.card_range] at hcount
  omega

structure Converges (c : Classifier) (poem : Poem) : Prop where
  rounds : ∀ n, c.rounds n poem =
    (List.range n).map fun k => (c.round poem k, c.improved poem (k + 1))
  /-- Errors and corrections of a round are those of its best score. -/
  best : ∀ k, c.gauges = [] ∨ ∃ s, (c.round poem k).best? = some s ∧
    (c.round poem k).errors = s.tally ∧ (c.round poem k).corrections = s.corrections
  step : ∀ k, (c.round poem k).corrections.length ≤ (c.round poem k).errors.strong ∧
    (c.round poem (k + 1)).errors ≤
      ⟨(c.round poem k).errors.strong - (c.round poem k).corrections.length,
        (c.round poem k).errors.weak⟩
  errors_le : ∀ k, (c.round poem (k + 1)).errors ≤ (c.round poem k).errors
  strong_add_le : ∀ k, (c.round poem (k + 1)).errors.strong + (c.round poem k).corrections.length ≤
    (c.round poem k).errors.strong
  /-- No correction is wasted. -/
  sum_le : ∀ n, ∑ k ∈ Finset.range n, (c.round poem k).corrections.length ≤
    (c.round poem 0).errors.strong
  /-- Some round makes no corrections, and nothing changes after it. -/
  rests : ∃ k ≤ (c.round poem 0).errors.strong, (c.round poem k).corrections = []
  stays : ∀ k, (c.round poem k).corrections = [] → ∀ j, k ≤ j →
    c.improved poem j = c.improved poem k

include hnames in
/-- Where the names of the metres differ, improving converges. -/
theorem improving_converges (poem : Poem) : c.Converges poem where
  rounds n := c.rounds_eq poem n
  best k := by
    rcases best?_cases hnames (c.improved poem k) with ⟨hgauges, -⟩ | ⟨metre, -, hbest, -⟩
    · exact Or.inl hgauges
    · refine Or.inr ⟨_, hbest, ?_, ?_⟩
      · rw [round, Classification.errors, hbest]
      · rw [round, Classification.corrections, hbest]
  step k := (Tally.add_strong_le_iff _).mp (errors_round_succ hnames poem k)
  errors_le k := Tally.le_of_add_le (errors_round_succ hnames poem k)
  strong_add_le k := Tally.strong_add_le (errors_round_succ hnames poem k)
  sum_le n := (Nat.le_add_right _ _).trans (sum_corrections_add_le hnames poem n)
  rests := exists_corrections_eq_nil hnames poem
  stays _ h _ := improved_eq_of_le h

/-- Of two metres the choreios leads, and a missing stress is added to the first line. -/
theorem improving_converges_of_two_metres :
    ∃ c, Classifier.ofMetres [Metre.iambos, Metre.choreios] 20 = .ok c ∧
      (c.gauges.map Prod.fst).Nodup ∧
      c.improve ["UUUU".toList, "USS".toList] = ["UUSU".toList, "USS".toList] ∧
      c.Converges ["UUUU".toList, "USS".toList] :=
  ⟨_, rfl, by decide, by decide +kernel, improving_converges (by decide) _⟩

end Classifier

end Prosody
