import Prosody.Proofs.CorrectedLines
import Prosody.Proofs.Leaders
import Mathlib.Data.Set.Card

/-!
# What improving a poem changes

The corrections of a score stand in reading order, and each of them finds a syllable that asks for
it in a line that was read to its end. Improving a poem changes just these syllables. So there are
as many corrections as syllables that differ afterwards.
-/

namespace Prosody

variable {c : Classifier} {g : Gauge} {poem : Poem} {l : Line} {w : Word} {name : String}
  {cor : Correction} {change : Change} {a b : Char} {i j k : ℕ}

def Poem.syllable? (poem : Poem) (i k : ℕ) : Option Char := poem[i]?.bind fun l => l[k]?

def Poem.differences (poem poem' : Poem) : Set (ℕ × ℕ) :=
  {x | poem.syllable? x.1 x.2 ≠ poem'.syllable? x.1 x.2}

inductive Change.Turns : Change → Char → Char → Prop
  | addStress {a : Char} (hs : a ≠ 's') (hS : a ≠ 'S') : Turns addStress a 'S'
  | removeStress {a : Char} (ha : a = 's' ∨ a = 'S') : Turns removeStress a 'U'

theorem Change.Turns.ne (h : change.Turns a b) : a ≠ b := by
  cases h with
  | addStress hs hS => exact hS
  | removeStress ha => rcases ha with rfl | rfl <;> decide

theorem isStressed_iff : isStressed a = true ↔ a = 's' ∨ a = 'S' := by
  rw [isStressed, Bool.or_eq_true, beq_iff_eq, beq_iff_eq]

theorem Change.turns_of_due? {expected : Char} (h : due? expected a = some change) :
    change.Turns a change.symbol := by
  unfold due? at h
  split_ifs at h with hadd hremove
  · cases h
    obtain ⟨hs, hS⟩ := not_or.mp (isStressed_iff.not.mp hadd.2)
    exact .addStress hs hS
  · cases h
    exact .removeStress (isStressed_iff.mp hremove.2)

def Correction.place (cor : Correction) : ℕ × ℕ := (cor.line, cor.syllable)

def Correction.Precedes (c d : Correction) : Prop :=
  c.line < d.line ∨ c.line = d.line ∧ c.syllable < d.syllable

namespace Correction

theorem mem_between_cons {expected : Char} {pattern : List Char} :
    cor ∈ between i k (expected :: pattern) (a :: l) ↔
      (cor.line = i ∧ cor.syllable = k ∧ Change.due? expected a = some cor.change) ∨
        cor ∈ between i (k + 1) pattern l := by
  rw [between]
  cases Change.due? expected a with
  | none => simp
  | some change =>
    simp only [List.mem_cons, Option.some.injEq]
    apply or_congr_left
    constructor
    · rintro rfl
      exact ⟨rfl, rfl, rfl⟩
    · rintro ⟨rfl, rfl, rfl⟩
      rfl

/-- There is a correction for each syllable that asks for a change, and no other one. -/
theorem mem_between_iff {pattern : List Char} :
    cor ∈ between i k pattern l ↔ cor.line = i ∧ ∃ j expected a, cor.syllable = k + j ∧
      pattern[j]? = some expected ∧ l[j]? = some a ∧
      Change.due? expected a = some cor.change := by
  induction pattern generalizing l k with
  | nil => simp [between]
  | cons expected pattern ih =>
    cases l with
    | nil => simp [between]
    | cons a l =>
      rw [mem_between_cons, ih]
      constructor
      · rintro (⟨hline, hsyllable, hdue⟩ | ⟨hline, j, e, b, hsyllable, he, hb, hdue⟩)
        · exact ⟨hline, 0, expected, a, hsyllable, rfl, rfl, hdue⟩
        · refine ⟨hline, j + 1, e, b, ?_, he, hb, hdue⟩
          omega
      · rintro ⟨hline, j, e, b, hsyllable, he, hb, hdue⟩
        cases j with
        | zero =>
          cases he
          cases hb
          exact Or.inl ⟨hline, hsyllable, hdue⟩
        | succ j =>
          refine Or.inr ⟨hline, j, e, b, ?_, he, hb, hdue⟩
          omega

theorem pairwise_between (i k : ℕ) (pattern : List Char) (l : Line) :
    (between i k pattern l).Pairwise Precedes := by
  induction pattern generalizing l k with
  | nil => exact .nil
  | cons expected pattern ih =>
    cases l with
    | nil => exact .nil
    | cons a l =>
      rw [between]
      cases Change.due? expected a with
      | none => exact ih (k + 1) l
      | some change =>
        refine List.pairwise_cons.mpr ⟨fun cor hcor => ?_, ih (k + 1) l⟩
        obtain ⟨hline, j, -, -, hsyllable, -⟩ := mem_between_iff.mp hcor
        have hlt : k < cor.syllable := by omega
        exact Or.inr ⟨hline.symm, hlt⟩

end Correction

namespace Word

theorem getElem?_correct (w : Word) (l : Line) (j : ℕ) :
    (w.correct l)[j]? = l[j]?.map fun a => (w[j]?.map fun m => m.correct a).getD a := by
  induction w generalizing l j with
  | nil => simp [correct]
  | cons m w ih =>
    cases l with
    | nil => rfl
    | cons a l =>
      cases j with
      | zero => rfl
      | succ j => exact ih l j

theorem turns_of_mem_between (h : cor ∈ Correction.between i 0 (symbols w) l) :
    cor.line = i ∧ ∃ a b, l[cor.syllable]? = some a ∧
      (w.correct l)[cor.syllable]? = some b ∧ cor.change.Turns a b := by
  obtain ⟨hline, j, e, a, hsyllable, he, ha, hdue⟩ := Correction.mem_between_iff.mp h
  rw [Nat.zero_add] at hsyllable
  rw [symbols, List.getElem?_map, Option.map_eq_some_iff] at he
  obtain ⟨m, hm, rfl⟩ := he
  refine ⟨hline, a, cor.change.symbol, ?_, ?_, Change.turns_of_due? hdue⟩
  · rw [hsyllable, ha]
  · rw [getElem?_correct, hsyllable, ha, hm, Option.map_some, Option.map_some, Option.getD_some,
      Mark.correct, hdue]

theorem getElem?_correct_of_forall_ne
    (h : ∀ cor ∈ Correction.between i 0 (symbols w) l, cor.syllable ≠ k) :
    (w.correct l)[k]? = l[k]? := by
  rw [getElem?_correct]
  cases ha : l[k]? with
  | none => rfl
  | some a =>
    cases hm : w[k]? with
    | none => rfl
    | some m =>
      rw [Option.map_some, Option.map_some, Option.getD_some, Mark.correct]
      cases hdue : Change.due? m.symbol a with
      | none => rfl
      | some change =>
        refine absurd rfl (h ⟨i, k, change⟩ (Correction.mem_between_iff.mpr ?_))
        refine ⟨rfl, k, m.symbol, a, (Nat.zero_add k).symm, ?_, ha, hdue⟩
        rw [symbols, List.getElem?_map, hm, Option.map_some]

end Word

namespace Classifier

theorem getElem?_scoreLines (c : Classifier) (g : Gauge) (i j : ℕ) (poem : Poem) :
    (c.scoreLines g i poem)[j]? = poem[j]?.map (c.scoreLine g (i + j)) := by
  induction poem generalizing i j with
  | nil => rfl
  | cons l poem ih =>
    cases j with
    | zero => rfl
    | succ j =>
      rw [scoreLines, List.getElem?_cons_succ, List.getElem?_cons_succ, ih]
      rw [show i + 1 + j = i + (j + 1) by omega]

theorem isMatch_of_mem_proposals (h : cor ∈ Score.proposals (c.scoreLine g i l)) :
    (g.scan l).isMatch = true ∧ c.scoreLine g i l = some (entry (g.scan l) i l) ∧
      c.correct g l = Word.correct (g.scan l).marks l ∧
      cor ∈ Correction.between i 0 (Word.symbols (g.scan l).marks) l := by
  rcases c.scoreLine_cases g i l with
    ⟨hscore, -⟩ | ⟨-, hscore, -⟩ | ⟨-, hmatch, hscore, hcorrect⟩
  · rw [hscore] at h
    exact absurd h List.not_mem_nil
  · rw [hscore] at h
    exact absurd h List.not_mem_nil
  · rw [hscore] at h
    exact ⟨hmatch, hscore, hcorrect, h⟩

theorem turns_of_mem_proposals (h : cor ∈ Score.proposals (c.scoreLine g i l)) :
    cor.line = i ∧ ∃ a b, l[cor.syllable]? = some a ∧
      (c.correct g l)[cor.syllable]? = some b ∧ cor.change.Turns a b := by
  obtain ⟨-, -, hcorrect, hmem⟩ := isMatch_of_mem_proposals h
  rw [hcorrect]
  exact Word.turns_of_mem_between hmem

theorem getElem?_correct_of_forall_ne
    (h : ∀ cor ∈ Score.proposals (c.scoreLine g i l), cor.syllable ≠ k) :
    (c.correct g l)[k]? = l[k]? := by
  rcases c.scoreLine_cases g i l with
    ⟨-, hcorrect⟩ | ⟨-, -, hcorrect⟩ | ⟨-, -, hscore, hcorrect⟩
  · rw [hcorrect]
  · rw [hcorrect]
  · rw [hscore] at h
    rw [hcorrect]
    exact Word.getElem?_correct_of_forall_ne h

theorem mem_corrections_iff :
    cor ∈ Score.corrections ⟨name, c.scoreLines g i poem⟩ ↔
      ∃ j l, poem[j]? = some l ∧ cor ∈ Score.proposals (c.scoreLine g (i + j) l) := by
  induction poem generalizing i with
  | nil => simp [scoreLines, Score.corrections]
  | cons l poem ih =>
    rw [scoreLines, Score.corrections_cons, List.mem_append, ih]
    constructor
    · rintro (h | ⟨j, l', hline', h⟩)
      · exact ⟨0, l, rfl, h⟩
      · refine ⟨j + 1, l', hline', ?_⟩
        rwa [show i + (j + 1) = i + 1 + j by omega]
    · rintro ⟨j, l', hline', h⟩
      cases j with
      | zero =>
        cases hline'
        exact Or.inl h
      | succ j =>
        refine Or.inr ⟨j, l', hline', ?_⟩
        rwa [show i + 1 + j = i + (j + 1) by omega]

theorem mem_corrections_score {metre : String × Gauge} :
    cor ∈ (c.score poem metre).corrections ↔ ∃ l, poem[cor.line]? = some l ∧
      cor ∈ Score.proposals (c.scoreLine metre.2 cor.line l) := by
  rw [score, mem_corrections_iff]
  simp only [Nat.zero_add]
  constructor
  · rintro ⟨j, l, hline, hmem⟩
    obtain rfl := (turns_of_mem_proposals hmem).1
    exact ⟨l, hline, hmem⟩
  · rintro ⟨l, hline, hmem⟩
    exact ⟨cor.line, l, hline, hmem⟩

theorem pairwise_proposals (c : Classifier) (g : Gauge) (i : ℕ) (l : Line) :
    (Score.proposals (c.scoreLine g i l)).Pairwise Correction.Precedes := by
  rcases c.scoreLine_cases g i l with ⟨hscore, -⟩ | ⟨-, hscore, -⟩ | ⟨-, -, hscore, -⟩
  · rw [hscore]
    exact .nil
  · rw [hscore]
    exact .nil
  · rw [hscore]
    exact Correction.pairwise_between i 0 _ l

theorem pairwise_corrections (c : Classifier) (name : String) (g : Gauge) (i : ℕ) (poem : Poem) :
    (Score.corrections ⟨name, c.scoreLines g i poem⟩).Pairwise Correction.Precedes := by
  induction poem generalizing i with
  | nil => exact .nil
  | cons l poem ih =>
    rw [scoreLines, Score.corrections_cons]
    refine List.pairwise_append.mpr ⟨c.pairwise_proposals g i l, ih (i + 1), ?_⟩
    intro cor hcor later hlater
    obtain ⟨j, l', -, hlater⟩ := mem_corrections_iff.mp hlater
    have hfirst := (turns_of_mem_proposals hcor).1
    have hsecond := (turns_of_mem_proposals hlater).1
    apply Or.inl
    omega

theorem best?_eq_none_or_score (c : Classifier) (poem : Poem) :
    (c.gauges = [] ∧ (c.classify poem).best? = none) ∨
      ∃ metre ∈ c.gauges, (c.classify poem).best? = some (c.score poem metre) := by
  cases hleader : Score.leader? (c.classify poem).scores with
  | none =>
    rw [Score.leader?_eq_none_iff] at hleader
    refine Or.inl ⟨List.map_eq_nil_iff.mp hleader, ?_⟩
    rw [Classification.best?, hleader]
    rfl
  | some s =>
    have hname := Classification.metre_of_leader? hleader
    cases hbest : (c.classify poem).best? with
    | none =>
      have hnone := List.find?_eq_none.mp hbest s (Score.leader?_spec hleader).1
      rw [hname] at hnone
      simp at hnone
    | some t =>
      obtain ⟨metre, hmetre, rfl⟩ := List.mem_map.mp (List.mem_of_find?_eq_some hbest)
      exact Or.inr ⟨metre, hmetre, rfl⟩

end Classifier

namespace Poem

variable {poem' : Poem} {cs : List Correction}

theorem syllable?_map {f : Line → Line} :
    syllable? (poem.map f) i k = poem[i]?.bind fun l => (f l)[k]? := by
  rw [syllable?, List.getElem?_map]
  cases poem[i]? <;> rfl

/-- Two poems differ in as many syllables as there are corrections, if these turn different
syllables and leave the others alone. -/
theorem encard_differences (hordered : cs.Pairwise Correction.Precedes)
    (hturned : ∀ cor ∈ cs, ∃ a b, poem.syllable? cor.line cor.syllable = some a ∧
      poem'.syllable? cor.line cor.syllable = some b ∧ cor.change.Turns a b)
    (hkept : ∀ i k, (∀ cor ∈ cs, cor.place ≠ (i, k)) → poem'.syllable? i k = poem.syllable? i k) :
    (poem.differences poem').encard = cs.length := by
  have hset : poem.differences poem' = ((cs.map Correction.place).toFinset : Set (ℕ × ℕ)) := by
    ext ⟨i, k⟩
    rw [List.coe_toFinset]
    simp only [differences, Set.mem_ofPred_eq, List.mem_map]
    constructor
    · intro hdiffer
      by_contra hnone
      push Not at hnone
      exact hdiffer (hkept i k hnone).symm
    · rintro ⟨cor, hcor, heq⟩
      obtain ⟨a, b, ha, hb, hturns⟩ := hturned cor hcor
      cases heq
      rw [ha, hb]
      exact fun h => hturns.ne (Option.some.inj h)
  have hnodup : (cs.map Correction.place).Nodup := by
    apply List.pairwise_map.mpr
    apply hordered.imp
    intro c d hprecedes heq
    simp only [Correction.place, Prod.mk.injEq] at heq
    simp only [Correction.Precedes] at hprecedes
    omega
  rw [hset, Set.encard_coe_eq_coe_finsetCard, List.toFinset_card_of_nodup hnodup, List.length_map]

end Poem

namespace Classifier

structure Makes (c : Classifier) (poem : Poem) (s : Score) : Prop where
  lengths : (c.improve poem).map List.length = poem.map List.length
  ordered : s.corrections.Pairwise Correction.Precedes
  read : ∀ cor ∈ s.corrections, ∃ e, s.lines[cor.line]? = some (some e) ∧
    e.scansion.overrun = false ∧ e.scansion.marks ≠ []
  turned : ∀ cor ∈ s.corrections, ∃ a b, poem.syllable? cor.line cor.syllable = some a ∧
    (c.improve poem).syllable? cor.line cor.syllable = some b ∧ cor.change.Turns a b
  kept : ∀ i k, (∀ cor ∈ s.corrections, cor.place ≠ (i, k)) →
    (c.improve poem).syllable? i k = poem.syllable? i k
  counted : (poem.differences (c.improve poem)).encard = s.corrections.length

theorem makes_of_best? {metre : String × Gauge}
    (h : (c.classify poem).best? = some (c.score poem metre)) :
    c.Makes poem (c.score poem metre) := by
  have himprove := improve_eq h
  have hordered := c.pairwise_corrections metre.1 metre.2 0 poem
  have hturned : ∀ cor ∈ (c.score poem metre).corrections, ∃ a b,
      poem.syllable? cor.line cor.syllable = some a ∧
      (c.improve poem).syllable? cor.line cor.syllable = some b ∧ cor.change.Turns a b := by
    intro cor hcor
    obtain ⟨l, hline, hmem⟩ := mem_corrections_score.mp hcor
    rw [himprove, Poem.syllable?_map, Poem.syllable?, hline]
    exact (turns_of_mem_proposals hmem).2
  have hkept : ∀ i k, (∀ cor ∈ (c.score poem metre).corrections, cor.place ≠ (i, k)) →
      (c.improve poem).syllable? i k = poem.syllable? i k := by
    intro i k hnone
    rw [himprove, Poem.syllable?_map, Poem.syllable?]
    cases hline : poem[i]? with
    | none => rfl
    | some l =>
      apply getElem?_correct_of_forall_ne (i := i)
      intro cor hmem hsyllable
      obtain rfl := (turns_of_mem_proposals hmem).1
      apply hnone cor (mem_corrections_score.mpr ⟨l, hline, hmem⟩)
      rw [Correction.place, hsyllable]
  refine ⟨?_, hordered, ?_, hturned, hkept, Poem.encard_differences hordered hturned hkept⟩
  · rw [himprove, List.map_map]
    exact List.map_congr_left fun l _ => c.length_correct metre.2 l
  · intro cor hcor
    obtain ⟨l, hline, hmem⟩ := mem_corrections_score.mp hcor
    obtain ⟨hmatch, hscore, -⟩ := isMatch_of_mem_proposals hmem
    refine ⟨entry (metre.2.scan l) cor.line l, ?_, Scansion.isMatch_iff.mp hmatch⟩
    rw [score, getElem?_scoreLines, hline, Option.map_some, Nat.zero_add, hscore]

/-- Improving a poem makes just the corrections of its best score, in any catalogue of metres. -/
theorem improving_makes_corrections (c : Classifier) (poem : Poem) :
    (c.gauges = [] ∧ (c.classify poem).best? = none ∧ c.improve poem = poem) ∨
      ∃ s, (c.classify poem).best? = some s ∧ c.Makes poem s := by
  rcases c.best?_eq_none_or_score poem with ⟨hgauges, hbest⟩ | ⟨metre, -, hbest⟩
  · refine Or.inl ⟨hgauges, hbest, ?_⟩
    apply improve_of_corrections_eq_nil
    rw [Classification.corrections, hbest]
  · exact Or.inr ⟨_, hbest, makes_of_best? hbest⟩

end Classifier

end Prosody
