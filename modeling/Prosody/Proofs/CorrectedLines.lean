import Prosody.Proofs.LeastWord

/-!
# Corrected lines

The corrections that a word asks for in a line turn strong errors of the word into agreements and
leave its other errors alone. Those of a whole poem change each line by itself, and only if the line
was read to its end.
-/

namespace Prosody

variable {m : Mark} {a : Char} {w : Word} {line : Line} {change : Change} {i k : ℕ}

def Mark.correct (m : Mark) (a : Char) : Char :=
  match Change.due? m.symbol a with
  | some change => change.symbol
  | none => a

theorem Mark.cost_of_due (h : Change.due? m.symbol a = some change) :
    m.cost a = ⟨1, 0⟩ ∧ m.cost change.symbol = 0 := by
  unfold Change.due? at h
  split_ifs at h with hadd hremove
  · cases h
    obtain ⟨hm, ha⟩ := hadd
    obtain rfl : m = ⟨.stressed, .strong⟩ := symbol_injective hm
    refine ⟨if_neg fun h => ?_, rfl⟩
    rw [h] at ha
    exact ha rfl
  · cases h
    obtain ⟨hm, ha⟩ := hremove
    obtain rfl : m = ⟨.unstressed, .strong⟩ := symbol_injective hm
    refine ⟨if_neg fun h => ?_, rfl⟩
    rw [h] at ha
    cases ha

namespace Word

def correct : Word → Line → Line
  | m :: w, a :: line => m.correct a :: correct w line
  | _, line => line

theorem length_correct (w : Word) (line : Line) : (w.correct line).length = line.length := by
  induction w generalizing line with
  | nil => rfl
  | cons m w ih =>
    cases line with
    | nil => rfl
    | cons a line => exact congrArg (· + 1) (ih line)

/-- Each correction takes one strong error of the word away, and no other errors change. -/
theorem cost_correct (w : Word) (line : Line) (i k : ℕ) :
    w.cost (w.correct line) + ⟨(Correction.between i k w.symbols line).length, 0⟩ =
      w.cost line := by
  induction w generalizing line k with
  | nil => rfl
  | cons m w ih =>
    cases line with
    | nil => rfl
    | cons a line =>
      rw [correct, cost, cost, Mark.correct, symbols, List.map_cons, Correction.between,
        ← ih line (k + 1)]
      cases hdue : Change.due? m.symbol a with
      | none => exact Tally.add_assoc _ _ _
      | some change =>
        obtain ⟨hbefore, hafter⟩ := Mark.cost_of_due hdue
        simp only
        rw [hbefore, hafter, Tally.zero_add]
        ext
        · simp only [Tally.strong_add, List.length_cons, symbols]
          omega
        · simp only [Tally.weak_add]
          omega

end Word

theorem modify_append_cons {α : Type*} (front back : List α) (x : α) (f : α → α) :
    (front ++ x :: back).modify front.length f = front ++ f x :: back := by
  induction front with
  | nil => rfl
  | cons y front ih => exact congrArg (y :: ·) ih

namespace Correction

variable {front back : Poem}

theorem apply_at {start rest : Line} (cor : Correction) (hline : front.length = cor.line)
    (hsyllable : start.length = cor.syllable) :
    cor.apply (front ++ (start ++ a :: rest) :: back) =
      front ++ (start ++ cor.change.symbol :: rest) :: back := by
  rw [apply, ← hline, modify_append_cons, ← hsyllable, List.set_append_right _ _ le_rfl,
    Nat.sub_self, List.set_cons_zero]

theorem applyAll_append (cs ds : List Correction) (poem : Poem) :
    applyAll (cs ++ ds) poem = applyAll ds (applyAll cs poem) := List.foldl_append

/-- The corrections of a line replace its syllables one by one. -/
theorem applyAll_between (w : Word) (start rest : Line) (hline : front.length = i)
    (hstart : start.length = k) :
    applyAll (between i k w.symbols rest) (front ++ (start ++ rest) :: back) =
      front ++ (start ++ w.correct rest) :: back := by
  induction w generalizing start rest k with
  | nil => rfl
  | cons m w ih =>
    cases rest with
    | nil => rfl
    | cons a rest =>
      have hnext (b : Char) : (start ++ [b]).length = k + 1 := by simp [hstart]
      rw [Word.correct, Mark.correct, Word.symbols, List.map_cons, between]
      cases hdue : Change.due? m.symbol a with
      | none =>
        have h := ih (start ++ [a]) rest (hnext a)
        rw [List.append_assoc, List.append_assoc] at h
        exact h
      | some change =>
        have h := ih (start ++ [change.symbol]) rest (hnext change.symbol)
        rw [List.append_assoc, List.append_assoc] at h
        exact (congrArg (applyAll _) (apply_at ⟨i, k, change⟩ hline hstart)).trans h

end Correction

namespace Gauge

variable {g : Gauge}

def ranks (g : Gauge) (line : Line) : Set Rank := ranking g.scheme.course.words g.border line

theorem isLeast_of_isMatch (h : (g.scan line).isMatch = true) :
    IsLeast (g.ranks line) (Rank.of (g.scan line).tally (g.scan line).marks) :=
  Course.isLeast_of_isMatch h

theorem isMatch_of_nonempty (hline : line ≠ []) (h : (g.ranks line).Nonempty) :
    (g.scan line).isMatch = true :=
  Course.isMatch_of_nonempty hline h

theorem tally_of_isMatch (h : (g.scan line).isMatch = true) :
    (g.scan line).tally = Word.cost (g.scan line).marks line :=
  (mem_of_isLeast_ranking (isLeast_of_isMatch h)).2.2.1

/-- The answer for a line still fits once its corrections are made. -/
theorem mem_ranks_correct (h : (g.scan line).isMatch = true) :
    Rank.of (Word.cost (g.scan line).marks (Word.correct (g.scan line).marks line))
      (g.scan line).marks ∈ g.ranks (Word.correct (g.scan line).marks line) := by
  obtain ⟨hw, hlen, hcost, hborder⟩ := mem_of_isLeast_ranking (isLeast_of_isMatch h)
  refine ⟨_, hw, ?_, ?_, rfl⟩
  · rw [hlen, Word.length_correct]
  · rw [hcost, ← Word.cost_correct _ line 0 0, Tally.total_add] at hborder
    omega

end Gauge

namespace Score

def proposals : Option LineScore → List Correction
  | none => []
  | some s => s.corrections

theorem corrections_cons (name : String) (entry : Option LineScore)
    (entries : List (Option LineScore)) :
    corrections ⟨name, entry :: entries⟩ = proposals entry ++ corrections ⟨name, entries⟩ := by
  cases entry <;> rfl

end Score

namespace Classifier

variable {c : Classifier} {g : Gauge} {poem : Poem} {metre : String × Gauge}

def correct (c : Classifier) (g : Gauge) (line : Line) : Line :=
  if c.skips line then line
  else if (g.scan line).isMatch then Word.correct (g.scan line).marks line
  else line

theorem length_correct (c : Classifier) (g : Gauge) (line : Line) :
    (c.correct g line).length = line.length := by
  unfold correct
  split_ifs
  · rfl
  · exact Word.length_correct _ _
  · rfl

/-- Skipping goes by the length of a line, which corrections do not change. -/
theorem skips_correct (c : Classifier) (g : Gauge) (line : Line) :
    c.skips (c.correct g line) = c.skips line := by
  have hlen := c.length_correct g line
  have hempty : (c.correct g line).isEmpty = line.isEmpty := by
    rw [Bool.eq_iff_iff, List.isEmpty_iff_length_eq_zero, List.isEmpty_iff_length_eq_zero, hlen]
  rw [skips, skips, hempty, hlen]

theorem skips_eq_false_iff : c.skips line = false ↔ line ≠ [] ∧ line.length ≤ c.longest := by
  rw [skips, Bool.or_eq_false_iff, List.isEmpty_eq_false_iff, decide_eq_false_iff_not, not_lt]

theorem ne_nil_of_skips_eq_false (h : c.skips line = false) : line ≠ [] :=
  (skips_eq_false_iff.mp h).1

def entry (s : Scansion) (i : ℕ) (line : Line) : LineScore :=
  ⟨s, s.tally, Correction.between i 0 (Word.symbols s.marks) line⟩

theorem scoreLine_of_isMatch (hskip : c.skips line = false)
    (hmatch : (g.scan line).isMatch = true) (i : ℕ) :
    c.scoreLine g i line = some (entry (g.scan line) i line) := by
  rw [scoreLine, hskip]
  simp only [hmatch]
  rfl

/-- A line is skipped, or not read to its end, or read and perhaps corrected. -/
theorem scoreLine_cases (c : Classifier) (g : Gauge) (i : ℕ) (line : Line) :
    (c.scoreLine g i line = none ∧ c.correct g line = line) ∨
      ((g.scan line).isMatch = false ∧
        c.scoreLine g i line = some ⟨g.scan line, .both line.length, []⟩ ∧
        c.correct g line = line) ∨
      (c.skips line = false ∧ (g.scan line).isMatch = true ∧
        c.scoreLine g i line = some (entry (g.scan line) i line) ∧
        c.correct g line = Word.correct (g.scan line).marks line) := by
  cases hskip : c.skips line with
  | true =>
    refine Or.inl ⟨?_, ?_⟩
    · rw [scoreLine, hskip, if_pos rfl]
    · rw [correct, hskip, if_pos rfl]
  | false =>
    cases hmatch : (g.scan line).isMatch with
    | false =>
      refine Or.inr (Or.inl ⟨rfl, ?_, ?_⟩)
      · simp [scoreLine, hskip, hmatch]
      · simp [correct, hmatch]
    | true =>
      refine Or.inr (Or.inr ⟨rfl, rfl, scoreLine_of_isMatch hskip hmatch i, ?_⟩)
      simp [correct, hskip, hmatch]

theorem applyAll_proposals (c : Classifier) (g : Gauge) (front back : Poem) (line : Line) :
    Correction.applyAll (Score.proposals (c.scoreLine g front.length line))
      (front ++ line :: back) = front ++ c.correct g line :: back := by
  rcases c.scoreLine_cases g front.length line with
    ⟨hscore, hcorrect⟩ | ⟨-, hscore, hcorrect⟩ | ⟨-, -, hscore, hcorrect⟩
  · rw [hscore, hcorrect]
    rfl
  · rw [hscore, hcorrect]
    rfl
  · rw [hscore, hcorrect]
    exact Correction.applyAll_between _ [] line rfl rfl

theorem applyAll_corrections (c : Classifier) (name : String) (g : Gauge) (front poem : Poem) :
    Correction.applyAll (Score.corrections ⟨name, c.scoreLines g front.length poem⟩)
      (front ++ poem) = front ++ poem.map (c.correct g) := by
  induction poem generalizing front with
  | nil => rfl
  | cons line poem ih =>
    have h := ih (front ++ [c.correct g line])
    rw [List.length_append, List.length_singleton, List.append_assoc, List.append_assoc] at h
    rw [scoreLines, Score.corrections_cons, Correction.applyAll_append, applyAll_proposals]
    exact h

theorem improve_eq (h : (c.classify poem).best? = some (c.score poem metre)) :
    c.improve poem = poem.map (c.correct metre.2) := by
  rw [improve, Classification.corrections, h]
  exact c.applyAll_corrections metre.1 metre.2 [] poem

theorem improve_of_corrections_eq_nil (h : (c.classify poem).corrections = []) :
    c.improve poem = poem := by
  rw [improve, h]
  rfl

end Classifier

end Prosody
