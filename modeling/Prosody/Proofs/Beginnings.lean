import Prosody.Proofs.Borders

/-!
# How far lines can be read

A path may stop anywhere, and a line is read as far as the words of all paths go, whether a line may
end there or not. For a scheme these words are what scanning spells when it stops on the way through
the whole. Together with the scanned words they decide every answer, so two schemes that agree in
both are scanned alike.
-/

namespace Prosody

variable {c d : Course} {border : ℕ} {line : List Char} {s t : Scheme} {w : Word}

namespace Course

def begun (c : Course) : Language Mark := {w | ∃ p, c.Allows 0 p ∧ p.marks = w}

theorem lengths_eq_begun (c : Course) (border : ℕ) (line : List Char) :
    {j | ∃ p, c.Feasible border line p ∧ p.length = j} =
      {j | ∃ w ∈ c.begun, w.length = j ∧ j ≤ line.length ∧ (Word.cost w line).total ≤ border} := by
  ext j
  constructor
  · intro hj
    obtain ⟨p, ⟨hallows, hlen, hcost⟩, rfl⟩ := hj
    rw [Path.cost_eq] at hcost
    exact ⟨p.marks, ⟨p, hallows, rfl⟩, Path.length_marks, hlen, hcost⟩
  · intro hj
    obtain ⟨_, ⟨p, hallows, rfl⟩, rfl, hlen, hcost⟩ := hj
    rw [Path.length_marks] at hlen ⊢
    rw [← Path.cost_eq] at hcost
    exact ⟨p, ⟨hallows, hlen, hcost⟩, rfl⟩

theorem scan_congr_words (hbegun : c.begun = d.begun) (hwords : c.words = d.words) (border : ℕ)
    (line : List Char) : c.scan border line = d.scan border line := by
  apply scan_congr_ranks
  · rw [lengths_eq_begun, lengths_eq_begun, hbegun]
  · intro k
    rw [ranks_eq_words, ranks_eq_words, hwords]

theorem overrun_iff_of_length_le (h : line.length ≤ border) :
    (c.scan border line).overrun = true ↔ ∀ w ∈ c.begun, w.length ≠ line.length := by
  obtain ⟨k, hk, hoverrun, -⟩ := c.scan_spec border line
  rw [lengths_eq_begun] at hk
  rw [hoverrun, decide_eq_true_iff]
  constructor
  · intro hlt w hw hlen
    have hcost := (Word.total_cost_le w line).trans h
    have hle := hk.2 ⟨w, hw, rfl, hlen.le, hcost⟩
    omega
  · intro hnone
    obtain ⟨⟨w, hw, rfl, hle, -⟩, -⟩ := hk
    exact lt_of_le_of_ne hle (hnone w hw)

/-- No line is read farther than some word goes. -/
theorem length_marks_le {n : ℕ} (h : ∀ w ∈ c.begun, w.length ≤ n) (hn : n < line.length) :
    (c.scan border line).overrun = true ∧ (c.scan border line).marks.length ≤ n := by
  obtain ⟨k, ⟨hk, -⟩, hoverrun, t, -, hleast⟩ := c.scan_spec border line
  rw [lengths_eq_begun] at hk
  obtain ⟨w, hw, rfl, -⟩ := hk
  have hle := h w hw
  rw [hoverrun, decide_eq_true_iff]
  refine ⟨hle.trans_lt hn, ?_⟩
  rcases hleast with ⟨hmem, -⟩ | ⟨-, -, hnil⟩
  · rw [ranks_eq_words] at hmem
    obtain ⟨v, -, hlen, -, -, hrank⟩ := hmem
    obtain ⟨-, hmarks⟩ := Rank.of_injective hrank
    rwa [← hmarks, hlen]
  · rw [hnil]
    exact Nat.zero_le n

end Course

namespace Scheme

variable {loops closes led : Bool}

theorem whole_le_part (s : Scheme) (loops closes led : Bool) :
    (s.passage loops closes led).whole ≤ (s.passage loops closes led).part := by
  induction s generalizing loops closes led with
  | done => exact le_rfl
  | syllable place m q rest ih =>
    cases q with
    | none => exact (mul_le_mul' le_rfl (ih _ _ _)).trans le_sup_right
    | some q => exact mul_le_mul' le_rfl (ih _ _ _)
  | group place q inside rest _ ih => exact (mul_le_mul' le_rfl (ih _ _ _)).trans le_sup_right

theorem early_le_part (s : Scheme) (loops closes led : Bool) :
    (s.passage loops closes led).early ≤ (s.passage loops closes led).part := by
  induction s generalizing loops closes led with
  | done => exact bot_le
  | syllable place m q rest ih =>
    cases q with
    | none =>
      have hhere : (if !led || closes then 1 else 0 : Language Mark) ≤ 1 := by
        split
        · exact le_rfl
        · exact bot_le
      exact add_le_add hhere (mul_le_mul' le_rfl (ih _ _ _))
    | some q => exact mul_le_mul' le_rfl (ih _ _ _)
  | group place q inside rest _ ih => exact (mul_le_mul' le_rfl (ih _ _ _)).trans le_sup_right

def begun (s : Scheme) : Language Mark := (s.passage false false false).part

theorem begun_course (hne : s ≠ done) (hfull : s.Full) : s.course.begun = s.begun := by
  have hdue : s.chart.due? 0 = s.setting.leave 1 s := (if_neg hne).symm
  have hshows := Chart.shows_chart s
  ext w
  constructor
  · intro hw
    obtain ⟨p, hallows, rfl⟩ := hw
    obtain ⟨k, hread⟩ := allows_iff_reads.mp hallows
    rw [hdue] at hread
    cases hread.divides hfull hshows with
    | stop hpart => exact hpart.stops.1
    | through hwhole => exact Word.mem_of_le (s.whole_le_part _ _ _) hwhole.stops.1
    | leave hearly => exact Word.mem_of_le (s.early_le_part _ _ _) hearly.stops.1
  · intro hw
    obtain ⟨p, rfl, -, hread⟩ := (Chart.traverses_passage hfull hshows).part w hw
    obtain ⟨k, hk⟩ := hread [] 0 .stop
    rw [List.append_nil, ← hdue] at hk
    exact ⟨p, allows_iff_reads.mpr ⟨k, hk⟩, rfl⟩

/-- Schemes that spell the same words are scanned alike. -/
theorem scan_congr (hs : s ≠ done) (hfulls : s.Full) (ht : t ≠ done) (hfullt : t.Full)
    (hbegun : s.begun = t.begun) (hscanned : s.scanned = t.scanned) (border : ℕ)
    (line : List Char) : s.course.scan border line = t.course.scan border line := by
  apply Course.scan_congr_words
  · rw [begun_course hs hfulls, begun_course ht hfullt, hbegun]
  · rw [words_course hs hfulls, words_course ht hfullt, hscanned]

end Scheme

end Prosody
