import Prosody.Proofs.Beginnings
import Prosody.Proofs.Derivation
import Mathlib.Data.List.Forall2

/-!
# Words that cover words

A mark covers another one if it is the same or the weak mark of the same stress. It has no more
errors on any symbol, and neither has a word that covers another one mark by mark. So a scheme
answers no worse than another one if its words cover the words of the other: those after which
scanning may stop, and those after which a line may end.
-/

namespace Prosody

open Computability

variable {a b : Mark} {u v w : Word} {K L M N : Language Mark} {q : Quantifier} {c d : Course}
  {s t : Scheme}

theorem Mark.Covers.cost_le (h : a.Covers b) (symbol : Char) :
    a.cost symbol ≤ b.cost symbol ∧ (a.cost symbol).total ≤ (b.cost symbol).total := by
  rcases h with rfl | rfl
  · exact ⟨Tally.le_refl _, le_rfl⟩
  · obtain ⟨stress, force⟩ := b
    cases force with
    | weak => exact ⟨Tally.le_refl _, le_rfl⟩
    | strong =>
      have htotal := Mark.total_cost_le ⟨stress, .weak⟩ symbol
      by_cases hsymbol : symbol = Mark.symbol ⟨stress, .strong⟩
      · -- the letter of the strong mark agrees with both marks
        subst hsymbol
        cases stress <;> exact ⟨Tally.le_refl 0, le_rfl⟩
      · have hstrong : Mark.cost ⟨stress, .strong⟩ symbol = ⟨1, 0⟩ := if_neg hsymbol
        have hweak : (Mark.cost ⟨stress, .weak⟩ symbol).strong = 0 := by
          change (if _ then (0 : Tally) else ⟨0, 1⟩).strong = 0
          split <;> rfl
        rw [hstrong]
        exact ⟨Or.inl (hweak ▸ Nat.one_pos), htotal⟩

namespace Word

theorem cost_le_of_covers (h : List.Forall₂ Mark.Covers v w) (line : List Char) :
    v.cost line ≤ w.cost line ∧ (v.cost line).total ≤ (w.cost line).total := by
  induction h generalizing line with
  | nil => exact ⟨Tally.le_refl _, le_rfl⟩
  | cons hab _ ih =>
    cases line with
    | nil => exact ⟨Tally.le_refl _, le_rfl⟩
    | cons symbol line =>
      obtain ⟨hhead, hheadtotal⟩ := hab.cost_le symbol
      obtain ⟨hrest, hresttotal⟩ := ih line
      rw [cost, cost, Tally.total_add, Tally.total_add]
      exact ⟨Tally.add_le_add hhead hrest, Nat.add_le_add hheadtotal hresttotal⟩

def CoveredBy (L M : Language Mark) : Prop := ∀ w ∈ L, ∃ v ∈ M, List.Forall₂ Mark.Covers v w

namespace CoveredBy

theorem of_le (h : L ≤ M) : CoveredBy L M := fun w hw => ⟨w, mem_of_le h hw, covers_refl w⟩

theorem single (h : b.Covers a) : CoveredBy {[a]} {[b]} := by
  intro w hw
  obtain rfl : w = [a] := hw
  exact ⟨[b], rfl, .cons h .nil⟩

theorem add (hL : CoveredBy L M) (hK : CoveredBy K N) : CoveredBy (L + K) (M + N) := by
  intro w hw
  rcases hw with hw | hw
  · obtain ⟨v, hv, hcovers⟩ := hL w hw
    exact ⟨v, Or.inl hv, hcovers⟩
  · obtain ⟨v, hv, hcovers⟩ := hK w hw
    exact ⟨v, Or.inr hv, hcovers⟩

theorem mul (hL : CoveredBy L M) (hK : CoveredBy K N) : CoveredBy (L * K) (M * N) := by
  intro w hw
  obtain ⟨u, hu, x, hx, rfl⟩ := Language.mem_mul.mp hw
  obtain ⟨u', hu', hcovers⟩ := hL u hu
  obtain ⟨x', hx', hcovers'⟩ := hK x hx
  exact ⟨u' ++ x', Language.append_mem_mul hu' hx', List.rel_append hcovers hcovers'⟩

theorem kstar (h : CoveredBy L M) : CoveredBy (L∗) (M∗) := by
  intro w hw
  -- induction on the rounds of the word
  induction Quantifier.iterated_iff.mpr hw with
  | none => exact ⟨[], Language.nil_mem_kstar M, .nil⟩
  | more hu hx ih =>
    obtain ⟨u', hu', hcovers⟩ := h _ hu
    obtain ⟨x', hx', hcovers'⟩ := ih (Quantifier.iterated_iff.mp hx)
    exact ⟨u' ++ x', mem_of_le mul_kstar_le_kstar (Language.append_mem_mul hu' hx'),
      List.rel_append hcovers hcovers'⟩

theorem repeated (h : CoveredBy L M) (q : Quantifier) :
    CoveredBy (q.repeated L) (q.repeated M) := by
  rw [Quantifier.repeated_eq, Quantifier.repeated_eq]
  split
  · exact h.kstar
  · exact (of_le le_rfl).add h

end CoveredBy

end Word

theorem Course.noWorse_of_coveredBy (hbegun : Word.CoveredBy c.begun d.begun)
    (hwords : Word.CoveredBy c.words d.words) (border : ℕ) (line : List Char) :
    (d.scan border line).NoWorse (c.scan border line) where
  overrun := by
    apply overrun_eq_false_of_lengths
    rw [lengths_eq_begun, lengths_eq_begun]
    intro j hj
    obtain ⟨w, hw, hlen, hle, hborder⟩ := hj
    obtain ⟨v, hv, hcovers⟩ := hbegun w hw
    have htotal := (Word.cost_le_of_covers hcovers line).2
    exact ⟨v, hv, hcovers.length_eq.trans hlen, hle, htotal.trans hborder⟩
  isMatch := by
    apply isMatch_of_words
    intro w hw hlen hborder
    obtain ⟨v, hv, hcovers⟩ := hwords w hw
    obtain ⟨hcost, htotal⟩ := Word.cost_le_of_covers hcovers line
    exact ⟨v, hv, hcovers.length_eq.trans hlen, htotal.trans hborder, hcost⟩

theorem Gauge.noWorse_of_coveredBy {pattern other : List Char} {border : ℕ} {g h : Gauge}
    (hg : ofPattern pattern border = .ok g) (hh : ofPattern other border = .ok h)
    (hbegun : Word.CoveredBy g.scheme.begun h.scheme.begun)
    (hscanned : Word.CoveredBy g.scheme.scanned h.scheme.scanned) (line : List Char) :
    (h.scan line).NoWorse (g.scan line) := by
  obtain ⟨hreadg, hborderg⟩ := scheme_of_ofPattern hg
  obtain ⟨hreadh, hborderh⟩ := scheme_of_ofPattern hh
  obtain ⟨hneg, hfullg⟩ := Scheme.full_of_read hreadg
  obtain ⟨hneh, hfullh⟩ := Scheme.full_of_read hreadh
  rw [scan, scan, hborderg, hborderh]
  apply Course.noWorse_of_coveredBy
  · rwa [Scheme.begun_course hneg hfullg, Scheme.begun_course hneh hfullh]
  · rwa [Scheme.words_course hneg hfullg, Scheme.words_course hneh hfullh]

end Prosody
