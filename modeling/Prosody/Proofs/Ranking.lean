import Prosody.Reading
import Mathlib.Data.Char
import Mathlib.Data.List.Lex
import Mathlib.Data.List.MinMax
import Mathlib.Data.Prod.Lex

/-!
# Ranks of readings

Answers are compared by their strong errors, then by their weak errors, then by the string of their
marks. Ranks are linearly ordered, and the best of some readings is one of least rank.
-/

namespace Prosody

abbrev Rank := ℕ ×ₗ ℕ ×ₗ List Char

def Rank.of (t : Tally) (marks : List Mark) : Rank :=
  toLex (t.strong, toLex (t.weak, marks.map Mark.symbol))

namespace Mark

theorem lt_iff_string_lt (u v : List Mark) : u < v ↔ u.map symbol < v.map symbol := by
  induction u generalizing v with
  | nil => cases v <;> simp
  | cons a u ih =>
    cases v with
    | nil => simp
    | cons b v =>
      simp only [List.map_cons, List.cons_lt_cons_iff, ih, lt_iff]
      refine or_congr_right (and_congr_left fun _ => ⟨fun h => h ▸ rfl, symbol_injective⟩)

theorem not_lt_trans {u v w : List Mark} (huv : ¬v < u) (hvw : ¬w < v) : ¬w < u := by
  simp only [lt_iff_string_lt, not_lt] at *
  exact huv.trans hvw

/-- Words of one length that end alike compare like their beginnings. -/
theorem lt_of_append_lt_append {u v w : List Mark} (hlen : u.length = v.length)
    (h : u ++ w < v ++ w) : u < v := by
  induction u generalizing v with
  | nil =>
    rw [List.length_nil, eq_comm, List.length_eq_zero_iff] at hlen
    subst hlen
    exact absurd h (List.lt_irrefl _)
  | cons a u ih =>
    cases v with
    | nil => simp at hlen
    | cons b v =>
      rw [List.cons_append, List.cons_append, List.cons_lt_cons_iff] at h
      rw [List.cons_lt_cons_iff]
      rcases h with h | ⟨hab, h⟩
      · exact Or.inl h
      · exact Or.inr ⟨hab, ih (Nat.succ.inj hlen) h⟩

end Mark

theorem Rank.of_lt_iff (s t : Tally) (u v : List Mark) :
    Rank.of s u < Rank.of t v ↔ s < t ∨ s = t ∧ u < v := by
  simp only [Rank.of, Prod.Lex.toLex_lt_toLex, ← Mark.lt_iff_string_lt, Tally.lt_iff]
  constructor
  · rintro (hs | ⟨hs, hw | ⟨hw, huv⟩⟩)
    · exact Or.inl (Or.inl hs)
    · exact Or.inl (Or.inr ⟨hs, hw⟩)
    · exact Or.inr ⟨Tally.ext hs hw, huv⟩
  · rintro ((hs | ⟨hs, hw⟩) | ⟨rfl, huv⟩)
    · exact Or.inl hs
    · exact Or.inr ⟨hs, Or.inl hw⟩
    · exact Or.inr ⟨rfl, Or.inr ⟨rfl, huv⟩⟩

theorem Rank.tally_le {s t : Tally} {u v : List Mark} (h : Rank.of s u ≤ Rank.of t v) : s ≤ t := by
  rw [← not_lt, Rank.of_lt_iff, not_or, Tally.not_lt] at h
  exact h.1

namespace Reading

def rank (r : Reading) : Rank := Rank.of r.tally r.marks

theorem better_iff_rank_lt (r t : Reading) : r.better t ↔ r.rank < t.rank :=
  (Rank.of_lt_iff r.tally t.tally r.marks t.marks).symm

/-- The choice between readings is the library's first minimum. -/
theorem best?_eq_argmin (readings : List Reading) : best? readings = readings.argmin rank := by
  induction readings with
  | nil => rfl
  | cons r rest ih =>
    rw [best?, List.argmin_cons, ih]
    cases rest.argmin rank with
    | none => rfl
    | some t => simp only [better_iff_rank_lt]

theorem best?_eq_none_iff (readings : List Reading) : best? readings = none ↔ readings = [] := by
  rw [best?_eq_argmin, List.argmin_eq_none]

theorem best?_spec {readings : List Reading} {r : Reading} (h : best? readings = some r) :
    r ∈ readings ∧ ∀ t ∈ readings, r.rank ≤ t.rank := by
  rw [best?_eq_argmin] at h
  exact ⟨List.argmin_mem h, fun _ ht => List.le_of_mem_argmin ht h⟩

end Reading

end Prosody
