import Prosody.Proofs.Alternatives
import Prosody.Proofs.Mismatches

/-!
# Paths through a chart

The first syllable of a path is an alternative of the first syllable of the whole, and each other
one an alternative of what its predecessor leads on to. These are the paths of the course.
-/

namespace Prosody

variable {s : Scheme} {n border : ℕ} {line : List Char} {p : Path}

namespace Chart

/-- The path can be read where this syllable is due. -/
inductive Leads (c : Chart) : Option ℕ → Path → Prop
  | nil {due : Option ℕ} : c.Leads due []
  | cons {n : ℕ} {x : Site} {m : Mark} {q : Option Quantifier} {p : Path} :
      x ∈ c.alternatives n → x.form = .syllable m q → c.Leads x.onward p →
      c.Leads (some n) (⟨x.number, m⟩ :: p)

def IsPath (c : Chart) (p : Path) : Prop := ∃ x, c.site? 0 = some x ∧ c.Leads (some x.entry) p

/-- A path that reads the first symbols of a line with no more mismatches than the border allows. -/
structure Fits (c : Chart) (border : ℕ) (line : List Char) (p : Path) : Prop where
  isPath : c.IsPath p
  length_le : p.length ≤ line.length
  mismatches_le :
    Word.mismatches .strong p.marks line + Word.mismatches .weak p.marks line ≤ border

end Chart

theorem Site.mark?_eq_some_iff {x : Site} {m : Mark} :
    x.mark? = some m ↔ ∃ q, x.form = .syllable m q := by
  rw [mark?]
  cases x.form <;> simp [eq_comm]

namespace Scheme

theorem allows_iff_leads : s.course.Allows n p ↔ s.chart.Leads (s.chart.due? n) p := by
  induction p generalizing n with
  | nil => exact iff_of_true trivial .nil
  | cons q p ih =>
    rw [Course.Allows, mem_after_iff, ih]
    generalize s.chart.due? n = due
    constructor
    · rintro ⟨⟨x, hpass, hx, hmark⟩, hrest⟩
      rw [due?_of_mark? hx hmark] at hrest
      obtain ⟨o, hform⟩ := Site.mark?_eq_some_iff.mp hmark
      obtain ⟨d, rfl⟩ : ∃ d, due = some d := by cases hpass <;> exact ⟨_, rfl⟩
      have hmem := Chart.mem_alternatives_iff.mpr ⟨q.number, hpass, hx⟩
      have hlead := Chart.Leads.cons hmem hform hrest
      rwa [Chart.site?_number hx] at hlead
    · intro hlead
      cases hlead with
      | cons hmem hform hrest =>
        have hmark := Site.mark?_eq_some_iff.mpr ⟨_, hform⟩
        obtain ⟨j, hpass, hx⟩ := Chart.mem_alternatives_iff.mp hmem
        obtain rfl := Chart.site?_number hx
        rw [due?_of_mark? hx hmark]
        exact ⟨⟨_, hpass, hx, hmark⟩, hrest⟩

theorem allows_iff_isPath : s.course.Allows 0 p ↔ s.chart.IsPath p := by
  rw [allows_iff_leads]
  constructor
  · exact fun hlead => ⟨s.root, rfl, hlead⟩
  · rintro ⟨x, hx, hlead⟩
    cases hx
    exact hlead

theorem feasible_iff_fits : s.course.Feasible border line p ↔ s.chart.Fits border line p := by
  rw [Course.Feasible, allows_iff_isPath, Path.cost_eq, Word.total_cost]
  exact ⟨fun h => ⟨h.1, h.2.1, h.2.2⟩, fun h => ⟨h.isPath, h.length_le, h.mismatches_le⟩⟩

end Scheme

end Prosody
