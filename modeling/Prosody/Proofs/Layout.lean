import Prosody.Path
import Prosody.Proofs.NormalForm

/-!
# Where the sites of a scheme stand

A site of a chart stands at its own number, and the sites of a run of siblings stand one after
another. As places increase with numbers, a line may end at a site just when the site does not come
before the last unquantified syllable in the pattern.
-/

namespace Prosody

variable {σ : Setting} {n k i place : ℕ} {led : Bool} {s t rest inside : Scheme} {c : Chart}
  {x : Site}

namespace Scheme

theorem number_of_getElem?_sitesFrom (h : (t.sitesFrom σ n k led)[i]? = some x) :
    x.number = n + i := by
  induction t generalizing σ n k led i with
  | done => simp [sitesFrom] at h
  | syllable p m q rest ih =>
    cases i with
    | zero =>
      cases h
      rfl
    | succ i =>
      rw [sitesFrom, List.getElem?_cons_succ] at h
      have := ih h
      omega
  | group p q inside rest ihi ih =>
    cases i with
    | zero =>
      cases h
      rfl
    | succ i =>
      rw [sitesFrom, List.getElem?_cons_succ, List.getElem?_append, length_sitesFrom] at h
      split_ifs at h
      · have := ihi h
        omega
      · have := ih h
        omega

theorem map_place_sitesFrom (t : Scheme) (σ : Setting) (n k : ℕ) (led : Bool) :
    (t.sitesFrom σ n k led).map Site.place = t.places.map some := by
  induction t generalizing σ n k led with
  | done => rfl
  | syllable p m q rest ih => simp [sitesFrom, places, ih]
  | group p q inside rest ihi ih => simp [sitesFrom, places, ihi, ih]

theorem add_size_syllable {m : Mark} {q : Option Quantifier} (n : ℕ) :
    n + (syllable place m q rest).size = n + 1 + rest.size := by
  rw [size]
  omega

theorem add_size_group {q : Quantifier} (n : ℕ) :
    n + (group place q inside rest).size = n + 1 + inside.size + rest.size := by
  rw [size]
  omega

theorem lastPlain?_bounds {last : ℕ} (h : t.lastPlain? n = some last) :
    n ≤ last ∧ last < n + t.size := by
  induction t generalizing n with
  | done => cases h
  | syllable p m q rest ih =>
    cases q with
    | none =>
      rw [lastPlain?, Option.orElse_eq_orElse, Option.orElse_eq_or, Option.or_eq_some_iff] at h
      rw [size]
      rcases h with h | ⟨-, h⟩
      · have := ih h
        omega
      · cases h
        omega
    | some q =>
      have := ih h
      rw [size]
      omega
  | group p q inside rest _ ih =>
    have := ih h
    rw [size]
    omega

end Scheme

namespace Chart

theorem site?_chart (s : Scheme) (n : ℕ) : s.chart.site? n = s.sites[n]? :=
  List.getElem?_toArray

theorem site?_number (h : s.chart.site? n = some x) : x.number = n := by
  rw [site?_chart] at h
  cases n with
  | zero =>
    cases h
    rfl
  | succ n =>
    rw [Scheme.sites, List.getElem?_cons_succ] at h
    have := Scheme.number_of_getElem?_sitesFrom h
    omega

/-- The sites of the run `t` stand in the chart from number `n` on. -/
def Shows (c : Chart) (σ : Setting) (n k : ℕ) (led : Bool) (t : Scheme) : Prop :=
  ∀ i x, (t.sitesFrom σ n k led)[i]? = some x → c.site? (n + i) = some x

theorem shows_chart (s : Scheme) : s.chart.Shows s.setting 1 0 false s := by
  intro i x h
  rw [site?_chart, Nat.add_comm, Scheme.sites, List.getElem?_cons_succ]
  exact h

theorem Shows.rest_of_syllable {m : Mark} {q : Option Quantifier}
    (h : c.Shows σ n k led (.syllable place m q rest)) :
    c.Shows σ (n + 1) (k + 1) (led || q.isNone) rest := by
  intro i x hx
  rw [show n + 1 + i = n + (i + 1) by omega]
  exact h (i + 1) x hx

theorem Shows.plain {m : Mark} (h : c.Shows σ n k led (.syllable place m none rest)) :
    ∃ x, c.site? n = some x ∧ x.mark? = some m ∧ x.onward = σ.leave (n + 1) rest ∧
      x.bypass = (if !led || σ.closes then σ.exit else none) ∧
      c.Shows σ (n + 1) (k + 1) true rest := by
  have hrest := h.rest_of_syllable
  rw [Option.isNone_none, Bool.or_true] at hrest
  exact ⟨_, h 0 _ rfl, rfl, rfl, rfl, hrest⟩

theorem Shows.quantified {m : Mark} {q : Quantifier}
    (h : c.Shows σ n k led (.syllable place m (some q) rest)) :
    ∃ x, c.site? n = some x ∧ x.mark? = some m ∧
      x.onward = (if q = .many then some n else σ.leave (n + 1) rest) ∧
      x.bypass = σ.leave (n + 1) rest ∧ c.Shows σ (n + 1) (k + 1) led rest := by
  have hrest := h.rest_of_syllable
  rw [Option.isNone_some, Bool.or_false] at hrest
  refine ⟨_, h 0 _ rfl, rfl, ?_, rfl, hrest⟩
  simp only [Option.some.injEq]

end Chart

namespace Setting

def inner (σ : Setting) (n : ℕ) (q : Quantifier) (inside rest : Scheme) : Setting where
  parent := n
  entry := n + 1 + inside.lead
  loops := q.isMany
  exit := σ.leave (n + 1 + inside.size) rest
  closes := σ.loops && rest = .done

theorem leave_syllable (m : Mark) (q : Option Quantifier) :
    σ.leave n (.syllable place m q rest) = some n := by
  simp [leave, Scheme.lead]

theorem leave_group (q : Quantifier) :
    σ.leave n (.group place q inside rest) = some (n + 1 + inside.lead) := by
  simp only [leave, reduceCtorEq, if_false, Scheme.lead, Option.some.injEq]
  omega

end Setting

namespace Chart

variable {q : Quantifier}

theorem Shows.inside_of_group (h : c.Shows σ n k led (.group place q inside rest)) :
    c.Shows (σ.inner n q inside rest) (n + 1) 0 false inside := by
  intro i x hx
  rw [show n + 1 + i = n + (i + 1) by omega]
  apply h (i + 1) x
  obtain ⟨hi, -⟩ := List.getElem?_eq_some_iff.mp hx
  rw [Scheme.sitesFrom, List.getElem?_cons_succ]
  exact (List.getElem?_append_left hi).trans hx

theorem Shows.rest_of_group (h : c.Shows σ n k led (.group place q inside rest)) :
    c.Shows σ (n + 1 + inside.size) (k + 1) led rest := by
  intro i x hx
  rw [show n + 1 + inside.size + i = n + (inside.size + i + 1) by omega]
  apply h (inside.size + i + 1) x
  rw [Scheme.sitesFrom, List.getElem?_cons_succ, List.getElem?_append, Scheme.length_sitesFrom,
    if_neg (by omega), show inside.size + i - inside.size = i by omega]
  exact hx

def place? (c : Chart) (n : ℕ) : Option ℕ := (c.site? n).bind Site.place

theorem place?_zero (s : Scheme) : s.chart.place? 0 = none := rfl

theorem place?_succ (s : Scheme) (n : ℕ) : s.chart.place? (n + 1) = s.places[n]? := by
  have h := congrArg (·[n]?) (s.map_place_sitesFrom s.setting 1 0 false)
  simp only [List.getElem?_map] at h
  rw [place?, site?_chart, Scheme.sites, List.getElem?_cons_succ]
  cases hx : (s.sitesFrom s.setting 1 0 false)[n]? with
  | none =>
    rw [hx] at h
    cases hy : s.places[n]? with
    | none => rfl
    | some y =>
      rw [hy] at h
      cases h
  | some x =>
    rw [hx] at h
    cases hy : s.places[n]? with
    | none =>
      rw [hy] at h
      cases h
    | some y =>
      rw [hy] at h
      exact Option.some.inj h

theorem lastPlain?_chart (s : Scheme) : s.chart.lastPlain? = s.lastPlain? 1 := rfl

/-- The site with number `n` does not come before the last unquantified syllable directly under the
whole, as their places in the pattern show. -/
def Reaches (c : Chart) (n : ℕ) : Prop :=
  ∀ x ∈ c.site? 0, ∀ last ∈ x.lastPlain, ∃ a ∈ c.place? last, ∃ b ∈ c.place? n, a ≤ b

theorem reaches_iff (s : Scheme) (n : ℕ) : s.chart.Reaches n ↔
    ∀ last ∈ s.lastPlain? 1, ∃ a ∈ s.chart.place? last, ∃ b ∈ s.chart.place? n, a ≤ b :=
  ⟨fun h => h s.root rfl, fun h _ hx => by cases hx; exact h⟩

theorem completes_iff_reaches (hs : s.places.Pairwise (· < ·)) (hn : n ≤ s.size) :
    s.course.completes n = true ↔ s.chart.Reaches n := by
  simp only [Scheme.course, course, reaches_iff, lastPlain?_chart]
  cases hlast : s.lastPlain? 1 with
  | none => simp
  | some last =>
    obtain ⟨hpos, hlt⟩ := Scheme.lastPlain?_bounds hlast
    obtain ⟨last, rfl⟩ := Nat.exists_eq_add_of_le' hpos
    have hl : last < s.places.length := by
      rw [Scheme.length_places]
      omega
    simp only [Option.mem_some_iff, forall_eq', decide_eq_true_eq, place?_succ,
      List.getElem?_eq_getElem hl]
    cases n with
    | zero => simp [place?_zero]
    | succ n =>
      have hlen : n < s.places.length := by
        rw [Scheme.length_places]
        omega
      simp only [place?_succ, List.getElem?_eq_getElem hlen, Option.mem_some_iff, exists_eq_left']
      rw [List.pairwise_iff_getElem] at hs
      constructor
      · intro hle
        rcases Nat.eq_or_lt_of_le (Nat.le_of_succ_le_succ hle) with rfl | hlt
        · exact Nat.le_refl _
        · exact Nat.le_of_lt (hs last n hl hlen hlt)
      · intro hle
        by_contra! hlt
        have := hs n last hlen hl (by omega)
        omega

end Chart

end Prosody
