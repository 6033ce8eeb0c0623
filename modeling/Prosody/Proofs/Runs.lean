import Prosody.Proofs.Layout

/-!
# Runs of siblings

A scheme falls into runs of siblings: the scheme itself, what stands in a group, and what stands
behind a construct. Each site but the whole is the head of a run. What holds of a scheme and is
handed on to the run in a group and to the run behind a construct holds of all runs; in this way a
run knows the site above it and the numbers of its own sites.
-/

namespace Prosody

variable {σ : Setting} {n m k i a place : ℕ} {led : Bool} {s t rest inside : Scheme} {c : Chart}
  {x y : Site} {mark : Mark} {q : Quantifier} {o : Option Quantifier}

theorem Chart.Shows.head (h : c.Shows σ n k led t) (hx : (t.sitesFrom σ n k led).head? = some x) :
    c.site? n = some x :=
  h 0 x (List.head?_eq_getElem? ▸ hx)

namespace Scheme

/-- The siblings `t` stand in the scheme from number `n` and slot `k` on. -/
inductive Run (s : Scheme) : Setting → ℕ → ℕ → Bool → Scheme → Prop
  | whole : s.Run s.setting 1 0 false s
  | behindSyllable {σ : Setting} {n k place : ℕ} {led : Bool} {mark : Mark}
      {o : Option Quantifier} {rest : Scheme} : s.Run σ n k led (.syllable place mark o rest) →
      s.Run σ (n + 1) (k + 1) (led || o.isNone) rest
  | inside {σ : Setting} {n k place : ℕ} {led : Bool} {q : Quantifier} {inside rest : Scheme} :
      s.Run σ n k led (.group place q inside rest) →
      s.Run (σ.inner n q inside rest) (n + 1) 0 false inside
  | behindGroup {σ : Setting} {n k place : ℕ} {led : Bool} {q : Quantifier}
      {inside rest : Scheme} : s.Run σ n k led (.group place q inside rest) →
      s.Run σ (n + 1 + inside.size) (k + 1) led rest

theorem Run.shows (h : s.Run σ n k led t) : s.chart.Shows σ n k led t := by
  induction h with
  | whole => exact Chart.shows_chart s
  | behindSyllable _ ih => exact ih.rest_of_syllable
  | inside _ ih => exact ih.inside_of_group
  | behindGroup _ ih => exact ih.rest_of_group

theorem Run.full (hs : s.Full) (h : s.Run σ n k led t) : t.Full := by
  induction h with
  | whole => exact hs
  | behindSyllable _ ih => exact ih
  | inside _ ih => exact ih.2.1
  | behindGroup _ ih => exact ih.2.2

theorem Run.exists_head (h : s.Run σ n k led t) (hi : n ≤ i) (hlt : i < n + t.size) :
    ∃ σ' k' led' t', s.Run σ' i k' led' t' ∧ t' ≠ done := by
  induction t generalizing σ n k led with
  | done => exact absurd hlt (Nat.not_lt.mpr hi)
  | syllable place mark o rest ih =>
    rcases Nat.eq_or_lt_of_le hi with rfl | hi
    · exact ⟨_, _, _, _, h, nofun⟩
    · rw [add_size_syllable] at hlt
      exact ih h.behindSyllable hi hlt
  | group place q inside rest ihi ih =>
    rw [add_size_group] at hlt
    rcases Nat.eq_or_lt_of_le hi with rfl | hi
    · exact ⟨_, _, _, _, h, nofun⟩
    · rcases Nat.lt_or_ge i (n + 1 + inside.size) with hin | hout
      · exact ihi h.inside hi hin
      · exact ih h.behindGroup hout hlt

theorem exists_run (hx : s.chart.site? n = some x) :
    n = 0 ∧ x = s.root ∨
      ∃ σ k led t, s.Run σ n k led t ∧ (t.sitesFrom σ n k led).head? = some x := by
  have hsite := hx
  rw [Chart.site?_chart] at hsite
  obtain ⟨hlt, -⟩ := List.getElem?_eq_some_iff.mp hsite
  rw [length_sites] at hlt
  rcases Nat.eq_zero_or_pos n with rfl | hpos
  · exact Or.inl ⟨rfl, (Option.some.inj hsite).symm⟩
  · obtain ⟨σ, k, led, t, hrun, ht⟩ := Run.whole.exists_head hpos (by omega : n < 1 + s.size)
    have hhead : ∃ y, (t.sitesFrom σ n k led).head? = some y := by
      cases t with
      | done => exact absurd rfl ht
      | syllable place mark o rest => exact ⟨_, rfl⟩
      | group place q inside rest => exact ⟨_, rfl⟩
    obtain ⟨y, hy⟩ := hhead
    cases hx.symm.trans (hrun.shows.head hy)
    exact Or.inr ⟨σ, k, led, t, hrun, hy⟩

theorem head?_tops (ht : t ≠ done) (n : ℕ) : (t.tops n).head? = some n := by
  cases t with
  | done => exact absurd rfl ht
  | syllable place mark o rest => rfl
  | group place q inside rest => rfl

theorem tops_ne_nil (ht : t ≠ done) (n : ℕ) : t.tops n ≠ [] := by
  intro hnil
  have hhead := head?_tops ht n
  rw [hnil] at hhead
  cases hhead

/-- The site above a run: the run ends its children, and its settings are those of the run. -/
theorem Run.exists_parent (h : s.Run σ n k led t) :
    ∃ y, s.chart.site? σ.parent = some y ∧ σ.parent < n ∧ y.children.drop k = t.tops n ∧
      y.isLoop = σ.loops ∧ y.entry = σ.entry := by
  induction h with
  | whole => exact ⟨s.root, rfl, Nat.one_pos, rfl, rfl, rfl⟩
  | behindSyllable _ ih =>
    obtain ⟨y, hy, hlt, hdrop, hloop, hentry⟩ := ih
    refine ⟨y, hy, by omega, ?_, hloop, hentry⟩
    rw [← List.tail_drop, hdrop]
    rfl
  | @inside σ n k place led q inside rest h _ =>
    exact ⟨_, h.shows.head rfl, n.lt_succ_self, rfl, by cases q <;> rfl, rfl⟩
  | behindGroup _ ih =>
    obtain ⟨y, hy, hlt, hdrop, hloop, hentry⟩ := ih
    refine ⟨y, hy, by omega, ?_, hloop, hentry⟩
    rw [← List.tail_drop, hdrop]
    rfl

theorem Run.getElem?_children (h : s.Run σ n k led t) (ht : t ≠ done)
    (hy : s.chart.site? σ.parent = some y) : y.children[k]? = some n := by
  obtain ⟨z, hz, -, hdrop, -⟩ := h.exists_parent
  cases hy.symm.trans hz
  rw [← List.head?_drop, hdrop, head?_tops ht]

/-- A site is a syllable without children, or its children are a run right behind it. -/
theorem syllable_or_inner_run (hne : s ≠ done) (hs : s.Full) (hx : s.chart.site? n = some x) :
    (∃ mark o, x.form = .syllable mark o ∧ x.children = [] ∧ x.entry = n) ∨
      ∃ σ t, s.Run σ (n + 1) 0 false t ∧ t ≠ done ∧ σ.parent = n ∧ x.mark? = none ∧
        x.children = t.tops (n + 1) ∧ x.entry = n + 1 + t.lead := by
  rcases exists_run hx with ⟨rfl, rfl⟩ | ⟨σ, k, led, t, hrun, hhead⟩
  · exact Or.inr ⟨_, s, .whole, hne, rfl, rfl, rfl, rfl⟩
  · cases t with
    | done => cases hhead
    | syllable place mark o rest =>
      cases hhead
      exact Or.inl ⟨mark, o, rfl, rfl, rfl⟩
    | group place q inside rest =>
      cases hhead
      exact Or.inr ⟨_, inside, hrun.inside, (hrun.full hs).1, rfl, rfl, rfl, rfl⟩

end Scheme

namespace Chart

/-- The construct with number `m` contains the site with number `n`: the site is the construct
itself, or one of its children contains it. -/
inductive Contains (c : Chart) : ℕ → ℕ → Prop
  | self {n : ℕ} {x : Site} : c.site? n = some x → c.Contains n n
  | child {m n a : ℕ} {x : Site} : c.site? m = some x → a ∈ x.children → c.Contains a n →
      c.Contains m n

theorem contains_iff (hx : c.site? m = some x) :
    c.Contains m n ↔ n = m ∨ ∃ a ∈ x.children, c.Contains a n := by
  constructor
  · intro h
    cases h with
    | self _ => exact Or.inl rfl
    | child hy ha hn =>
      cases hx.symm.trans hy
      exact Or.inr ⟨_, ha, hn⟩
  · rintro (rfl | ⟨a, ha, hn⟩)
    · exact .self hx
    · exact .child hx ha hn

/-- The constructs of a run contain the sites of the run. -/
theorem Shows.contains_iff (h : c.Shows σ n k led t) :
    (∃ a ∈ t.tops n, c.Contains a i) ↔ n ≤ i ∧ i < n + t.size := by
  induction t generalizing σ n k led with
  | done =>
    simp only [Scheme.tops, List.not_mem_nil, false_and, exists_false, Scheme.size, false_iff]
    omega
  | syllable place mark o rest ih =>
    rw [Scheme.tops, List.exists_mem_cons_iff, ih h.rest_of_syllable,
      Chart.contains_iff (h.head rfl), Scheme.add_size_syllable]
    simp only [List.not_mem_nil, false_and, exists_false, or_false]
    omega
  | group place q inside rest ihi ih =>
    rw [Scheme.tops, List.exists_mem_cons_iff, ih h.rest_of_group, Chart.contains_iff (h.head rfl),
      ihi h.inside_of_group, Scheme.add_size_group]
    omega

end Chart

end Prosody
