import Prosody.Proofs.Layout
import Mathlib.Data.Finset.Card

/-!
# Alternatives as reachability

The alternatives of a site are cut off at the first site that comes back. No site is lost by that:
they are the sites that bypasses lead to. Hence the paths of a course are those read by two kinds
of step, reading the syllable that is due and passing it.
-/

namespace Prosody

variable {c : Chart} {s : Scheme} {n m k fuel : ℕ} {o : Option ℕ} {seen : Std.TreeSet ℕ}
  {S : Finset ℕ} {x y : Site} {p : Path} {q : Spot}

namespace Chart

inductive Passes (c : Chart) : Option ℕ → ℕ → Prop
  | here {n : ℕ} {x : Site} : c.site? n = some x → c.Passes (some n) n
  | on {n m : ℕ} {x : Site} : c.site? n = some x → c.Passes x.bypass m → c.Passes (some n) m

theorem passes_of_mem_chain (h : y ∈ c.chain fuel seen o) :
    ∃ m, c.Passes o m ∧ c.site? m = some y := by
  induction fuel generalizing seen o with
  | zero => simp [chain] at h
  | succ fuel ih =>
    cases o with
    | none => simp [chain] at h
    | some n =>
      simp only [chain] at h
      split at h
      · exact absurd h List.not_mem_nil
      · split at h
        · exact absurd h List.not_mem_nil
        · rename_i x hx
          rcases List.mem_cons.mp h with rfl | h
          · exact ⟨n, .here hx, hx⟩
          · obtain ⟨m, hpass, hm⟩ := ih h
            exact ⟨m, .on hx hpass, hm⟩

/-- A chain with enough fuel starts with its site, unless that was seen before. -/
theorem mem_chain_of_site? (hseen : ∀ a, seen.contains a = true ↔ a ∈ S)
    (hsub : S ⊆ Finset.range c.sites.size) (hcard : c.sites.size ≤ S.card + fuel)
    (hn : c.site? n = some x) : n ∈ S ∨ x ∈ c.chain fuel seen (some n) := by
  obtain ⟨hlt, -⟩ := Array.getElem?_eq_some_iff.mp hn
  cases fuel with
  | zero =>
    have hS : S = Finset.range c.sites.size :=
      Finset.eq_of_subset_of_card_le hsub (by rw [Finset.card_range]; exact hcard)
    exact Or.inl (hS ▸ Finset.mem_range.mpr hlt)
  | succ fuel =>
    by_cases hmem : n ∈ S
    · exact Or.inl hmem
    · rw [← hseen n] at hmem
      simp only [chain, hmem, hn]
      exact Or.inr List.mem_cons_self

theorem contains_insert_iff (hseen : ∀ a, seen.contains a = true ↔ a ∈ S) (n a : ℕ) :
    (seen.insert n).contains a = true ↔ a ∈ insert n S := by
  rw [Std.TreeSet.contains_insert, Bool.or_eq_true, hseen, Finset.mem_insert, beq_iff_eq,
    Nat.compare_eq_eq, eq_comm]

theorem chain_closed (hseen : ∀ a, seen.contains a = true ↔ a ∈ S)
    (hsub : S ⊆ Finset.range c.sites.size) (hcard : c.sites.size ≤ S.card + fuel)
    (hx : x ∈ c.chain fuel seen o) (hbypass : x.bypass = some m) (hm : c.site? m = some y) :
    m ∈ S ∨ y ∈ c.chain fuel seen o := by
  induction fuel generalizing seen S o with
  | zero => simp [chain] at hx
  | succ fuel ih =>
    cases o with
    | none => simp [chain] at hx
    | some n =>
      simp only [chain] at hx ⊢
      split at hx
      · exact absurd hx List.not_mem_nil
      · rename_i hn
        rw [hseen n] at hn
        split at hx
        · exact absurd hx List.not_mem_nil
        · rename_i z hz
          obtain ⟨hlt, -⟩ := Array.getElem?_eq_some_iff.mp hz
          have hseen' := contains_insert_iff hseen n
          have hsub' : insert n S ⊆ Finset.range c.sites.size :=
            Finset.insert_subset (Finset.mem_range.mpr hlt) hsub
          have hcard' : c.sites.size ≤ (insert n S).card + fuel := by
            rw [Finset.card_insert_of_notMem hn]
            omega
          have hnext : m ∈ insert n S ∨ y ∈ c.chain fuel (seen.insert n) z.bypass := by
            rcases List.mem_cons.mp hx with rfl | hx
            · rw [hbypass]
              exact mem_chain_of_site? hseen' hsub' hcard' hm
            · exact ih hseen' hsub' hcard' hx
          have hn' : seen.contains n = false := by
            rw [← Bool.not_eq_true, hseen n]
            exact hn
          simp only [hn']
          rcases hnext with hmem | hmem
          · rcases Finset.mem_insert.mp hmem with rfl | hmem
            · rw [hm] at hz
              cases hz
              exact Or.inr List.mem_cons_self
            · exact Or.inl hmem
          · exact Or.inr (List.mem_cons_of_mem z hmem)

theorem mem_of_passes {sites : List Site} (hpass : c.Passes o m) (hm : c.site? m = some y)
    (hstart : ∀ a x, o = some a → c.site? a = some x → x ∈ sites)
    (hclosed : ∀ x ∈ sites, ∀ a z, x.bypass = some a → c.site? a = some z → z ∈ sites) :
    y ∈ sites := by
  induction hpass with
  | here _ => exact hstart _ y rfl hm
  | on hx _ ih => exact ih hm (hclosed _ (hstart _ _ rfl hx))

theorem mem_alternatives_iff :
    y ∈ c.alternatives n ↔ ∃ m, c.Passes (some n) m ∧ c.site? m = some y := by
  have hseen : ∀ a : ℕ, (∅ : Std.TreeSet ℕ).contains a = true ↔ a ∈ (∅ : Finset ℕ) := by simp
  have hcard : c.sites.size ≤ (∅ : Finset ℕ).card + c.sites.size := by simp
  constructor
  · exact passes_of_mem_chain
  · rintro ⟨m, hpass, hm⟩
    apply mem_of_passes hpass hm
    · intro a x ha hx
      cases ha
      rcases mem_chain_of_site? hseen (Finset.empty_subset _) hcard hx with habs | hx
      · exact absurd habs (Finset.notMem_empty n)
      · exact hx
    · intro x hx a z hbypass hz
      rcases chain_closed hseen (Finset.empty_subset _) hcard hx hbypass hz with habs | hz
      · exact absurd habs (Finset.notMem_empty a)
      · exact hz

/-- The path `p` is read in `k` steps from what is due. A step reads the syllable that is due or
passes it. -/
inductive Reads (c : Chart) : ℕ → Option ℕ → Path → Prop
  | stop {o : Option ℕ} : c.Reads 0 o []
  | pass {k n : ℕ} {x : Site} {p : Path} : c.site? n = some x → c.Reads k x.bypass p →
      c.Reads (k + 1) (some n) p
  | read {k n : ℕ} {x : Site} {m : Mark} {p : Path} : c.site? n = some x → x.mark? = some m →
      c.Reads k x.onward p → c.Reads (k + 1) (some n) (⟨n, m⟩ :: p)

theorem Passes.reads {mark : Mark} (hpass : c.Passes o m) (hm : c.site? m = some x)
    (hmark : x.mark? = some mark) (hread : c.Reads k x.onward p) :
    ∃ k, c.Reads k o (⟨m, mark⟩ :: p) := by
  induction hpass with
  | here hx => exact ⟨k + 1, .read hm hmark hread⟩
  | on hx _ ih =>
    obtain ⟨j, hj⟩ := ih hm
    exact ⟨j + 1, .pass hx hj⟩

theorem Reads.passes (h : c.Reads k o (q :: p)) :
    ∃ x, c.Passes o q.number ∧ c.site? q.number = some x ∧ x.mark? = some q.mark ∧
      ∃ j, c.Reads j x.onward p := by
  generalize hpath : q :: p = path at h
  induction h with
  | stop => cases hpath
  | pass hx _ ih =>
    obtain ⟨y, hpass, hy⟩ := ih hpath
    exact ⟨y, .on hx hpass, hy⟩
  | read hx hmark hread =>
    cases hpath
    exact ⟨_, .here hx, hx, hmark, _, hread⟩

end Chart

namespace Scheme

theorem mem_after_iff : q ∈ s.course.after n ↔
    ∃ x, s.chart.Passes (s.chart.due? n) q.number ∧ s.chart.site? q.number = some x ∧
      x.mark? = some q.mark := by
  simp only [course, Chart.course]
  cases hd : s.chart.due? n with
  | none =>
    simp only [List.not_mem_nil, false_iff, not_exists, not_and]
    intro x hpass
    cases hpass
  | some due =>
    simp only [List.mem_filterMap, Site.spot?, Option.map_eq_some_iff]
    constructor
    · rintro ⟨x, hx, m, hmark, rfl⟩
      obtain ⟨a, hpass, ha⟩ := Chart.mem_alternatives_iff.mp hx
      rw [Chart.site?_number ha]
      exact ⟨x, hpass, ha, hmark⟩
    · rintro ⟨x, hpass, hx, hmark⟩
      refine ⟨x, Chart.mem_alternatives_iff.mpr ⟨_, hpass, hx⟩, q.mark, hmark, ?_⟩
      rw [Chart.site?_number hx]

/-- What is due after a syllable is what its site says. -/
theorem due?_of_mark? {m : Mark} (hx : s.chart.site? n = some x) (hmark : x.mark? = some m) :
    s.chart.due? n = x.onward := by
  have hn : n ≠ 0 := by
    rintro rfl
    cases hx
    cases hmark
  rw [Chart.due?, hx, Option.bind_some, if_neg hn]

theorem allows_iff_reads :
    s.course.Allows n p ↔ ∃ k, s.chart.Reads k (s.chart.due? n) p := by
  induction p generalizing n with
  | nil => exact iff_of_true trivial ⟨0, .stop⟩
  | cons q p ih =>
    rw [Course.Allows, mem_after_iff, ih]
    constructor
    · rintro ⟨⟨x, hpass, hx, hmark⟩, k, hread⟩
      rw [due?_of_mark? hx hmark] at hread
      exact hpass.reads hx hmark hread
    · rintro ⟨k, hread⟩
      obtain ⟨x, hpass, hx, hmark, hrest⟩ := hread.passes
      rw [← due?_of_mark? hx hmark] at hrest
      exact ⟨⟨x, hpass, hx, hmark⟩, hrest⟩

theorem endsAt_le_size (h : s.course.Allows n p) (hn : n ≤ s.size) : p.endsAt n ≤ s.size := by
  induction p generalizing n with
  | nil => exact hn
  | cons q p ih =>
    obtain ⟨x, -, hx, -⟩ := mem_after_iff.mp h.1
    rw [Chart.site?_chart] at hx
    obtain ⟨hlt, -⟩ := List.getElem?_eq_some_iff.mp hx
    rw [length_sites] at hlt
    exact ih h.2 (Nat.le_of_lt_succ hlt)

end Scheme

end Prosody
