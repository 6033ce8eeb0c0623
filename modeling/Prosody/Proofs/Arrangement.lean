import Prosody.Proofs.Derivation
import Prosody.Proofs.Redundancy
import Prosody.Proofs.Runs

/-!
# How sites are arranged

The sites of a scheme are numbered in reading order. A construct comes before what is in it, the
sites in it have the numbers that follow its own without a gap, and what a site says about its
parent agrees with what the parent says about its children. Sites stand in the pattern in the same
order, each at the character that it begins with.
-/

namespace Prosody

variable {σ : Setting} {n m k a : ℕ} {led : Bool} {s t : Scheme} {c : Chart} {x y : Site}
  {p : Phrase} {pattern : List Char} {e : ℕ × Char}

def Site.sign? (x : Site) : Option Char :=
  match x.form with
  | .whole => none
  | .syllable mark _ => some mark.symbol
  | .group _ => some '('

namespace Scheme

def signs : Scheme → List (ℕ × Char)
  | done => []
  | syllable place mark _ rest => (place, mark.symbol) :: rest.signs
  | group place _ inside rest => (place, '(') :: (inside.signs ++ rest.signs)

theorem signs_append (s t : Scheme) : (s ++ t).signs = s.signs ++ t.signs := by
  induction s with
  | done => rfl
  | syllable place mark o rest ih => simp [signs, ih]
  | group place q inside rest _ ih => simp [signs, ih]

theorem exists_sign_of_mem_sitesFrom (h : x ∈ t.sitesFrom σ n k led) :
    ∃ e ∈ t.signs, x.place = some e.1 ∧ x.sign? = some e.2 := by
  induction t generalizing σ n k led with
  | done => exact absurd h List.not_mem_nil
  | syllable place mark o rest ih =>
    rcases List.mem_cons.mp h with rfl | h
    · exact ⟨_, List.mem_cons_self, rfl, rfl⟩
    · obtain ⟨e, he, hx⟩ := ih h
      exact ⟨e, List.mem_cons_of_mem _ he, hx⟩
  | group place q inside rest ihi ih =>
    rcases List.mem_cons.mp h with rfl | h
    · exact ⟨_, List.mem_cons_self, rfl, rfl⟩
    · rcases List.mem_append.mp h with h | h
      · obtain ⟨e, he, hx⟩ := ihi h
        exact ⟨e, List.mem_cons_of_mem _ (List.mem_append_left _ he), hx⟩
      · obtain ⟨e, he, hx⟩ := ih h
        exact ⟨e, List.mem_cons_of_mem _ (List.mem_append_right _ he), hx⟩

end Scheme

/-- The characters of a phrase stand at the places of its constructs, whatever is around it. -/
theorem Phrase.getElem?_of_mem_signs (before after : List Char)
    (he : e ∈ (p.scheme before.length).signs) : (before ++ p.write ++ after)[e.1]? = some e.2 := by
  induction p generalizing before after with
  | done => exact absurd he List.not_mem_nil
  | syllable mark run rest ih =>
    have hrest (he : e ∈ (rest.scheme (before.length + 1 + run.length)).signs) :
        (before ++ (syllable mark run rest).write ++ after)[e.1]? = some e.2 := by
      have h := ih (before ++ (syllable mark run done).write) after
      rw [List.length_append, length_write, width, width, Nat.add_zero, ← Nat.add_assoc] at h
      simpa [write] using h he
    rcases List.mem_cons.mp he with rfl | he
    · simp [write]
    · exact hrest he
  | group inside run rest ihi ih =>
    have hinside (he : e ∈ (inside.scheme (before.length + 1)).signs) :
        (before ++ (group inside run rest).write ++ after)[e.1]? = some e.2 := by
      have h := ihi (before ++ ['('])
        (')' :: (run.map Quantifier.symbol ++ rest.write) ++ after)
      rw [List.length_append, List.length_singleton] at h
      simpa [write] using h he
    have hrest (he : e ∈ (rest.scheme (before.length + 2 + inside.width + run.length)).signs) :
        (before ++ (group inside run rest).write ++ after)[e.1]? = some e.2 := by
      have h := ih (before ++ (group inside run done).write) after
      rw [List.length_append, length_write, width, width, Nat.add_zero, ← Nat.add_assoc,
        ← Nat.add_assoc] at h
      simpa [write] using h he
    rw [scheme] at he
    split at he
    · rcases List.mem_cons.mp he with rfl | he
      · simp [write]
      · exact (List.mem_append.mp he).elim hinside hrest
    · rw [Scheme.signs_append] at he
      exact (List.mem_append.mp he).elim hinside hrest

namespace Scheme

theorem le_of_mem_tops (h : a ∈ t.tops n) : n ≤ a := by
  induction t generalizing n with
  | done => exact absurd h List.not_mem_nil
  | syllable place mark o rest ih =>
    rcases List.mem_cons.mp h with rfl | h
    · exact le_rfl
    · exact n.le_succ.trans (ih h)
  | group place q inside rest _ ih =>
    rcases List.mem_cons.mp h with rfl | h
    · exact le_rfl
    · have := ih h
      omega

theorem pairwise_tops (t : Scheme) (n : ℕ) : (t.tops n).Pairwise (· < ·) := by
  induction t generalizing n with
  | done => exact .nil
  | syllable place mark o rest ih => exact .cons (fun _ ha => le_of_mem_tops ha) (ih (n + 1))
  | group place q inside rest _ ih =>
    refine .cons (fun b hb => ?_) (ih (n + 1 + inside.size))
    have := le_of_mem_tops hb
    omega

theorem exists_site_of_mem_tops (h : c.Shows σ n k led t) (ha : a ∈ t.tops n) :
    ∃ x, c.site? a = some x ∧ x.parent = some σ.parent := by
  induction t generalizing n k led with
  | done => exact absurd ha List.not_mem_nil
  | syllable place mark o rest ih =>
    rcases List.mem_cons.mp ha with rfl | ha
    · exact ⟨_, h.head rfl, rfl⟩
    · exact ih h.rest_of_syllable ha
  | group place q inside rest _ ih =>
    rcases List.mem_cons.mp ha with rfl | ha
    · exact ⟨_, h.head rfl, rfl⟩
    · exact ih h.rest_of_group ha

/-- The sites that a construct contains are those of an interval. -/
theorem exists_contains_iff (hne : s ≠ done) (hs : s.Full) (hx : s.chart.site? m = some x) :
    ∃ stop, ∀ n, s.chart.Contains m n ↔ m ≤ n ∧ n < stop := by
  rcases syllable_or_inner_run hne hs hx with
    ⟨mark, o, -, hchildren, -⟩ | ⟨σ, t, hrun, -, -, -, hchildren, -⟩
  · refine ⟨m + 1, fun n => ?_⟩
    rw [Chart.contains_iff hx, hchildren]
    simp only [List.not_mem_nil, false_and, exists_false, or_false]
    omega
  · refine ⟨m + 1 + t.size, fun n => ?_⟩
    rw [Chart.contains_iff hx, hchildren, hrun.shows.contains_iff]
    omega

theorem pairwise_children (hne : s ≠ done) (hs : s.Full) (hx : s.chart.site? n = some x) :
    x.children.Pairwise (· < ·) := by
  rcases syllable_or_inner_run hne hs hx with
    ⟨-, -, -, hchildren, -⟩ | ⟨σ, t, -, -, -, -, hchildren, -⟩
  · rw [hchildren]
    exact .nil
  · rw [hchildren]
    exact pairwise_tops t (n + 1)

theorem exists_site_of_mem_children (hne : s ≠ done) (hs : s.Full) (hy : s.chart.site? m = some y)
    (hn : n ∈ y.children) : ∃ x, s.chart.site? n = some x ∧ x.parent = some m := by
  rcases syllable_or_inner_run hne hs hy with
    ⟨-, -, -, hchildren, -⟩ | ⟨σ, t, hrun, -, hparent, -, hchildren, -⟩
  · rw [hchildren] at hn
    exact absurd hn List.not_mem_nil
  · rw [hchildren] at hn
    rw [← hparent]
    exact exists_site_of_mem_tops hrun.shows hn

/-- A site other than the whole has a place, and stands in its slot of an earlier site. -/
theorem exists_parent_slot (hx : s.chart.site? n = some x) (hn : n ≠ 0) :
    x.form ≠ .whole ∧ x.place ≠ none ∧
      ∃ m < n, ∃ y, x.parent = some m ∧ s.chart.site? m = some y ∧
        y.children[x.slot]? = some n := by
  rcases exists_run hx with ⟨rfl, -⟩ | ⟨σ, k, led, t, hrun, hhead⟩
  · exact absurd rfl hn
  · obtain ⟨y, hy, hlt, -⟩ := hrun.exists_parent
    cases t with
    | done => cases hhead
    | syllable place mark o rest =>
      cases hhead
      exact ⟨nofun, nofun, _, hlt, y, rfl, hy, hrun.getElem?_children nofun hy⟩
    | group place q inside rest =>
      cases hhead
      exact ⟨nofun, nofun, _, hlt, y, rfl, hy, hrun.getElem?_children nofun hy⟩

theorem exists_children_slot {p : ℕ} (hx : s.chart.site? n = some x) (hp : x.parent = some p) :
    ∃ y, s.chart.site? p = some y ∧ y.children[x.slot]? = some n := by
  have hn : n ≠ 0 := by
    rintro rfl
    cases hx
    cases hp
  obtain ⟨-, -, m, -, y, hm, hy, hslot⟩ := exists_parent_slot hx hn
  cases hp.symm.trans hm
  exact ⟨y, hy, hslot⟩

theorem exists_place (hs : s.places.Pairwise (· < ·)) (hx : s.chart.site? m = some x)
    (hy : s.chart.site? n = some y) (hm : 0 < m) (hmn : m < n) :
    ∃ i ∈ x.place, ∃ j ∈ y.place, i < j := by
  have hplace {l : ℕ} {z : Site} (hz : s.chart.site? l = some z) (hl : 0 < l) :
      ∃ h : l - 1 < s.places.length, z.place = some s.places[l - 1] := by
    have hsite := hz
    rw [Chart.site?_chart] at hsite
    obtain ⟨hlt, -⟩ := List.getElem?_eq_some_iff.mp hsite
    rw [length_sites, ← length_places] at hlt
    have h := Chart.place?_succ s (l - 1)
    rw [Nat.sub_add_cancel hl, Chart.place?, hz, Option.bind_some] at h
    have hlt : l - 1 < s.places.length := by omega
    exact ⟨hlt, h.trans (List.getElem?_eq_getElem hlt)⟩
  obtain ⟨hi, hx⟩ := hplace hx hm
  obtain ⟨hj, hy⟩ := hplace hy (hm.trans hmn)
  exact ⟨_, hx, _, hy, List.pairwise_iff_getElem.mp hs _ _ hi hj (by omega)⟩

theorem exists_sign (hp : p.Derives pattern) (hx : (p.scheme 0).chart.site? n = some x)
    {i : ℕ} (hi : x.place = some i) : ∃ a, x.sign? = some a ∧ pattern[i]? = some a := by
  rw [Chart.site?_chart] at hx
  rcases List.mem_cons.mp (List.mem_of_getElem? hx) with rfl | hmem
  · cases hi
  · obtain ⟨e, he, hplace, hsign⟩ := exists_sign_of_mem_sitesFrom hmem
    cases hi.symm.trans hplace
    have h := Phrase.getElem?_of_mem_signs [] [] he
    rw [List.nil_append, List.append_nil, hp.write] at h
    exact ⟨e.2, hsign, h⟩

end Scheme

structure Chart.Arranged (c : Chart) (pattern : List Char) : Prop where
  whole : ∃ x, c.site? 0 = some x ∧ x.form = .whole ∧ x.place = none ∧ x.parent = none ∧
    x.children ≠ []
  /-- Any other site has a place and stands in its slot of an earlier site. -/
  parent : ∀ n x, c.site? n = some x → n ≠ 0 → x.form ≠ .whole ∧ x.place ≠ none ∧
    ∃ m < n, ∃ y, x.parent = some m ∧ c.site? m = some y ∧ y.children[x.slot]? = some n
  children : ∀ m y, c.site? m = some y → ∀ n ∈ y.children, ∃ x, c.site? n = some x ∧
    x.parent = some m
  ordered : ∀ n x, c.site? n = some x → x.children.Pairwise (· < ·)
  /-- The sites in a construct have the numbers from its own on, without a gap. -/
  interval : ∀ m x, c.site? m = some x → ∃ stop, ∀ n, c.Contains m n ↔ m ≤ n ∧ n < stop
  places : ∀ m n x y, c.site? m = some x → c.site? n = some y → 0 < m → m < n →
    ∃ i ∈ x.place, ∃ j ∈ y.place, i < j
  same : ∀ m n x y, c.site? m = some x → c.site? n = some y → (x.samePlace y = true ↔ m = n)
  syllable : ∀ n x mark o, c.site? n = some x → x.form = .syllable mark o → x.children = []
  group : ∀ n x q, c.site? n = some x → x.form = .group q → x.children ≠ []
  signs : ∀ n x, c.site? n = some x → ∀ i ∈ x.place, ∃ a ∈ x.sign?, pattern[i]? = some a

/-- The sites of what is read from a pattern are arranged as a tree in reading order, each at the
place of its first character. -/
theorem Scheme.sites_are_arranged (h : Scheme.read pattern = .ok s) : s.chart.Arranged pattern := by
  obtain ⟨p, hp, rfl⟩ := read_eq_ok_iff.mp h
  obtain ⟨hne, hfull⟩ := full_of_read h
  have hplaces := p.pairwise_places_scheme 0
  constructor
  · exact ⟨_, rfl, rfl, rfl, rfl, tops_ne_nil hne 1⟩
  · exact fun n x hx hn => exists_parent_slot hx hn
  · exact fun m y hy n hn => exists_site_of_mem_children hne hfull hy hn
  · exact fun n x hx => pairwise_children hne hfull hx
  · exact fun m x hx => exists_contains_iff hne hfull hx
  · exact fun m n x y => exists_place hplaces
  · intro m n x y hx hy
    refine ⟨Chart.separates_chart hplaces m n x y hx hy, ?_⟩
    rintro rfl
    cases hx.symm.trans hy
    exact beq_self_eq_true x.place
  · intro n x mark o hx hform
    rcases syllable_or_inner_run hne hfull hx with
      ⟨mark', o', -, hchildren, -⟩ | ⟨σ, t, -, -, -, hmark, -⟩
    · exact hchildren
    · rw [Site.mark?, hform] at hmark
      cases hmark
  · intro n x q hx hform
    rcases syllable_or_inner_run hne hfull hx with
      ⟨mark, o, hform', -⟩ | ⟨σ, t, -, ht, -, -, hchildren, -⟩
    · cases hform.symm.trans hform'
    · rw [hchildren]
      exact tops_ne_nil ht (n + 1)
  · exact fun n x hx i hi => exists_sign hp hx hi

/-- One group is spliced into another one, and the places of the sites have gaps. -/
theorem Scheme.sites_are_arranged_of_nested :
    ∃ s, Scheme.read "((uS)s*?)(U)w".toList = .ok s ∧
      s.chart.Arranged "((uS)s*?)(U)w".toList :=
  have h : Scheme.read "((uS)s*?)(U)w".toList = .ok _ := rfl
  ⟨_, h, sites_are_arranged h⟩

end Prosody
