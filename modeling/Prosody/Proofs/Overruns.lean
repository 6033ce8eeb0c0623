import Prosody.Proofs.Beginnings
import Prosody.Proofs.Derivation

/-!
# Lines that are too long

If nothing in a scheme may be done again, a path reads each syllable at most once, and some path
reads them all. If something may be done again, the first such construct can be read for ever. So,
as far as errors do not matter, a line is overrun just when nothing is repeated and the line has
more symbols than the scheme has syllables.
-/

namespace Prosody

open Computability

variable {σ : Setting} {L M : Language Mark} {i j k n : ℕ} {loops closes led : Bool} {s t : Scheme}
  {q : Quantifier} {P : Passage} {w : Word}

namespace Word

def lengths (L : Language Mark) : Set ℕ := {k | ∃ w ∈ L, w.length = k}

theorem lengths_mono (h : L ≤ M) : lengths L ⊆ lengths M := by
  intro k hk
  obtain ⟨w, hw, hlen⟩ := hk
  exact ⟨w, mem_of_le h hw, hlen⟩

theorem zero_mem_lengths (h : [] ∈ L) : 0 ∈ lengths L := ⟨[], h, rfl⟩

theorem one_mem_lengths (m : Mark) : 1 ∈ lengths {[m]} := ⟨[m], rfl, rfl⟩

theorem add_mem_lengths_mul (hi : i ∈ lengths L) (hj : j ∈ lengths M) :
    i + j ∈ lengths (L * M) := by
  obtain ⟨u, hu, rfl⟩ := hi
  obtain ⟨v, hv, rfl⟩ := hj
  exact ⟨u ++ v, Language.append_mem_mul hu hv, List.length_append⟩

theorem mul_mem_lengths_kstar (hk : k ∈ lengths L) (n : ℕ) : n * k ∈ lengths (L∗) := by
  induction n with
  | zero =>
    rw [Nat.zero_mul]
    exact zero_mem_lengths (Language.nil_mem_kstar L)
  | succ n ih =>
    rw [Nat.succ_mul, Nat.add_comm]
    exact lengths_mono mul_kstar_le_kstar (add_mem_lengths_mul hk ih)

/-- A round and the beginnings of a round make up any length. -/
theorem mem_lengths_kstar_mul (hn : 0 < n) (hL : n ∈ lengths L)
    (hM : ∀ j ≤ n, j ∈ lengths M) (k : ℕ) : k ∈ lengths (L∗ * M) := by
  have hrest := hM (k % n) (Nat.mod_lt k hn).le
  have hall := add_mem_lengths_mul (mul_mem_lengths_kstar hL (k / n)) hrest
  rwa [Nat.div_add_mod'] at hall

theorem length_le_one_of_mem_repeated (hq : q.isMany = false) {m : Mark}
    (hw : w ∈ q.repeated {[m]}) : w.length ≤ 1 := by
  rw [Quantifier.repeated_eq, hq, if_neg Bool.false_ne_true] at hw
  rcases hw with rfl | rfl
  · exact Nat.zero_le 1
  · exact le_rfl

end Word

namespace Scheme

def repeats : Scheme → Bool
  | done => false
  | syllable _ _ none rest => rest.repeats
  | syllable _ _ (some q) rest => q.isMany || rest.repeats
  | group _ q inside rest => q.isMany || inside.repeats || rest.repeats

def spots (s : Scheme) : List Spot := s.sites.filterMap Site.spot?

theorem any_isLoop_sitesFrom (t : Scheme) (σ : Setting) (n k : ℕ) (led : Bool) :
    (t.sitesFrom σ n k led).any Site.isLoop = t.repeats := by
  induction t generalizing σ n k led with
  | done => rfl
  | syllable place m q rest ih =>
    rw [sitesFrom, List.any_cons, ih]
    cases q <;> rfl
  | group place q inside rest ihi ih =>
    rw [sitesFrom, List.any_cons, List.any_append, ihi, ih, repeats, Bool.or_assoc]
    rfl

theorem repeats_eq_false_iff : s.repeats = false ↔ ∀ x ∈ s.sites, x.isLoop = false := by
  have hroot : s.root.isLoop = false := rfl
  rw [← s.any_isLoop_sitesFrom s.setting 1 0 false, List.any_eq_false, sites, List.forall_mem_cons]
  simp only [hroot, true_and, Bool.not_eq_true]

theorem length_filterMap_spot?_sitesFrom (t : Scheme) (σ : Setting) (n k : ℕ) (led : Bool) :
    ((t.sitesFrom σ n k led).filterMap Site.spot?).length = t.syllables := by
  induction t generalizing σ n k led with
  | done => rfl
  | syllable place m q rest ih =>
    simp only [sitesFrom, List.filterMap_cons, Site.spot?, Site.mark?, Option.map_some, syllables]
    rw [List.length_cons, ih]
  | group place q inside rest ihi ih =>
    rw [sitesFrom, List.filterMap_cons_none rfl, List.filterMap_append, List.length_append, ihi, ih,
      syllables]

theorem length_spots (s : Scheme) : s.spots.length = s.syllables :=
  s.length_filterMap_spot?_sitesFrom s.setting 1 0 false

theorem syllables_pos (hne : s ≠ done) (hfull : s.Full) : 0 < s.syllables := by
  induction s with
  | done => exact absurd rfl hne
  | syllable place m q rest => exact Nat.succ_pos _
  | group place q inside rest ihi _ =>
    have := ihi hfull.1 hfull.2.1
    rw [syllables]
    omega

theorem length_le_syllables (h : s.repeats = false)
    (hw : w ∈ (s.passage loops closes led).part) : w.length ≤ s.syllables := by
  induction s generalizing loops closes led w with
  | done =>
    obtain rfl : w = [] := hw
    exact le_rfl
  | syllable place m q rest ih =>
    rw [syllables]
    cases q with
    | none =>
      rcases hw with rfl | ⟨_, rfl, v, hv, rfl⟩
      · exact Nat.zero_le _
      · have := ih h hv
        rw [List.length_append, List.length_singleton]
        omega
    | some q =>
      rw [repeats, Bool.or_eq_false_iff] at h
      obtain ⟨u, hu, v, hv, rfl⟩ := hw
      have := Word.length_le_one_of_mem_repeated h.1 hu
      have := ih h.2 hv
      rw [List.length_append]
      omega
  | group place q inside rest ihi ih =>
    rw [repeats, Bool.or_eq_false_iff, Bool.or_eq_false_iff] at h
    obtain ⟨⟨hq, hinside⟩, hrest⟩ := h
    rw [passage, Quantifier.staying, Quantifier.leaving, hq] at hw
    rw [syllables]
    rcases hw with hw | ⟨u, hu, v, hv, rfl⟩
    · have := ihi hinside hw
      omega
    · have hpart : u.length ≤ inside.syllables := by
        rcases hu with hu | hu
        · exact ihi hinside (Word.mem_of_le (inside.whole_le_part _ _ _) hu)
        · exact ihi hinside (Word.mem_of_le (inside.early_le_part _ _ _) hu)
      have := ih hrest hv
      rw [List.length_append]
      omega

theorem syllables_mem_lengths_whole (h : s.repeats = false) :
    s.syllables ∈ Word.lengths (s.passage loops closes led).whole := by
  induction s generalizing loops closes led with
  | done => exact Word.zero_mem_lengths rfl
  | syllable place m q rest ih =>
    rw [syllables, Nat.add_comm]
    cases q with
    | none => exact Word.add_mem_lengths_mul (Word.one_mem_lengths m) (ih h)
    | some q =>
      rw [repeats, Bool.or_eq_false_iff] at h
      have hone := Word.lengths_mono (q.le_repeated _) (Word.one_mem_lengths m)
      exact Word.add_mem_lengths_mul hone (ih h.2)
  | group place q inside rest ihi ih =>
    rw [repeats, Bool.or_eq_false_iff, Bool.or_eq_false_iff] at h
    obtain ⟨⟨hq, hinside⟩, hrest⟩ := h
    let I := inside.passage q.isMany (loops && rest = done) false
    have hleave := Word.lengths_mono (q.whole_le_leaving hq I) (ihi hinside)
    exact Word.add_mem_lengths_mul hleave (ih hrest)

/-- A way through a run stops after any number of its syllables, and after any number at all if
something in the run is repeated. -/
theorem mem_lengths_part (hfull : s.Full) (hk : s.repeats = true ∨ k ≤ s.syllables) :
    k ∈ Word.lengths (s.passage loops closes led).part := by
  induction s generalizing loops closes led k with
  | done =>
    obtain rfl : k = 0 := by simpa [repeats, syllables] using hk
    exact Word.zero_mem_lengths rfl
  | syllable place m q rest ih =>
    by_cases hzero : k = 0
    · subst hzero
      exact Word.zero_mem_lengths (nil_mem_part _ _ _ _)
    · obtain ⟨k, rfl⟩ := Nat.exists_eq_add_of_le (Nat.one_le_iff_ne_zero.mpr hzero)
      rw [syllables] at hk
      cases q with
      | none =>
        have hrest : k ∈ Word.lengths (rest.passage loops closes true).part :=
          ih hfull (hk.imp id (by omega))
        have hall := Word.add_mem_lengths_mul (Word.one_mem_lengths m) hrest
        exact Word.lengths_mono le_sup_right hall
      | some q =>
        by_cases hq : q.isMany = true
        · obtain rfl : q = .many := beq_iff_eq.mp hq
          have hrounds := Word.mul_mem_lengths_kstar (Word.one_mem_lengths m) (1 + k)
          have hnil : 0 ∈ Word.lengths (rest.passage loops closes led).part :=
            Word.zero_mem_lengths (nil_mem_part _ _ _ _)
          have hall := Word.add_mem_lengths_mul hrounds hnil
          rwa [Nat.mul_one] at hall
        · have hone := Word.lengths_mono (q.le_repeated _) (Word.one_mem_lengths m)
          rw [repeats, Bool.or_eq_true, or_iff_right hq] at hk
          exact Word.add_mem_lengths_mul hone (ih hfull (hk.imp id (by omega)))
  | group place q inside rest ihi ih =>
    obtain ⟨hne, hfulli, hfullr⟩ := hfull
    let I := inside.passage q.isMany (loops && rest = done) false
    have hpart (j : ℕ) (hj : inside.repeats = true ∨ j ≤ inside.syllables) :
        j ∈ Word.lengths I.part := ihi hfulli hj
    by_cases hinside : inside.repeats = true
    · have hstay := Word.lengths_mono (q.part_le_staying I) (hpart k (Or.inl hinside))
      exact Word.lengths_mono le_sup_left hstay
    · have hwhole : inside.syllables ∈ Word.lengths I.whole :=
        syllables_mem_lengths_whole (by rwa [Bool.not_eq_true] at hinside)
      by_cases hq : q.isMany = true
      · have hrounds := Word.mem_lengths_kstar_mul (syllables_pos hne hfulli) hwhole
          (fun j hj => hpart j (Or.inr hj)) k
        have hstay : k ∈ Word.lengths (q.staying I) := by rwa [Quantifier.staying, if_pos hq]
        exact Word.lengths_mono le_sup_left hstay
      · by_cases hlen : k ≤ inside.syllables
        · have hstay := Word.lengths_mono (q.part_le_staying I) (hpart k (Or.inr hlen))
          exact Word.lengths_mono le_sup_left hstay
        · obtain ⟨k, rfl⟩ := Nat.exists_eq_add_of_le (Nat.le_of_not_le hlen)
          rw [repeats, Bool.or_eq_true, Bool.or_eq_true, or_iff_right hq, or_iff_right hinside,
            syllables] at hk
          rw [Bool.not_eq_true] at hq
          have hleave := Word.lengths_mono (q.whole_le_leaving hq I) hwhole
          have hrest : k ∈ Word.lengths (rest.passage loops closes led).part :=
            ih hfullr (hk.imp id (by omega))
          exact Word.lengths_mono le_sup_right (Word.add_mem_lengths_mul hleave hrest)

theorem mem_lengths_begun_iff (hfull : s.Full) :
    k ∈ Word.lengths s.begun ↔ s.repeats = true ∨ k ≤ s.syllables := by
  constructor
  · intro hk
    obtain ⟨w, hw, rfl⟩ := hk
    by_cases h : s.repeats = true
    · exact Or.inl h
    · rw [Bool.not_eq_true] at h
      exact Or.inr (length_le_syllables h hw)
  · exact mem_lengths_part hfull

end Scheme

namespace Gauge

variable {pattern line : List Char} {border : ℕ} {g : Gauge}

/-- As far as errors do not matter, a line is overrun just when nothing may be done again and the
line has more symbols than there are syllables. Errors or not, such a line is overrun, and the
answer has no more marks than there are syllables. -/
theorem overruns_iff_longer (hg : ofPattern pattern border = .ok g) (line : List Char) :
    (line.length ≤ border → ((g.scan line).overrun = true ↔
        (∀ x ∈ g.scheme.sites, x.isLoop = false) ∧ g.scheme.spots.length < line.length)) ∧
      ((∀ x ∈ g.scheme.sites, x.isLoop = false) → g.scheme.spots.length < line.length →
        (g.scan line).overrun = true ∧ (g.scan line).marks.length ≤ g.scheme.spots.length) := by
  obtain ⟨hread, rfl⟩ := scheme_of_ofPattern hg
  obtain ⟨hne, hfull⟩ := Scheme.full_of_read hread
  have hbegun := Scheme.begun_course hne hfull
  rw [← Scheme.repeats_eq_false_iff, Scheme.length_spots]
  constructor
  · intro hborder
    have hlengths := Scheme.mem_lengths_begun_iff (k := line.length) hfull
    rw [scan, Course.overrun_iff_of_length_le hborder, hbegun]
    constructor
    · intro hnone
      have hnot : line.length ∉ Word.lengths g.scheme.begun := by
        rintro ⟨w, hw, hlen⟩
        exact hnone w hw hlen
      rw [hlengths, not_or, Bool.not_eq_true, not_le] at hnot
      exact hnot
    · intro hlong w hw hlen
      rcases hlengths.mp ⟨w, hw, hlen⟩ with hrepeats | hle
      · rw [hlong.1] at hrepeats
        cases hrepeats
      · omega
  · intro hrepeats hlong
    apply Course.length_marks_le
    · intro w hw
      rw [hbegun] at hw
      exact Scheme.length_le_syllables hrepeats hw
    · exact hlong

/-- One syllable and an optional group of two do not read four symbols, whatever the border. -/
theorem overruns_iff_longer_of_optional_group :
    ∃ g, ofPattern "(us)?S".toList 4 = .ok g ∧ "USUS".toList.length ≤ 4 ∧
      (∀ x ∈ g.scheme.sites, x.isLoop = false) ∧ g.scheme.spots.length < "USUS".toList.length ∧
      (g.scan "USUS".toList).overrun = true ∧
      (g.scan "USUS".toList).marks.length ≤ g.scheme.spots.length := by
  have hg : ofPattern "(us)?S".toList 4 = .ok _ := rfl
  obtain ⟨hiff, hlonger⟩ := overruns_iff_longer hg "USUS".toList
  refine ⟨_, hg, by decide, by decide, by decide, ?_, ?_⟩
  · exact (hiff (by decide)).mpr ⟨by decide, by decide⟩
  · exact (hlonger (by decide) (by decide)).2

end Gauge

end Prosody
