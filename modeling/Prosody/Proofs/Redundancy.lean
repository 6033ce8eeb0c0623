import Prosody.Proofs.Borders
import Prosody.Proofs.Rendering

/-!
# Signs that do not count

Scanning goes by the numbers of sites. Where sites stand in the pattern tells them apart and no
more, so a chain of bypasses comes back to a number just when it comes back to a place, and a scan
that compares places has the same answers. Apart from their places, patterns that are rendered alike
have the same sites. Hence they have the same answers too.
-/

namespace Prosody

variable {c : Chart} {s t : Scheme} {fuel : ℕ} {o : Option ℕ} {seen : Std.TreeSet ℕ}
  {places : List (Option ℕ)}

namespace Chart

def Separates (c : Chart) : Prop :=
  ∀ m n x y, c.site? m = some x → c.site? n = some y → x.samePlace y = true → m = n

theorem separates_chart (hs : s.places.Pairwise (· < ·)) : s.chart.Separates := by
  intro m n x y hx hy hsame
  have hplace : s.chart.place? m = s.chart.place? n := by
    rw [place?, place?, hx, hy]
    exact beq_iff_eq.mp hsame
  rw [site?_chart] at hx hy
  obtain ⟨hm, -⟩ := List.getElem?_eq_some_iff.mp hx
  obtain ⟨hn, -⟩ := List.getElem?_eq_some_iff.mp hy
  rw [Scheme.length_sites, ← Scheme.length_places] at hm hn
  cases m with
  | zero =>
    cases n with
    | zero => rfl
    | succ n =>
      rw [place?_zero, place?_succ, List.getElem?_eq_getElem (by omega)] at hplace
      cases hplace
  | succ m =>
    cases n with
    | zero =>
      rw [place?_zero, place?_succ, List.getElem?_eq_getElem (by omega)] at hplace
      cases hplace
    | succ n =>
      rw [place?_succ, place?_succ] at hplace
      have hnodup : s.places.Nodup := hs.imp Nat.ne_of_lt
      have hlt : m < s.places.length := by omega
      rw [(List.getElem?_inj hlt hnodup).mp hplace]

def chainByPlace (c : Chart) : ℕ → List (Option ℕ) → Option ℕ → List Site
  | 0, _, _ => []
  | _, _, none => []
  | fuel + 1, places, some n =>
    match c.site? n with
    | none => []
    | some x => if x.place ∈ places then [] else x :: c.chainByPlace fuel (x.place :: places) x.bypass

theorem chainByPlace_eq (hc : c.Separates)
    (hseen : ∀ m x, c.site? m = some x → (seen.contains m = true ↔ x.place ∈ places)) :
    c.chainByPlace fuel places o = c.chain fuel seen o := by
  induction fuel generalizing seen places o with
  | zero => rfl
  | succ fuel ih =>
    cases o with
    | none => rfl
    | some n =>
      rw [chainByPlace, chain]
      cases hx : c.site? n with
      | none => simp
      | some x =>
        by_cases hn : seen.contains n = true
        · simp [hn, (hseen n x hx).mp hn]
        · have hplace : x.place ∉ places := fun h => hn ((hseen n x hx).mpr h)
          simp only [hn, hplace, if_false, Bool.false_eq_true]
          rw [ih]
          intro m y hy
          have hsame : y.place = x.place ↔ n = m := by
            constructor
            · intro h
              exact (hc m n y x hy hx (beq_iff_eq.mpr h)).symm
            · rintro rfl
              rw [hx] at hy
              cases hy
              rfl
          rw [Std.TreeSet.contains_insert, Bool.or_eq_true, hseen m y hy, List.mem_cons, hsame,
            beq_iff_eq, Nat.compare_eq_eq]

/-- The alternatives of a site end before the first place that comes back. -/
theorem alternatives_eq_chainByPlace (hs : s.places.Pairwise (· < ·)) (n : ℕ) :
    s.chart.alternatives n = s.chart.chainByPlace s.chart.sites.size [] (some n) := by
  rw [alternatives, chainByPlace_eq (separates_chart hs)]
  simp

instance decidableReaches (c : Chart) (n : ℕ) : Decidable (c.Reaches n) :=
  inferInstanceAs (Decidable (∀ x ∈ c.site? 0, ∀ last ∈ x.lastPlain,
    ∃ a ∈ c.place? last, ∃ b ∈ c.place? n, a ≤ b))

/-- The course of a chart when sites are compared by place: a chain of bypasses ends before a place
that comes back, and a line may not end at a place before that of the last unquantified syllable. -/
def courseByPlace (c : Chart) : Course where
  after n :=
    match c.due? n with
    | none => []
    | some due => (c.chainByPlace c.sites.size [] (some due)).filterMap Site.spot?
  completes n := decide (c.Reaches n)

def unplaced (c : Chart) : Chart := ⟨c.sites.map Site.unplaced⟩

theorem site?_unplaced (c : Chart) (n : ℕ) :
    c.unplaced.site? n = (c.site? n).map Site.unplaced := by
  simp [site?, unplaced]

theorem chain_unplaced (c : Chart) (fuel : ℕ) (seen : Std.TreeSet ℕ) (o : Option ℕ) :
    c.unplaced.chain fuel seen o = (c.chain fuel seen o).map Site.unplaced := by
  induction fuel generalizing seen o with
  | zero => rfl
  | succ fuel ih =>
    cases o with
    | none => rfl
    | some n =>
      rw [chain, chain, site?_unplaced]
      by_cases hn : seen.contains n = true
      · rw [if_pos hn, if_pos hn]
        rfl
      · rw [if_neg hn, if_neg hn]
        cases c.site? n with
        | none => rfl
        | some x => exact congrArg (x.unplaced :: ·) (ih (seen.insert n) x.bypass)

theorem course_unplaced (c : Chart) : c.unplaced.course = c.course := by
  have hdue (n : ℕ) : c.unplaced.due? n = c.due? n := by
    rw [due?, due?, site?_unplaced, Option.bind_map]
    rfl
  have hlast : c.unplaced.lastPlain? = c.lastPlain? := by
    rw [lastPlain?, lastPlain?, site?_unplaced, Option.bind_map]
    rfl
  have hspots (n : ℕ) : (c.unplaced.alternatives n).filterMap Site.spot? =
      (c.alternatives n).filterMap Site.spot? := by
    rw [alternatives, alternatives, chain_unplaced, List.filterMap_map, unplaced, Array.size_map]
    rfl
  simp only [course, hdue, hlast, hspots]

end Chart

theorem Course.allows_congr {c d : Course} (h : c.after = d.after) (n : ℕ) (p : Path) :
    c.Allows n p ↔ d.Allows n p := by
  induction p generalizing n with
  | nil => rfl
  | cons q p ih => rw [Allows, Allows, h, ih]

/-- Sites may as well be compared by place. -/
theorem Scheme.scan_courseByPlace {pattern : List Char} (hs : Scheme.read pattern = .ok s)
    (border : ℕ) (line : List Char) :
    s.chart.courseByPlace.scan border line = s.course.scan border line := by
  obtain ⟨p, -, rfl⟩ := exists_phrase_of_read hs
  have hplaces := p.pairwise_places_scheme 0
  have hafter : (p.scheme 0).chart.courseByPlace.after = (p.scheme 0).course.after := by
    funext n
    simp only [course, Chart.course, Chart.courseByPlace]
    cases (p.scheme 0).chart.due? n with
    | none => rfl
    | some due =>
      have hchain := Chart.alternatives_eq_chainByPlace hplaces due
      exact congrArg (List.filterMap Site.spot?) hchain.symm
  apply Course.scan_congr
  · intro q
    rw [Course.Feasible, Course.Feasible, Course.allows_congr hafter]
  · intro q hq
    have hallows := (Course.allows_congr hafter 0 q).mp hq.1
    have hend := endsAt_le_size hallows (Nat.zero_le _)
    rw [Course.Complete, Course.Complete, Chart.completes_iff_reaches hplaces hend]
    exact decide_eq_true_iff

theorem Scheme.course_eq_of_phrase_eq (h : s.phrase = t.phrase) : s.course = t.course := by
  have hunplaced : s.chart.unplaced = t.chart.unplaced := by
    rw [Chart.unplaced, Chart.unplaced, chart, chart, List.map_toArray, List.map_toArray,
      unplaced_sites_of_phrase_eq h]
  rw [course, course, ← Chart.course_unplaced, hunplaced, Chart.course_unplaced]

namespace Gauge

variable {pattern other : List Char} {border : ℕ} {g : Gauge}

theorem exists_scan_eq (hg : ofPattern pattern border = .ok g)
    (ht : Scheme.read other = .ok t) (h : t.phrase = g.scheme.phrase) :
    ∃ h, ofPattern other border = .ok h ∧ ∀ line, h.scan line = g.scan line := by
  obtain ⟨-, hborder⟩ := scheme_of_ofPattern hg
  refine ⟨⟨other, t, border⟩, ?_, ?_⟩
  · rw [ofPattern, ht]
  · intro line
    rw [scan, scan, Scheme.course_eq_of_phrase_eq h, hborder]

/-- The normal form of a pattern has the answers of the pattern on every line. So has any other
pattern that differs in brackets of unquantified groups and in quantifiers before the last of a run
only. -/
theorem redundant_signs_do_not_count (hg : ofPattern pattern border = .ok g) :
    (∃ h, ofPattern g.scheme.render border = .ok h ∧ ∀ line, h.scan line = g.scan line) ∧
      ∀ (other : List Char) (p q : Phrase), p.Derives pattern → q.Derives other →
        q.bare = p.bare →
        ∃ h, ofPattern other border = .ok h ∧ ∀ line, h.scan line = g.scan line := by
  obtain ⟨hread, -⟩ := scheme_of_ofPattern hg
  constructor
  · exact exists_scan_eq hg (Scheme.read_render hread) (Scheme.phrase_scheme_phrase _ 0)
  · intro other p q hp hq hbare
    obtain ⟨p', hp', hscheme⟩ := Scheme.read_eq_ok_iff.mp hread
    obtain rfl := hp.unique hp'
    apply exists_scan_eq hg (Scheme.read_eq_ok_iff.mpr ⟨q, hq, rfl⟩)
    rw [← hscheme, Phrase.phrase_scheme, Phrase.phrase_scheme, hbare]

/-- Two pairs of brackets and a quantifier do not count. -/
theorem redundant_signs_do_not_count_of_nested :
    ∃ g, ofPattern "((uS)s*?)(U)w".toList 1 = .ok g ∧ g.scheme.render = "uSs?(U)w".toList ∧
      (∃ h, ofPattern g.scheme.render 1 = .ok h ∧ ∀ line, h.scan line = g.scan line) ∧
      ∀ (other : List Char) (p q : Phrase), p.Derives "((uS)s*?)(U)w".toList →
        q.Derives other → q.bare = p.bare →
        ∃ h, ofPattern other 1 = .ok h ∧ ∀ line, h.scan line = g.scan line := by
  have hg : ofPattern "((uS)s*?)(U)w".toList 1 = .ok _ := rfl
  exact ⟨_, hg, by decide, redundant_signs_do_not_count hg⟩

end Gauge

end Prosody
