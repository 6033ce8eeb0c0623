import Prosody.Proofs.ChartPaths
import Prosody.Proofs.Derivation
import Prosody.Proofs.Following
import Prosody.Proofs.Survivors

/-!
# Mandatory syllables

The unquantified syllables directly under the whole are mandatory. As paths follow the constructs
directly under the whole, they never come back to an earlier one, and they read each mandatory
syllable that they come to once. So every answer has all of them in it.
-/

namespace Prosody

variable {c : Chart} {σ : Setting} {i j k n : ℕ} {led : Bool} {p u v : Path} {s t : Scheme}
  {q r : Spot} {x : Site}

def Site.isMandatory (x : Site) : Bool := x.isPlain && x.parent == some 0

namespace Scheme

def mandatory (s : Scheme) : List Spot := (s.sites.filter Site.isMandatory).filterMap Site.spot?

theorem parent_of_mem_sitesFrom (h : x ∈ t.sitesFrom σ n k led) :
    x.parent = some σ.parent ∨ ∃ m ≥ n, x.parent = some m := by
  induction t generalizing σ n k led with
  | done => exact absurd h List.not_mem_nil
  | syllable place m q rest ih =>
    rcases List.mem_cons.mp h with rfl | h
    · exact Or.inl rfl
    · rcases ih h with hp | ⟨m, hm, hp⟩
      · exact Or.inl hp
      · exact Or.inr ⟨m, by omega, hp⟩
  | group place q inside rest ihi ih =>
    rcases List.mem_cons.mp h with rfl | h
    · exact Or.inl rfl
    · rcases List.mem_append.mp h with h | h
      · rcases ihi h with hp | ⟨m, hm, hp⟩
        · exact Or.inr ⟨n, le_rfl, hp⟩
        · exact Or.inr ⟨m, by omega, hp⟩
      · rcases ih h with hp | ⟨m, hm, hp⟩
        · exact Or.inl hp
        · exact Or.inr ⟨m, by omega, hp⟩

theorem filter_isMandatory_eq_nil (hσ : σ.parent ≠ 0) (hn : n ≠ 0) :
    (t.sitesFrom σ n k led).filter Site.isMandatory = [] := by
  rw [List.filter_eq_nil_iff]
  intro x hx
  rw [Site.isMandatory, Bool.and_eq_true, beq_iff_eq]
  rintro ⟨-, hroot⟩
  rcases parent_of_mem_sitesFrom hx with hp | ⟨m, hm, hp⟩
  · exact hσ (Option.some.inj (hp.symm.trans hroot))
  · have hzero : m = 0 := Option.some.inj (hp.symm.trans hroot)
    omega

theorem filterMap_spot?_sitesFrom (hσ : σ.parent = 0) (hn : n ≠ 0) :
    ((t.sitesFrom σ n k led).filter Site.isMandatory).filterMap Site.spot? = t.plains n := by
  induction t generalizing n k led with
  | done => rfl
  | syllable place m q rest ih =>
    cases q with
    | none =>
      simp [sitesFrom, plains, Site.isMandatory, Site.isPlain, hσ, Site.spot?, Site.mark?, ih]
    | some q => simp [sitesFrom, plains, Site.isMandatory, Site.isPlain, ih]
  | group place q inside rest _ ih =>
    have hinside : (inside.sitesFrom (σ.inner n q inside rest) (n + 1) 0 false).filter
        Site.isMandatory = [] := filter_isMandatory_eq_nil hn n.succ_ne_zero
    rw [Setting.inner] at hinside
    simp [sitesFrom, plains, hinside, Site.isMandatory, Site.isPlain, ih]

theorem mandatory_eq_plains (s : Scheme) : s.mandatory = s.plains 1 :=
  filterMap_spot?_sitesFrom (σ := s.setting) rfl Nat.one_ne_zero

theorem site?_number_of_mem_sites (hx : x ∈ s.sites) : s.chart.site? x.number = some x := by
  obtain ⟨i, hi, rfl⟩ := List.mem_iff_getElem.mp hx
  have h : s.chart.site? i = some s.sites[i] := by
    rw [Chart.site?_chart, List.getElem?_eq_getElem hi]
  rw [Chart.site?_number h, h]

theorem spot?_of_mem_mandatory (hq : q ∈ s.mandatory) :
    ∃ x, s.chart.site? q.number = some x ∧ x.spot? = some q := by
  obtain ⟨x, hx, hspot⟩ := List.mem_filterMap.mp hq
  refine ⟨x, ?_, hspot⟩
  obtain ⟨m, -, rfl⟩ := Option.map_eq_some_iff.mp hspot
  exact site?_number_of_mem_sites (List.mem_filter.mp hx).1

theorem spot?_of_allows (h : s.course.Allows n p) (hq : q ∈ p) :
    ∃ x, s.chart.site? q.number = some x ∧ x.spot? = some q := by
  induction p generalizing n with
  | nil => exact absurd hq List.not_mem_nil
  | cons r p ih =>
    rcases List.mem_cons.mp hq with rfl | hq
    · obtain ⟨x, -, hx, hmark⟩ := mem_after_iff.mp h.1
      refine ⟨x, hx, ?_⟩
      rw [Site.spot?, hmark, Chart.site?_number hx]
      rfl
    · exact ih h.2 hq

end Scheme

namespace Chart

/-- The site with number `n` stands in the child of the whole at slot `k`. -/
inductive StandsIn (c : Chart) (k : ℕ) : ℕ → Prop
  | child {n : ℕ} {x : Site} : c.site? n = some x → x.parent = some 0 → x.slot = k →
      c.StandsIn k n
  | inside {n m : ℕ} {x : Site} : c.site? n = some x → x.parent = some m → c.StandsIn k m →
      c.StandsIn k n

/-- All sites of a run stand where the construct around it does. -/
theorem Shows.standsIn (h : c.Shows σ n k led t) (hσ : c.StandsIn j σ.parent) (hi : n ≤ i)
    (hlt : i < n + t.size) : c.StandsIn j i := by
  induction t generalizing σ n k led with
  | done => exact absurd hlt (Nat.not_lt.mpr hi)
  | syllable place m q rest ih =>
    rcases Nat.eq_or_lt_of_le hi with rfl | hi
    · exact .inside (h 0 _ rfl) rfl hσ
    · rw [Scheme.add_size_syllable] at hlt
      exact ih h.rest_of_syllable hσ hi hlt
  | group place q inside rest ihi ih =>
    have hn : c.StandsIn j n := .inside (h 0 _ rfl) rfl hσ
    rw [Scheme.add_size_group] at hlt
    rcases Nat.eq_or_lt_of_le hi with rfl | hi
    · exact hn
    · rcases Nat.lt_or_ge i (n + 1 + inside.size) with hin | hout
      · exact ihi h.inside_of_group hn hi hin
      · exact ih h.rest_of_group hσ hout hlt

theorem StandsIn.ne_zero (h : s.chart.StandsIn k n) : n ≠ 0 := by
  rintro rfl
  cases h with
  | child hx hparent _ =>
    cases hx
    cases hparent
  | inside hx hparent _ =>
    cases hx
    cases hparent

theorem StandsIn.unique (hj : s.chart.StandsIn j n) (hk : s.chart.StandsIn k n) : j = k := by
  induction hj with
  | child hx hparent hslot =>
    cases hk with
    | child hx' _ hslot' =>
      obtain rfl := Option.some.inj (hx.symm.trans hx')
      exact hslot.symm.trans hslot'
    | inside hx' hparent' hk =>
      obtain rfl := Option.some.inj (hx.symm.trans hx')
      rw [hparent] at hparent'
      exact absurd (Option.some.inj hparent').symm hk.ne_zero
  | inside hx hparent hj ih =>
    cases hk with
    | child hx' hparent' _ =>
      obtain rfl := Option.some.inj (hx.symm.trans hx')
      rw [hparent] at hparent'
      exact absurd (Option.some.inj hparent') hj.ne_zero
    | inside hx' hparent' hk =>
      obtain rfl := Option.some.inj (hx.symm.trans hx')
      rw [hparent] at hparent'
      cases hparent'
      exact ih hk

def NotAfter (c : Chart) (q r : Spot) : Prop :=
  ∃ j k, c.StandsIn j q.number ∧ c.StandsIn k r.number ∧ j ≤ k

theorem notAfter_append (hu : ∀ q ∈ u, c.StandsIn k q.number)
    (hv : ∀ q ∈ v, ∃ j ≥ k + 1, c.StandsIn j q.number) (hpair : v.Pairwise c.NotAfter) :
    (∀ q ∈ u ++ v, ∃ j ≥ k, c.StandsIn j q.number) ∧ (u ++ v).Pairwise c.NotAfter := by
  constructor
  · intro q hq
    rcases List.mem_append.mp hq with hq | hq
    · exact ⟨k, le_rfl, hu q hq⟩
    · obtain ⟨j, hj, hstands⟩ := hv q hq
      exact ⟨j, by omega, hstands⟩
  · refine List.pairwise_append.mpr ⟨?_, hpair, ?_⟩
    · exact List.pairwise_of_forall_mem_list fun q hq r hr => ⟨k, k, hu q hq, hu r hr, le_rfl⟩
    · intro q hq r hr
      obtain ⟨j, hj, hstands⟩ := hv r hr
      exact ⟨k, j, hu q hq, hstands, by omega⟩

/-- A path that follows the children of the whole from slot `k` on goes through them in order. -/
theorem Shows.notAfter (h : c.Shows σ n k led t) (hσ : σ.parent = 0) (hp : t.Follows n p) :
    (∀ q ∈ p, ∃ j ≥ k, c.StandsIn j q.number) ∧ p.Pairwise c.NotAfter := by
  induction t generalizing n k led p with
  | done =>
    rw [Scheme.Follows] at hp
    subst hp
    exact ⟨by simp, .nil⟩
  | syllable place m quantifier rest ih =>
    have hn : c.StandsIn k n := .child (h 0 _ rfl) (congrArg some hσ) rfl
    cases quantifier with
    | none =>
      rcases hp with rfl | ⟨v, rfl, hv⟩
      · exact ⟨by simp, .nil⟩
      · obtain ⟨hslots, hpair⟩ := ih h.rest_of_syllable hv
        exact notAfter_append (u := [⟨n, m⟩]) (by simpa using hn) hslots hpair
    | some quantifier =>
      obtain ⟨u, v, rfl, hu, hv⟩ := hp
      obtain ⟨hslots, hpair⟩ := ih h.rest_of_syllable hv
      refine notAfter_append (fun q hq => ?_) hslots hpair
      have := hu q hq
      obtain rfl : n = q.number := by omega
      exact hn
  | group place quantifier inside rest _ ih =>
    have hn : c.StandsIn k n := .child (h 0 _ rfl) (congrArg some hσ) rfl
    obtain ⟨u, v, rfl, hu, hv⟩ := hp
    obtain ⟨hslots, hpair⟩ := ih h.rest_of_group hv
    refine notAfter_append (fun q hq => ?_) hslots hpair
    obtain ⟨hle, hlt⟩ := hu q hq
    rcases Nat.eq_or_lt_of_le hle with heq | hle
    · rw [← heq]
      exact hn
    · exact h.inside_of_group.standsIn hn hle hlt

end Chart

namespace Scheme

structure Orderly (s : Scheme) (p : Path) : Prop where
  stands : ∀ q ∈ p, ∃! k, s.chart.StandsIn k q.number
  ascends : p.Pairwise fun q r =>
    ∀ j k, s.chart.StandsIn j q.number → s.chart.StandsIn k r.number → j ≤ k
  /-- Each mandatory syllable up to the end of the path is read once. -/
  once : ∀ q ∈ s.mandatory, q.number ≤ p.endsAt 0 → (p.map Spot.number).count q.number = 1
  /-- A path that reaches the last mandatory syllable has read all of them in order. -/
  complete : s.chart.Reaches (p.endsAt 0) → p.filter (· ∈ s.mandatory) = s.mandatory

theorem follows_of_allows (hne : s ≠ done) (hfull : s.Full) (h : s.course.Allows 0 p) :
    s.Follows 1 p := by
  obtain ⟨k, hread⟩ := allows_iff_reads.mp h
  have hdue : s.chart.due? 0 = s.setting.leave 1 s := (if_neg hne).symm
  rw [hdue] at hread
  exact hread.follows hfull (Chart.shows_chart s) rfl rfl

theorem count_number_eq_one (hne : s ≠ done) (hfull : s.Full) (h : s.course.Allows 0 p)
    (hq : q ∈ s.mandatory) (hend : q.number ≤ p.endsAt 0) :
    (p.map Spot.number).count q.number = 1 := by
  have hfilter := (follows_of_allows hne hfull h).filter_plains Nat.zero_lt_one
  rw [← mandatory_eq_plains] at hfilter
  have hnodup : s.mandatory.Nodup := by
    rw [mandatory_eq_plains]
    exact (pairwise_plains s 1).imp fun hlt heq => absurd (congrArg Spot.number heq) hlt.ne
  have hcount : p.count q = 1 := by
    rw [← List.count_filter (p := fun r => r ∈ s.mandatory) (decide_eq_true hq), hfilter,
      List.count_filter (p := fun r : Spot => r.number ≤ p.endsAt 0) (decide_eq_true hend)]
    exact List.count_eq_one_of_mem hnodup hq
  rw [← hcount, List.count, List.countP_map, List.count]
  apply List.countP_congr
  intro r hr
  simp only [Function.comp, beq_iff_eq]
  refine ⟨fun hnumber => ?_, fun heq => heq ▸ rfl⟩
  -- spots of a path are told apart by their numbers
  obtain ⟨x, hx, hspot⟩ := spot?_of_allows h hr
  obtain ⟨y, hy, hspot'⟩ := spot?_of_mem_mandatory hq
  rw [hnumber, hy] at hx
  cases hx
  exact Option.some.inj (hspot.symm.trans hspot')

theorem filter_mandatory_of_complete (hne : s ≠ done) (hfull : s.Full)
    (h : s.course.Allows 0 p) (hcomplete : s.course.Complete p) :
    p.filter (· ∈ s.mandatory) = s.mandatory := by
  rw [mandatory_eq_plains, (follows_of_allows hne hfull h).filter_plains Nat.zero_lt_one]
  exact filter_plains_of_last (complete_iff.mp hcomplete)

theorem orderly_of_allows (hne : s ≠ done) (hfull : s.Full) (hs : s.places.Pairwise (· < ·))
    (h : s.course.Allows 0 p) : s.Orderly p := by
  obtain ⟨hslots, hpair⟩ := (Chart.shows_chart s).notAfter rfl (follows_of_allows hne hfull h)
  constructor
  · intro q hq
    obtain ⟨k, -, hk⟩ := hslots q hq
    exact ⟨k, hk, fun j hj => hj.unique hk⟩
  · apply hpair.imp
    rintro q r ⟨i, l, hi, hl, hle⟩ j k hj hk
    rwa [hj.unique hi, hk.unique hl]
  · exact fun q hq hend => count_number_eq_one hne hfull h hq hend
  · rw [← Chart.completes_iff_reaches hs (endsAt_le_size h (Nat.zero_le _))]
    exact filter_mandatory_of_complete hne hfull h

theorem exists_path_of_completes (hne : s ≠ done) (hfull : s.Full) (border : ℕ) (line : List Char)
    {r : Reading} (hr : r ∈ (s.course.run border [.start] line).1)
    (hcompletes : s.course.completes r.site = true) :
    ∃ p : Path, s.chart.IsPath p ∧ p.reading line = r ∧
      p.filter (· ∈ s.mandatory) = s.mandatory := by
  obtain ⟨k, -, hrep, -⟩ := Course.represents_run
    (Course.represents_start : s.course.Represents border line 0 [.start]) (by simp)
  rw [List.drop_zero] at hrep
  obtain ⟨p, ⟨hallows, -⟩, -, rfl⟩ := hrep.sound r hr
  exact ⟨p, allows_iff_isPath.mp hallows, rfl,
    filter_mandatory_of_complete hne hfull hallows hcompletes⟩

theorem mandatory_sublist_marks (hne : s ≠ done) (hfull : s.Full) (border : ℕ) (line : List Char)
    (hmarks : (s.course.scan border line).marks ≠ []) :
    (s.mandatory.map Spot.mark).Sublist (s.course.scan border line).marks := by
  change (s.course.conclude (s.course.run border [.start] line).1).marks ≠ [] at hmarks
  change List.Sublist _ (s.course.conclude (s.course.run border [.start] line).1).marks
  rw [Course.conclude] at hmarks ⊢
  cases hbest : Reading.best?
      ((s.course.run border [.start] line).1.filter fun r => s.course.completes r.site) with
  | none =>
    rw [hbest] at hmarks
    exact absurd rfl hmarks
  | some r =>
    obtain ⟨hr, hcompletes⟩ := List.mem_filter.mp (Reading.best?_spec hbest).1
    obtain ⟨p, -, rfl, hall⟩ := exists_path_of_completes hne hfull border line hr hcompletes
    rw [Option.getD_some, Path.marks_reading, ← hall]
    exact List.filter_sublist.map Spot.mark

/-- Every path goes through the constructs directly under the whole in order and reads each
mandatory syllable that it comes to once. So a reading at which a line may end has read them all in
order, and every answer but the empty one contains them. -/
theorem paths_read_mandatory_syllables {pattern : List Char} (h : Scheme.read pattern = .ok s) :
    (∀ p, s.chart.IsPath p → s.Orderly p) ∧
      (∀ border line, ∀ r ∈ (s.course.run border [.start] line).1,
        s.course.completes r.site = true → ∃ p : Path, s.chart.IsPath p ∧ p.reading line = r ∧
          p.filter (· ∈ s.mandatory) = s.mandatory) ∧
      ∀ border line, (s.course.scan border line).marks ≠ [] →
        (s.mandatory.map Spot.mark).Sublist (s.course.scan border line).marks := by
  obtain ⟨p, hp, rfl⟩ := exists_phrase_of_read h
  obtain ⟨hdone, hfull⟩ := Phrase.full_of_read hp
  have hplaces := p.pairwise_places_scheme 0
  have hne := Phrase.scheme_ne_done hdone hfull 0
  have hfull := Phrase.full_scheme hfull 0
  exact ⟨fun _ hpath => orderly_of_allows hne hfull hplaces (allows_iff_isPath.mpr hpath),
    fun border line _ hr => exists_path_of_completes hne hfull border line hr,
    mandatory_sublist_marks hne hfull⟩

/-- The answer for `usuuS` goes through the first group once, and through the second between the two
mandatory syllables. -/
theorem paths_read_mandatory_syllables_of_loops :
    ∃ s, Scheme.read "(us)*u(S?u)*S(U)?".toList = .ok s ∧
      s.mandatory = [⟨4, ⟨.unstressed, .weak⟩⟩, ⟨8, ⟨.stressed, .strong⟩⟩] ∧
      (s.course.scan 1 "usuuS".toList).marks.map Mark.symbol = "usuuS".toList ∧
      (∀ p, s.chart.IsPath p → s.Orderly p) ∧
      (∀ border line, ∀ r ∈ (s.course.run border [.start] line).1,
        s.course.completes r.site = true → ∃ p : Path, s.chart.IsPath p ∧ p.reading line = r ∧
          p.filter (· ∈ s.mandatory) = s.mandatory) ∧
      [⟨.unstressed, .weak⟩, ⟨.stressed, .strong⟩].Sublist
        (s.course.scan 1 "usuuS".toList).marks := by
  have h : Scheme.read "(us)*u(S?u)*S(U)?".toList = .ok _ := rfl
  obtain ⟨hpaths, hreadings, hmarks⟩ := paths_read_mandatory_syllables h
  exact ⟨_, h, by decide, by decide, hpaths, hreadings, hmarks 1 "usuuS".toList (by decide)⟩

end Scheme

end Prosody
