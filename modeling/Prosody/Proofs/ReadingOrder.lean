import Prosody.Proofs.Arrangement
import Mathlib.Order.Bounds.Basic

/-!
# What is due after a syllable

After a syllable the next one in reading order is due, unless the syllable ends constructs that may
be done again. Then the innermost of them starts over.
-/

namespace Prosody

variable {σ : Setting} {n m k i a p stop : ℕ} {led : Bool} {s t rest : Scheme} {c : Chart}
  {x y : Site} {mark : Mark} {pattern : List Char}

namespace Chart

def IsSyllable (c : Chart) (n : ℕ) : Prop := ∃ x mark, c.site? n = some x ∧ x.mark? = some mark

/-- The numbers of the repeated constructs in which the syllable with number `n` is the last one. A
repeated syllable is such a construct itself. -/
def loopsEndingAt (c : Chart) (n : ℕ) : Set ℕ :=
  {m | (∃ x, c.site? m = some x ∧ x.isLoop = true) ∧
    IsGreatest {k | c.Contains m k ∧ c.IsSyllable k} n}

def loopsAround (c : Chart) (a stop : ℕ) : Set ℕ :=
  {m | (∃ x, c.site? m = some x ∧ x.isLoop = true) ∧ c.Contains m a ∧
    ∀ k, c.Contains m k → c.IsSyllable k → k < stop}

theorem loopsEndingAt_eq (hn : c.IsSyllable n) : c.loopsEndingAt n = c.loopsAround n (n + 1) := by
  ext m
  constructor
  · rintro ⟨hloop, ⟨hcontains, -⟩, hgreatest⟩
    exact ⟨hloop, hcontains, fun k hk hsyl => Nat.lt_succ_of_le (hgreatest ⟨hk, hsyl⟩)⟩
  · rintro ⟨hloop, hcontains, hlt⟩
    exact ⟨hloop, ⟨hcontains, hn⟩, fun k hk => Nat.le_of_lt_succ (hlt k hk.1 hk.2)⟩

/-- What is due behind the construct `a`, where `stop` is the number behind it. -/
inductive Due (c : Chart) (a stop : ℕ) : Option ℕ → Prop
  /-- The innermost repeated construct that ends here starts over. -/
  | again {l : ℕ} {y : Site} : l ∈ c.loopsAround a stop →
      (∀ j ∈ c.loopsAround a stop, c.Contains j l) → c.site? l = some y →
      c.Due a stop (some y.entry)
  | next {k : ℕ} : c.loopsAround a stop = ∅ → IsLeast {k | c.IsSyllable k ∧ stop ≤ k} k →
      c.Due a stop (some k)
  | ended : c.loopsAround a stop = ∅ → (∀ k, stop ≤ k → ¬c.IsSyllable k) → c.Due a stop none

theorem Due.congr {b : ℕ} {o : Option ℕ} (hab : c.loopsAround a stop = c.loopsAround b stop)
    (h : c.Due a stop o) : c.Due b stop o := by
  cases h with
  | again hl hinner hy => exact .again (hab ▸ hl) (hab ▸ hinner) hy
  | next hnone hleast => exact .next (hab ▸ hnone) hleast
  | ended hnone hlast => exact .ended (hab ▸ hnone) hlast

theorem Contains.trans (hm : c.Contains m a) (ha : c.Contains a n) : c.Contains m n := by
  induction hm with
  | self _ => exact ha
  | child hx hmem _ ih => exact .child hx hmem (ih ha)

theorem Shows.isLeast_lead (hfull : t.Full) (ht : t ≠ .done) (h : c.Shows σ n k led t) :
    IsLeast {k | c.IsSyllable k ∧ n ≤ k} (n + t.lead) := by
  induction t generalizing σ n k led with
  | done => exact absurd rfl ht
  | syllable place mark o rest =>
    exact ⟨⟨⟨_, mark, h.head rfl, rfl⟩, le_rfl⟩, fun k hk => hk.2⟩
  | group place q inside rest ihi _ =>
    obtain ⟨⟨hsyl, -⟩, hleast⟩ := ihi hfull.2.1 hfull.1 h.inside_of_group
    rw [Scheme.lead, Nat.add_comm inside.lead, ← Nat.add_assoc]
    refine ⟨⟨hsyl, by omega⟩, fun k hk => hleast ⟨hk.1, ?_⟩⟩
    -- the group itself is no syllable
    refine Nat.lt_of_le_of_ne hk.2 ?_
    rintro rfl
    obtain ⟨x, mark, hx, hmark⟩ := hk.1
    cases (h.head rfl).symm.trans hx
    cases hmark

end Chart

namespace Scheme

/-- What contains a site is the site itself or contains its parent. -/
theorem contains_parent (hne : s ≠ done) (hs : s.Full) (h : s.chart.Contains m n)
    (hx : s.chart.site? n = some x) (hp : x.parent = some p) : m = n ∨ s.chart.Contains m p := by
  induction h with
  | self _ => exact Or.inl rfl
  | child hy ha hn ih =>
    right
    rcases ih hx with rfl | hcontains
    · obtain ⟨z, hz, hparent⟩ := exists_site_of_mem_children hne hs hy ha
      cases hx.symm.trans hz
      cases hp.symm.trans hparent
      exact .self hy
    · exact .child hy ha hcontains

theorem Run.parent_contains (h : s.Run σ n k led t) (hi : n ≤ i) (hlt : i < n + t.size) :
    s.chart.Contains σ.parent i := by
  obtain ⟨y, hy, -, hdrop, -⟩ := h.exists_parent
  obtain ⟨a, ha, hcontains⟩ := h.shows.contains_iff.mpr ⟨hi, hlt⟩
  rw [← hdrop] at ha
  exact .child hy (List.mem_of_mem_drop ha) hcontains

theorem parent_contains (hx : s.chart.site? n = some x) (hp : x.parent = some p) :
    s.chart.Contains p n := by
  obtain ⟨y, hy, hslot⟩ := exists_children_slot hx hp
  exact .child hy (List.mem_of_getElem? hslot) (.self hx)

theorem lead_lt_size (hfull : t.Full) (ht : t ≠ done) : t.lead < t.size := by
  induction t with
  | done => exact absurd rfl ht
  | syllable place mark o rest => exact Nat.succ_pos _
  | group place q inside rest ihi _ =>
    have := ihi hfull.2.1 hfull.1
    rw [lead, size]
    omega

/-- What is due behind a construct of a run: the construct itself if it may be done again, else its
next sibling, and behind the last one whatever is due behind the parent. -/
theorem due_behind (hne : s ≠ done) (hs : s.Full) (hrest : s.Run σ stop k led rest)
    (hx : s.chart.site? a = some x) (hp : x.parent = some σ.parent)
    (hstop : ∀ i, s.chart.Contains a i → i < stop)
    (hparent : rest = done →
      s.chart.Due σ.parent stop (if σ.loops then some σ.entry else σ.exit)) :
    s.chart.Due a stop (if x.isLoop then some x.entry else σ.leave stop rest) := by
  split_ifs with hloop
  · exact .again ⟨⟨x, hx, hloop⟩, .self hx, fun i hi _ => hstop i hi⟩ (fun _ hj => hj.2.1) hx
  · have haround : ∀ l ∈ s.chart.loopsAround a stop, s.chart.Contains l σ.parent := by
      rintro l ⟨⟨y, hy, hyloop⟩, hcontains, -⟩
      rcases contains_parent hne hs hcontains hx hp with rfl | hcontains
      · cases hx.symm.trans hy
        exact absurd hyloop hloop
      · exact hcontains
    by_cases hdone : rest = done
    · have hsame : s.chart.loopsAround σ.parent stop = s.chart.loopsAround a stop := by
        ext l
        refine ⟨fun hl => ?_, fun hl => ⟨hl.1, haround l hl, hl.2.2⟩⟩
        exact ⟨hl.1, hl.2.1.trans (parent_contains hx hp), hl.2.2⟩
      rw [Setting.leave, if_pos hdone]
      exact (hparent hdone).congr hsame
    · have hleast := hrest.shows.isLeast_lead (hrest.full hs) hdone
      have hlead := lead_lt_size (hrest.full hs) hdone
      rw [Setting.leave, if_neg hdone]
      refine .next (Set.eq_empty_of_forall_notMem fun l hl => ?_) hleast
      have hcontains : s.chart.Contains σ.parent (stop + rest.lead) :=
        hrest.parent_contains (by omega) (by omega)
      have := hl.2.2 _ ((haround l hl).trans hcontains) hleast.1.1
      omega

theorem Run.due_parent (hne : s ≠ done) (hs : s.Full) (h : s.Run σ n k led t) :
    s.chart.Due σ.parent (n + t.size) (if σ.loops then some σ.entry else σ.exit) := by
  induction h with
  | whole =>
    refine .ended (Set.eq_empty_of_forall_notMem ?_) ?_
    · rintro l ⟨⟨y, hy, hloop⟩, hcontains, -⟩
      obtain ⟨stop, hinterval⟩ := exists_contains_iff hne hs hy
      obtain rfl := Nat.le_zero.mp ((hinterval 0).mp hcontains).1
      cases hy
      cases hloop
    · rintro k hk ⟨x, mark, hx, -⟩
      rw [Chart.site?_chart] at hx
      obtain ⟨hlt, -⟩ := List.getElem?_eq_some_iff.mp hx
      rw [length_sites] at hlt
      omega
  | behindSyllable _ ih =>
    rwa [add_size_syllable] at ih
  | @inside σ n k place led q inside rest h ih =>
    have hcontains : ∀ i, s.chart.Contains n i → i < n + 1 + inside.size := by
      intro i hi
      rw [Chart.contains_iff (h.shows.head rfl), h.inside.shows.contains_iff] at hi
      omega
    have hdue := due_behind hne hs h.behindGroup (h.shows.head rfl) rfl hcontains fun hdone => by
      rwa [add_size_group, hdone] at ih
    cases q <;> exact hdue
  | behindGroup _ ih =>
    rwa [add_size_group] at ih

theorem due_onward (hne : s ≠ done) (hs : s.Full) (hx : s.chart.site? n = some x)
    (hmark : x.mark? = some mark) : s.chart.Due n (n + 1) x.onward := by
  rcases exists_run hx with ⟨-, rfl⟩ | ⟨σ, k, led, t, hrun, hhead⟩
  · cases hmark
  · cases t with
    | done => cases hhead
    | group place q inside rest =>
      cases hhead
      cases hmark
    | syllable place mark o rest =>
      cases hhead
      have hcontains : ∀ i, s.chart.Contains n i → i < n + 1 := by
        intro i hi
        rcases (Chart.contains_iff hx).mp hi with rfl | ⟨a, ha, -⟩
        · exact Nat.lt_succ_self i
        · cases ha
      have hdue := due_behind hne hs hrun.behindSyllable hx rfl hcontains fun hdone => by
        have hparent := hrun.due_parent hne hs
        rwa [add_size_syllable, hdone] at hparent
      rcases o with _ | _ | _ | _ <;> exact hdue

theorem isLeast_entry (hne : s ≠ done) (hs : s.Full) (hx : s.chart.site? n = some x) :
    IsLeast {k | s.chart.Contains n k ∧ s.chart.IsSyllable k} x.entry := by
  rcases syllable_or_inner_run hne hs hx with
    ⟨mark, o, hform, hchildren, hentry⟩ | ⟨σ, t, hrun, ht, -, hmark, hchildren, hentry⟩
  · have hsyl : s.chart.IsSyllable n := ⟨x, mark, hx, by rw [Site.mark?, hform]⟩
    rw [hentry]
    refine ⟨⟨.self hx, hsyl⟩, fun k hk => ?_⟩
    obtain ⟨stop, hinterval⟩ := exists_contains_iff hne hs hx
    exact ((hinterval k).mp hk.1).1
  · obtain ⟨⟨hsyl, -⟩, hleast⟩ := hrun.shows.isLeast_lead (hrun.full hs) ht
    have hlead := lead_lt_size (hrun.full hs) ht
    have hcontains (k : ℕ) : s.chart.Contains n k ↔ k = n ∨ n + 1 ≤ k ∧ k < n + 1 + t.size := by
      rw [Chart.contains_iff hx, hchildren, hrun.shows.contains_iff]
    rw [hentry]
    refine ⟨⟨(hcontains _).mpr (Or.inr ⟨by omega, by omega⟩), hsyl⟩, fun k hk => ?_⟩
    rcases (hcontains k).mp hk.1 with rfl | ⟨hle, -⟩
    · obtain ⟨z, mark, hz, hzmark⟩ := hk.2
      cases hx.symm.trans hz
      cases hmark.symm.trans hzmark
    · exact hleast ⟨hk.2, hle⟩

/-- After a syllable the innermost repeated construct that it ends starts over, at its first
syllable. If there is none, the next syllable in reading order is due, and nothing after the last
one. -/
theorem onward_follows_reading_order (h : Scheme.read pattern = .ok s)
    (hx : s.chart.site? n = some x) (hmark : x.mark? = some mark) :
    ((s.chart.loopsEndingAt n).Nonempty → ∃ l y, l ∈ s.chart.loopsEndingAt n ∧
        (∀ j ∈ s.chart.loopsEndingAt n, s.chart.Contains j l) ∧ s.chart.site? l = some y ∧
        IsLeast {k | s.chart.Contains l k ∧ s.chart.IsSyllable k} y.entry ∧
        x.onward = some y.entry) ∧
      (s.chart.loopsEndingAt n = ∅ →
        (∃ k, IsLeast {k | s.chart.IsSyllable k ∧ n < k} k ∧ x.onward = some k) ∨
          (∀ k, n < k → ¬s.chart.IsSyllable k) ∧ x.onward = none) := by
  obtain ⟨hne, hs⟩ := full_of_read h
  have hdue := due_onward hne hs hx hmark
  rw [Chart.loopsEndingAt_eq ⟨x, mark, hx, hmark⟩]
  generalize x.onward = due at hdue ⊢
  cases hdue with
  | again hl hinner hy =>
    refine ⟨fun _ => ⟨_, _, hl, hinner, hy, isLeast_entry hne hs hy, rfl⟩, fun hnone => ?_⟩
    rw [hnone] at hl
    exact absurd hl (Set.notMem_empty _)
  | next hnone hleast =>
    exact ⟨fun hsome => absurd hnone hsome.ne_empty, fun _ => Or.inl ⟨_, hleast, rfl⟩⟩
  | ended hnone hlast =>
    exact ⟨fun hsome => absurd hnone hsome.ne_empty, fun _ => Or.inr ⟨hlast, rfl⟩⟩

/-- The optional syllable ends the repeated group around it, which starts over. -/
theorem onward_follows_reading_order_of_optional_end :
    ∃ s x, Scheme.read "(su(u)?)*S".toList = .ok s ∧ s.chart.site? 5 = some x ∧
      x.mark? = some ⟨.unstressed, .weak⟩ ∧ x.onward = some 2 ∧
      ((s.chart.loopsEndingAt 5).Nonempty → ∃ l y, l ∈ s.chart.loopsEndingAt 5 ∧
        (∀ j ∈ s.chart.loopsEndingAt 5, s.chart.Contains j l) ∧ s.chart.site? l = some y ∧
        IsLeast {k | s.chart.Contains l k ∧ s.chart.IsSyllable k} y.entry ∧
        x.onward = some y.entry) ∧
      (s.chart.loopsEndingAt 5 = ∅ →
        (∃ k, IsLeast {k | s.chart.IsSyllable k ∧ 5 < k} k ∧ x.onward = some k) ∨
          (∀ k, 5 < k → ¬s.chart.IsSyllable k) ∧ x.onward = none) := by
  have h : Scheme.read "(su(u)?)*S".toList = .ok _ := rfl
  exact ⟨_, _, h, rfl, rfl, rfl, onward_follows_reading_order h rfl rfl⟩

end Scheme

end Prosody
