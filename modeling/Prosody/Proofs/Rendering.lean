import Prosody.Proofs.Derivation
import Prosody.Proofs.Layout

/-!
# Rendering a scheme

A scheme is rendered as a phrase in which every bracket and every quantifier counts. Reading it gives
the scheme back with other places, so the sites are the same in all but their places. Conversely the
tree of the sites determines what the scheme is rendered as.
-/

namespace Prosody

variable {σ τ : Setting} {n m k : ℕ} {led led' : Bool} {s t inside rest : Scheme}
  {pattern other : List Char}

namespace Phrase

/-- The phrase without the brackets of unquantified groups, and with the last quantifier of a run
only. -/
@[simp] def bare : Phrase → Phrase
  | done => done
  | syllable m run rest => syllable m run.getLast?.toList rest.bare
  | group inside run rest =>
    match run.getLast? with
    | none => inside.bare ++ rest.bare
    | some q => group inside.bare [q] rest.bare

end Phrase

namespace Scheme

@[simp] def phrase : Scheme → Phrase
  | done => .done
  | syllable _ m q rest => .syllable m q.toList rest.phrase
  | group _ q inside rest => .group inside.phrase [q] rest.phrase

theorem phrase_append (s t : Scheme) : (s ++ t).phrase = s.phrase ++ t.phrase := by
  induction s with
  | done => rfl
  | syllable p m q rest ih => simp [phrase, ih]
  | group p q inside rest _ ih => simp [phrase, ih]

theorem write_phrase (s : Scheme) : s.phrase.write = s.render := by
  induction s with
  | done => rfl
  | syllable p m q rest ih => cases q <;> simp [phrase, Phrase.write, render, ih]
  | group p q inside rest ihi ih => simp [phrase, Phrase.write, render, ihi, ih]

theorem full_phrase (h : s.Full) : s.phrase.Full := by
  induction s with
  | done => trivial
  | syllable p m q rest ih => exact ih h
  | group p q inside rest ihi ih =>
    obtain ⟨hne, hinside, hrest⟩ := h
    refine ⟨?_, ihi hinside, ih hrest⟩
    cases inside with
    | done => exact absurd rfl hne
    | syllable p m q rest => simp [phrase]
    | group p q inside rest => simp [phrase]

theorem phrase_eq_done_iff (s : Scheme) : s.phrase = .done ↔ s = done := by
  cases s <;> simp [phrase]

end Scheme

/-- The normal form of a phrase is rendered as the phrase without what does not count. -/
theorem Phrase.phrase_scheme (p : Phrase) (n : ℕ) : (p.scheme n).phrase = p.bare := by
  induction p generalizing n with
  | done => rfl
  | syllable m run rest ih => rw [scheme, Scheme.phrase, bare, ih]
  | group inside run rest ihi ih =>
    rw [scheme, bare]
    cases run.getLast? with
    | none =>
      simp only
      rw [Scheme.phrase_append, ihi, ih]
    | some q =>
      simp only
      rw [Scheme.phrase, ihi, ih]

namespace Scheme

theorem bare_phrase (s : Scheme) : s.phrase.bare = s.phrase := by
  induction s with
  | done => rfl
  | syllable p m q rest ih => cases q <;> simp [phrase, Phrase.bare, ih]
  | group p q inside rest ihi ih => simp [phrase, Phrase.bare, ihi, ih]

/-! What a scheme that is rendered and read again has in common with the scheme before. -/

theorem size_scheme_phrase (s : Scheme) (m : ℕ) : (s.phrase.scheme m).size = s.size := by
  induction s generalizing m with
  | done => rfl
  | syllable p a q rest ih => simp [phrase, Phrase.scheme, size, ih]
  | group p q inside rest ihi ih => simp [phrase, Phrase.scheme, size, ihi, ih]

theorem lead_scheme_phrase (s : Scheme) (m : ℕ) : (s.phrase.scheme m).lead = s.lead := by
  induction s generalizing m with
  | done => rfl
  | syllable p a q rest ih => rfl
  | group p q inside rest ihi ih => simp [phrase, Phrase.scheme, lead, ihi]

theorem tops_scheme_phrase (s : Scheme) (m n : ℕ) : (s.phrase.scheme m).tops n = s.tops n := by
  induction s generalizing m n with
  | done => rfl
  | syllable p a q rest ih => simp [phrase, Phrase.scheme, tops, ih]
  | group p q inside rest ihi ih =>
    simp [phrase, Phrase.scheme, tops, size_scheme_phrase, ih]

theorem lastPlain?_scheme_phrase (s : Scheme) (m n : ℕ) :
    (s.phrase.scheme m).lastPlain? n = s.lastPlain? n := by
  induction s generalizing m n with
  | done => rfl
  | syllable p a q rest ih => cases q <;> simp [phrase, Phrase.scheme, lastPlain?, ih]
  | group p q inside rest _ ih =>
    simp [phrase, Phrase.scheme, lastPlain?, size_scheme_phrase, ih]

theorem scheme_phrase_eq_done_iff (s : Scheme) (m : ℕ) : s.phrase.scheme m = done ↔ s = done := by
  cases s <;> simp [phrase, Phrase.scheme]

end Scheme

theorem Setting.leave_scheme_phrase (σ : Setting) (n m : ℕ) (s : Scheme) :
    σ.leave n (s.phrase.scheme m) = σ.leave n s := by
  simp only [leave, Scheme.scheme_phrase_eq_done_iff, Scheme.lead_scheme_phrase]

def Site.unplaced (x : Site) : Site := { x with place := none }

namespace Scheme

theorem unplaced_sitesFrom_scheme_phrase (s : Scheme) (σ : Setting) (m n k : ℕ) (led : Bool) :
    ((s.phrase.scheme m).sitesFrom σ n k led).map Site.unplaced =
      (s.sitesFrom σ n k led).map Site.unplaced := by
  induction s generalizing σ m n k led with
  | done => rfl
  | syllable p a q rest ih =>
    have hq : q.toList.getLast? = q := by cases q <;> rfl
    rw [phrase, Phrase.scheme, hq, sitesFrom, sitesFrom, List.map_cons, List.map_cons, ih]
    simp only [Site.unplaced, Setting.leave_scheme_phrase, scheme_phrase_eq_done_iff]
  | group p q inside rest ihi ih =>
    simp only [phrase, Phrase.scheme, List.getLast?_singleton, sitesFrom, List.map_cons,
      List.map_append, ihi, ih, Site.unplaced, Setting.leave_scheme_phrase,
      scheme_phrase_eq_done_iff, size_scheme_phrase, lead_scheme_phrase, tops_scheme_phrase,
      lastPlain?_scheme_phrase]

theorem unplaced_sites_scheme_phrase (s : Scheme) (m : ℕ) :
    (s.phrase.scheme m).sites.map Site.unplaced = s.sites.map Site.unplaced := by
  have hsetting : (s.phrase.scheme m).setting = s.setting := by
    rw [setting, setting, lead_scheme_phrase]
  have hroot : (s.phrase.scheme m).root = s.root := by
    rw [root, root, tops_scheme_phrase, lead_scheme_phrase, lastPlain?_scheme_phrase]
  rw [sites, sites, List.map_cons, List.map_cons, hsetting, hroot, unplaced_sitesFrom_scheme_phrase]

theorem unplaced_sites_of_phrase_eq (h : s.phrase = t.phrase) :
    s.sites.map Site.unplaced = t.sites.map Site.unplaced := by
  have hs := unplaced_sites_scheme_phrase s 0
  rw [h, unplaced_sites_scheme_phrase] at hs
  exact hs.symm

theorem size_of_phrase_eq (h : s.phrase = t.phrase) : s.size = t.size := by
  have hs := size_scheme_phrase s 0
  rw [h, size_scheme_phrase] at hs
  exact hs.symm

end Scheme

/-- What a site says about the tree that it is in. -/
structure Joint where
  form : Form
  parent : Option ℕ
  slot : ℕ
  children : List ℕ

def Site.joint (x : Site) : Joint := ⟨x.form, x.parent, x.slot, x.children⟩

theorem Site.joint_unplaced (x : Site) : x.unplaced.joint = x.joint := rfl

def Joint.Outside (n : ℕ) (joints : List Joint) : Prop :=
  ∀ j ∈ joints.head?, ∃ m < n, j.parent = some m

namespace Scheme

variable {us vs : List Joint}

theorem outside_append (hσ : σ.parent < m) (hus : Joint.Outside σ.parent us) (s : Scheme) :
    Joint.Outside m ((s.sitesFrom σ n k led).map Site.joint ++ us) := by
  cases s with
  | done =>
    intro j hj
    obtain ⟨i, hi, hparent⟩ := hus j hj
    exact ⟨i, Nat.lt_trans hi hσ, hparent⟩
  | syllable p a q rest =>
    intro j hj
    cases hj
    exact ⟨σ.parent, hσ, rfl⟩
  | group p q inside rest =>
    intro j hj
    cases hj
    exact ⟨σ.parent, hσ, rfl⟩

theorem not_outside_of_parent {j : Joint} (hj : j.parent = some n) :
    ¬ Joint.Outside n (j :: us) := by
  intro h
  obtain ⟨m, hm, hparent⟩ := h j rfl
  rw [hj] at hparent
  cases hparent
  omega

/-- The joints of a run determine the run but for its places, whatever follows outside. -/
theorem phrase_eq_of_joints (hparent : τ.parent = σ.parent) (hσ : σ.parent < n)
    (hus : Joint.Outside σ.parent us) (hvs : Joint.Outside σ.parent vs)
    (h : (s.sitesFrom σ n k led).map Site.joint ++ us =
      (t.sitesFrom τ n k led').map Site.joint ++ vs) :
    s.phrase = t.phrase ∧ us = vs := by
  induction s generalizing σ τ n k led led' t us vs with
  | done =>
    cases t with
    | done => exact ⟨rfl, h⟩
    | syllable p a q rest =>
      rw [show us = _ from h] at hus
      exact absurd hus (not_outside_of_parent (congrArg some hparent))
    | group p q inside rest =>
      rw [show us = _ from h] at hus
      exact absurd hus (not_outside_of_parent (congrArg some hparent))
  | syllable p a q rest ih =>
    cases t with
    | done =>
      rw [show vs = _ from h.symm] at hvs
      exact absurd hvs (not_outside_of_parent rfl)
    | group p' q' inside' rest' =>
      have hform := congrArg Joint.form (List.cons.inj h).1
      cases hform
    | syllable p' a' q' rest' =>
      obtain ⟨hhead, htail⟩ := List.cons.inj h
      have hform := congrArg Joint.form hhead
      cases hform
      obtain ⟨hrest, heq⟩ := ih hparent (by omega) hus hvs htail
      exact ⟨by rw [phrase, phrase, hrest], heq⟩
  | group p q inside rest ihi ih =>
    cases t with
    | done =>
      rw [show vs = _ from h.symm] at hvs
      exact absurd hvs (not_outside_of_parent rfl)
    | syllable p' a' q' rest' =>
      have hform := congrArg Joint.form (List.cons.inj h).1
      cases hform
    | group p' q' inside' rest' =>
      simp only [sitesFrom, List.map_cons, List.map_append, List.cons_append, List.append_assoc,
        List.cons.injEq] at h
      obtain ⟨hhead, htail⟩ := h
      have hform := congrArg Joint.form hhead
      cases hform
      have hτ : τ.parent < n := by omega
      have hvs' : Joint.Outside τ.parent vs := hparent ▸ hvs
      have hinner : (τ.inner n q inside' rest').parent = (σ.inner n q inside rest).parent := rfl
      obtain ⟨hinside, htail⟩ := ihi hinner (Nat.lt_succ_self n) (outside_append hσ hus rest)
        (outside_append hτ hvs' rest') htail
      -- The rests are numbered from the same number on, as the insides have the same size.
      rw [size_of_phrase_eq hinside] at htail
      obtain ⟨hrest, heq⟩ := ih hparent (by omega) hus hvs htail
      exact ⟨by rw [phrase, phrase, hinside, hrest], heq⟩

theorem phrase_eq_iff_joints :
    s.phrase = t.phrase ↔ s.sites.map Site.joint = t.sites.map Site.joint := by
  constructor
  · intro h
    have hunplaced := congrArg (List.map Site.joint) (unplaced_sites_of_phrase_eq h)
    simpa [Function.comp_def, Site.joint_unplaced] using hunplaced
  · intro h
    have hnil : Joint.Outside 0 [] := by
      intro j hj
      cases hj
    have htail : (s.sitesFrom s.setting 1 0 false).map Site.joint ++ [] =
        (t.sitesFrom t.setting 1 0 false).map Site.joint ++ [] := by
      rw [List.append_nil, List.append_nil]
      exact (List.cons.inj h).2
    have hparent : t.setting.parent = s.setting.parent := rfl
    exact (phrase_eq_of_joints hparent Nat.one_pos hnil hnil htail).1

end Scheme

/-- Two charts have the same tree: they agree in everything but the places of their sites. -/
structure Chart.SameTree (c d : Chart) : Prop where
  size : c.sites.size = d.sites.size
  form : ∀ n, (c.site? n).map Site.form = (d.site? n).map Site.form
  parent : ∀ n, (c.site? n).map Site.parent = (d.site? n).map Site.parent
  slot : ∀ n, (c.site? n).map Site.slot = (d.site? n).map Site.slot
  children : ∀ n, (c.site? n).map Site.children = (d.site? n).map Site.children

namespace Scheme

theorem sameTree_iff_joints :
    s.chart.SameTree t.chart ↔ s.sites.map Site.joint = t.sites.map Site.joint := by
  constructor
  · intro h
    apply List.ext_getElem?
    intro n
    have hform := h.form n
    have hparent := h.parent n
    have hslot := h.slot n
    have hchildren := h.children n
    simp only [Chart.site?_chart] at hform hparent hslot hchildren
    rw [List.getElem?_map, List.getElem?_map]
    cases hx : s.sites[n]? with
    | none =>
      rw [hx] at hform
      rw [Option.map_eq_none_iff.mp hform.symm]
    | some x =>
      cases hy : t.sites[n]? with
      | none =>
        rw [hx, hy] at hform
        cases hform
      | some y =>
        simp only [hx, hy, Option.map_some, Option.some.injEq] at hform hparent hslot hchildren
        rw [Option.map_some, Option.map_some, Site.joint, Site.joint, hform, hparent, hslot, hchildren]
  · intro h
    have hfield {α : Type} (f : Joint → α) (n : ℕ) :
        (s.chart.site? n).map (f ∘ Site.joint) = (t.chart.site? n).map (f ∘ Site.joint) := by
      rw [Chart.site?_chart, Chart.site?_chart, ← List.getElem?_map, ← List.getElem?_map,
        ← List.map_map, h, List.map_map]
    have hsize := congrArg List.length h
    rw [List.length_map, List.length_map] at hsize
    exact ⟨hsize, hfield Joint.form, hfield Joint.parent, hfield Joint.slot, hfield Joint.children⟩

theorem sameTree_iff_phrase_eq : s.chart.SameTree t.chart ↔ s.phrase = t.phrase := by
  rw [sameTree_iff_joints, phrase_eq_iff_joints]

theorem derives_render (hs : Scheme.read pattern = .ok s) : s.phrase.Derives s.render := by
  obtain ⟨hne, hfull⟩ := full_of_read hs
  have hphrase : s.phrase ≠ .done := fun h => hne ((phrase_eq_done_iff s).mp h)
  exact ⟨hphrase, full_phrase hfull, write_phrase s⟩

theorem read_render (hs : Scheme.read pattern = .ok s) :
    Scheme.read s.render = .ok (s.phrase.scheme 0) :=
  read_eq_ok_iff.mpr ⟨s.phrase, derives_render hs, rfl⟩

theorem render_eq_iff_phrase_eq (hs : Scheme.read pattern = .ok s)
    (ht : Scheme.read other = .ok t) : t.render = s.render ↔ t.phrase = s.phrase := by
  constructor
  · intro h
    have hderives := derives_render ht
    rw [h] at hderives
    exact hderives.unique (derives_render hs)
  · intro h
    rw [← write_phrase, h, write_phrase]

theorem phrase_scheme_phrase (s : Scheme) (m : ℕ) : (s.phrase.scheme m).phrase = s.phrase := by
  rw [Phrase.phrase_scheme, bare_phrase]

/-- Reading undoes rendering, places apart: the scheme read from a rendered one has the same tree
and is rendered as the same pattern. Schemes are rendered alike if and only if their trees are the
same. -/
theorem reading_undoes_rendering (hs : Scheme.read pattern = .ok s) :
    (∃ t, Scheme.read s.render = .ok t ∧ t.chart.SameTree s.chart ∧ t.render = s.render) ∧
      ∀ other t, Scheme.read other = .ok t →
        (t.render = s.render ↔ t.chart.SameTree s.chart) := by
  constructor
  · have hphrase := phrase_scheme_phrase s 0
    have ht := read_render hs
    exact ⟨_, ht, sameTree_iff_phrase_eq.mpr hphrase,
      (render_eq_iff_phrase_eq hs ht).mpr hphrase⟩
  · intro other t ht
    rw [sameTree_iff_phrase_eq]
    exact render_eq_iff_phrase_eq hs ht

/-- Two pairs of brackets and a quantifier are left out, and a site moves to another place. -/
theorem reading_undoes_rendering_of_nested :
    ∃ s, Scheme.read "((uS)s*?)(U)w".toList = .ok s ∧ s.render = "uSs?(U)w".toList ∧
      (∃ t, Scheme.read s.render = .ok t ∧ t.chart.SameTree s.chart ∧ t.render = s.render) ∧
      ∀ other t, Scheme.read other = .ok t →
        (t.render = s.render ↔ t.chart.SameTree s.chart) := by
  have hs : Scheme.read "((uS)s*?)(U)w".toList = .ok _ := rfl
  exact ⟨_, hs, by decide, reading_undoes_rendering hs⟩

end Scheme

end Prosody
