import Prosody.Proofs.Convergence
import Prosody.Proofs.PerfectLines

/-!
# Poems that fit a metre perfectly

A metre of the catalogue answers for no errors just when all lines that count are perfect for it. So
a poem that fits some metre perfectly is named after the first such metre and is left as it is.
-/

namespace Prosody

variable {m : Metre} {metres before after : List Metre} {gs : List (String × Gauge)}
  {line : Line} {poem : Poem} {c : Classifier} {g : Gauge} {i longest : ℕ}

namespace Tally

theorem zero_le (x : Tally) : 0 ≤ x := by
  rw [le_iff, strong_zero, weak_zero]
  omega

theorem zero_lt_of_ne {x : Tally} (h : x ≠ 0) : 0 < x := by
  rw [ne_eq, Tally.ext_iff, strong_zero, weak_zero] at h
  rw [lt_iff, strong_zero, weak_zero]
  omega

end Tally

namespace Metre

/-- All lines of a poem that are neither empty nor too long are perfect for the metre. -/
def Suits (m : Metre) (longest : ℕ) (poem : Poem) : Prop :=
  ∀ line ∈ poem, line ≠ [] → line.length ≤ longest → m.Perfect line

theorem exists_gauges (metres : List Metre) (h : ∀ m ∈ metres, m ∈ catalogue) :
    ∃ gs, gauges metres = .ok gs := by
  induction metres with
  | nil => exact ⟨[], rfl⟩
  | cons m metres ih =>
    obtain ⟨hm, hmetres⟩ := List.forall_mem_cons.mp h
    obtain ⟨p, -, hg, -⟩ := gauge_of_mem_catalogue hm
    obtain ⟨rest, hrest⟩ := ih hmetres
    refine ⟨(m.name, ⟨m.pattern, p.scheme 0, m.border⟩) :: rest, ?_⟩
    rw [gauges, hg, hrest]

theorem gauges_append_cons (h : gauges (before ++ m :: after) = .ok gs) :
    ∃ front g back, gs = front ++ (m.name, g) :: back ∧ gauges before = .ok front ∧
      m.gauge = .ok g ∧ gauges after = .ok back := by
  induction before generalizing gs with
  | nil =>
    obtain ⟨g, back, rfl, hg, hback⟩ := gauges_cons h
    exact ⟨[], g, back, rfl, rfl, hg, hback⟩
  | cons b before ih =>
    obtain ⟨g', rest, rfl, hg', hrest⟩ := gauges_cons h
    obtain ⟨front, g, back, rfl, hfront, hg, hback⟩ := ih hrest
    refine ⟨(b.name, g') :: front, g, back, rfl, ?_, hg, hback⟩
    rw [gauges, hg', hfront]

theorem mem_of_mem_gauges (h : gauges metres = .ok gs) {x : String × Gauge} (hx : x ∈ gs) :
    ∃ m ∈ metres, x.1 = m.name ∧ m.gauge = .ok x.2 := by
  induction metres generalizing gs with
  | nil =>
    cases h
    exact absurd hx List.not_mem_nil
  | cons m metres ih =>
    obtain ⟨g, rest, rfl, hg, hrest⟩ := gauges_cons h
    rcases List.mem_cons.mp hx with rfl | hx
    · exact ⟨m, List.mem_cons_self, rfl, hg⟩
    · obtain ⟨m', hm', hname, hgauge⟩ := ih hrest hx
      exact ⟨m', List.mem_cons_of_mem m hm', hname, hgauge⟩

end Metre

namespace Classifier

/-- A metre of the catalogue answers for no errors in a line just when the line is skipped or
perfect. -/
theorem charge_eq_zero_iff (hm : m ∈ Metre.catalogue) (hg : m.gauge = .ok g) :
    Score.charge (c.scoreLine g i line) = 0 ↔ (c.skips line = false → m.Perfect line) := by
  cases hskip : c.skips line with
  | true =>
    rw [scoreLine, hskip]
    exact iff_of_true rfl (by simp)
  | false =>
    rw [Metre.perfect_iff hm hg, imp_iff_right rfl]
    cases hmatch : (g.scan line).isMatch with
    | true =>
      rw [scoreLine_of_isMatch hskip hmatch]
      exact (and_iff_right rfl).symm
    | false =>
      have hline := (skips_eq_false_iff.mp hskip).1
      have hscore : c.scoreLine g i line = some ⟨g.scan line, .both line.length, []⟩ := by
        simp [scoreLine, hskip, hmatch]
      rw [hscore]
      refine iff_of_false (fun hzero => hline ?_) (by simp)
      exact List.length_eq_zero_iff.mp (congrArg Tally.strong hzero)

theorem charges_eq_zero_iff (hm : m ∈ Metre.catalogue) (hg : m.gauge = .ok g) :
    Score.charges (c.scoreLines g i poem) = 0 ↔ m.Suits c.longest poem := by
  induction poem generalizing i with
  | nil => exact iff_of_true rfl (by simp [Metre.Suits])
  | cons line poem ih =>
    rw [scoreLines, Score.charges_cons, Tally.add_eq_zero_iff, ih, charge_eq_zero_iff hm hg,
      skips_eq_false_iff, Metre.Suits, Metre.Suits, List.forall_mem_cons, and_imp]

theorem corrections_eq_nil {metre : String × Gauge} (h : (c.score poem metre).tally = 0) :
    (c.score poem metre).corrections = [] := by
  have hle := Tally.strong_add_le (c.charges_correct metre.1 metre.2 0 poem)
  change _ + (c.score poem metre).corrections.length ≤ (c.score poem metre).tally.strong at hle
  rw [h, Tally.strong_zero] at hle
  exact List.length_eq_zero_iff.mp (by omega)

structure Recognises (c : Classifier) (poem : Poem) : Prop where
  best : ∃ s, (c.classify poem).best? = some s ∧
    (s.tally = ⟨0, 0⟩ ↔ ∃ m ∈ Metre.catalogue, m.Suits c.longest poem)
  first : ∀ before m after, Metre.catalogue = before ++ m :: after →
    (∀ b ∈ before, ¬b.Suits c.longest poem) → m.Suits c.longest poem →
    (c.classify poem).metre = m.name ∧ c.improve poem = poem ∧ ∃ s,
      (c.classify poem).best? = some s ∧ s.metre = m.name ∧ s.tally = ⟨0, 0⟩ ∧ s.corrections = []
  iambos : Metre.iambos.Suits c.longest poem → (c.classify poem).metre = "iambos"
  /-- A poem in which no line counts would be named after the first metre. -/
  choreios : (∃ line ∈ poem, line ≠ [] ∧ line.length ≤ c.longest) →
    Metre.choreios.Suits c.longest poem → (c.classify poem).metre = "choreios"

section Catalogue

variable (hc : Metre.gauges Metre.catalogue = .ok c.gauges)

theorem nodup_names_catalogue : (Metre.catalogue.map Metre.name).Nodup := by decide

include hc in
theorem best?_of_catalogue (poem : Poem) :
    (c.classify poem).best? = Score.leader? (c.classify poem).scores := by
  apply Classification.best?_eq_leader?
  rw [map_metre_scores, Metre.map_fst_gauges hc]
  exact nodup_names_catalogue

theorem tally_score_eq_zero_iff (hm : m ∈ Metre.catalogue) (hg : m.gauge = .ok g) :
    (c.score poem (m.name, g)).tally = 0 ↔ m.Suits c.longest poem :=
  charges_eq_zero_iff hm hg

include hc in
theorem exists_best (poem : Poem) : ∃ s, (c.classify poem).best? = some s ∧
    (s.tally = 0 ↔ ∃ m ∈ Metre.catalogue, m.Suits c.longest poem) := by
  rw [best?_of_catalogue hc]
  cases hleader : Score.leader? (c.classify poem).scores with
  | none =>
    have hnames := (c.map_metre_scores poem).trans (Metre.map_fst_gauges hc)
    rw [Score.leader?_eq_none_iff] at hleader
    rw [hleader] at hnames
    cases hnames
  | some s =>
    obtain ⟨hmem, hle⟩ := Score.leader?_spec hleader
    refine ⟨s, rfl, fun hzero => ?_, fun hsuits => ?_⟩
    · obtain ⟨⟨name, g⟩, hmetre, rfl⟩ := List.mem_map.mp hmem
      obtain ⟨m, hm, rfl, hg⟩ := Metre.mem_of_mem_gauges hc hmetre
      exact ⟨m, hm, (tally_score_eq_zero_iff hm hg).mp hzero⟩
    · obtain ⟨m, hm, hsuits⟩ := hsuits
      obtain ⟨before, after, hsplit⟩ := List.append_of_mem hm
      rw [hsplit] at hc
      obtain ⟨front, g, back, hgauges, -, hg, -⟩ := Metre.gauges_append_cons hc
      have hscore : c.score poem (m.name, g) ∈ (c.classify poem).scores := by
        apply List.mem_map_of_mem
        rw [hgauges]
        exact List.mem_append_right _ List.mem_cons_self
      have hbest := hle _ hscore
      rw [(tally_score_eq_zero_iff hm hg).mpr hsuits] at hbest
      exact Tally.eq_zero_of_le hbest

include hc in
theorem exists_leader (hsplit : Metre.catalogue = before ++ m :: after)
    (hbefore : ∀ b ∈ before, ¬b.Suits c.longest poem) (hsuits : m.Suits c.longest poem) :
    ∃ g, Score.leader? (c.classify poem).scores = some (c.score poem (m.name, g)) ∧
      (c.score poem (m.name, g)).tally = 0 := by
  have hmem (b : Metre) (hb : b ∈ before) : b ∈ Metre.catalogue := by
    rw [hsplit]
    exact List.mem_append_left _ hb
  have hm : m ∈ Metre.catalogue := by
    rw [hsplit]
    exact List.mem_append_right _ List.mem_cons_self
  rw [hsplit] at hc
  obtain ⟨front, g, back, hgauges, hfront, hg, -⟩ := Metre.gauges_append_cons hc
  have hzero : (c.score poem (m.name, g)).tally = 0 := (tally_score_eq_zero_iff hm hg).mpr hsuits
  have hleads : Score.Leads (front.map (c.score poem)) (c.score poem (m.name, g))
      (back.map (c.score poem)) := by
    constructor
    · intro t ht
      obtain ⟨⟨name, g'⟩, hx, rfl⟩ := List.mem_map.mp ht
      obtain ⟨b, hb, rfl, hg'⟩ := Metre.mem_of_mem_gauges hfront hx
      rw [hzero]
      apply Tally.zero_lt_of_ne
      rw [ne_eq, tally_score_eq_zero_iff (hmem b hb) hg']
      exact hbefore b hb
    · intro t _
      rw [hzero]
      exact Tally.zero_le _
  refine ⟨g, ?_, hzero⟩
  rw [classify, hgauges, List.map_append, List.map_cons, hleads.leader?_eq]

include hc in
theorem recognises (poem : Poem) : c.Recognises poem := by
  have hfirst : ∀ before m after, Metre.catalogue = before ++ m :: after →
      (∀ b ∈ before, ¬b.Suits c.longest poem) → m.Suits c.longest poem →
      (c.classify poem).metre = m.name ∧ c.improve poem = poem ∧ ∃ s,
        (c.classify poem).best? = some s ∧ s.metre = m.name ∧ s.tally = 0 ∧ s.corrections = [] := by
    intro before m after hsplit hbefore hsuits
    obtain ⟨g, hleader, hzero⟩ := exists_leader hc hsplit hbefore hsuits
    have hbest := (best?_of_catalogue hc poem).trans hleader
    have hnone := corrections_eq_nil hzero
    refine ⟨Classification.metre_of_leader? hleader, ?_, _, hbest, rfl, hzero, hnone⟩
    rw [improve_of_best? hbest, hnone]
    rfl
  refine ⟨exists_best hc poem, hfirst, fun hsuits => ?_, fun hcounts hsuits => ?_⟩
  · exact (hfirst [] Metre.iambos _ rfl (by simp) hsuits).1
  · refine (hfirst [Metre.iambos] Metre.choreios _ rfl ?_ hsuits).1
    rw [List.forall_mem_singleton]
    intro hiambos
    obtain ⟨line, hline, hne, hlen⟩ := hcounts
    exact Metre.not_perfect_iambos_of_perfect_choreios hne (hsuits line hline hne hlen)
      (hiambos line hline hne hlen)

end Catalogue

/-- With the metres of the catalogue, whatever lines are too long, a poem that fits a metre
perfectly is recognised and left alone. -/
theorem perfect_poems_are_recognised (longest : ℕ) :
    ∃ c, ofMetres Metre.catalogue longest = .ok c ∧ c.longest = longest ∧
      ∀ poem, c.Recognises poem := by
  obtain ⟨gauges, hgauges⟩ := Metre.exists_gauges Metre.catalogue fun _ hm => hm
  refine ⟨⟨gauges, longest⟩, ?_, rfl, recognises hgauges⟩
  rw [ofMetres, hgauges]

/-- One line of two counts, and the choreios is the first metre that it fits. -/
theorem perfect_poems_are_recognised_of_choreios :
    ∃ c, ofMetres Metre.catalogue 20 = .ok c ∧
      Metre.choreios.Suits 20 ["SUS".toList, []] ∧
      (c.classify ["SUS".toList, []]).metre = "choreios" ∧
      c.improve ["SUS".toList, []] = ["SUS".toList, []] := by
  obtain ⟨c, hc, hlongest, hrecognises⟩ := perfect_poems_are_recognised 20
  have hperfect : Metre.choreios.Perfect "SUS".toList :=
    (Metre.perfect_iff (by simp [Metre.catalogue]) rfl).mpr ⟨rfl, rfl⟩
  have hsuits : Metre.choreios.Suits 20 ["SUS".toList, []] := by
    intro line hline hne _
    simp only [List.mem_cons, List.not_mem_nil, or_false] at hline
    rcases hline with rfl | rfl
    · exact hperfect
    · exact absurd rfl hne
  have hiambos : ¬Metre.iambos.Suits 20 ["SUS".toList, []] := fun h =>
    Metre.not_perfect_iambos_of_perfect_choreios (by decide) hperfect
      (h _ List.mem_cons_self (by decide) (by decide))
  rw [← hlongest] at hsuits hiambos
  obtain ⟨hmetre, himprove, -⟩ := (hrecognises _).first [Metre.iambos] Metre.choreios _ rfl
    (by simpa using hiambos) hsuits
  rw [hlongest] at hsuits
  exact ⟨c, hc, hsuits, hmetre, himprove⟩

end Classifier

end Prosody
