import Prosody.Classification
import Mathlib.Data.List.MinMax
import Mathlib.Data.Prod.Lex

/-!
# The leading score

The first of the scores with the least errors leads, and its metre names the classification. The
best score is looked up under that name again. It is the leading one unless a metre that stands
before in the catalogue has the name, too; then improving a poem makes the corrections of a score
that others beat.
-/

namespace Prosody

variable {c : Classifier} {poem : Poem} {s t : Score} {scores before after : List Score}
  {metres : List Metre} {gs : List (String × Gauge)} {longest : ℕ}

namespace Tally

def rank (t : Tally) : ℕ ×ₗ ℕ := toLex (t.strong, t.weak)

theorem rank_lt_iff {a b : Tally} : a.rank < b.rank ↔ a < b := Prod.Lex.toLex_lt_toLex

theorem rank_le_iff {a b : Tally} : a.rank ≤ b.rank ↔ a ≤ b := Prod.Lex.toLex_le_toLex

end Tally

namespace Score

theorem leader?_map {α : Type} (f : α → Score) (xs : List α) :
    leader? (xs.map f) = (xs.argmin fun x => (f x).tally.rank).map f := by
  induction xs with
  | nil => rfl
  | cons x xs ih =>
    rw [List.map_cons, leader?, List.argmin_cons, ih]
    cases xs.argmin fun x => (f x).tally.rank with
    | none => rfl
    | some y =>
      simp only [Option.map_some, Tally.rank_lt_iff]
      split <;> rfl

theorem leader?_eq_argmin (scores : List Score) :
    leader? scores = scores.argmin fun s => s.tally.rank := by
  have h := leader?_map id scores
  rwa [List.map_id, Option.map_id] at h

theorem leader?_eq_none_iff (scores : List Score) : leader? scores = none ↔ scores = [] := by
  rw [leader?_eq_argmin, List.argmin_eq_none]

theorem leader?_spec (h : leader? scores = some s) :
    s ∈ scores ∧ ∀ t ∈ scores, s.tally ≤ t.tally := by
  rw [leader?_eq_argmin] at h
  refine ⟨List.argmin_mem h, fun t ht => Tally.rank_le_iff.mp ?_⟩
  exact List.le_of_mem_argmin (f := fun s => s.tally.rank) ht h

/-- The score `s` has less errors than those before it and no more than those after it. -/
structure Leads (before : List Score) (s : Score) (after : List Score) : Prop where
  lt : ∀ t ∈ before, s.tally < t.tally
  le : ∀ t ∈ after, s.tally ≤ t.tally

theorem Leads.le_of_mem (h : Leads before s after) (ht : t ∈ before ++ s :: after) :
    s.tally ≤ t.tally := by
  rcases List.mem_append.mp ht with ht | ht
  · exact Tally.le_of_lt (h.lt t ht)
  · rcases List.mem_cons.mp ht with rfl | ht
    · exact Tally.le_refl _
    · exact h.le t ht

theorem exists_leads (h : leader? scores = some s) :
    ∃ before after, scores = before ++ s :: after ∧ Leads before s after := by
  induction scores generalizing s with
  | nil => cases h
  | cons t rest ih =>
    rw [leader?] at h
    cases hrest : leader? rest with
    | none =>
      rw [hrest] at h
      cases h
      rw [leader?_eq_none_iff] at hrest
      subst hrest
      exact ⟨[], [], rfl, by simp, by simp⟩
    | some r =>
      rw [hrest] at h
      simp only at h
      split_ifs at h with hlt
      · cases h
        obtain ⟨before, after, rfl, hleads⟩ := ih hrest
        exact ⟨t :: before, after, rfl, List.forall_mem_cons.mpr ⟨hlt, hleads.lt⟩, hleads.le⟩
      · cases h
        rw [Tally.not_lt] at hlt
        refine ⟨[], rest, rfl, by simp, fun x hx => ?_⟩
        exact Tally.le_trans hlt ((leader?_spec hrest).2 x hx)

theorem Leads.leader?_eq (h : Leads before s after) : leader? (before ++ s :: after) = some s := by
  induction before with
  | nil =>
    rw [List.nil_append, leader?]
    cases hafter : leader? after with
    | none => rfl
    | some t =>
      have hle := h.le t (leader?_spec hafter).1
      simp only [if_neg (Tally.not_lt.mpr hle)]
  | cons t before ih =>
    obtain ⟨hlt, hbefore⟩ := List.forall_mem_cons.mp h.lt
    rw [List.cons_append, leader?, ih ⟨hbefore, h.le⟩]
    exact if_pos hlt

end Score

namespace Classification

variable {r : Classification}

theorem metre_of_leader? (h : Score.leader? r.scores = some s) : r.metre = s.metre := by
  rw [metre, h]

/-- The best score is the leading one just when no score before it is under the same name. -/
theorem best?_eq_some_iff (hscores : r.scores = before ++ s :: after)
    (hleads : Score.Leads before s after) :
    r.best? = some s ↔ ∀ t ∈ before, t.metre ≠ s.metre := by
  have hleader : Score.leader? r.scores = some s := by rw [hscores, hleads.leader?_eq]
  rw [best?, metre_of_leader? hleader, hscores, List.find?_append]
  cases hfind : before.find? fun t => t.metre = s.metre with
  | none =>
    refine iff_of_true ?_ fun t ht => ?_
    · simp
    · simpa using List.find?_eq_none.mp hfind t ht
  | some t =>
    have ht := List.mem_of_find?_eq_some hfind
    have hname : t.metre = s.metre := by simpa using List.find?_some hfind
    refine iff_of_false (fun heq => ?_) fun hnone => hnone t ht hname
    -- the score found has more errors than the leading one
    obtain rfl : t = s := Option.some.inj heq
    exact Tally.not_lt.mpr (Tally.le_refl _) (hleads.lt t ht)

theorem best?_eq_leader? (hnames : (r.scores.map Score.metre).Nodup) :
    r.best? = Score.leader? r.scores := by
  cases hleader : Score.leader? r.scores with
  | none =>
    rw [Score.leader?_eq_none_iff] at hleader
    rw [best?, hleader]
    rfl
  | some s =>
    obtain ⟨before, after, hscores, hleads⟩ := Score.exists_leads hleader
    rw [best?_eq_some_iff hscores hleads]
    intro t ht hname
    rw [hscores, List.map_append, List.map_cons, List.nodup_append] at hnames
    exact hnames.2.2 _ (List.mem_map_of_mem ht) _ List.mem_cons_self hname

end Classification

namespace Metre

theorem gauges_cons {m : Metre} (h : gauges (m :: metres) = .ok gs) :
    ∃ g rest, gs = (m.name, g) :: rest ∧ m.gauge = .ok g ∧ gauges metres = .ok rest := by
  rw [gauges] at h
  split at h
  · cases h
  · rename_i g hg
    split at h
    · cases h
    · rename_i rest hrest
      cases h
      exact ⟨g, rest, rfl, hg, hrest⟩

theorem map_fst_gauges (h : gauges metres = .ok gs) : gs.map Prod.fst = metres.map name := by
  induction metres generalizing gs with
  | nil =>
    cases h
    rfl
  | cons m metres ih =>
    obtain ⟨g, rest, rfl, -, hrest⟩ := gauges_cons h
    exact congrArg (m.name :: ·) (ih hrest)

end Metre

namespace Classifier

theorem map_fst_of_ofMetres (h : ofMetres metres longest = .ok c) :
    c.gauges.map Prod.fst = metres.map Metre.name := by
  rw [ofMetres] at h
  split at h
  · cases h
  · rename_i gauges hgauges
    cases h
    exact Metre.map_fst_gauges hgauges

theorem map_metre_scores (c : Classifier) (poem : Poem) :
    (c.classify poem).scores.map Score.metre = c.gauges.map Prod.fst := by
  rw [classify, List.map_map]
  rfl

def BestLeads (c : Classifier) (poem : Poem) : Prop :=
  ∃ before s after, (c.classify poem).scores = before ++ s :: after ∧ Score.Leads before s after ∧
    (c.classify poem).best? = some s ∧ c.improve poem = Correction.applyAll s.corrections poem

theorem improve_of_best? (h : (c.classify poem).best? = some s) :
    c.improve poem = Correction.applyAll s.corrections poem := by
  rw [improve, Classification.corrections, h]

theorem bestLeads_iff_best? (hscores : (c.classify poem).scores = before ++ s :: after)
    (hleads : Score.Leads before s after) :
    c.BestLeads poem ↔ (c.classify poem).best? = some s := by
  constructor
  · rintro ⟨before', t, after', hscores', hleads', hbest, -⟩
    have hleader := hleads.leader?_eq
    rw [← hscores, hscores', hleads'.leader?_eq] at hleader
    rwa [← Option.some.inj hleader]
  · exact fun hbest => ⟨before, s, after, hscores, hleads, hbest, improve_of_best? hbest⟩

theorem not_bestLeads_of_beaten (h : ((c.classify poem).best?.any fun s =>
    (c.classify poem).scores.any fun t => t.tally < s.tally) = true) : ¬c.BestLeads poem := by
  rintro ⟨before, s, after, hscores, hleads, hbest, -⟩
  rw [hbest, Option.any_some, List.any_eq_true] at h
  obtain ⟨t, ht, hlt⟩ := h
  rw [hscores] at ht
  exact Tally.not_lt.mpr (hleads.le_of_mem ht) (of_decide_eq_true hlt)

/-- Some score of a poem leads, if there are metres at all. It is the best one just when no metre
before it has its name, and so in any case if all names are distinct. -/
theorem best_leads_iff (h : ofMetres metres longest = .ok c) (hne : metres ≠ []) (poem : Poem) :
    (∃ before s after, (c.classify poem).scores = before ++ s :: after ∧
      Score.Leads before s after ∧ (c.BestLeads poem ↔ ∀ t ∈ before, t.metre ≠ s.metre)) ∧
    ((metres.map Metre.name).Nodup → c.BestLeads poem) := by
  have hnames := (c.map_metre_scores poem).trans (map_fst_of_ofMetres h)
  cases hleader : Score.leader? (c.classify poem).scores with
  | none =>
    rw [Score.leader?_eq_none_iff] at hleader
    rw [hleader, List.map_nil, eq_comm, List.map_eq_nil_iff] at hnames
    exact absurd hnames hne
  | some s =>
    obtain ⟨before, after, hscores, hleads⟩ := Score.exists_leads hleader
    have hiff := bestLeads_iff_best? hscores hleads
    constructor
    · refine ⟨before, s, after, hscores, hleads, ?_⟩
      rw [hiff, Classification.best?_eq_some_iff hscores hleads]
    · intro hnodup
      rw [← hnames] at hnodup
      rw [hiff, Classification.best?_eq_leader? hnodup, hleader]

def namesakes : List Metre := [⟨"a", "U".toList, 8⟩, ⟨"a", "S".toList, 8⟩]

theorem best_leads_iff_of_namesakes :
    ∃ c, ofMetres namesakes 20 = .ok c ∧ namesakes ≠ [] ∧
      (∃ before s after, (c.classify ["S".toList]).scores = before ++ s :: after ∧
        Score.Leads before s after ∧
        (c.BestLeads ["S".toList] ↔ ∀ t ∈ before, t.metre ≠ s.metre)) ∧
      ((namesakes.map Metre.name).Nodup → c.BestLeads ["S".toList]) :=
  have h : ofMetres namesakes 20 = .ok _ := rfl
  have hne : namesakes ≠ [] := List.cons_ne_nil _ _
  ⟨_, h, hne, best_leads_iff h hne ["S".toList]⟩

/-- The line `S` is without error under the second metre, but the best score is the one of the first,
and improving the poem spoils the line. -/
theorem namesake_outranks_leader :
    ∃ c, ofMetres namesakes 20 = .ok c ∧ ¬c.BestLeads ["S".toList] ∧
      c.improve ["S".toList] = ["U".toList] := by
  have h : ofMetres namesakes 20 = .ok _ := rfl
  exact ⟨_, h, not_bestLeads_of_beaten (by decide +kernel), by decide +kernel⟩

end Classifier

end Prosody
