import Prosody.Proofs.Alternatives
import Prosody.Proofs.ReadingOrder
import Mathlib.Logic.Function.Iterate

/-!
# Walks over the sites

Where a site leads can be found on foot: down through first children, up through parents, and from
bypass to bypass until a place comes back. Such a walk looks at the sites themselves and at their
parents, slots and children only. Each walk comes to an end without leaving the chart, at the site
that the chart gives.
-/

namespace Prosody

variable {σ : Setting} {n m k a p stop fuel : ℕ} {led : Bool} {s t rest : Scheme} {c : Chart}
  {x y : Site} {o : Option ℕ} {found : List Site} {seen : Std.TreeSet ℕ} {pattern : List Char}

/-- A walk from a state comes to a result. A step leads to another state or to a result; it has no
outcome where it looks at a number without a site. -/
inductive Ends {α β : Type} (step : α → Option (α ⊕ β)) : α → β → Prop
  | stop {a : α} {r : β} : step a = some (.inr r) → Ends step a r
  | go {a b : α} {r : β} : step a = some (.inl b) → Ends step b r → Ends step a r

theorem Ends.unique {α β : Type} {step : α → Option (α ⊕ β)} {a : α} {r r' : β}
    (h : Ends step a r) (h' : Ends step a r') : r = r' := by
  induction h with
  | stop hr =>
    cases h' with
    | stop hr' => exact Sum.inr.inj (Option.some.inj (hr.symm.trans hr'))
    | go hb _ => cases hr.symm.trans hb
  | go hb _ ih =>
    cases h' with
    | stop hr' => cases hb.symm.trans hr'
    | go hb' hend =>
      cases hb.symm.trans hb'
      exact ih hend

namespace Chart

def descend (c : Chart) (n : ℕ) : Option (ℕ ⊕ ℕ) :=
  (c.site? n).map fun x =>
    match x.children.head? with
    | some first => .inl first
    | none => .inr n

def Enters (c : Chart) : Option ℕ → Option ℕ → Prop
  | none, o => o = none
  | some n, o => ∃ m, Ends c.descend n m ∧ o = some m

def climb (c : Chart) (n : ℕ) : Option (ℕ ⊕ Option ℕ) :=
  (c.site? n).bind fun x =>
    match x.parent with
    | none => some (.inr none)
    | some p => (c.site? p).map fun y =>
      match y.children[x.slot + 1]? with
      | some sibling => .inr (some sibling)
      | none => if y.isLoop then .inr (some p) else .inl p

def Leaves (c : Chart) (n : ℕ) (o : Option ℕ) : Prop := ∃ r, Ends c.climb n r ∧ c.Enters r o

/-- A repeated syllable is followed by itself, and any other construct is left. -/
def Proceeds (c : Chart) (n : ℕ) (o : Option ℕ) : Prop :=
  ∃ x, c.site? n = some x ∧
    if x.isLoop = true ∧ x.children = [] then o = some n else c.Leaves n o

def plainAt (c : Chart) (n : ℕ) : Bool := (c.site? n).any Site.isPlain

def leadsAt (c : Chart) (n : ℕ) (x : Site) : Bool :=
  x.isPlain && (x.parent.bind c.site?).any fun y => y.children.find? c.plainAt == some n

/-- Up from a construct `scope` and the site `n` below it. If the site does not bind, the next
sibling of the construct may be entered, and if the construct ends a repeated one, that may be
entered again. -/
def skip (c : Chart) : ℕ × ℕ → Option ((ℕ × ℕ) ⊕ Option ℕ)
  | (n, scope) =>
    (c.site? n).bind fun x => (c.site? scope).bind fun y =>
      match y.parent with
      | none => some (.inr none)
      | some outer => (c.site? outer).map fun z =>
        let isVariable := c.leadsAt n x || !x.isPlain
        match if isVariable then z.children[y.slot + 1]? else none with
        | some sibling => .inr (some sibling)
        | none =>
          if z.isLoop = true ∧ z.children.getLast? = some scope then .inr (some outer)
          else if isVariable then .inl (scope, outer) else .inr none

/-- A quantified syllable may itself be skipped, any other site only with the construct around
it. -/
def Skips (c : Chart) (n : ℕ) (o : Option ℕ) : Prop :=
  ∃ x, c.site? n = some x ∧
    match if x.children = [] ∧ x.quantifier?.isSome = true then some n else x.parent with
    | none => o = none
    | some scope => ∃ r, Ends c.skip (n, scope) r ∧ c.Enters r o

def gather (c : Chart) : List Site × Option ℕ → Option ((List Site × Option ℕ) ⊕ List Site)
  | (found, none) => some (.inr found)
  | (found, some n) => (c.site? n).map fun x =>
    if found.any x.samePlace then .inr found else .inl (found ++ [x], x.bypass)

theorem Enters.unique {r : Option ℕ} {o' : Option ℕ} (h : c.Enters r o) (h' : c.Enters r o') :
    o = o' := by
  cases r with
  | none => exact Eq.trans h (Eq.symm h')
  | some n =>
    obtain ⟨m, hm, rfl⟩ := h
    obtain ⟨m', hm', rfl⟩ := h'
    rw [hm.unique hm']

theorem Leaves.unique {o' : Option ℕ} (h : c.Leaves n o) (h' : c.Leaves n o') : o = o' := by
  obtain ⟨r, hr, henters⟩ := h
  obtain ⟨r', hr', henters'⟩ := h'
  cases hr.unique hr'
  exact henters.unique henters'

theorem Proceeds.unique {o' : Option ℕ} (h : c.Proceeds n o) (h' : c.Proceeds n o') : o = o' := by
  obtain ⟨x, hx, ho⟩ := h
  obtain ⟨x', hx', ho'⟩ := h'
  cases hx.symm.trans hx'
  split_ifs at ho ho'
  · exact ho.trans ho'.symm
  · exact ho.unique ho'

theorem Skips.unique {o' : Option ℕ} (h : c.Skips n o) (h' : c.Skips n o') : o = o' := by
  obtain ⟨x, hx, ho⟩ := h
  obtain ⟨x', hx', ho'⟩ := h'
  cases hx.symm.trans hx'
  split at ho
  · rename_i hscope
    rw [hscope] at ho'
    exact ho.trans ho'.symm
  · rename_i hscope
    rw [hscope] at ho'
    obtain ⟨r, hr, henters⟩ := ho
    obtain ⟨r', hr', henters'⟩ := ho'
    cases hr.unique hr'
    exact henters.unique henters'

theorem parent_of_climb (h : c.climb n = some (.inl p)) :
    ∃ x, c.site? n = some x ∧ x.parent = some p := by
  obtain ⟨x, hx, h⟩ := Option.bind_eq_some_iff.mp h
  refine ⟨x, hx, ?_⟩
  cases hp : x.parent with
  | none =>
    rw [hp] at h
    cases h
  | some q =>
    rw [hp] at h
    obtain ⟨y, -, h⟩ := Option.map_eq_some_iff.mp h
    split at h
    · cases h
    · split_ifs at h
      cases h
      rfl

theorem Shows.ends_descend (hfull : t.Full) (ht : t ≠ .done) (h : c.Shows σ n k led t) :
    Ends c.descend n (n + t.lead) := by
  induction t generalizing σ n k led with
  | done => exact absurd rfl ht
  | syllable place mark o rest =>
    refine .stop ?_
    rw [descend, h.head rfl]
    rfl
  | group place q inside rest ihi _ =>
    obtain ⟨hne, hinside, -⟩ := hfull
    rw [Scheme.lead, Nat.add_comm inside.lead, ← Nat.add_assoc]
    refine .go ?_ (ihi hinside hne h.inside_of_group)
    rw [descend, h.head rfl, Option.map_some, Scheme.head?_tops hne]

end Chart

namespace Scheme

theorem Run.whole_or_inside (h : s.Run σ n k led t) : σ = s.setting ∨
    ∃ τ m j led' place q inside rest, s.Run τ m j led' (.group place q inside rest) ∧
      σ = τ.inner m q inside rest := by
  induction h with
  | whole => exact Or.inl rfl
  | behindSyllable _ ih => exact ih
  | inside h _ => exact Or.inr ⟨_, _, _, _, _, _, _, _, h, rfl⟩
  | behindGroup _ ih => exact ih

/-- Whether an unquantified syllable stands before a run, under the same parent. -/
theorem Run.any_plainAt (h : s.Run σ n k led t) (hy : s.chart.site? σ.parent = some y) :
    (y.children.take k).any s.chart.plainAt = led := by
  induction h with
  | whole => rfl
  | @behindSyllable σ n k place led mark q rest h ih =>
    have hplain : s.chart.plainAt n = q.isNone := by
      rw [Chart.plainAt, h.shows.head rfl]
      cases q <;> rfl
    rw [List.take_add_one, List.any_append, ih hy, h.getElem?_children nofun hy,
      Option.toList_some, List.any_cons, hplain, List.any_nil, Bool.or_false]
  | inside _ _ => rfl
  | @behindGroup σ n k place led q inside rest h ih =>
    have hplain : s.chart.plainAt n = false := by
      rw [Chart.plainAt, h.shows.head rfl]
      rfl
    rw [List.take_add_one, List.any_append, ih hy, h.getElem?_children nofun hy,
      Option.toList_some, List.any_cons, hplain, List.any_nil, Bool.or_false, Bool.or_false]

/-- A group is the last child of its parent just if nothing stands behind it. -/
theorem Run.getLast?_children_iff {place : ℕ} {q : Quantifier} {inside : Scheme}
    (h : s.Run σ n k led (.group place q inside rest)) (hy : s.chart.site? σ.parent = some y) :
    y.children.getLast? = some n ↔ rest = done := by
  obtain ⟨z, hz, -, hdrop, -⟩ := h.exists_parent
  cases hy.symm.trans hz
  rw [← List.take_append_drop k y.children, hdrop, List.getLast?_append, tops,
    List.getLast?_cons, Option.some_or, Option.some.injEq]
  constructor
  · intro hlast
    by_contra hdone
    obtain ⟨b, hb⟩ := Option.isSome_iff_exists.mp
      (List.getLast?_isSome.mpr (tops_ne_nil hdone (n + 1 + inside.size)))
    have hle := le_of_mem_tops (List.mem_of_getLast? hb)
    rw [hb, Option.getD_some] at hlast
    omega
  · rintro rfl
    rfl

section Compiled

variable (hne : s ≠ done) (hs : s.Full)

include hne hs

theorem ends_descend (hx : s.chart.site? n = some x) : Ends s.chart.descend n x.entry := by
  rcases syllable_or_inner_run hne hs hx with
    ⟨-, -, -, hchildren, hentry⟩ | ⟨σ, t, hrun, ht, -, -, hchildren, hentry⟩
  · rw [hentry]
    refine .stop ?_
    rw [Chart.descend, hx, Option.map_some, hchildren, List.head?_nil]
  · rw [hentry]
    refine .go ?_ (hrun.shows.ends_descend (hrun.full hs) ht)
    rw [Chart.descend, hx, Option.map_some, hchildren, head?_tops ht]

theorem isSyllable_of_ends_descend (h : Ends s.chart.descend n m) : s.chart.IsSyllable m := by
  obtain ⟨x, hx⟩ : ∃ x, s.chart.site? n = some x := by
    cases hx : s.chart.site? n with
    | none =>
      cases h with
      | stop hstep => simp [Chart.descend, hx] at hstep
      | go hstep _ => simp [Chart.descend, hx] at hstep
    | some x => exact ⟨x, rfl⟩
  rw [h.unique (ends_descend hne hs hx)]
  exact (isLeast_entry hne hs hx).1.2

theorem isSyllable_of_enters {r : Option ℕ} (h : s.chart.Enters r o) (hm : m ∈ o) :
    s.chart.IsSyllable m := by
  cases r with
  | none =>
    cases h
    cases hm
  | some b =>
    obtain ⟨_, hdescend, rfl⟩ := h
    cases hm
    exact isSyllable_of_ends_descend hne hs hdescend

/-- A construct of a run is left for its next sibling; the last one is left for the parent if that
may be done again, and with the parent otherwise. -/
theorem leaves_behind (hrest : s.Run σ stop (k + 1) led rest) (hx : s.chart.site? a = some x)
    (hp : x.parent = some σ.parent) (hslot : x.slot = k)
    (hparent : s.chart.Leaves σ.parent σ.exit) : s.chart.Leaves a (σ.leave stop rest) := by
  obtain ⟨y, hy, -, hdrop, hloop, hentry⟩ := hrest.exists_parent
  have hsibling : y.children[x.slot + 1]? = (rest.tops stop).head? := by
    rw [hslot, ← hdrop, List.head?_drop]
  have hstep : s.chart.climb a = some (match (rest.tops stop).head? with
      | some sibling => .inr (some sibling)
      | none => if σ.loops then .inr (some σ.parent) else .inl σ.parent) := by
    rw [Chart.climb, hx, Option.bind_some, hp]
    simp only
    rw [hy, Option.map_some, hsibling, hloop]
  by_cases hdone : rest = done
  · rw [hdone, tops, List.head?_nil] at hstep
    rw [Setting.leave, if_pos hdone]
    cases hloops : σ.loops with
    | true =>
      rw [hloops] at hstep
      exact ⟨_, .stop hstep, _, ends_descend hne hs hy, congrArg some hentry.symm⟩
    | false =>
      rw [hloops] at hstep
      obtain ⟨r, hr, henters⟩ := hparent
      exact ⟨r, .go hstep hr, henters⟩
  · rw [head?_tops hdone] at hstep
    rw [Setting.leave, if_neg hdone]
    exact ⟨_, .stop hstep, _, hrest.shows.ends_descend (hrest.full hs) hdone, rfl⟩

theorem Run.leaves_parent (h : s.Run σ n k led t) : s.chart.Leaves σ.parent σ.exit := by
  induction h with
  | whole => exact ⟨none, .stop rfl, rfl⟩
  | behindSyllable _ ih => exact ih
  | inside h ih => exact leaves_behind hne hs h.behindGroup (h.shows.head rfl) rfl rfl ih
  | behindGroup _ ih => exact ih

theorem proceeds_onward (hx : s.chart.site? n = some x) : s.chart.Proceeds n x.onward := by
  refine ⟨x, hx, ?_⟩
  rcases exists_run hx with ⟨rfl, rfl⟩ | ⟨σ, k, led, t, hrun, hhead⟩
  · rw [if_neg (by rintro ⟨hloop, -⟩; cases hloop)]
    exact ⟨none, .stop rfl, rfl⟩
  · cases t with
    | done => cases hhead
    | syllable place mark q rest =>
      cases hhead
      have hleaves := leaves_behind hne hs hrun.behindSyllable hx rfl rfl
        (hrun.leaves_parent hne hs)
      rcases q with _ | _ | _ | _
      · exact hleaves
      · rfl
      · exact hleaves
      · exact hleaves
    | group place q inside rest =>
      cases hhead
      have hinside := tops_ne_nil (hrun.full hs).1 (n + 1)
      rw [if_neg fun h => hinside h.2]
      exact leaves_behind hne hs hrun.behindGroup hx rfl rfl (hrun.leaves_parent hne hs)

/-- An unquantified syllable is the first of its siblings just if none stands before it. -/
theorem leadsAt_plain {place : ℕ} {mark : Mark}
    (hrun : s.Run σ n k led (.syllable place mark none rest)) (hx : s.chart.site? n = some x)
    (hplain : x.isPlain = true) (hp : x.parent = some σ.parent) : s.chart.leadsAt n x = !led := by
  obtain ⟨y, hy, -, hdrop, -⟩ := hrun.exists_parent
  have hany := hrun.any_plainAt hy
  have hn : s.chart.plainAt n = true := by
    rw [Chart.plainAt, hx]
    exact hplain
  rw [Chart.leadsAt, hplain, hp, Option.bind_some, hy, Bool.true_and, Option.any_some,
    ← List.take_append_drop k y.children, List.find?_append, hdrop]
  cases led with
  | false =>
    rw [List.any_eq_false] at hany
    rw [List.find?_eq_none.mpr hany, Option.none_or, tops, List.find?_cons_of_pos hn]
    exact beq_self_eq_true _
  | true =>
    obtain ⟨b, hb⟩ := Option.isSome_iff_exists.mp (List.find?_isSome.mpr (List.any_eq_true.mp hany))
    have hordered := pairwise_children hne hs hy
    rw [← List.take_append_drop k y.children, hdrop] at hordered
    have hlt := (List.pairwise_append.mp hordered).2.2 b (List.mem_of_find?_eq_some hb) n
      List.mem_cons_self
    rw [hb, Option.some_or]
    exact beq_false_of_ne (by simpa using hlt.ne)

theorem isPlain_of_parent (hx : s.chart.site? n = some x) (hp : x.parent = some p)
    (hy : s.chart.site? p = some y) : y.isPlain = false := by
  obtain ⟨z, hz, hslot⟩ := exists_children_slot hx hp
  cases hy.symm.trans hz
  rcases syllable_or_inner_run hne hs hy with ⟨-, -, -, hchildren, -⟩ | ⟨-, -, -, -, -, hmark, -⟩
  · rw [hchildren] at hslot
    cases hslot
  · unfold Site.mark? at hmark
    unfold Site.isPlain
    cases hform : y.form with
    | whole => rfl
    | group q => rfl
    | syllable mark o =>
      rw [hform] at hmark
      cases hmark

omit hne hs in
/-- If the site below does not bind, the way up past a construct is the way up from it. -/
theorem skip_eq_climb (hx : s.chart.site? n = some x)
    (hvariable : (s.chart.leadsAt n x || !x.isPlain) = true) (scope : ℕ) :
    s.chart.skip (n, scope) = (s.chart.climb scope).map (Sum.map (fun p => (scope, p)) id) := by
  rw [Chart.skip, Chart.climb, hx, Option.bind_some]
  cases hy : s.chart.site? scope with
  | none => rfl
  | some y =>
    simp only [Option.bind_some]
    cases hp : y.parent with
    | none => rfl
    | some p =>
      obtain ⟨z, hz, hslot⟩ := exists_children_slot hy hp
      simp only [hz, Option.map_some, hvariable, if_true]
      cases hsibling : z.children[y.slot + 1]? with
      | some sibling => rfl
      | none =>
        have hlast : z.children.getLast? = some scope := by
          obtain ⟨hlt, -⟩ := List.getElem?_eq_some_iff.mp hslot
          have hle := List.getElem?_eq_none_iff.mp hsibling
          rw [List.getLast?_eq_getElem?, ← hslot]
          congr 1
          omega
        simp only [hlast, and_true]
        split_ifs <;> rfl

theorem ends_skip {scope : ℕ} {r : Option ℕ} (hr : Ends s.chart.climb scope r)
    (hx : s.chart.site? n = some x) (hvariable : (s.chart.leadsAt n x || !x.isPlain) = true)
    (hscope : ∀ y, s.chart.site? scope = some y → y.isPlain = false) :
    Ends s.chart.skip (n, scope) r := by
  induction hr generalizing n x with
  | stop hstep =>
    refine .stop ?_
    rw [skip_eq_climb hx hvariable, hstep]
    rfl
  | @go scope p r hstep _ ih =>
    have hskip : s.chart.skip (n, scope) = some (.inl (scope, p)) := by
      rw [skip_eq_climb hx hvariable, hstep]
      rfl
    obtain ⟨y, hy, hp⟩ := Chart.parent_of_climb hstep
    refine .go hskip (ih hy ?_ fun z hz => isPlain_of_parent hne hs hy hp hz)
    rw [hscope y hy]
    exact Bool.or_true _

theorem Run.skips_exit (h : s.Run σ n k led t) (hx : s.chart.site? a = some x)
    (hp : x.parent = some σ.parent) (hvariable : (s.chart.leadsAt a x || !x.isPlain) = true) :
    ∃ r, Ends s.chart.skip (a, σ.parent) r ∧ s.chart.Enters r σ.exit := by
  obtain ⟨r, hr, henters⟩ := h.leaves_parent hne hs
  exact ⟨r, ends_skip hne hs hr hx hvariable fun y hy => isPlain_of_parent hne hs hx hp hy, henters⟩

/-- A syllable that binds is skipped only to do the construct around its parent again, which the
parent has to end. -/
theorem Run.skips_binding (h : s.Run σ n k led t) (hx : s.chart.site? a = some x)
    (hbinds : (s.chart.leadsAt a x || !x.isPlain) = false) :
    ∃ r, Ends s.chart.skip (a, σ.parent) r ∧
      s.chart.Enters r (if σ.closes then σ.exit else none) := by
  rcases h.whole_or_inside with rfl | ⟨τ, m, j, led', place, q, inside, rest, hgroup, rfl⟩
  · refine ⟨none, .stop ?_, rfl⟩
    rw [Chart.skip, hx]
    rfl
  · obtain ⟨z, hz, -, -, hloop, hentry⟩ := hgroup.exists_parent
    have hstep : s.chart.skip (a, m) =
        some (.inr (if τ.loops = true ∧ rest = done then some τ.parent else none)) := by
      rw [Chart.skip, hx, Option.bind_some, hgroup.shows.head rfl, Option.bind_some]
      simp only
      rw [hz, Option.map_some, hbinds, hloop]
      simp only [hgroup.getLast?_children_iff hz, Bool.false_eq_true, if_false]
      split_ifs <;> rfl
    refine ⟨_, .stop hstep, ?_⟩
    have hcloses : (τ.inner m q inside rest).closes = true ↔ τ.loops = true ∧ rest = done := by
      rw [Setting.inner, Bool.and_eq_true, decide_eq_true_eq]
    by_cases hend : τ.loops = true ∧ rest = done
    · have hexit : (τ.inner m q inside rest).exit = some τ.entry := by
        rw [Setting.inner, Setting.leave, if_pos hend.2, if_pos hend.1]
      rw [if_pos hend, if_pos (hcloses.mpr hend), hexit, ← hentry]
      exact ⟨_, ends_descend hne hs hz, rfl⟩
    · rw [if_neg hend, if_neg (hcloses.not.mpr hend)]
      rfl

theorem skips_bypass (hx : s.chart.site? n = some x) : s.chart.Skips n x.bypass := by
  refine ⟨x, hx, ?_⟩
  rcases exists_run hx with ⟨rfl, rfl⟩ | ⟨σ, k, led, t, hrun, hhead⟩
  · rw [if_neg (by rintro ⟨-, hq⟩; cases hq)]
    rfl
  · cases t with
    | done => cases hhead
    | syllable place mark q rest =>
      cases hhead
      cases q with
      | none =>
        rw [if_neg (by rintro ⟨-, hq⟩; cases hq)]
        have hleads := leadsAt_plain hne hs hrun hx rfl rfl
        cases led with
        | false => exact hrun.skips_exit hne hs hx rfl (by rw [hleads]; rfl)
        | true => exact hrun.skips_binding hne hs hx (by rw [hleads]; rfl)
      | some q =>
        rw [if_pos ⟨rfl, rfl⟩]
        obtain ⟨r, hr, henters⟩ := leaves_behind hne hs hrun.behindSyllable hx rfl rfl
          (hrun.leaves_parent hne hs)
        refine ⟨r, ends_skip hne hs hr hx (Bool.or_true _) fun y hy => ?_, henters⟩
        cases hx.symm.trans hy
        rfl
    | group place q inside rest =>
      cases hhead
      rw [if_neg fun h => tops_ne_nil (hrun.full hs).1 (n + 1) h.1]
      exact hrun.skips_exit hne hs hx rfl (Bool.or_true _)

theorem isSyllable_onward (hx : s.chart.site? n = some x) (hm : m ∈ x.onward) :
    s.chart.IsSyllable m := by
  obtain ⟨y, hy, h⟩ := proceeds_onward hne hs hx
  split_ifs at h with hloop
  · cases h.symm.trans hm
    rcases syllable_or_inner_run hne hs hy with
      ⟨mark, o, hform, -⟩ | ⟨σ, t, -, ht, -, -, hchildren, -⟩
    · exact ⟨y, mark, hy, by rw [Site.mark?, hform]⟩
    · exact absurd (hchildren.symm.trans hloop.2) (tops_ne_nil ht (n + 1))
  · obtain ⟨r, -, henters⟩ := h
    exact isSyllable_of_enters hne hs henters hm

theorem isSyllable_bypass (hx : s.chart.site? n = some x) (hm : m ∈ x.bypass) :
    s.chart.IsSyllable m := by
  obtain ⟨y, -, h⟩ := skips_bypass hne hs hx
  split at h
  · rw [h] at hm
    cases hm
  · obtain ⟨r, -, henters⟩ := h
    exact isSyllable_of_enters hne hs henters hm

end Compiled

theorem nodup_chain (s : Scheme) (fuel : ℕ) (seen : Std.TreeSet ℕ) (o : Option ℕ) :
    ((s.chart.chain fuel seen o).map Site.number).Nodup ∧
      ∀ y ∈ s.chart.chain fuel seen o, seen.contains y.number = false := by
  induction fuel generalizing seen o with
  | zero => simp [Chart.chain]
  | succ fuel ih =>
    cases o with
    | none => simp [Chart.chain]
    | some n =>
      rw [Chart.chain]
      split_ifs with hn
      · simp
      · cases hx : s.chart.site? n with
        | none => simp
        | some x =>
          obtain ⟨hnodup, hfresh⟩ := ih (seen.insert n) x.bypass
          have hnumber := Chart.site?_number hx
          have hrest : ∀ y ∈ s.chart.chain fuel (seen.insert n) x.bypass,
              y.number ≠ n ∧ seen.contains y.number = false := by
            intro y hy
            have h := hfresh y hy
            rw [Std.TreeSet.contains_insert, Bool.or_eq_false_iff, beq_eq_false_iff_ne, ne_eq,
              Nat.compare_eq_eq] at h
            exact ⟨fun heq => h.1 heq.symm, h.2⟩
          simp only [List.map_cons, List.nodup_cons, List.mem_map, List.forall_mem_cons, hnumber]
          refine ⟨⟨?_, hnodup⟩, Bool.eq_false_iff.mpr hn, fun y hy => (hrest y hy).2⟩
          rintro ⟨y, hy, heq⟩
          exact (hrest y hy).1 heq

structure Gathered (s : Scheme) (found : List Site) (seen : Std.TreeSet ℕ) : Prop where
  sites : ∀ y ∈ found, s.chart.site? y.number = some y
  nodup : (found.map Site.number).Nodup
  contains_iff : ∀ a, seen.contains a = true ↔ a ∈ found.map Site.number

theorem gathered_nil (s : Scheme) : s.Gathered [] ∅ where
  sites := nofun
  nodup := List.nodup_nil
  contains_iff := by simp

theorem Gathered.concat (h : s.Gathered found seen) (hx : s.chart.site? n = some x)
    (hn : n ∉ found.map Site.number) : s.Gathered (found ++ [x]) (seen.insert n) := by
  have hnumber := Chart.site?_number hx
  constructor
  · refine List.forall_mem_append.mpr ⟨h.sites, List.forall_mem_singleton.mpr ?_⟩
    rwa [hnumber]
  · rw [List.map_append, List.nodup_append_comm, List.map_singleton, List.singleton_append,
      List.nodup_cons, hnumber]
    exact ⟨hn, h.nodup⟩
  · intro a
    rw [Std.TreeSet.contains_insert, Bool.or_eq_true, h.contains_iff, List.map_append,
      List.mem_append, List.map_singleton, List.mem_singleton, beq_iff_eq, Nat.compare_eq_eq,
      hnumber, or_comm, @eq_comm _ n a]

/-- A place comes back just if a number does. -/
theorem Gathered.any_samePlace_iff (h : s.Gathered found seen) (hseparates : s.chart.Separates)
    (hx : s.chart.site? n = some x) : found.any x.samePlace = true ↔ n ∈ found.map Site.number := by
  rw [List.any_eq_true, List.mem_map]
  constructor
  · rintro ⟨y, hy, hsame⟩
    exact ⟨y, hy, (hseparates n y.number x y hx (h.sites y hy) hsame).symm⟩
  · rintro ⟨y, hy, rfl⟩
    cases hx.symm.trans (h.sites y hy)
    exact ⟨x, hy, beq_self_eq_true x.place⟩

theorem Gathered.mem_of_size_le (h : s.Gathered found seen)
    (hsize : s.chart.sites.size ≤ found.length) (hx : s.chart.site? n = some x) :
    n ∈ found.map Site.number := by
  have hsub : (found.map Site.number).toFinset ⊆ Finset.range s.chart.sites.size := by
    intro a ha
    obtain ⟨y, hy, rfl⟩ := List.mem_map.mp (List.mem_toFinset.mp ha)
    obtain ⟨hlt, -⟩ := Array.getElem?_eq_some_iff.mp (h.sites y hy)
    exact Finset.mem_range.mpr hlt
  have hcard : (Finset.range s.chart.sites.size).card ≤ (found.map Site.number).toFinset.card := by
    rwa [Finset.card_range, List.toFinset_card_of_nodup h.nodup, List.length_map]
  obtain ⟨hlt, -⟩ := Array.getElem?_eq_some_iff.mp hx
  rw [← List.mem_toFinset, Finset.eq_of_subset_of_card_le hsub hcard, Finset.mem_range]
  exact hlt

/-- Going from bypass to bypass, with sites told apart by their places, finds a chain. -/
theorem ends_gather (hseparates : s.chart.Separates)
    (hbypass : ∀ n x, s.chart.site? n = some x → ∀ m ∈ x.bypass, s.chart.IsSyllable m)
    (hfound : s.Gathered found seen) (hfuel : s.chart.sites.size ≤ found.length + fuel)
    (ho : ∀ n ∈ o, ∃ x, s.chart.site? n = some x) :
    Ends s.chart.gather (found, o) (found ++ s.chart.chain fuel seen o) := by
  induction fuel generalizing found seen o with
  | zero =>
    rw [Chart.chain, List.append_nil]
    refine .stop ?_
    cases o with
    | none => rfl
    | some n =>
      obtain ⟨x, hx⟩ := ho n rfl
      have hmem := hfound.mem_of_size_le hfuel hx
      rw [Chart.gather, hx, Option.map_some,
        if_pos ((hfound.any_samePlace_iff hseparates hx).mpr hmem)]
  | succ fuel ih =>
    cases o with
    | none =>
      have hchain : s.chart.chain (fuel + 1) seen none = [] := rfl
      rw [hchain, List.append_nil]
      exact .stop rfl
    | some n =>
      obtain ⟨x, hx⟩ := ho n rfl
      have hback := hfound.any_samePlace_iff hseparates hx
      rw [Chart.chain]
      by_cases hmem : n ∈ found.map Site.number
      · rw [if_pos ((hfound.contains_iff n).mpr hmem), List.append_nil]
        refine .stop ?_
        rw [Chart.gather, hx, Option.map_some, if_pos (hback.mpr hmem)]
      · rw [if_neg ((hfound.contains_iff n).not.mpr hmem), hx]
        have hrest : Ends s.chart.gather (found ++ [x], x.bypass)
            (found ++ [x] ++ s.chart.chain fuel (seen.insert n) x.bypass) := by
          apply ih (hfound.concat hx hmem)
          · rw [List.length_append, List.length_singleton]
            omega
          · intro m hm
            obtain ⟨y, -, hy, -⟩ := hbypass n x hx m hm
            exact ⟨y, hy⟩
        rw [List.append_assoc] at hrest
        refine .go ?_ hrest
        rw [Chart.gather, hx, Option.map_some, if_neg (hback.not.mpr hmem)]

theorem head?_alternatives (hx : s.chart.site? n = some x) :
    (s.chart.alternatives n).head? = some x := by
  obtain ⟨hlt, -⟩ := Array.getElem?_eq_some_iff.mp hx
  obtain ⟨fuel, hfuel⟩ := Nat.exists_eq_add_one_of_ne_zero (Nat.ne_zero_of_lt hlt)
  rw [Chart.alternatives, hfuel, Chart.chain, hx]
  simp

end Scheme

namespace Chart

def bypassed (c : Chart) (x : Option Site) : Option Site :=
  x.bind fun x => x.bypass.bind c.site?

theorem passes_iff_iterate :
    (∃ m, c.Passes o m ∧ c.site? m = some y) ↔ ∃ j, c.bypassed^[j] (o.bind c.site?) = some y := by
  constructor
  · rintro ⟨m, hpass, hy⟩
    induction hpass with
    | here _ => exact ⟨0, hy⟩
    | on hx _ ih =>
      obtain ⟨j, hj⟩ := ih hy
      refine ⟨j + 1, ?_⟩
      rw [Function.iterate_succ_apply, Option.bind_some, hx]
      exact hj
  · rintro ⟨j, hj⟩
    induction j generalizing o with
    | zero =>
      obtain ⟨m, rfl, hm⟩ := Option.bind_eq_some_iff.mp hj
      exact ⟨m, .here hm, hm⟩
    | succ j ih =>
      rw [Function.iterate_succ_apply] at hj
      cases hx : o.bind c.site? with
      | none =>
        rw [hx] at hj
        have hnone : c.bypassed none = none := rfl
        rw [hnone, Function.iterate_fixed hnone] at hj
        cases hj
      | some x =>
        rw [hx] at hj
        obtain ⟨n, rfl, hn⟩ := Option.bind_eq_some_iff.mp hx
        obtain ⟨m, hpass, hm⟩ := ih hj
        exact ⟨m, .on hn hpass, hm⟩

/-- Where the site with number `n` leads: each walk from it comes to its end in the chart. -/
structure Navigates (c : Chart) (n : ℕ) (x : Site) : Prop where
  entry : ∀ m, Ends c.descend n m ↔ m = x.entry
  onward : ∀ o, c.Proceeds n o ↔ o = x.onward
  bypass : ∀ o, c.Skips n o ↔ o = x.bypass
  syllables : c.IsSyllable x.entry ∧ (∀ m ∈ x.onward, c.IsSyllable m) ∧
    ∀ m ∈ x.bypass, c.IsSyllable m
  alternatives : ∀ sites, Ends c.gather ([], some n) sites ↔ sites = c.alternatives n
  head : (c.alternatives n).head? = some x
  nodup : ((c.alternatives n).map Site.number).Nodup
  /-- The walk stops at the first place that comes back, and misses nothing by that. -/
  reached : ∀ y, y ∈ c.alternatives n ↔ ∃ j, c.bypassed^[j] (some x) = some y

end Chart

/-- Every walk from a site of a scheme ends in the chart, at a syllable where it is a walk to one,
and the alternatives of a site are all the sites that bypasses lead to. -/
theorem Scheme.walks_end_in_chart (h : Scheme.read pattern = .ok s)
    (hx : s.chart.site? n = some x) : s.chart.Navigates n x := by
  obtain ⟨p, hp, rfl⟩ := read_eq_ok_iff.mp h
  obtain ⟨hne, hs⟩ := full_of_read h
  have hentry := ends_descend hne hs hx
  have honward := proceeds_onward hne hs hx
  have hbypass := skips_bypass hne hs hx
  have hgather : Ends (p.scheme 0).chart.gather ([], some n)
      ([] ++ (p.scheme 0).chart.chain (p.scheme 0).chart.sites.size ∅ (some n)) := by
    apply ends_gather (Chart.separates_chart (p.pairwise_places_scheme 0))
      fun n x hx m hm => isSyllable_bypass hne hs hx hm
    · exact gathered_nil _
    · exact Nat.le_add_left _ _
    · rintro m ⟨⟩
      exact ⟨x, hx⟩
  constructor
  · exact fun m => ⟨fun hm => hm.unique hentry, fun hm => hm ▸ hentry⟩
  · exact fun o => ⟨fun ho => ho.unique honward, fun ho => ho ▸ honward⟩
  · exact fun o => ⟨fun ho => ho.unique hbypass, fun ho => ho ▸ hbypass⟩
  · exact ⟨(isLeast_entry hne hs hx).1.2, fun m hm => isSyllable_onward hne hs hx hm,
      fun m hm => isSyllable_bypass hne hs hx hm⟩
  · exact fun sites => ⟨fun hsites => hsites.unique hgather, fun hsites => hsites ▸ hgather⟩
  · exact head?_alternatives hx
  · exact (nodup_chain _ _ _ _).1
  · intro y
    rw [Chart.mem_alternatives_iff, Chart.passes_iff_iterate, Option.bind_some, hx]

/-- Two optional syllables in a repeated group bypass each other, so the last syllable is not among
their alternatives. -/
theorem Scheme.walks_end_in_chart_of_circle :
    ∃ s x, Scheme.read "(u?s?)*S".toList = .ok s ∧ s.chart.site? 2 = some x ∧
      (s.chart.alternatives 2).map Site.number = [2, 3] ∧ s.chart.Navigates 2 x := by
  have h : Scheme.read "(u?s?)*S".toList = .ok _ := rfl
  exact ⟨_, _, h, rfl, by decide, walks_end_in_chart h rfl⟩

end Prosody
