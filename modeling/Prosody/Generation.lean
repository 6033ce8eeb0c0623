import Prosody.Reading
import Std.Data.TreeMap

/-!
# Generations

A generation holds the readings that are alive after some symbols of a line. Of readings that meet,
that is stand in the same place, one with the least marks is enough. The main statements say which
readings are gathered and in which order.
-/

namespace Prosody

/-- One trail for each standing. -/
abbrev Trails := Std.TreeMap Standing (List Mark) Standing.compare

namespace Trails

/-- Of two trails, the one with the lesser marks. -/
def lesser (u v : List Mark) : List Mark := if v.reverse < u.reverse then v else u

/-- Adds a reading. If it meets another one, the lesser trail of the two stays. -/
def keep (kept : Trails) (r : Reading) : Trails :=
  kept.alter r.toStanding fun
    | none => some r.trail
    | some trail => some (lesser trail r.trail)

/-- What is kept for one standing out of some readings. -/
def Least (readings : List Reading) (s : Standing) : Option (List Mark) → Prop
  | none => ∀ r ∈ readings, r.toStanding ≠ s
  | some trail => ⟨s, trail⟩ ∈ readings ∧
      ∀ r ∈ readings, r.toStanding = s → ¬r.marks < trail.reverse

theorem least_keep {kept : Trails} {readings : List Reading} {s : Standing}
    (h : Least readings s kept[s]?) (r : Reading) :
    Least (readings ++ [r]) s (kept.keep r)[s]? := by
  rw [keep, Std.TreeMap.getElem?_alter]
  by_cases hs : r.toStanding = s
  · subst hs
    rw [if_pos Std.ReflCmp.compare_self]
    cases hk : kept[r.toStanding]? with
    | none =>
      rw [hk] at h
      refine ⟨by simp, fun t ht e => ?_⟩
      rcases List.mem_append.mp ht with ht | ht
      · exact absurd e (h t ht)
      · rw [List.mem_singleton.mp ht]
        exact List.lt_irrefl _
    | some trail =>
      rw [hk] at h
      simp only [lesser]
      split
      · rename_i hlt
        refine ⟨by simp, fun t ht e hr => ?_⟩
        rcases List.mem_append.mp ht with ht | ht
        · exact h.2 t ht e (List.lt_trans hr hlt)
        · rw [List.mem_singleton.mp ht] at hr
          exact List.lt_irrefl _ hr
      · rename_i hlt
        refine ⟨List.mem_append_left _ h.1, fun t ht e => ?_⟩
        rcases List.mem_append.mp ht with ht | ht
        · exact h.2 t ht e
        · rw [List.mem_singleton.mp ht]
          exact hlt
  · rw [if_neg fun e => hs (Standing.compare_eq_eq_iff.mp e)]
    cases hk : kept[s]? with
    | none =>
      rw [hk] at h
      intro t ht
      rcases List.mem_append.mp ht with ht | ht
      · exact h t ht
      · rwa [List.mem_singleton.mp ht]
    | some trail =>
      rw [hk] at h
      refine ⟨List.mem_append_left _ h.1, fun t ht e => ?_⟩
      rcases List.mem_append.mp ht with ht | ht
      · exact h.2 t ht e
      · rw [List.mem_singleton.mp ht] at e
        exact absurd e hs

theorem least_foldl_keep {kept : Trails} {readings : List Reading} {s : Standing}
    (h : Least readings s kept[s]?) (more : List Reading) :
    Least (readings ++ more) s (more.foldl keep kept)[s]? := by
  induction more generalizing kept readings with
  | nil => simpa using h
  | cons r more ih => simpa using ih (least_keep h r)

end Trails

namespace Reading

/-- Readings in order, with only the least of those that meet. -/
def gather (readings : List Reading) : List Reading :=
  (readings.foldl Trails.keep ∅).toList.map fun (standing, trail) => ⟨standing, trail⟩

theorem mem_gather {readings : List Reading} {r : Reading} :
    r ∈ gather readings ↔
      r ∈ readings ∧ ∀ t ∈ readings, t.toStanding = r.toStanding → ¬t.marks < r.marks := by
  have least : Trails.Least ([] ++ readings) r.toStanding
      (readings.foldl Trails.keep ∅)[r.toStanding]? :=
    Trails.least_foldl_keep (by simp [Trails.Least]) readings
  have kept : r ∈ gather readings ↔
      (readings.foldl Trails.keep ∅)[r.toStanding]? = some r.trail := by
    rw [← Std.TreeMap.mem_toList_iff_getElem?_eq_some, gather, List.mem_map]
    constructor
    · rintro ⟨⟨s, trail⟩, h, rfl⟩
      exact h
    · exact fun h => ⟨_, h, rfl⟩
  rw [kept]
  rw [List.nil_append] at least
  cases hk : (readings.foldl Trails.keep ∅)[r.toStanding]? with
  | none =>
    rw [hk] at least
    simpa using fun h => absurd rfl (least r h)
  | some trail =>
    rw [hk] at least
    constructor
    · intro e
      cases e
      exact least
    · intro h
      have := Std.Trichotomous.trichotomous _ _ (least.2 r h.1 rfl) (h.2 _ least.1 rfl)
      rw [← List.reverse_inj.mp this]

theorem pairwise_gather (readings : List Reading) :
    (gather readings).Pairwise fun r t =>
      r.site < t.site ∨ r.site = t.site ∧ r.tally < t.tally :=
  List.pairwise_map.mpr
    (Std.TreeMap.ordered_keys_toList.imp fun h => Standing.compare_eq_lt_iff.mp h)

end Reading

namespace Course

/-- What a reading becomes when it takes in one more symbol, within the border. -/
def successors (c : Course) (border : Nat) (symbol : Char) (r : Reading) : List Reading :=
  (c.after r.site).filterMap fun p =>
    if (r.tally + p.mark.cost symbol).total ≤ border then some (r.extend p symbol) else none

theorem mem_successors {c : Course} {border : Nat} {symbol : Char} {r t : Reading} :
    t ∈ c.successors border symbol r ↔
      ∃ p ∈ c.after r.site, (r.tally + p.mark.cost symbol).total ≤ border ∧
        r.extend p symbol = t := by
  simp [successors, List.mem_filterMap]

/-- The generation after one more symbol. -/
def advance (c : Course) (border : Nat) (generation : List Reading) (symbol : Char) :
    List Reading :=
  Reading.gather (generation.flatMap (c.successors border symbol))

end Course

end Prosody
