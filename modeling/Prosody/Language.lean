import Prosody.Scheme

/-!
# The language of a scheme

Read as a regular expression over the four marks, a scheme spells the words that its quantifiers
leave open. Scanning is judged against this language; it does not compute it.
-/

namespace Prosody

abbrev Word := List Mark

/-- Any number of words of a language, one after another. -/
inductive Iterated (L : Word → Prop) : Word → Prop where
  | none : Iterated L []
  | more {u v : Word} (hu : L u) (hv : Iterated L v) : Iterated L (u ++ v)

/-- What a quantifier makes of the language of a construct. -/
def Quantifier.Admits (L : Word → Prop) : Quantifier → Word → Prop
  | many, w => Iterated L w
  | optional, w => w = [] ∨ L w
  | wildcard, w => w = [] ∨ L w

namespace Scheme

def Spells : Scheme → Word → Prop
  | done, w => w = []
  | syllable _ m none rest, w => ∃ v, w = m :: v ∧ rest.Spells v
  | syllable _ m (some q) rest, w =>
    ∃ u v, w = u ++ v ∧ q.Admits (fun x => x = [m]) u ∧ rest.Spells v
  | group _ q inside rest, w => ∃ u v, w = u ++ v ∧ q.Admits inside.Spells u ∧ rest.Spells v

theorem spells_append {s t : Scheme} {w : Word} :
    (s ++ t).Spells w ↔ ∃ u v, w = u ++ v ∧ s.Spells u ∧ t.Spells v := by
  induction s generalizing w with
  | done =>
    simp only [done_append, Spells]
    constructor
    · exact fun h => ⟨[], w, rfl, rfl, h⟩
    · rintro ⟨_, v, rfl, rfl, hv⟩
      exact hv
  | syllable p m q rest ih =>
    cases q with
    | none =>
      simp only [syllable_append, Spells, ih]
      constructor
      · rintro ⟨_, rfl, u, v, rfl, hu, hv⟩
        exact ⟨m :: u, v, rfl, ⟨u, rfl, hu⟩, hv⟩
      · rintro ⟨_, v, rfl, ⟨u, rfl, hu⟩, hv⟩
        exact ⟨u ++ v, rfl, u, v, rfl, hu, hv⟩
    | some q =>
      simp only [syllable_append, Spells, ih]
      constructor
      · rintro ⟨a, _, rfl, ha, u, v, rfl, hu, hv⟩
        exact ⟨a ++ u, v, by simp, ⟨a, u, rfl, ha, hu⟩, hv⟩
      · rintro ⟨_, v, rfl, ⟨a, u, rfl, ha, hu⟩, hv⟩
        exact ⟨a, u ++ v, by simp, ha, u, v, rfl, hu, hv⟩
  | group p q inside rest _ ih =>
    simp only [group_append, Spells, ih]
    constructor
    · rintro ⟨a, _, rfl, ha, u, v, rfl, hu, hv⟩
      exact ⟨a ++ u, v, by simp, ⟨a, u, rfl, ha, hu⟩, hv⟩
    · rintro ⟨_, v, rfl, ⟨a, u, rfl, ha, hu⟩, hv⟩
      exact ⟨a, u ++ v, by simp, ha, u, v, rfl, hu, hv⟩

end Scheme

end Prosody
