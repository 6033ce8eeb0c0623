import Prosody.Proofs.Derivation
import Prosody.Proofs.Layout

/-!
# The tree of a pattern

A derivation becomes a tree when the constructs of each unquantified group take the place of the
group, and only the last quantifier of a run stays. The sites of what is read hold just this tree:
each construct knows its parent and its slot there, and the place of its first character.
-/

namespace Prosody

variable {σ : Setting} {n k : ℕ} {led : Bool} {c : Chart}

inductive Tree where
  | syllable (place : ℕ) (mark : Mark) (quantifier : Option Quantifier)
  | group (place : ℕ) (quantifier : Quantifier) (children : List Tree)

mutual

def Tree.size : Tree → ℕ
  | .syllable _ _ _ => 1
  | .group _ _ children => Tree.sizes children + 1

def Tree.sizes : List Tree → ℕ
  | [] => 0
  | t :: trees => t.size + Tree.sizes trees

end

/-- The trees of a phrase that stands behind the characters `before`. An unquantified group leaves
its constructs to the group around it. -/
def Phrase.trees (before : List Char) : Phrase → List Tree
  | done => []
  | syllable m run rest =>
    .syllable before.length m run.getLast? ::
      rest.trees (before ++ (syllable m run done).write)
  | group inside run rest =>
    let children := inside.trees (before ++ ['('])
    let here := match run.getLast? with
      | none => children
      | some q => [.group before.length q children]
    here ++ rest.trees (before ++ (group inside run done).write)

namespace Chart

mutual

inductive Bears (c : Chart) : (parent slot n : ℕ) → Tree → Prop where
  | syllable {parent slot n place : ℕ} {m : Mark} {q : Option Quantifier} {x : Site}
      (site : c.site? n = some x) (form : x.form = .syllable m q) (place_eq : x.place = some place)
      (parent_eq : x.parent = some parent) (slot_eq : x.slot = slot) (children : x.children = []) :
      Bears c parent slot n (.syllable place m q)
  | group {parent slot n place : ℕ} {q : Quantifier} {trees : List Tree} {x : Site}
      (site : c.site? n = some x) (form : x.form = .group q) (place_eq : x.place = some place)
      (parent_eq : x.parent = some parent) (slot_eq : x.slot = slot)
      (children : BearsAll c n 0 x.children trees) :
      Bears c parent slot n (.group place q trees)

inductive BearsAll (c : Chart) : (parent slot : ℕ) → List ℕ → List Tree → Prop where
  | nil {parent slot : ℕ} : BearsAll c parent slot [] []
  | cons {parent slot n : ℕ} {t : Tree} {ns : List ℕ} {trees : List Tree}
      (head : Bears c parent slot n t) (tail : BearsAll c parent (slot + 1) ns trees) :
      BearsAll c parent slot (n :: ns) (t :: trees)

end

/-- The whole has the trees for children, and there is no site besides. -/
structure Depicts (c : Chart) (trees : List Tree) : Prop where
  root : ∃ x, c.site? 0 = some x ∧ x.form = .whole ∧ x.place = none ∧ x.parent = none ∧
    c.BearsAll 0 0 x.children trees
  size : c.sites.size = Tree.sizes trees + 1

end Chart

namespace Scheme

def trees : Scheme → List Tree
  | done => []
  | syllable place m q rest => .syllable place m q :: rest.trees
  | group place q inside rest => .group place q inside.trees :: rest.trees

theorem trees_append (s t : Scheme) : (s ++ t).trees = s.trees ++ t.trees := by
  induction s with
  | done => rfl
  | syllable p m q rest ih => simp [trees, ih]
  | group p q inside rest _ ih => simp [trees, ih]

theorem sizes_trees (s : Scheme) : Tree.sizes s.trees = s.size := by
  induction s with
  | done => rfl
  | syllable p m q rest ih =>
    rw [trees, Tree.sizes, Tree.size, ih, size, Nat.add_comm]
  | group p q inside rest ihi ih =>
    rw [trees, Tree.sizes, Tree.size, ihi, ih, size]
    omega

/-- A run of siblings in a chart is the run of their trees. -/
theorem bearsAll_trees {s : Scheme} (h : c.Shows σ n k led s) :
    c.BearsAll σ.parent k (s.tops n) s.trees := by
  induction s generalizing σ n k led with
  | done => exact .nil
  | syllable p m q rest ih =>
    exact .cons (.syllable (h 0 _ rfl) rfl rfl rfl rfl rfl) (ih h.rest_of_syllable)
  | group p q inside rest ihi ih =>
    have hinside := ihi h.inside_of_group
    exact .cons (.group (h 0 _ rfl) rfl rfl rfl rfl hinside) (ih h.rest_of_group)

theorem depicts_trees (s : Scheme) : s.chart.Depicts s.trees where
  root := ⟨s.root, rfl, rfl, rfl, rfl, bearsAll_trees (Chart.shows_chart s)⟩
  size := by
    rw [sizes_trees, ← length_sites]
    exact List.size_toArray

end Scheme

theorem Phrase.trees_scheme (p : Phrase) (before : List Char) :
    (p.scheme before.length).trees = p.trees before := by
  induction p generalizing before with
  | done => rfl
  | syllable m run rest ih =>
    have hrest := ih (before ++ (syllable m run done).write)
    rw [List.length_append, length_write, width, width, Nat.add_zero, ← Nat.add_assoc] at hrest
    rw [scheme, Scheme.trees, hrest, trees]
  | group inside run rest ihi ih =>
    have hinside := ihi (before ++ ['('])
    have hrest := ih (before ++ (group inside run done).write)
    rw [List.length_append, List.length_singleton] at hinside
    rw [List.length_append, length_write, width, width, Nat.add_zero, ← Nat.add_assoc,
      ← Nat.add_assoc] at hrest
    rw [scheme, trees]
    cases run.getLast? with
    | none =>
      simp only
      rw [Scheme.trees_append, hinside, hrest]
    | some q =>
      simp only
      rw [Scheme.trees, hinside, hrest]
      rfl

namespace Scheme

/-- A pattern is read just when it has a derivation. It has no other one then, and the sites of what
is read are the tree of the derivation, with all unquantified groups spliced into what is around
them. -/
theorem read_iff_derivation (pattern : List Char) :
    ((∃ s, Scheme.read pattern = .ok s) ↔ ∃ p : Phrase, p.Derives pattern) ∧
      ∀ p : Phrase, p.Derives pattern → (∀ q : Phrase, q.Derives pattern → q = p) ∧
        ∃ s, Scheme.read pattern = .ok s ∧ s.chart.Depicts (p.trees []) := by
  have hread (p : Phrase) (hp : p.Derives pattern) : Scheme.read pattern = .ok (p.scheme 0) :=
    read_eq_ok_iff.mpr ⟨p, hp, rfl⟩
  refine ⟨⟨?_, ?_⟩, fun p hp => ⟨fun q hq => hq.unique hp, p.scheme 0, hread p hp, ?_⟩⟩
  · rintro ⟨s, hs⟩
    obtain ⟨p, hp, -⟩ := read_eq_ok_iff.mp hs
    exact ⟨p, hp⟩
  · rintro ⟨p, hp⟩
    exact ⟨_, hread p hp⟩
  · rw [← p.trees_scheme []]
    exact depicts_trees _

/-- In `((uS)s*?)(U)w` the outer group is spliced, and so is the group in it. -/
theorem read_iff_derivation_of_nested :
    ∃ p : Phrase, p.Derives "((uS)s*?)(U)w".toList ∧
      (∀ q : Phrase, q.Derives "((uS)s*?)(U)w".toList → q = p) ∧
      ∃ s, Scheme.read "((uS)s*?)(U)w".toList = .ok s ∧ s.chart.Depicts
        [.syllable 2 ⟨.unstressed, .weak⟩ none, .syllable 3 ⟨.stressed, .strong⟩ none,
          .syllable 5 ⟨.stressed, .weak⟩ (some .optional),
          .group 9 .wildcard [.syllable 10 ⟨.unstressed, .strong⟩ none]] :=
  let p : Phrase := .group (.group (.syllable ⟨.unstressed, .weak⟩ []
      (.syllable ⟨.stressed, .strong⟩ [] .done)) []
      (.syllable ⟨.stressed, .weak⟩ [.many, .optional] .done)) []
    (.group (.syllable ⟨.unstressed, .strong⟩ [] .done) [.wildcard] .done)
  have h : p.Derives "((uS)s*?)(U)w".toList := ⟨by simp [p], by simp [p, Phrase.Full], rfl⟩
  ⟨p, h, (read_iff_derivation _).2 p h⟩

end Scheme

end Prosody
