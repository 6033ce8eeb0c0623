import Prosody.Course

/-!
# Readings

A reading is a way through a scheme as far as some symbols of a line lead. What it can become
depends only on where it stands, that is on the syllable read last and on the errors so far.
-/

namespace Prosody

/-- Where a way through a scheme stands after some symbols of a line. -/
structure Standing where
  /-- The syllable read last, or the whole at the start. -/
  site : Nat
  tally : Tally
  deriving DecidableEq

namespace Standing

/-- Sites come before tallies, and strong errors before weak ones. -/
def compare : Standing → Standing → Ordering :=
  compareLex (compareOn site)
    (compareLex (compareOn fun s => s.tally.strong) (compareOn fun s => s.tally.weak))

instance : Std.TransCmp compare := inferInstanceAs (Std.TransCmp (compareLex _ _))

theorem compare_eq_lt_iff {s t : Standing} :
    compare s t = .lt ↔ s.site < t.site ∨ s.site = t.site ∧ s.tally < t.tally := by
  simp only [compare, compareLex, compareOn, Ordering.then_eq_lt, Nat.compare_eq_lt,
    Nat.compare_eq_eq, Tally.lt_iff]

theorem compare_eq_eq_iff {s t : Standing} : compare s t = .eq ↔ s = t := by
  rcases s with ⟨_, _, _⟩
  rcases t with ⟨_, _, _⟩
  simp [compare, compareLex, compareOn, Ordering.then_eq_eq]

instance : Std.LawfulEqCmp compare := ⟨compare_eq_eq_iff.mp⟩

end Standing

/-- The part of a line read so far along one way through a scheme. -/
structure Reading extends Standing where
  /-- One mark for each symbol read, the last one first. -/
  trail : List Mark
  deriving DecidableEq

namespace Reading

def start : Reading := ⟨⟨0, 0⟩, []⟩

def marks (r : Reading) : List Mark := r.trail.reverse

def extend (r : Reading) (p : Spot) (symbol : Char) : Reading :=
  ⟨⟨p.number, r.tally + p.mark.cost symbol⟩, p.mark :: r.trail⟩

theorem marks_extend (r : Reading) (p : Spot) (symbol : Char) :
    (r.extend p symbol).marks = r.marks ++ [p.mark] := List.reverse_cons

/-- Fewer errors come first, and the marks decide between equal tallies. -/
def better (r t : Reading) : Prop := r.tally < t.tally ∨ r.tally = t.tally ∧ r.marks < t.marks

instance (r t : Reading) : Decidable (r.better t) :=
  inferInstanceAs (Decidable (r.tally < t.tally ∨ r.tally = t.tally ∧ r.marks < t.marks))

/-- The first of the best readings. -/
def best? : List Reading → Option Reading
  | [] => none
  | r :: rest =>
    match best? rest with
    | none => some r
    | some t => if t.better r then some t else some r

end Reading

end Prosody
