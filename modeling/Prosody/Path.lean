import Prosody.Reading

/-!
# Paths through a course

A path is a sequence of spots, each one allowed after the one before it. Its cost on a line is the
sum of the costs of its marks. A reading stands for the paths that end where it ends.
-/

namespace Prosody

abbrev Path := List Spot

namespace Path

def marks (p : Path) : List Mark := p.map Spot.mark

/-- The site where a path from site `n` ends. -/
def endsAt (n : Nat) : Path → Nat
  | [] => n
  | p :: rest => endsAt p.number rest

/-- The errors of a path on a line, as far as both reach. -/
def cost : Path → List Char → Tally
  | p :: rest, symbol :: line => p.mark.cost symbol + cost rest line
  | _, _ => 0

theorem marks_append (p q : Path) : marks (p ++ q) = marks p ++ marks q := List.map_append

theorem endsAt_append (n : Nat) (p q : Path) : endsAt n (p ++ q) = endsAt (endsAt n p) q := by
  induction p generalizing n with
  | nil => rfl
  | cons s rest ih => exact ih s.number

end Path

namespace Course

/-- The spots of a path follow one another in the course, the first of them after site `n`. -/
def Allows (c : Course) (n : Nat) : Path → Prop
  | [] => True
  | p :: rest => p ∈ c.after n ∧ c.Allows p.number rest

theorem allows_append (c : Course) (n : Nat) (p q : Path) :
    c.Allows n (p ++ q) ↔ c.Allows n p ∧ c.Allows (Path.endsAt n p) q := by
  induction p generalizing n with
  | nil => simp [Allows, Path.endsAt]
  | cons s rest ih => simp [Allows, Path.endsAt, ih, and_assoc]

/-- A path that reads the first symbols of a line from the start, within the border. -/
def Feasible (c : Course) (border : Nat) (line : List Char) (p : Path) : Prop :=
  c.Allows 0 p ∧ p.length ≤ line.length ∧ (p.cost line).total ≤ border

/-- A line may end where the path ends. -/
def Complete (c : Course) (p : Path) : Prop := c.completes (p.endsAt 0) = true

end Course

end Prosody
