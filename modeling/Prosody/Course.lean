import Prosody.Chart
import Prosody.Tally

/-!
# Courses

Scanning needs little of a chart: which syllables may read the next symbol of a line, and where a
line may end. A course holds these two answers for every site.
-/

namespace Prosody

/-- A syllable of a scheme, by number. -/
structure Spot where
  number : Nat
  mark : Mark
  deriving DecidableEq

structure Course where
  /-- The syllables that may follow a site; before the first symbol the site is the whole. -/
  after : Nat → List Spot
  /-- A line may end at such a site. -/
  completes : Nat → Bool

def Site.spot? (s : Site) : Option Spot := s.mark?.map fun m => ⟨s.number, m⟩

namespace Chart

/-- The syllable that is due after a site; at the start, the first one of the scheme. -/
def due? (c : Chart) (n : Nat) : Option Nat :=
  (c.site? n).bind fun s => if n = 0 then some s.entry else s.onward

/-- A line may not end before the last unquantified syllable directly under the whole. -/
def lastPlain? (c : Chart) : Option Nat := (c.site? 0).bind Site.lastPlain

def course (c : Chart) : Course where
  after n :=
    match c.due? n with
    | none => []
    | some due => (c.alternatives due).filterMap Site.spot?
  completes n :=
    match c.lastPlain? with
    | none => true
    | some last => last ≤ n

end Chart

def Scheme.course (s : Scheme) : Course := s.chart.course

end Prosody
