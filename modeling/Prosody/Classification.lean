import Prosody.Catalogue
import Prosody.Correction

/-!
# Classifying a poem

Every line of a poem is scanned under every metre. The metre with the least sum of errors wins, the
first of them if several do, and its strong marks say how to improve the poem.
-/

namespace Prosody

/-- The line was read to an end. -/
def Scansion.isMatch (s : Scansion) : Bool := !s.overrun && !s.marks.isEmpty

theorem Scansion.isMatch_iff {s : Scansion} :
    s.isMatch = true ↔ s.overrun = false ∧ s.marks ≠ [] := by
  rw [isMatch, Bool.and_eq_true, Bool.not_eq_true', Bool.not_eq_true', List.isEmpty_eq_false_iff]

/-- How one line fares under a metre. -/
structure LineScore where
  scansion : Scansion
  /-- The errors that the metre answers for. -/
  charge : Tally
  corrections : List Correction
  deriving DecidableEq

/-- How a poem fares under a metre. -/
structure Score where
  metre : String
  /-- One entry for each line, empty where the line is skipped. -/
  lines : List (Option LineScore)
  deriving DecidableEq

namespace Score

def charges : List (Option LineScore) → Tally
  | [] => 0
  | none :: lines => charges lines
  | some s :: lines => s.charge + charges lines

def tally (s : Score) : Tally := charges s.lines

def corrections (s : Score) : List Correction :=
  s.lines.flatMap fun
    | none => []
    | some line => line.corrections

/-- The first score with the least tally. -/
def leader? : List Score → Option Score
  | [] => none
  | s :: scores =>
    match leader? scores with
    | none => some s
    | some t => if t.tally < s.tally then some t else some s

end Score

/-- The scores of a poem in the order of the metres. -/
structure Classification where
  scores : List Score
  deriving DecidableEq

namespace Classification

/-- The name of the leading metre, empty if there is none. -/
def metre (c : Classification) : String :=
  match Score.leader? c.scores with
  | none => ""
  | some s => s.metre

/-- The first score under the name of the leading metre. -/
def best? (c : Classification) : Option Score := c.scores.find? fun s => s.metre = c.metre

def corrections (c : Classification) : List Correction :=
  match c.best? with
  | none => []
  | some s => s.corrections

end Classification

/-- Metres to choose from, and the length of the longest line that counts. -/
structure Classifier where
  gauges : List (String × Gauge)
  longest : Nat

namespace Classifier

def defaultLongest : Nat := 20

def ofMetres (metres : List Metre) (longest : Nat) : Except Fault Classifier :=
  match Metre.gauges metres with
  | .error fault => .error fault
  | .ok gauges => .ok ⟨gauges, longest⟩

def skips (c : Classifier) (line : Line) : Bool := line.isEmpty || c.longest < line.length

/-- A line that is not read to an end costs one error of both kinds for each syllable. -/
def scoreLine (c : Classifier) (g : Gauge) (index : Nat) (line : Line) : Option LineScore :=
  if c.skips line then none
  else
    let s := g.scan line
    if s.isMatch then
      some ⟨s, s.tally, Correction.between index 0 (s.marks.map Mark.symbol) line⟩
    else some ⟨s, .both line.length, []⟩

/-- The entries of the lines from `index` on. -/
def scoreLines (c : Classifier) (g : Gauge) (index : Nat) : Poem → List (Option LineScore)
  | [] => []
  | line :: poem => c.scoreLine g index line :: c.scoreLines g (index + 1) poem

def score (c : Classifier) (poem : Poem) (metre : String × Gauge) : Score :=
  ⟨metre.1, c.scoreLines metre.2 0 poem⟩

def classify (c : Classifier) (poem : Poem) : Classification := ⟨c.gauges.map (c.score poem)⟩

/-- The poem with the corrections of its metre. -/
def improve (c : Classifier) (poem : Poem) : Poem :=
  Correction.applyAll (c.classify poem).corrections poem

/-- Each round classifies and improves what the round before it left. -/
def rounds (c : Classifier) : Nat → Poem → List (Classification × Poem)
  | 0, _ => []
  | n + 1, poem =>
    let result := c.classify poem
    let improved := Correction.applyAll result.corrections poem
    (result, improved) :: c.rounds n improved

end Classifier

end Prosody
