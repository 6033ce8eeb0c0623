import Prosody.Generation

/-!
# Scanning a line

Scanning keeps a generation of readings, one for each syllable and tally that some way through the
scheme reaches with no more errors than the border allows. When no reading goes on, the symbols
left over count as errors of both kinds, and the generation before decides.
-/

namespace Prosody

/-- How a line was scanned. -/
structure Scansion where
  /-- One mark for each symbol read; none if no reading came to an end. -/
  marks : List Mark
  tally : Tally
  /-- Symbols were left over. -/
  overrun : Bool
  deriving DecidableEq

namespace Course

/-- The last generation with a reading in it, and the symbols it leaves over. -/
def run (c : Course) (border : Nat) (generation : List Reading) :
    List Char → List Reading × List Char
  | [] => (generation, [])
  | symbol :: line =>
    match c.advance border generation symbol with
    | [] => (generation, symbol :: line)
    | r :: next => c.run border (r :: next) line

theorem run_cons_of_eq_nil {c : Course} {border : Nat} {generation : List Reading} {symbol : Char}
    (h : c.advance border generation symbol = []) (line : List Char) :
    c.run border generation (symbol :: line) = (generation, symbol :: line) := by
  rw [run, h]

theorem run_cons_of_ne_nil {c : Course} {border : Nat} {generation : List Reading} {symbol : Char}
    (h : c.advance border generation symbol ≠ []) (line : List Char) :
    c.run border generation (symbol :: line) =
      c.run border (c.advance border generation symbol) line := by
  rw [run]
  cases hnext : c.advance border generation symbol with
  | nil => exact absurd hnext h
  | cons r next => rfl

/-- The best reading that may end the line. -/
def conclude (c : Course) (generation : List Reading) : Reading :=
  (Reading.best? (generation.filter fun r => c.completes r.site)).getD .start

def scan (c : Course) (border : Nat) (line : List Char) : Scansion :=
  let last := c.run border [.start] line
  let r := c.conclude last.1
  { marks := r.marks
    tally := r.tally + .both last.2.length
    overrun := !last.2.isEmpty }

end Course

/-- How the number of readings changes at one symbol of a line. -/
structure Stride where
  index : Nat
  symbol : Char
  readings : Nat
  successors : Nat
  deriving DecidableEq

/-- The strides of a line up to the first that leaves no reading. -/
def Course.strides (c : Course) (border : Nat) (index : Nat) (generation : List Reading) :
    List Char → List Stride
  | [] => []
  | symbol :: line =>
    match c.advance border generation symbol with
    | [] => [⟨index, symbol, generation.length, 0⟩]
    | r :: next =>
      ⟨index, symbol, generation.length, next.length + 1⟩ ::
        c.strides border (index + 1) (r :: next) line

end Prosody
