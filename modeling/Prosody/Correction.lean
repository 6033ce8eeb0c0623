import Prosody.Mark

/-!
# Stress corrections

Where a metre sets a strong mark and the line disagrees about the stress, the syllable is to be
changed. Weak marks never ask for a change.
-/

namespace Prosody

/-- One symbol for each syllable. -/
abbrev Line := List Char

abbrev Poem := List Line

inductive Change where
  | addStress
  | removeStress
  deriving DecidableEq

namespace Change

/-- What the syllable becomes. -/
def symbol : Change → Char
  | addStress => 'S'
  | removeStress => 'U'

/-- The change that brings a syllable to what is expected of it. -/
def due? (expected actual : Char) : Option Change :=
  if expected = 'S' ∧ ¬isStressed actual then some addStress
  else if expected = 'U' ∧ isStressed actual then some removeStress
  else none

end Change

/-- A change to one syllable of a poem. -/
structure Correction where
  line : Nat
  syllable : Nat
  change : Change
  deriving DecidableEq

namespace Correction

/-- The corrections of the syllables from `k` on, as far as the pattern and the line both reach. -/
def between (line k : Nat) : List Char → Line → List Correction
  | expected :: pattern, actual :: symbols =>
    match Change.due? expected actual with
    | some change => ⟨line, k, change⟩ :: between line (k + 1) pattern symbols
    | none => between line (k + 1) pattern symbols
  | _, _ => []

/-- A correction outside the poem changes nothing. -/
def apply (c : Correction) (poem : Poem) : Poem :=
  poem.modify c.line fun line => line.set c.syllable c.change.symbol

def applyAll (corrections : List Correction) (poem : Poem) : Poem :=
  corrections.foldl (fun poem c => c.apply poem) poem

end Correction

end Prosody
