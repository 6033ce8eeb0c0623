import Prosody.Sign
import Prosody.Text.Quoted

/-!
# Faults of a pattern

The six reasons to refuse a pattern, each with the place of the character that shows it. Places
count characters from zero.
-/

namespace Prosody

inductive Fault where
  /-- A character that is no sign. -/
  | strangeCharacter (place : Nat) (character : Char)
  /-- A quantifier at the start of the pattern or of a group. -/
  | looseQuantifier (place : Nat) (quantifier : Quantifier)
  /-- A closing bracket with no group open. -/
  | unmatchedClosing (place : Nat)
  /-- The innermost group still open at the end. -/
  | unclosedGroup (place : Nat)
  /-- An opening bracket directly before its closing one. -/
  | emptyGroup (place : Nat)
  /-- No character at all. -/
  | emptyPattern
  deriving DecidableEq

def Fault.message : Fault → String
  | strangeCharacter place c =>
    "Unexpected character " ++ Text.quotedChar c ++ s!" in grammar at {place}"
  | looseQuantifier place q =>
    "Quantifier " ++ Text.quotedChar q.symbol ++ s!" at {place} has nothing to quantify"
  | unmatchedClosing place => s!"Unmatched ')' in grammar at {place}"
  | unclosedGroup place => s!"Unclosed group '(' in grammar at {place}"
  | emptyGroup place => s!"Empty group '()' in grammar at {place}"
  | emptyPattern => "Empty grammar"

end Prosody
