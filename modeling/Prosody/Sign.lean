import Prosody.Mark

/-!
# The signs of a pattern

Nine characters may stand in a pattern: the four marks, three quantifiers and two brackets.
-/

namespace Prosody

/-- How often the syllable or group before a quantifier occurs. -/
inductive Quantifier where
  | many
  | optional
  | wildcard
  deriving DecidableEq

namespace Quantifier

def symbol : Quantifier → Char
  | many => '*'
  | optional => '?'
  | wildcard => 'w'

def ofChar? : Char → Option Quantifier
  | '*' => some many
  | '?' => some optional
  | 'w' => some wildcard
  | _ => none

theorem ofChar?_symbol (q : Quantifier) : ofChar? q.symbol = some q := by
  cases q <;> rfl

theorem symbol_of_ofChar? {c : Char} {q : Quantifier} (h : ofChar? c = some q) :
    q.symbol = c := by
  unfold ofChar? at h
  split at h <;> cases h <;> rfl

/-- Only `*` lets a construct occur more than once. -/
def isMany (q : Quantifier) : Bool := q == many

end Quantifier

/-- What a character of a pattern stands for. -/
inductive Sign where
  | mark (mark : Mark)
  | quantifier (quantifier : Quantifier)
  | opening
  | closing
  deriving DecidableEq

namespace Sign

def symbol : Sign → Char
  | mark m => m.symbol
  | quantifier q => q.symbol
  | opening => '('
  | closing => ')'

def ofChar? (c : Char) : Option Sign :=
  if c = '(' then some opening
  else if c = ')' then some closing
  else match Quantifier.ofChar? c with
    | some q => some (quantifier q)
    | none => (Mark.ofChar? c).map mark

theorem ofChar?_symbol (s : Sign) : ofChar? s.symbol = some s := by
  rcases s with ⟨⟨_ | _, _ | _⟩⟩ | ⟨_ | _ | _⟩ | _ | _ <;> decide

theorem symbol_of_ofChar? {c : Char} {s : Sign} (h : ofChar? c = some s) : s.symbol = c := by
  unfold ofChar? at h
  split at h
  · cases h
    simp_all [symbol]
  · split at h
    · cases h
      simp_all [symbol]
    · split at h
      · next q hq =>
        cases h
        exact Quantifier.symbol_of_ofChar? hq
      · cases hm : Mark.ofChar? c with
        | none => simp [hm] at h
        | some m =>
          simp only [hm, Option.map_some, Option.some.injEq] at h
          subst h
          exact Mark.symbol_of_ofChar? hm

end Sign

end Prosody
