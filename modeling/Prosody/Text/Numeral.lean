/-!
# Numerals

A numeral is one or more decimal digits, with or without a plus sign in front. Leading zeros are
allowed, and there is a greatest number that can be read.
-/

namespace Prosody.Text

def digit? (c : Char) : Option Nat :=
  if '0' ≤ c ∧ c ≤ '9' then some (c.toNat - '0'.toNat) else none

/-- The number written by digits, after `n` has been read. -/
def digits? (n : Nat) : List Char → Option Nat
  | [] => some n
  | c :: rest =>
    match digit? c with
    | none => none
    | some d => digits? (10 * n + d) rest

def unsigned? : List Char → Option Nat
  | [] => none
  | c :: rest => digits? 0 (c :: rest)

/-- Reads a number up to `greatest`. -/
def numeral? (greatest : Nat) (text : List Char) : Option Nat :=
  let number :=
    match text with
    | '+' :: rest => unsigned? rest
    | _ => unsigned? text
  number.filter (· ≤ greatest)

end Prosody.Text
