import Prosody.Phrase
import Prosody.Fault

/-!
# Reading a pattern

A pattern is read from left to right, one sign at a time. The draft holds the phrase of the
innermost open group and, for each group around it, what stood before its opening bracket. Both are
kept in reverse, so that a sign is taken in at the front. The first sign that no phrase can continue
with is the fault.
-/

namespace Prosody

/-- A pattern read up to some place. -/
structure Draft where
  /-- Open groups from the inside out: the place of the bracket and, in reverse, the phrase before
  it. -/
  outer : List (Nat × Phrase)
  /-- The phrase of the innermost open group, in reverse. -/
  current : Phrase
  deriving DecidableEq

namespace Draft

def start : Draft := ⟨[], .done⟩

def mark (d : Draft) (m : Mark) : Draft :=
  { d with current := .syllable m [] d.current }

def quantify (d : Draft) (place : Nat) (q : Quantifier) : Except Fault Draft :=
  if d.current.isDone then .error (.looseQuantifier place q)
  else .ok { d with current := d.current.quantify q }

def openGroup (d : Draft) (place : Nat) : Draft := ⟨(place, d.current) :: d.outer, .done⟩

def closeGroup (d : Draft) (place : Nat) : Except Fault Draft :=
  match d.outer with
  | [] => .error (.unmatchedClosing place)
  | (opened, before) :: outer =>
    if d.current.isDone then .error (.emptyGroup opened)
    else .ok ⟨outer, .group d.current.reverse [] before⟩

/-- Takes in the character at `place`. -/
def read (d : Draft) (place : Nat) (c : Char) : Except Fault Draft :=
  match Sign.ofChar? c with
  | none => .error (.strangeCharacter place c)
  | some (.mark m) => .ok (d.mark m)
  | some (.quantifier q) => d.quantify place q
  | some .opening => .ok (d.openGroup place)
  | some .closing => d.closeGroup place

def readAll (d : Draft) (place : Nat) : List Char → Except Fault Draft
  | [] => .ok d
  | c :: rest =>
    match d.read place c with
    | .error fault => .error fault
    | .ok d => d.readAll (place + 1) rest

theorem readAll_append (d : Draft) (place : Nat) (s t : List Char) :
    d.readAll place (s ++ t) =
      match d.readAll place s with
      | .error fault => .error fault
      | .ok d => d.readAll (place + s.length) t := by
  induction s generalizing d place with
  | nil => rfl
  | cons c rest ih =>
    simp only [List.cons_append, readAll, List.length_cons]
    cases h : d.read place c with
    | error fault => rfl
    | ok e =>
      simp only [ih]
      rw [show place + 1 + rest.length = place + (rest.length + 1) by omega]

/-- The phrase, if every group is closed and something was read. -/
def finish (d : Draft) : Except Fault Phrase :=
  match d.outer with
  | (opened, _) :: _ => .error (.unclosedGroup opened)
  | [] => if d.current.isDone then .error .emptyPattern else .ok d.current.reverse

end Draft

def Phrase.read (pattern : List Char) : Except Fault Phrase :=
  match Draft.start.readAll 0 pattern with
  | .error fault => .error fault
  | .ok d => d.finish

def Scheme.read (pattern : List Char) : Except Fault Scheme :=
  match Phrase.read pattern with
  | .error fault => .error fault
  | .ok p => .ok (p.scheme 0)

end Prosody
