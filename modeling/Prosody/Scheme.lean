import Prosody.Sign

/-!
# Metrical schemes

A scheme is a pattern in normal form: a sequence of syllables and quantified groups, in which each
construct has at most one quantifier and remembers the place of its first sign in the pattern.
-/

namespace Prosody

inductive Scheme where
  | done
  | syllable (place : Nat) (mark : Mark) (quantifier : Option Quantifier) (rest : Scheme)
  | group (place : Nat) (quantifier : Quantifier) (inside rest : Scheme)
  deriving DecidableEq

namespace Scheme

def append : Scheme → Scheme → Scheme
  | done, t => t
  | syllable p m q rest, t => syllable p m q (rest.append t)
  | group p q inside rest, t => group p q inside (rest.append t)

instance : Append Scheme := ⟨append⟩

@[simp] theorem done_append (t : Scheme) : done ++ t = t := rfl

@[simp] theorem syllable_append (p : Nat) (m : Mark) (q : Option Quantifier) (s t : Scheme) :
    syllable p m q s ++ t = syllable p m q (s ++ t) := rfl

@[simp] theorem group_append (p : Nat) (q : Quantifier) (i s t : Scheme) :
    group p q i s ++ t = group p q i (s ++ t) := rfl

theorem append_assoc (r s t : Scheme) : r ++ s ++ t = r ++ (s ++ t) := by
  induction r with
  | done => rfl
  | syllable p m q rest ih => simp [ih]
  | group p q inside rest _ ih => simp [ih]

/-- Constructs on all levels. -/
def size : Scheme → Nat
  | done => 0
  | syllable _ _ _ rest => rest.size + 1
  | group _ _ inside rest => inside.size + rest.size + 1

/-- Syllables on all levels. -/
def syllables : Scheme → Nat
  | done => 0
  | syllable _ _ _ rest => rest.syllables + 1
  | group _ _ inside rest => inside.syllables + rest.syllables

/-- Groups entered before the first syllable is met. -/
def lead : Scheme → Nat
  | group _ _ inside _ => inside.lead + 1
  | _ => 0

/-- Numbers of the outermost constructs, when constructs are counted in order from `n`. -/
def tops (n : Nat) : Scheme → List Nat
  | done => []
  | syllable _ _ _ rest => n :: rest.tops (n + 1)
  | group _ _ inside rest => n :: rest.tops (n + 1 + inside.size)

/-- Number of the last outermost unquantified syllable. -/
def lastPlain? (n : Nat) : Scheme → Option Nat
  | done => none
  | syllable _ _ none rest => rest.lastPlain? (n + 1) <|> some n
  | syllable _ _ (some _) rest => rest.lastPlain? (n + 1)
  | group _ _ inside rest => rest.lastPlain? (n + 1 + inside.size)

/-- The pattern without brackets or quantifiers that do not count. -/
def render : Scheme → List Char
  | done => []
  | syllable _ m none rest => m.symbol :: rest.render
  | syllable _ m (some q) rest => m.symbol :: q.symbol :: rest.render
  | group _ q inside rest => '(' :: (inside.render ++ ')' :: q.symbol :: rest.render)

end Scheme

end Prosody
