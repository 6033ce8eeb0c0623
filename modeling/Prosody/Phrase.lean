import Prosody.Scheme

/-!
# Patterns as they are written

A phrase keeps every bracket and quantifier of a pattern. Its scheme forgets the brackets of
unquantified groups and all but the last quantifier of a run.
-/

namespace Prosody

inductive Phrase where
  | done
  | syllable (mark : Mark) (run : List Quantifier) (rest : Phrase)
  | group (inside : Phrase) (run : List Quantifier) (rest : Phrase)
  deriving DecidableEq

namespace Phrase

def append : Phrase → Phrase → Phrase
  | done, t => t
  | syllable m run rest, t => syllable m run (rest.append t)
  | group inside run rest, t => group inside run (rest.append t)

instance : Append Phrase := ⟨append⟩

@[simp] theorem done_append (t : Phrase) : done ++ t = t := rfl

@[simp] theorem syllable_append (m : Mark) (run : List Quantifier) (s t : Phrase) :
    syllable m run s ++ t = syllable m run (s ++ t) := rfl

@[simp] theorem group_append (i : Phrase) (run : List Quantifier) (s t : Phrase) :
    group i run s ++ t = group i run (s ++ t) := rfl

@[simp] theorem append_done (s : Phrase) : s ++ done = s := by
  induction s with
  | done => rfl
  | syllable m run rest ih => simp [ih]
  | group inside run rest _ ih => simp [ih]

theorem append_assoc (r s t : Phrase) : r ++ s ++ t = r ++ (s ++ t) := by
  induction r with
  | done => rfl
  | syllable m run rest ih => simp [ih]
  | group inside run rest _ ih => simp [ih]

def isDone : Phrase → Bool
  | done => true
  | _ => false

/-- The constructs of a phrase from the last to the first, in front of `t`. The quantifiers of a
construct turn round with it, and the inside of a group stays as it is. -/
def reverseOnto : Phrase → Phrase → Phrase
  | done, t => t
  | syllable m run rest, t => rest.reverseOnto (syllable m run.reverse t)
  | group inside run rest, t => rest.reverseOnto (group inside run.reverse t)

def reverse (s : Phrase) : Phrase := s.reverseOnto done

theorem reverseOnto_eq (s t : Phrase) : s.reverseOnto t = s.reverse ++ t := by
  induction s generalizing t with
  | done => rfl
  | syllable m run rest ih =>
    rw [reverse, reverseOnto, reverseOnto, ih, ih (syllable m run.reverse done), append_assoc]
    rfl
  | group inside run rest _ ih =>
    rw [reverse, reverseOnto, reverseOnto, ih, ih (group inside run.reverse done), append_assoc]
    rfl

@[simp] theorem reverse_done : done.reverse = done := rfl

theorem reverse_syllable (m : Mark) (run : List Quantifier) (s : Phrase) :
    (syllable m run s).reverse = s.reverse ++ syllable m run.reverse done :=
  reverseOnto_eq s (syllable m run.reverse done)

theorem reverse_group (i : Phrase) (run : List Quantifier) (s : Phrase) :
    (group i run s).reverse = s.reverse ++ group i run.reverse done :=
  reverseOnto_eq s (group i run.reverse done)

/-- One more quantifier before those of the first construct. -/
def quantify (q : Quantifier) : Phrase → Phrase
  | done => done
  | syllable m run rest => syllable m (q :: run) rest
  | group inside run rest => group inside (q :: run) rest

/-- The characters of a phrase. -/
def write : Phrase → List Char
  | done => []
  | syllable m run rest => m.symbol :: (run.map Quantifier.symbol ++ rest.write)
  | group inside run rest =>
    '(' :: (inside.write ++ ')' :: (run.map Quantifier.symbol ++ rest.write))

/-- The number of characters of a phrase. -/
def width : Phrase → Nat
  | done => 0
  | syllable _ run rest => 1 + run.length + rest.width
  | group inside run rest => 2 + inside.width + run.length + rest.width

theorem length_write (p : Phrase) : p.write.length = p.width := by
  induction p with
  | done => rfl
  | syllable m run rest ih =>
    simp only [write, width, List.length_cons, List.length_append, List.length_map, ih]
    omega
  | group inside run rest ihi ih =>
    simp only [write, width, List.length_cons, List.length_append, List.length_map, ihi, ih]
    omega

theorem write_append (s t : Phrase) : (s ++ t).write = s.write ++ t.write := by
  induction s with
  | done => rfl
  | syllable m run rest ih => simp [write, ih]
  | group inside run rest _ ih => simp [write, ih]

theorem write_reverse_quantify {s : Phrase} (h : s ≠ done) (q : Quantifier) :
    (s.quantify q).reverse.write = s.reverse.write ++ [q.symbol] := by
  cases s with
  | done => exact absurd rfl h
  | syllable m run rest => simp [quantify, reverse_syllable, write_append, write]
  | group inside run rest => simp [quantify, reverse_group, write_append, write]

/-- No group of the phrase is empty. -/
def Full : Phrase → Prop
  | done => True
  | syllable _ _ rest => rest.Full
  | group inside _ rest => inside ≠ done ∧ inside.Full ∧ rest.Full

theorem full_append (s t : Phrase) : (s ++ t).Full ↔ s.Full ∧ t.Full := by
  induction s with
  | done => simp [Full]
  | syllable m run rest ih => simp [Full, ih]
  | group inside run rest _ ih => simp [Full, ih, and_assoc]

theorem full_reverse (s : Phrase) : s.reverse.Full ↔ s.Full := by
  induction s with
  | done => rfl
  | syllable m run rest ih => simp [reverse_syllable, full_append, Full, ih]
  | group inside run rest _ ih =>
    simp only [reverse_group, full_append, Full, ih, and_true]
    exact ⟨fun h => ⟨h.2.1, h.2.2, h.1⟩, fun h => ⟨h.2.2, h.1, h.2.1⟩⟩

/-- The normal form of a phrase whose first character stands at `place`. -/
def scheme (place : Nat) : Phrase → Scheme
  | done => .done
  | syllable m run rest =>
    .syllable place m run.getLast? (rest.scheme (place + 1 + run.length))
  | group inside run rest =>
    let after := rest.scheme (place + 2 + inside.width + run.length)
    match run.getLast? with
    | some q => .group place q (inside.scheme (place + 1)) after
    | none => inside.scheme (place + 1) ++ after

end Phrase

end Prosody
