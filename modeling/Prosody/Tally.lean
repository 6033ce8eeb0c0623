import Prosody.Mark

/-!
# Counts of errors

A tally counts strong and weak errors apart. Tallies add field by field and are compared
lexicographically, so one strong error outweighs any number of weak ones.
-/

namespace Prosody

structure Tally where
  strong : Nat
  weak : Nat
  deriving DecidableEq

namespace Tally

def zero : Tally := ⟨0, 0⟩

def add (a b : Tally) : Tally := ⟨a.strong + b.strong, a.weak + b.weak⟩

instance : Zero Tally := ⟨zero⟩

instance : Add Tally := ⟨add⟩

/-- The same number of errors of both kinds. -/
def both (n : Nat) : Tally := ⟨n, n⟩

def total (t : Tally) : Nat := t.strong + t.weak

instance : LT Tally := ⟨fun a b => a.strong < b.strong ∨ a.strong = b.strong ∧ a.weak < b.weak⟩

instance : LE Tally := ⟨fun a b => a.strong < b.strong ∨ a.strong = b.strong ∧ a.weak ≤ b.weak⟩

theorem lt_iff (a b : Tally) :
    a < b ↔ a.strong < b.strong ∨ a.strong = b.strong ∧ a.weak < b.weak := Iff.rfl

theorem le_iff (a b : Tally) :
    a ≤ b ↔ a.strong < b.strong ∨ a.strong = b.strong ∧ a.weak ≤ b.weak := Iff.rfl

instance (a b : Tally) : Decidable (a < b) := decidable_of_iff _ (lt_iff a b).symm

instance (a b : Tally) : Decidable (a ≤ b) := decidable_of_iff _ (le_iff a b).symm

@[simp] theorem strong_zero : (0 : Tally).strong = 0 := rfl

@[simp] theorem weak_zero : (0 : Tally).weak = 0 := rfl

@[simp] theorem strong_add (a b : Tally) : (a + b).strong = a.strong + b.strong := rfl

@[simp] theorem weak_add (a b : Tally) : (a + b).weak = a.weak + b.weak := rfl

@[ext] theorem ext {a b : Tally} (hs : a.strong = b.strong) (hw : a.weak = b.weak) : a = b := by
  cases a
  cases b
  simp_all

theorem not_lt {a b : Tally} : ¬a < b ↔ b ≤ a := by
  rw [lt_iff, le_iff]
  omega

theorem le_refl (a : Tally) : a ≤ a := Or.inr ⟨rfl, Nat.le_refl _⟩

theorem le_of_lt {a b : Tally} (h : a < b) : a ≤ b := by
  rw [lt_iff] at h
  rw [le_iff]
  omega

theorem le_trans {a b d : Tally} (hab : a ≤ b) (hbd : b ≤ d) : a ≤ d := by
  rw [le_iff] at *
  omega

theorem add_le_add {a b d e : Tally} (hab : a ≤ b) (hde : d ≤ e) : a + d ≤ b + e := by
  simp only [le_iff, strong_add, weak_add] at *
  omega

theorem total_add (a b : Tally) : (a + b).total = a.total + b.total := by
  simp only [total, strong_add, weak_add]
  omega

end Tally

/-- A strong mark asks for its own letter and a weak one for its letter in either case; anything
else is one error of the mark's force. -/
def Mark.cost (m : Mark) (c : Char) : Tally :=
  match m.force with
  | .strong => if c = m.symbol then 0 else ⟨1, 0⟩
  | .weak => if c.toLower = m.symbol then 0 else ⟨0, 1⟩

theorem Mark.total_cost_le (m : Mark) (c : Char) : (m.cost c).total ≤ 1 := by
  unfold Mark.cost
  split <;> split <;> simp [Tally.total]

end Prosody
