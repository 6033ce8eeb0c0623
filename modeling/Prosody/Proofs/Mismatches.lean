import Prosody.Language
import Prosody.Path
import Prosody.Proofs.Ranking

/-!
# Mismatches of a word and a line

A mark stands for its letter, a weak one for its capital too. Where a mark of a word does not stand
for the symbol of a line at its place, the two mismatch, strongly or weakly as the mark is strong or
weak. The errors of a word are its mismatches.
-/

namespace Prosody

variable {k : Mark} {a b : Char}

namespace Mark

def StandsFor : Mark → Char → Prop
  | ⟨.unstressed, .weak⟩, a => a = 'u' ∨ a = 'U'
  | ⟨.stressed, .weak⟩, a => a = 's' ∨ a = 'S'
  | ⟨.unstressed, .strong⟩, a => a = 'U'
  | ⟨.stressed, .strong⟩, a => a = 'S'

instance instDecidableStandsFor : (k : Mark) → (a : Char) → Decidable (k.StandsFor a)
  | ⟨.unstressed, .weak⟩, a => inferInstanceAs (Decidable (a = 'u' ∨ a = 'U'))
  | ⟨.stressed, .weak⟩, a => inferInstanceAs (Decidable (a = 's' ∨ a = 'S'))
  | ⟨.unstressed, .strong⟩, a => inferInstanceAs (Decidable (a = 'U'))
  | ⟨.stressed, .strong⟩, a => inferInstanceAs (Decidable (a = 'S'))

theorem StandsFor.isStressed (h : k.StandsFor a) : isStressed a = (k.stress == .stressed) := by
  rcases k with ⟨_ | _, _ | _⟩
  · rcases h with rfl | rfl <;> rfl
  · cases h
    rfl
  · rcases h with rfl | rfl <;> rfl
  · cases h
    rfl

theorem toNat_toLower (a : Char) :
    a.toLower.toNat = if 65 ≤ a.toNat ∧ a.toNat ≤ 90 then a.toNat + 32 else a.toNat := by
  have hupper : (a.val ≥ 'A'.val ∧ a.val ≤ 'Z'.val) ↔ 65 ≤ a.toNat ∧ a.toNat ≤ 90 :=
    and_congr UInt32.le_iff_toNat_le UInt32.le_iff_toNat_le
  by_cases h : a.val ≥ 'A'.val ∧ a.val ≤ 'Z'.val
  · have hle := hupper.mp h
    have hlower : a.toLower.val = a.val + 32 := congrArg Char.val (dif_pos h)
    have hadd : (a.val + 32).toNat = (a.toNat + 32) % 2 ^ 32 := UInt32.toNat_add a.val 32
    rw [if_pos hle, Char.toNat, hlower, hadd]
    omega
  · have hlower : a.toLower = a := dif_neg h
    rw [if_neg fun hle => h (hupper.mpr hle), hlower]

/-- A letter and its capital are the characters with this lower case. -/
theorem toLower_eq_iff {c : Char} (h : b.toNat = c.toNat + 32)
    (hcapital : 65 ≤ c.toNat ∧ c.toNat ≤ 90) : a.toLower = b ↔ a = b ∨ a = c := by
  rw [← Char.toNat_inj, ← Char.toNat_inj, ← Char.toNat_inj, toNat_toLower]
  split <;> omega

theorem standsFor_iff (k : Mark) (a : Char) : k.StandsFor a ↔
    match k.force with
    | .strong => a = k.symbol
    | .weak => a.toLower = k.symbol := by
  rcases k with ⟨_ | _, _ | _⟩
  · exact (toLower_eq_iff (c := 'U') rfl (by decide)).symm
  · exact Iff.rfl
  · exact (toLower_eq_iff (c := 'S') rfl (by decide)).symm
  · exact Iff.rfl

theorem cost_of_standsFor (h : k.StandsFor a) : k.cost a = 0 := by
  rw [standsFor_iff] at h
  rw [cost]
  cases hforce : k.force <;> rw [hforce] at h <;> exact if_pos h

theorem cost_of_not_standsFor (h : ¬k.StandsFor a) :
    k.cost a = match k.force with | .strong => ⟨1, 0⟩ | .weak => ⟨0, 1⟩ := by
  rw [standsFor_iff] at h
  rw [cost]
  cases hforce : k.force <;> rw [hforce] at h <;> exact if_neg h

theorem cost_eq_zero_iff (k : Mark) (a : Char) : k.cost a = 0 ↔ k.StandsFor a := by
  refine ⟨fun h => ?_, cost_of_standsFor⟩
  by_contra hnot
  rw [cost_of_not_standsFor hnot] at h
  cases hforce : k.force <;> rw [hforce] at h <;> cases h

end Mark

namespace Word

def symbols (w : Word) : List Char := w.map Mark.symbol

theorem length_symbols (w : Word) : w.symbols.length = w.length := List.length_map _

def cost : Word → List Char → Tally
  | m :: w, symbol :: line => m.cost symbol + cost w line
  | _, _ => 0

/-- The places where a mark of force `f` does not stand for the symbol of the line. -/
def mismatches (f : Force) (w : Word) (line : List Char) : ℕ :=
  (w.zip line).countP fun x => x.1.force = f ∧ ¬x.1.StandsFor x.2

theorem mismatches_cons (f : Force) (k : Mark) (w : Word) (a : Char) (line : List Char) :
    mismatches f (k :: w) (a :: line) =
      w.mismatches f line + if k.force = f ∧ ¬k.StandsFor a then 1 else 0 := by
  rw [mismatches, List.zip_cons_cons, List.countP_cons, mismatches]
  simp only [decide_eq_true_eq]

theorem cost_eq_mismatches (w : Word) (line : List Char) :
    w.cost line = ⟨w.mismatches .strong line, w.mismatches .weak line⟩ := by
  induction w generalizing line with
  | nil => rfl
  | cons k w ih =>
    cases line with
    | nil => rfl
    | cons a line =>
      rw [cost, ih, mismatches_cons, mismatches_cons]
      by_cases h : k.StandsFor a
      · simp [Mark.cost_of_standsFor h, h, Tally.ext_iff]
      · rw [Mark.cost_of_not_standsFor h]
        cases hforce : k.force <;> simp [h, Tally.ext_iff, Nat.add_comm]

theorem total_cost (w : Word) (line : List Char) :
    (w.cost line).total = w.mismatches .strong line + w.mismatches .weak line := by
  rw [cost_eq_mismatches, Tally.total]

/-- Words are ranked by their strong mismatches, then by their weak ones, then by their letters. -/
def rank (w : Word) (line : List Char) : Rank :=
  toLex (w.mismatches .strong line, toLex (w.mismatches .weak line, w.symbols))

theorem rank_eq (w : Word) (line : List Char) : w.rank line = Rank.of (w.cost line) w := by
  rw [cost_eq_mismatches]
  rfl

end Word

theorem Path.cost_eq (p : Path) (line : List Char) : p.cost line = Word.cost p.marks line := by
  induction p generalizing line with
  | nil => rfl
  | cons q p ih =>
    cases line with
    | nil => rfl
    | cons c line => exact congrArg (q.mark.cost c + ·) (ih line)

end Prosody
