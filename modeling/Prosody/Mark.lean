/-!
# Syllable marks

A metre says of each syllable whether it carries stress and how strictly. The four marks are
written `u`, `s`, `U` and `S`, and are ordered by the code of the letter they are written with.
-/

namespace Prosody

/-- Whether a syllable carries stress. -/
inductive Stress where
  | unstressed
  | stressed
  deriving DecidableEq

/-- How strictly a line must agree with a mark. -/
inductive Force where
  | weak
  | strong
  deriving DecidableEq

/-- What a metre asks of one syllable. -/
structure Mark where
  stress : Stress
  force : Force
  deriving DecidableEq

namespace Mark

/-- Weak marks are written in lower case and strong ones in upper case. -/
def symbol : Mark → Char
  | ⟨.unstressed, .weak⟩ => 'u'
  | ⟨.stressed, .weak⟩ => 's'
  | ⟨.unstressed, .strong⟩ => 'U'
  | ⟨.stressed, .strong⟩ => 'S'

def ofChar? : Char → Option Mark
  | 'u' => some ⟨.unstressed, .weak⟩
  | 's' => some ⟨.stressed, .weak⟩
  | 'U' => some ⟨.unstressed, .strong⟩
  | 'S' => some ⟨.stressed, .strong⟩
  | _ => none

theorem ofChar?_symbol (m : Mark) : ofChar? m.symbol = some m := by
  rcases m with ⟨_ | _, _ | _⟩ <;> rfl

theorem symbol_of_ofChar? {c : Char} {m : Mark} (h : ofChar? c = some m) : m.symbol = c := by
  unfold ofChar? at h
  split at h <;> cases h <;> rfl

theorem symbol_injective {a b : Mark} (h : a.symbol = b.symbol) : a = b := by
  have := ofChar?_symbol a
  rw [h, ofChar?_symbol] at this
  exact (Option.some.inj this).symm

def isStrong (m : Mark) : Bool := m.force == .strong

instance : LT Mark := ⟨fun a b => a.symbol < b.symbol⟩

instance (a b : Mark) : Decidable (a < b) := inferInstanceAs (Decidable (a.symbol < b.symbol))

theorem lt_iff (a b : Mark) : a < b ↔ a.symbol < b.symbol := Iff.rfl

instance ltIrrefl : Std.Irrefl (· < · : Mark → Mark → Prop) := ⟨fun _ => Char.lt_irrefl _⟩

instance ltAsymm : Std.Asymm (· < · : Mark → Mark → Prop) := ⟨fun _ _ => Char.lt_asymm⟩

instance ltTrans : Trans (· < · : Mark → Mark → Prop) (· < ·) (· < ·) := ⟨Char.lt_trans⟩

instance ltTrichotomous : Std.Trichotomous (· < · : Mark → Mark → Prop) :=
  ⟨fun _ _ h k => symbol_injective (Char.ltTrichotomous.trichotomous _ _ h k)⟩

end Mark

/-- The letters that stand for a stressed syllable in a line. -/
def isStressed (c : Char) : Bool := c == 's' || c == 'S'

end Prosody
