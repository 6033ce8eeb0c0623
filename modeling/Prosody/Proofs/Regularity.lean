import Prosody.Proofs.LeastWord

/-!
# Patterns that are scanned as they are written

Scanning follows the regular expression of a pattern if every quantified group starts with an
unquantified syllable, cannot be left at a later one, and holds nothing else where a line may end in
it. Both conditions are read off the scheme.
-/

namespace Prosody

open Computability

variable {L : Language Mark} {q : Quantifier} {P : Passage} {loops closes led : Bool}
  {s t : Scheme} {border : ℕ} {line : List Char}

namespace Quantifier

theorem leaving_eq_repeated (hearly : P.early = 1) (hwhole : P.whole = L) :
    q.leaving P = q.repeated L := by
  rw [leaving, repeated_eq, hearly, hwhole, mul_one, add_comm]

theorem staying_eq_repeated (hpart : P.part = 1 + L) (hwhole : P.whole = L) :
    q.staying P = q.repeated L := by
  have hmore : L∗ * L ≤ L∗ := kstar_mul_le_kstar
  rw [staying, repeated_eq, hpart, hwhole, mul_add, mul_one, add_eq_left_iff_le.mpr hmore]

end Quantifier

namespace Scheme

/-- The run starts with an unquantified syllable, the only one before which the group around the run
may be left. -/
def headed (closes : Bool) : Scheme → Bool
  | syllable _ _ none rest => !(closes && rest.hasPlain)
  | _ => false

def regular (loops : Bool) : Scheme → Bool
  | done => true
  | syllable _ _ _ rest => rest.regular loops
  | group _ q inside rest =>
    inside.headed (loops && rest = done) && inside.regular q.isMany && rest.regular loops

/-- After the last unquantified syllable directly under the whole, groups hold one construct. -/
def settled : Scheme → Bool
  | done => true
  | syllable _ _ _ rest => rest.settled
  | group _ _ inside rest => (rest.hasPlain || inside.size == 1) && rest.settled

theorem early_passage_of_led (h : (closes && t.hasPlain) = false) :
    (t.passage loops closes true).early = 0 := by
  induction t with
  | done => rfl
  | syllable place m q rest ih =>
    cases q with
    | none =>
      rw [hasPlain, Bool.and_true] at h
      subst h
      simp [passage, ih]
    | some q => simp [passage, ih h]
  | group place q inside rest _ ih => simp [passage, ih h]

theorem early_passage_of_headed (h : t.headed closes = true) :
    (t.passage loops closes false).early = 1 := by
  cases t with
  | done => cases h
  | syllable place m q rest =>
    cases q with
    | none =>
      rw [headed, Bool.not_eq_true'] at h
      simp [passage, early_passage_of_led h]
    | some q => cases h
  | group place q inside rest => cases h

theorem whole_passage (h : t.regular loops = true) :
    (t.passage loops closes led).whole = t.language := by
  induction t generalizing loops closes led with
  | done => rfl
  | syllable place m q rest ih =>
    cases q with
    | none => rw [passage, language_syllable, ih h]
    | some q => rw [passage, language_quantified, ih h]
  | group place q inside rest ihi ih =>
    rw [regular, Bool.and_eq_true, Bool.and_eq_true] at h
    obtain ⟨⟨hheaded, hinside⟩, hrest⟩ := h
    have hearly : (inside.passage q.isMany (loops && rest = done) false).early = 1 :=
      early_passage_of_headed hheaded
    rw [passage, language_group, Quantifier.leaving_eq_repeated hearly (ihi hinside), ih hrest]

theorem eq_syllable_of_headed (hheaded : t.headed closes = true) (hsize : t.size = 1) :
    ∃ place m, t = syllable place m none done := by
  cases t with
  | done => cases hheaded
  | syllable place m q rest =>
    cases q with
    | none =>
      cases rest with
      | done => exact ⟨place, m, rfl⟩
      | syllable => simp [size] at hsize
      | group => simp [size] at hsize
    | some q => cases hheaded
  | group place q inside rest => cases hheaded

theorem passage_single (place : ℕ) (m : Mark) (loops closes : Bool) :
    (syllable place m none done).passage loops closes false = ⟨{[m]}, 1, 1 + {[m]}⟩ := by
  simp [passage]

/-- A line that stops in a group of one syllable has read the group to its end. -/
theorem staying_of_headed (hheaded : t.headed closes = true) (hsize : t.size = 1) :
    q.staying (t.passage loops closes false) = q.repeated t.language := by
  obtain ⟨place, m, rfl⟩ := eq_syllable_of_headed hheaded hsize
  rw [language_syllable, language_done, mul_one, passage_single]
  exact Quantifier.staying_eq_repeated rfl rfl

theorem scanned_eq_language (hregular : s.regular false = true) (hsettled : s.settled = true) :
    s.scanned = s.language := by
  induction s with
  | done => rfl
  | syllable place m q rest ih =>
    cases q with
    | none => rw [scanned, language_syllable, ih hregular hsettled]
    | some q => rw [scanned, language_quantified, ih hregular hsettled]
  | group place q inside rest _ ih =>
    rw [regular, Bool.and_eq_true, Bool.and_eq_true, Bool.false_and] at hregular
    rw [settled, Bool.and_eq_true, Bool.or_eq_true, beq_iff_eq] at hsettled
    obtain ⟨⟨hheaded, hinside⟩, hrest⟩ := hregular
    have hearly : (inside.passage q.isMany false false).early = 1 :=
      early_passage_of_headed hheaded
    have hlanguage := ih hrest hsettled.2
    rw [scanned, language_group, Quantifier.leaving_eq_repeated hearly (whole_passage hinside),
      hlanguage]
    by_cases hplain : rest.hasPlain = true
    · rw [if_pos hplain, add_zero]
    · rw [if_neg hplain, add_eq_left_iff_le]
      have hsize := hsettled.1.resolve_left hplain
      rw [Bool.not_eq_true] at hplain
      have hone : 1 ≤ rest.language := Word.one_le (hlanguage ▸ nil_mem_scanned hplain)
      rw [staying_of_headed hheaded hsize]
      exact le_mul_of_one_le_right' hone

theorem nil_notMem_language (h : s.hasPlain = true) : [] ∉ s.language := by
  induction s with
  | done => cases h
  | syllable place m q rest ih =>
    cases q with
    | none =>
      rw [language_syllable]
      rintro ⟨_, rfl, v, -, hv⟩
      cases hv
    | some q =>
      rw [language_quantified]
      rintro ⟨u, -, v, hv, hnil⟩
      rw [List.append_eq_nil_iff] at hnil
      exact ih h (hnil.2 ▸ hv)
  | group place q inside rest _ ih =>
    rw [language_group]
    rintro ⟨u, -, v, hv, hnil⟩
    rw [List.append_eq_nil_iff] at hnil
    exact ih h (hnil.2 ▸ hv)

end Scheme

end Prosody
