import Prosody.Proofs.Beginnings
import Prosody.Proofs.Derivation
import Prosody.Proofs.Regularity

/-!
# Schemes that scan alike

Places do not matter to the words that scanning spells, and of a quantifier it matters only whether
it repeats. Nor does it matter whether a quantified syllable stands in a group of its own: scanning
leaves such a group before its syllable or behind it, and so reads the syllable as often as the
quantifier lets it.
-/

namespace Prosody

namespace Quantifier

variable {q r : Quantifier}

theorem repeated_congr (h : q.isMany = r.isMany) (L : Language Mark) :
    q.repeated L = r.repeated L := by
  rw [repeated_eq, repeated_eq, h]

theorem leaving_congr (h : q.isMany = r.isMany) (P : Passage) : q.leaving P = r.leaving P := by
  rw [leaving, leaving, h]

theorem staying_congr (h : q.isMany = r.isMany) (P : Passage) : q.staying P = r.staying P := by
  rw [staying, staying, h]

end Quantifier

namespace Scheme

/-- The schemes differ only in places, in which of the quantifiers that do not repeat they have, and
in brackets that the second has around quantified syllables of the first. -/
inductive Alike : Scheme → Scheme → Prop where
  | done : Alike done done
  | plain {m : Mark} {s t : Scheme} (n k : ℕ) (rest : Alike s t) :
      Alike (syllable n m none s) (syllable k m none t)
  | quantified {m : Mark} {q r : Quantifier} {s t : Scheme} (n k : ℕ)
      (repeats : q.isMany = r.isMany) (rest : Alike s t) :
      Alike (syllable n m (some q) s) (syllable k m (some r) t)
  | group {q r : Quantifier} {i j s t : Scheme} (n k : ℕ) (repeats : q.isMany = r.isMany)
      (inside : Alike i j) (rest : Alike s t) : Alike (group n q i s) (group k r j t)
  | bracketed {m : Mark} {q r : Quantifier} {s t : Scheme} (n k l : ℕ)
      (repeats : q.isMany = r.isMany) (rest : Alike s t) :
      Alike (syllable n m (some q) s) (group k r (syllable l m none .done) t)

namespace Alike

variable {i j s t : Scheme}

theorem append (hs : Alike s t) (hi : Alike i j) : Alike (s ++ i) (t ++ j) := by
  induction hs with
  | done => exact hi
  | plain n k _ ih => exact .plain n k ih
  | quantified n k hqr _ ih => exact .quantified n k hqr ih
  | group n k hqr hinside _ _ ih => exact .group n k hqr hinside ih
  | bracketed n k l hqr _ ih => exact .bracketed n k l hqr ih

theorem eq_done_iff (h : Alike s t) : s = .done ↔ t = .done := by
  cases h <;> simp

theorem hasPlain_eq (h : Alike s t) : s.hasPlain = t.hasPlain := by
  induction h with
  | done => rfl
  | plain _ _ _ _ => rfl
  | quantified _ _ _ _ ih => exact ih
  | group _ _ _ _ _ _ ih => exact ih
  | bracketed _ _ _ _ _ ih => exact ih

theorem passage_eq (h : Alike s t) (loops closes led : Bool) :
    s.passage loops closes led = t.passage loops closes led := by
  induction h generalizing loops closes led with
  | done => rfl
  | plain n k _ ih => rw [passage, passage, ih]
  | quantified n k hqr _ ih => rw [passage, passage, ih, Quantifier.repeated_congr hqr]
  | group n k hqr _ hrest ihi ih =>
    rw [passage, passage, hqr, decide_eq_decide.mpr hrest.eq_done_iff, ihi, ih,
      Quantifier.leaving_congr hqr, Quantifier.staying_congr hqr]
  | @bracketed m q r s t n k l hqr _ ih =>
    have hstop : 1 ≤ (t.passage loops closes led).part := Word.one_le (nil_mem_part t _ _ _)
    have hpart : r.repeated {[m]} ≤ r.repeated {[m]} * (t.passage loops closes led).part :=
      le_mul_of_one_le_right' hstop
    rw [passage, passage, ih, passage_single, Quantifier.leaving_eq_repeated rfl rfl,
      Quantifier.staying_eq_repeated rfl rfl, Quantifier.repeated_congr hqr,
      add_eq_right_iff_le.mpr hpart]

theorem scanned_eq (h : Alike s t) : s.scanned = t.scanned := by
  induction h with
  | done => rfl
  | plain n k _ ih => rw [scanned, scanned, ih]
  | quantified n k hqr _ ih => rw [scanned, scanned, ih, Quantifier.repeated_congr hqr]
  | group n k hqr hinside hrest _ ih =>
    rw [scanned, scanned, hqr, hinside.passage_eq, hrest.hasPlain_eq, ih,
      Quantifier.leaving_congr hqr, Quantifier.staying_congr hqr]
  | @bracketed m q r s t n k l hqr _ ih =>
    rw [scanned, scanned, ih, passage_single, Quantifier.leaving_eq_repeated rfl rfl,
      Quantifier.staying_eq_repeated rfl rfl, Quantifier.repeated_congr hqr]
    by_cases hplain : t.hasPlain = true
    · rw [if_pos hplain, add_zero]
    · rw [if_neg hplain]
      rw [Bool.not_eq_true] at hplain
      have hstop : 1 ≤ t.scanned := Word.one_le (nil_mem_scanned hplain)
      have hpart : r.repeated {[m]} ≤ r.repeated {[m]} * t.scanned :=
        le_mul_of_one_le_right' hstop
      exact (add_eq_left_iff_le.mpr hpart).symm

end Alike

end Scheme

namespace Phrase

variable {run run' : List Quantifier} {i j s t : Phrase}

/-- Of the quantifiers behind a syllable it matters only whether the last one repeats. -/
theorem alike_syllable (m : Mark)
    (hrun : run.getLast?.map Quantifier.isMany = run'.getLast?.map Quantifier.isMany)
    (hrest : ∀ n k, (s.scheme n).Alike (t.scheme k)) (n k : ℕ) :
    ((syllable m run s).scheme n).Alike ((syllable m run' t).scheme k) := by
  rw [scheme, scheme]
  cases hq : run.getLast? <;> cases hr : run'.getLast? <;> rw [hq, hr] at hrun
  · exact .plain n k (hrest _ _)
  · cases hrun
  · cases hrun
  · exact .quantified n k (Option.some.inj hrun) (hrest _ _)

theorem alike_group
    (hrun : run.getLast?.map Quantifier.isMany = run'.getLast?.map Quantifier.isMany)
    (hinside : ∀ n k, (i.scheme n).Alike (j.scheme k))
    (hrest : ∀ n k, (s.scheme n).Alike (t.scheme k)) (n k : ℕ) :
    ((group i run s).scheme n).Alike ((group j run' t).scheme k) := by
  rw [scheme, scheme]
  cases hq : run.getLast? <;> cases hr : run'.getLast? <;> rw [hq, hr] at hrun
  · exact (hinside _ _).append (hrest _ _)
  · cases hrun
  · cases hrun
  · exact .group n k (Option.some.inj hrun) (hinside _ _) (hrest _ _)

/-- A phrase makes schemes that scan alike, wherever it stands. -/
theorem alike_scheme (p : Phrase) (n k : ℕ) : (p.scheme n).Alike (p.scheme k) := by
  induction p generalizing n k with
  | done => exact .done
  | syllable m run rest ih => exact alike_syllable m rfl ih n k
  | group inside run rest ihi ih => exact alike_group rfl ihi ih n k

end Phrase

namespace Gauge

variable {pattern other : List Char} {p : Phrase} {f : Fault} {border : ℕ} {g h : Gauge}

theorem ofPattern_of_read (hp : Phrase.read pattern = .ok p) (border : ℕ) :
    ofPattern pattern border = .ok ⟨pattern, p.scheme 0, border⟩ := by
  rw [ofPattern, Scheme.read, hp]

theorem ofPattern_of_error (hf : Phrase.read pattern = .error f) (border : ℕ) :
    ofPattern pattern border = .error f := by
  rw [ofPattern, Scheme.read, hf]

theorem scan_eq_of_alike (hg : ofPattern pattern border = .ok g)
    (hh : ofPattern other border = .ok h) (halike : g.scheme.Alike h.scheme) (line : List Char) :
    h.scan line = g.scan line := by
  obtain ⟨hreadg, hborderg⟩ := scheme_of_ofPattern hg
  obtain ⟨hreadh, hborderh⟩ := scheme_of_ofPattern hh
  obtain ⟨hneg, hfullg⟩ := Scheme.full_of_read hreadg
  obtain ⟨hneh, hfullh⟩ := Scheme.full_of_read hreadh
  have hbegun : h.scheme.begun = g.scheme.begun := by
    rw [Scheme.begun, Scheme.begun, halike.passage_eq]
  rw [scan, scan, hborderg, hborderh]
  exact Scheme.scan_congr hneh hfullh hneg hfullg hbegun halike.scanned_eq.symm border line

end Gauge

end Prosody
