import Prosody.Proofs.Covering
import Prosody.Proofs.Likeness

/-!
# Weak marks in place of strong ones

A pattern may be written with some of its strong marks in lower case. It is read with the same
brackets and quantifiers, and scanning goes the same ways through it. Each word on such a way is
covered by the one with the weak marks, so no line is read worse.
-/

namespace Prosody

variable {a b : Mark} {c d : Char} {q : Quantifier} {P Q : Passage} {i j s t : Scheme}
  {pattern other u v w : List Char}

/-- A letter is kept, or the letter of a strong mark gives way to that of the weak one. -/
inductive LowersTo : Char → Char → Prop where
  | keep (c : Char) : LowersTo c c
  | unstressed : LowersTo 'U' 'u'
  | stressed : LowersTo 'S' 's'

namespace LowersTo

theorem exists_mark (h : LowersTo a.symbol c) : ∃ b : Mark, b.symbol = c ∧ b.Covers a := by
  generalize ha : a.symbol = letter at h
  cases h with
  | keep => exact ⟨a, ha, Or.inl rfl⟩
  | unstressed =>
    obtain rfl : a = ⟨.unstressed, .strong⟩ := Mark.symbol_injective ha
    exact ⟨_, rfl, Or.inr rfl⟩
  | stressed =>
    obtain rfl : a = ⟨.stressed, .strong⟩ := Mark.symbol_injective ha
    exact ⟨_, rfl, Or.inr rfl⟩

theorem eq_of_ofChar? (h : LowersTo c d) (hc : Mark.ofChar? c = none) : d = c := by
  cases h with
  | keep => rfl
  | unstressed => cases hc
  | stressed => cases hc

theorem eq_run {run : List Quantifier}
    (h : List.Forall₂ LowersTo (run.map Quantifier.symbol) w) : w = run.map Quantifier.symbol := by
  induction run generalizing w with
  | nil => exact List.forall₂_nil_left_iff.mp h
  | cons q run ih =>
    obtain ⟨d, w, hd, hw, rfl⟩ := List.forall₂_cons_left_iff.mp h
    have hq : Mark.ofChar? q.symbol = none := by cases q <;> rfl
    rw [hd.eq_of_ofChar? hq, ih hw, List.map_cons]

theorem split (h : List.Forall₂ LowersTo (u ++ v) w) :
    ∃ x y, w = x ++ y ∧ List.Forall₂ LowersTo u x ∧ List.Forall₂ LowersTo v y :=
  ⟨w.take u.length, w.drop u.length, (List.take_append_drop _ _).symm,
    (List.forall₂_take_append _ _ _ h.flip).flip, (List.forall₂_drop_append _ _ _ h.flip).flip⟩

end LowersTo

namespace Phrase

inductive Weakened : Phrase → Phrase → Prop where
  | done : Weakened done done
  | syllable {a b : Mark} {s t : Phrase} (covers : b.Covers a) (run : List Quantifier)
      (rest : Weakened s t) : Weakened (syllable a run s) (syllable b run t)
  | group {i j s t : Phrase} (run : List Quantifier) (inside : Weakened i j)
      (rest : Weakened s t) : Weakened (group i run s) (group j run t)

/-- Letters in lower case write a phrase with weak marks. -/
theorem exists_weakened {p : Phrase} (h : List.Forall₂ LowersTo p.write other) :
    ∃ p', p'.write = other ∧ p.Weakened p' := by
  induction p generalizing other with
  | done => exact ⟨done, (List.forall₂_nil_left_iff.mp h).symm, .done⟩
  | syllable m run rest ih =>
    obtain ⟨c, w, hc, hw, rfl⟩ := List.forall₂_cons_left_iff.mp h
    obtain ⟨u, v, rfl, hu, hv⟩ := LowersTo.split hw
    obtain ⟨b, rfl, hcovers⟩ := hc.exists_mark
    obtain ⟨rest', rfl, hrest⟩ := ih hv
    obtain rfl := LowersTo.eq_run hu
    exact ⟨syllable b run rest', rfl, .syllable hcovers run hrest⟩
  | group inside run rest ihi ih =>
    obtain ⟨c, _, hc, hbehind, rfl⟩ := List.forall₂_cons_left_iff.mp h
    obtain ⟨u, _, rfl, hu, hclosed⟩ := LowersTo.split hbehind
    obtain ⟨d, _, hd, hafter, rfl⟩ := List.forall₂_cons_left_iff.mp hclosed
    obtain ⟨v, w, rfl, hv, hw⟩ := LowersTo.split hafter
    obtain rfl := hc.eq_of_ofChar? rfl
    obtain rfl := hd.eq_of_ofChar? rfl
    obtain rfl := LowersTo.eq_run hv
    obtain ⟨inside', rfl, hinside⟩ := ihi hu
    obtain ⟨rest', rfl, hrest⟩ := ih hw
    exact ⟨group inside' run rest', rfl, .group run hinside hrest⟩

theorem Weakened.eq_done_iff {s t : Phrase} (h : s.Weakened t) : s = .done ↔ t = .done := by
  cases h <;> simp

theorem Weakened.full {s t : Phrase} (h : s.Weakened t) (hs : s.Full) : t.Full := by
  induction h with
  | done => trivial
  | syllable _ _ _ ih => exact ih hs
  | group _ hinside _ ihi ih =>
    exact ⟨mt hinside.eq_done_iff.mpr hs.1, ihi hs.2.1, ih hs.2.2⟩

end Phrase

namespace Passage

structure CoveredBy (P Q : Passage) : Prop where
  whole : Word.CoveredBy P.whole Q.whole
  early : Word.CoveredBy P.early Q.early
  part : Word.CoveredBy P.part Q.part

theorem CoveredBy.leaving (h : P.CoveredBy Q) (q : Quantifier) :
    Word.CoveredBy (q.leaving P) (q.leaving Q) := by
  unfold Quantifier.leaving
  split
  · exact h.whole.kstar.mul h.early
  · exact h.whole.add h.early

theorem CoveredBy.staying (h : P.CoveredBy Q) (q : Quantifier) :
    Word.CoveredBy (q.staying P) (q.staying Q) := by
  unfold Quantifier.staying
  split
  · exact h.whole.kstar.mul h.part
  · exact h.part

end Passage

namespace Scheme

inductive Weakened : Scheme → Scheme → Prop where
  | done : Weakened done done
  | syllable {a b : Mark} {s t : Scheme} (n k : ℕ) (covers : b.Covers a)
      (q : Option Quantifier) (rest : Weakened s t) :
      Weakened (syllable n a q s) (syllable k b q t)
  | group {i j s t : Scheme} (n k : ℕ) (q : Quantifier) (inside : Weakened i j)
      (rest : Weakened s t) : Weakened (group n q i s) (group k q j t)

namespace Weakened

theorem append (hs : s.Weakened t) (hi : i.Weakened j) : (s ++ i).Weakened (t ++ j) := by
  induction hs with
  | done => exact hi
  | syllable n k hcovers q _ ih => exact .syllable n k hcovers q ih
  | group n k q hinside _ _ ih => exact .group n k q hinside ih

theorem eq_done_iff (h : s.Weakened t) : s = .done ↔ t = .done := by
  cases h <;> simp

theorem hasPlain_eq (h : s.Weakened t) : s.hasPlain = t.hasPlain := by
  induction h with
  | done => rfl
  | syllable _ _ _ q _ ih =>
    cases q with
    | none => rfl
    | some q => exact ih
  | group _ _ _ _ _ _ ih => exact ih

theorem passage (h : s.Weakened t) (loops closes led : Bool) :
    (s.passage loops closes led).CoveredBy (t.passage loops closes led) := by
  induction h generalizing loops closes led with
  | done => exact ⟨.of_le le_rfl, .of_le le_rfl, .of_le le_rfl⟩
  | syllable n k hcovers q _ ih =>
    have hmark := Word.CoveredBy.single hcovers
    cases q with
    | none =>
      have hrest := ih loops closes true
      exact ⟨hmark.mul hrest.whole, (Word.CoveredBy.of_le le_rfl).add (hmark.mul hrest.early),
        (Word.CoveredBy.of_le le_rfl).add (hmark.mul hrest.part)⟩
    | some q =>
      have hrest := ih loops closes led
      have hmarks := hmark.repeated q
      exact ⟨hmarks.mul hrest.whole, hmarks.mul hrest.early, hmarks.mul hrest.part⟩
  | group n k q _ hrest ihi ih =>
    rw [Scheme.passage, Scheme.passage, decide_eq_decide.mpr hrest.eq_done_iff]
    have hinside (closes : Bool) := ihi q.isMany closes false
    have hafter := ih loops closes led
    exact ⟨((hinside _).leaving q).mul hafter.whole, ((hinside _).leaving q).mul hafter.early,
      ((hinside _).staying q).add (((hinside _).leaving q).mul hafter.part)⟩

theorem scanned (h : s.Weakened t) : Word.CoveredBy s.scanned t.scanned := by
  induction h with
  | done => exact .of_le le_rfl
  | syllable n k hcovers q _ ih =>
    have hmark := Word.CoveredBy.single hcovers
    cases q with
    | none => exact hmark.mul ih
    | some q => exact (hmark.repeated q).mul ih
  | group n k q hinside hrest _ ih =>
    have hpassage := hinside.passage q.isMany false false
    rw [Scheme.scanned, Scheme.scanned, hrest.hasPlain_eq]
    apply ((hpassage.leaving q).mul ih).add
    split
    · exact .of_le le_rfl
    · exact hpassage.staying q

end Weakened

end Scheme

theorem Phrase.Weakened.scheme {s t : Phrase} (h : s.Weakened t) (n k : ℕ) :
    (s.scheme n).Weakened (t.scheme k) := by
  induction h generalizing n k with
  | done => exact .done
  | syllable hcovers run _ ih => exact .syllable n k hcovers run.getLast? (ih _ _)
  | group run _ _ ihi ih =>
    rw [Phrase.scheme, Phrase.scheme]
    cases run.getLast? with
    | none => exact (ihi _ _).append (ih _ _)
    | some q => exact .group _ _ q (ihi _ _) (ih _ _)

namespace Gauge

variable {border : ℕ} {g : Gauge}

/-- A pattern is also read with any of its strong marks in lower case. Then no line is read worse:
it is not overrun if it was not before, and it is read to its end if it was so before, with no more
errors. -/
theorem weak_marks_do_no_harm (hg : ofPattern pattern border = .ok g)
    (hlowers : List.Forall₂ LowersTo pattern other) :
    ∃ h, ofPattern other border = .ok h ∧ ∀ line,
      ((g.scan line).overrun = false → (h.scan line).overrun = false) ∧
      ((g.scan line).isMatch = true →
        (h.scan line).isMatch = true ∧ (h.scan line).tally ≤ (g.scan line).tally) := by
  obtain ⟨p, hp, hscheme⟩ := Scheme.exists_phrase_of_read (scheme_of_ofPattern hg).1
  obtain ⟨hne, hfull, rfl⟩ := Phrase.derives_of_read hp
  obtain ⟨p', rfl, hweakened⟩ := Phrase.exists_weakened hlowers
  have hp' := Phrase.read_write (mt hweakened.eq_done_iff.mpr hne) (hweakened.full hfull)
  have hh := ofPattern_of_read hp' border
  have hschemes : g.scheme.Weakened (p'.scheme 0) := by
    rw [← hscheme]
    exact hweakened.scheme 0 0
  refine ⟨_, hh, fun line => ?_⟩
  have hnoWorse := noWorse_of_coveredBy hg hh (hschemes.passage _ _ _).part hschemes.scanned line
  exact ⟨hnoWorse.overrun, hnoWorse.isMatch⟩

/-- One of the strong marks of a group is made weak and two others are kept, so an error of `UuS`
becomes a weak one. -/
theorem weak_marks_do_no_harm_of_nested :
    ∃ g, ofPattern "(US)*u?S".toList 3 = .ok g ∧
      List.Forall₂ LowersTo "(US)*u?S".toList "(Us)*u?S".toList ∧
      ∃ h, ofPattern "(Us)*u?S".toList 3 = .ok h ∧
        (g.scan "UuS".toList).tally = ⟨1, 0⟩ ∧ (h.scan "UuS".toList).tally = ⟨0, 1⟩ ∧ ∀ line,
          ((g.scan line).overrun = false → (h.scan line).overrun = false) ∧
          ((g.scan line).isMatch = true →
            (h.scan line).isMatch = true ∧ (h.scan line).tally ≤ (g.scan line).tally) := by
  have hg : ofPattern "(US)*u?S".toList 3 = .ok _ := rfl
  have hh : ofPattern "(Us)*u?S".toList 3 = .ok _ := rfl
  have hlowers : List.Forall₂ LowersTo "(US)*u?S".toList "(Us)*u?S".toList :=
    .cons (.keep '(') (.cons (.keep 'U') (.cons .stressed
      (List.forall₂_same.mpr fun c _ => .keep c)))
  obtain ⟨h, hweakened, hscan⟩ := weak_marks_do_no_harm hg hlowers
  obtain rfl := Except.ok.inj (hweakened.symm.trans hh)
  exact ⟨_, hg, hlowers, _, hweakened, by decide, by decide, hscan⟩

end Gauge

end Prosody
