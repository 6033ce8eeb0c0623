import Prosody.Draft
import Mathlib.Data.List.Basic

/-!
# The normal form of a phrase

The scheme of a phrase with no empty group has no empty group either, and the places of the
constructs increase in reading order.
-/

namespace Prosody

variable {p : Phrase} {n : ℕ} {q : Quantifier}

namespace Phrase

theorem isDone_iff : p.isDone = true ↔ p = done := by
  cases p <;> simp [isDone]

theorem append_ne_done {s t : Phrase} (ht : t ≠ done) : s ++ t ≠ done := by
  cases s with
  | done => exact ht
  | syllable m run rest => simp
  | group inside run rest => simp

theorem reverse_ne_done (h : p ≠ done) : p.reverse ≠ done := by
  cases p with
  | done => exact absurd rfl h
  | syllable m run rest =>
    rw [reverse_syllable]
    exact append_ne_done (by simp)
  | group inside run rest =>
    rw [reverse_group]
    exact append_ne_done (by simp)

theorem full_quantify (h : p.Full) : (p.quantify q).Full := by
  cases p <;> exact h

end Phrase

theorem Scheme.exists_phrase_of_read {pattern : List Char} {s : Scheme}
    (h : Scheme.read pattern = .ok s) : ∃ p, Phrase.read pattern = .ok p ∧ p.scheme 0 = s := by
  unfold Scheme.read at h
  split at h
  · cases h
  · rename_i p hp
    cases h
    exact ⟨p, hp, rfl⟩

namespace Scheme

def Full : Scheme → Prop
  | done => True
  | syllable _ _ _ rest => rest.Full
  | group _ _ inside rest => inside ≠ done ∧ inside.Full ∧ rest.Full

theorem full_append (s t : Scheme) : (s ++ t).Full ↔ s.Full ∧ t.Full := by
  induction s with
  | done => simp [Full]
  | syllable p m q rest ih => simp [Full, ih]
  | group p q inside rest _ ih => simp [Full, ih, and_assoc]

theorem append_ne_done_left {s t : Scheme} (hs : s ≠ done) : s ++ t ≠ done := by
  cases s with
  | done => exact absurd rfl hs
  | syllable p m q rest => simp
  | group p q inside rest => simp

def places : Scheme → List ℕ
  | done => []
  | syllable place _ _ rest => place :: rest.places
  | group place _ inside rest => place :: (inside.places ++ rest.places)

theorem length_places (s : Scheme) : s.places.length = s.size := by
  induction s with
  | done => rfl
  | syllable p m q rest ih => simp [places, size, ih]
  | group p q inside rest ihi ih => simp [places, size, ihi, ih]

theorem places_append (s t : Scheme) : (s ++ t).places = s.places ++ t.places := by
  induction s with
  | done => rfl
  | syllable p m q rest ih => simp [places, ih]
  | group p q inside rest _ ih => simp [places, ih]

end Scheme

namespace Phrase

theorem scheme_ne_done (h : p ≠ done) (hfull : p.Full) (n : ℕ) : p.scheme n ≠ .done := by
  induction p generalizing n with
  | done => exact absurd rfl h
  | syllable m run rest => simp [scheme]
  | group inside run rest ihi _ =>
    simp only [scheme]
    split
    · simp
    · exact Scheme.append_ne_done_left (ihi hfull.1 hfull.2.1 _)

theorem full_scheme (h : p.Full) (n : ℕ) : (p.scheme n).Full := by
  induction p generalizing n with
  | done => trivial
  | syllable m run rest ih => exact ih h _
  | group inside run rest ihi ih =>
    obtain ⟨hne, hinside, hrest⟩ := h
    simp only [scheme]
    split
    · exact ⟨scheme_ne_done hne hinside _, ihi hinside _, ih hrest _⟩
    · exact (Scheme.full_append _ _).mpr ⟨ihi hinside _, ih hrest _⟩

theorem mem_places_scheme {x : ℕ} (hx : x ∈ (p.scheme n).places) : n ≤ x ∧ x < n + p.width := by
  induction p generalizing n with
  | done => exact absurd hx List.not_mem_nil
  | syllable m run rest ih =>
    simp only [scheme, Scheme.places, List.mem_cons] at hx
    simp only [width]
    rcases hx with rfl | hx
    · omega
    · have := ih hx
      omega
  | group inside run rest ihi ih =>
    have hx : x = n ∨ x ∈ (inside.scheme (n + 1)).places ∨
        x ∈ (rest.scheme (n + 2 + inside.width + run.length)).places := by
      simp only [scheme] at hx
      split at hx
      · simpa [Scheme.places] using hx
      · rw [Scheme.places_append, List.mem_append] at hx
        exact Or.inr hx
    simp only [width]
    rcases hx with rfl | hx | hx
    · omega
    · have := ihi hx
      omega
    · have := ih hx
      omega

theorem pairwise_places_scheme (p : Phrase) (n : ℕ) : (p.scheme n).places.Pairwise (· < ·) := by
  induction p generalizing n with
  | done => exact List.Pairwise.nil
  | syllable m run rest ih =>
    refine List.pairwise_cons.mpr ⟨fun x hx => ?_, ih _⟩
    have := mem_places_scheme hx
    omega
  | group inside run rest ihi ih =>
    have hboth : ((inside.scheme (n + 1)).places ++
        (rest.scheme (n + 2 + inside.width + run.length)).places).Pairwise (· < ·) := by
      refine List.pairwise_append.mpr ⟨ihi _, ih _, fun x hx y hy => ?_⟩
      have := mem_places_scheme hx
      have := mem_places_scheme hy
      omega
    simp only [scheme]
    split
    · refine List.pairwise_cons.mpr ⟨fun x hx => ?_, hboth⟩
      rcases List.mem_append.mp hx with hx | hx
      · have := mem_places_scheme hx
        omega
      · have := mem_places_scheme hx
        omega
    · rw [Scheme.places_append]
      exact hboth

end Phrase

end Prosody
