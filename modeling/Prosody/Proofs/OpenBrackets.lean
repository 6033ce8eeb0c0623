import Prosody.Proofs.Derivation
import Mathlib.Order.Bounds.Basic

/-!
# Open brackets

A bracket of a text is open at its end if no beginning of what follows it closes more brackets than
it opens. Phrases are written with balanced brackets. So the brackets that are open after some
characters are those of the groups that a draft of them holds open, the innermost first.
-/

namespace Prosody

variable {p : ℕ} {c : Char} {b u v w : List Char} {d : Draft}

def depth (w : List Char) : ℤ := w.count '(' - w.count ')'

def Rises (w : List Char) : Prop := ∀ u v, w = u ++ v → 0 ≤ depth u

structure Balanced (w : List Char) : Prop where
  depth_eq : depth w = 0
  rises : Rises w

/-- The bracket at place `p` is open at the end. -/
def OpenAt (w : List Char) (p : ℕ) : Prop := ∃ u v, w = u ++ '(' :: v ∧ u.length = p ∧ Rises v

@[simp] theorem depth_nil : depth [] = 0 := rfl

theorem depth_append (u v : List Char) : depth (u ++ v) = depth u + depth v := by
  simp only [depth, List.count_append]
  omega

theorem depth_cons (c : Char) (w : List Char) : depth (c :: w) = depth [c] + depth w :=
  depth_append [c] w

@[simp] theorem depth_opening : depth ['('] = 1 := rfl

theorem Rises.depth_nonneg (h : Rises w) : 0 ≤ depth w := h w [] (List.append_nil w).symm

theorem rises_nil : Rises [] := by
  intro u v h
  rw [(List.append_eq_nil_iff.mp h.symm).1, depth_nil]

theorem rises_singleton (hc : 0 ≤ depth [c]) : Rises [c] := by
  intro u v h
  rcases List.singleton_eq_append_iff.mp h with ⟨rfl, -⟩ | ⟨rfl, -⟩
  · exact depth_nil.ge
  · exact hc

theorem Rises.of_append (h : Rises (u ++ v)) : Rises u := by
  intro x y hxy
  exact h x (y ++ v) (by rw [hxy, List.append_assoc])

theorem Rises.append (hu : Rises u) (hv : Rises v) : Rises (u ++ v) := by
  intro x y hxy
  rcases List.append_eq_append_iff.mp hxy with ⟨z, rfl, hz⟩ | ⟨z, hz, -⟩
  · have hdepth := hu.depth_nonneg
    have hrest := hv z y hz
    rw [depth_append]
    omega
  · exact hu x z hz

namespace Balanced

theorem nil : Balanced [] := ⟨rfl, rises_nil⟩

theorem singleton (hc : depth [c] = 0) : Balanced [c] := ⟨hc, rises_singleton hc.ge⟩

theorem append (hu : Balanced u) (hv : Balanced v) : Balanced (u ++ v) := by
  refine ⟨?_, hu.rises.append hv.rises⟩
  rw [depth_append, hu.depth_eq, hv.depth_eq]
  rfl

theorem enclose (h : Balanced w) : Balanced ('(' :: (w ++ [')'])) := by
  constructor
  · rw [depth_cons, depth_append, h.depth_eq]
    rfl
  · intro x y hxy
    rcases List.cons_eq_append_iff.mp hxy with ⟨rfl, -⟩ | ⟨x, rfl, hx⟩
    · exact depth_nil.ge
    · rw [depth_cons, depth_opening]
      rcases List.append_eq_append_iff.mp hx with ⟨z, rfl, hz⟩ | ⟨z, hz, -⟩
      · -- at most the closing bracket is left out
        have hdepth : -1 ≤ depth z := by
          rcases List.singleton_eq_append_iff.mp hz with ⟨rfl, -⟩ | ⟨rfl, -⟩
          · decide
          · decide
        rw [depth_append, h.depth_eq]
        omega
      · have := h.rises x z hz
        omega

end Balanced

theorem depth_mark (m : Mark) : depth [m.symbol] = 0 := by
  rcases m with ⟨_ | _, _ | _⟩ <;> rfl

theorem depth_quantifier (q : Quantifier) : depth [q.symbol] = 0 := by
  cases q <;> rfl

theorem balanced_run (run : List Quantifier) : Balanced (run.map Quantifier.symbol) := by
  induction run with
  | nil => exact .nil
  | cons q run ih => exact (Balanced.singleton (depth_quantifier q)).append ih

theorem Phrase.balanced_write (p : Phrase) : Balanced p.write := by
  induction p with
  | done => exact .nil
  | syllable m run rest ih =>
    exact (Balanced.singleton (depth_mark m)).append ((balanced_run run).append ih)
  | group inside run rest ihi ih =>
    have h := ihi.enclose.append ((balanced_run run).append ih)
    rwa [List.cons_append, List.append_assoc] at h

theorem OpenAt.lt_length (h : OpenAt w p) : p < w.length := by
  obtain ⟨u, v, rfl, rfl, -⟩ := h
  simp

/-- What is open in text that closes none of the brackets before it, and what was open before. -/
theorem openAt_append_iff (hb : Rises b) :
    OpenAt (w ++ b) p ↔ (∃ q, OpenAt b q ∧ p = w.length + q) ∨ OpenAt w p := by
  constructor
  · rintro ⟨u, v, h, rfl, hv⟩
    rcases List.append_eq_append_iff.mp h with ⟨z, rfl, hz⟩ | ⟨z, rfl, hz⟩
    · exact Or.inl ⟨z.length, ⟨z, v, hz, rfl, hv⟩, List.length_append⟩
    · rcases List.cons_eq_append_iff.mp hz with ⟨rfl, rfl⟩ | ⟨z, rfl, rfl⟩
      · exact Or.inl ⟨0, ⟨[], v, rfl, rfl, hv⟩, by simp⟩
      · exact Or.inr ⟨u, z, rfl, rfl, hv.of_append⟩
  · rintro (⟨_, ⟨u, v, rfl, rfl, hv⟩, rfl⟩ | ⟨u, v, rfl, hu, hv⟩)
    · exact ⟨w ++ u, v, by simp, List.length_append, hv⟩
    · exact ⟨u, v ++ b, by simp, hu, hv.append hb⟩

theorem Balanced.not_openAt (hb : Balanced b) : ¬OpenAt b p := by
  rintro ⟨u, v, rfl, -, hv⟩
  have hbefore := hb.rises u _ rfl
  have hafter := hv.depth_nonneg
  have hzero := hb.depth_eq
  rw [depth_append, depth_cons, depth_opening] at hzero
  omega

theorem openAt_opening_iff : OpenAt ['('] p ↔ p = 0 := by
  constructor
  · rintro ⟨u, v, h, rfl, -⟩
    rcases List.singleton_eq_append_iff.mp h with ⟨rfl, -⟩ | ⟨-, hv⟩
    · rfl
    · cases hv
  · rintro rfl
    exact ⟨[], [], rfl, rfl, rises_nil⟩

theorem openAt_append_balanced_iff (hb : Balanced b) : OpenAt (w ++ b) p ↔ OpenAt w p := by
  rw [openAt_append_iff hb.rises]
  exact or_iff_right fun ⟨_, hq, _⟩ => hb.not_openAt hq

theorem openAt_append_opening_iff : OpenAt (w ++ ['(']) p ↔ p = w.length ∨ OpenAt w p := by
  rw [openAt_append_iff (rises_singleton (by decide))]
  simp [openAt_opening_iff]

namespace Draft

theorem openAt_writeOuter {outer : List (ℕ × Phrase)} (h : Placed outer) :
    OpenAt (writeOuter outer) p ↔ p ∈ outer.map Prod.fst := by
  induction outer with
  | nil => exact iff_of_false Balanced.nil.not_openAt List.not_mem_nil
  | cons x outer ih =>
    obtain ⟨opened, before⟩ := x
    obtain ⟨hopened, hplaced⟩ := h
    rw [writeOuter, openAt_append_opening_iff,
      openAt_append_balanced_iff before.reverse.balanced_write, ih hplaced, List.map_cons,
      List.mem_cons, hopened]

/-- The brackets that are open are those of the groups that the draft holds open. -/
theorem Keeps.openAt_iff (h : d.Keeps w) : OpenAt w p ↔ p ∈ d.outer.map Prod.fst := by
  rw [← h.write, Draft.write, openAt_append_balanced_iff d.current.reverse.balanced_write,
    openAt_writeOuter h.placed]

theorem Keeps.isGreatest_openAt {opened : ℕ} {before : Phrase} {outer : List (ℕ × Phrase)}
    (h : d.Keeps w) (houter : d.outer = (opened, before) :: outer) :
    IsGreatest {p | OpenAt w p} opened := by
  have hplaced := h.placed
  rw [houter] at hplaced
  constructor
  · exact h.openAt_iff.mpr (by simp [houter])
  · intro p hp
    have hmem := h.openAt_iff.mp hp
    rw [houter, List.map_cons, List.mem_cons] at hmem
    rcases hmem with rfl | hmem
    · exact le_rfl
    · have hlt := ((openAt_writeOuter hplaced.2).mpr hmem).lt_length
      rw [hplaced.1, List.length_append]
      omega

end Draft

end Prosody
