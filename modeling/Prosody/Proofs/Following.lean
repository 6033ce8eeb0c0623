import Prosody.Proofs.Derivation
import Prosody.Proofs.Spanning

/-!
# Following a run

A path through the constructs directly under the whole follows them in order: it may stay in a
quantified one, do it again or pass it, but it reads an unquantified syllable once and does not come
back to it. So the unquantified syllables in a path are those up to its end.
-/

namespace Prosody

variable {c : Chart} {σ : Setting} {a i j k n : ℕ} {led : Bool} {p u v : Path} {t : Scheme}
  {q : Spot}

namespace Scheme

def plains (n : ℕ) : Scheme → List Spot
  | done => []
  | syllable _ m none rest => ⟨n, m⟩ :: rest.plains (n + 1)
  | syllable _ _ (some _) rest => rest.plains (n + 1)
  | group _ _ inside rest => rest.plains (n + 1 + inside.size)

theorem number_of_mem_plains (h : q ∈ t.plains n) : n ≤ q.number := by
  induction t generalizing n with
  | done => exact absurd h List.not_mem_nil
  | syllable place m quantifier rest ih =>
    cases quantifier with
    | none =>
      rcases List.mem_cons.mp h with rfl | h
      · exact Nat.le_refl _
      · exact n.le_succ.trans (ih h)
    | some _ => exact n.le_succ.trans (ih h)
  | group place _ inside rest _ ih =>
    have := ih h
    omega

theorem pairwise_plains (t : Scheme) (n : ℕ) :
    (t.plains n).Pairwise fun q r => q.number < r.number := by
  induction t generalizing n with
  | done => exact .nil
  | syllable place m quantifier rest ih =>
    cases quantifier with
    | none => exact .cons (fun q hq => number_of_mem_plains hq) (ih (n + 1))
    | some _ => exact ih (n + 1)
  | group place _ inside rest _ ih => exact ih (n + 1 + inside.size)

theorem exists_lastPlain?_of_mem_plains (h : q ∈ t.plains n) :
    ∃ last ∈ t.lastPlain? n, q.number ≤ last := by
  induction t generalizing n with
  | done => exact absurd h List.not_mem_nil
  | syllable place m quantifier rest ih =>
    cases quantifier with
    | none =>
      rw [lastPlain?, Option.orElse_eq_orElse, Option.orElse_eq_or]
      cases hlast : rest.lastPlain? (n + 1) with
      | none =>
        refine ⟨n, rfl, ?_⟩
        rcases List.mem_cons.mp h with rfl | h
        · exact Nat.le_refl _
        · obtain ⟨last, hmem, -⟩ := ih h
          rw [hlast] at hmem
          cases hmem
      | some last =>
        refine ⟨last, rfl, ?_⟩
        rcases List.mem_cons.mp h with rfl | h
        · exact n.le_succ.trans (lastPlain?_bounds hlast).1
        · obtain ⟨_, hmem, hle⟩ := ih h
          rw [hlast] at hmem
          cases hmem
          exact hle
    | some _ => exact ih h
  | group place _ inside rest _ ih => exact ih h

/-- The path goes through the constructs of a run one after another. It has a part for each of them,
which is the syllable itself if the construct is an unquantified syllable. -/
def Follows (n : ℕ) : Scheme → Path → Prop
  | done, p => p = []
  | syllable _ m none rest, p => p = [] ∨ ∃ v : Path, p = ⟨n, m⟩ :: v ∧ rest.Follows (n + 1) v
  | syllable _ _ (some _) rest, p =>
    ∃ u v : Path, p = u ++ v ∧ u.Within n (n + 1) ∧ rest.Follows (n + 1) v
  | group _ _ inside rest, p =>
    ∃ u v : Path, p = u ++ v ∧ u.Within n (n + 1 + inside.size) ∧
      rest.Follows (n + 1 + inside.size) v

theorem follows_nil (t : Scheme) (n : ℕ) : t.Follows n [] := by
  induction t generalizing n with
  | done => rfl
  | syllable place m quantifier rest ih =>
    cases quantifier with
    | none => exact Or.inl rfl
    | some _ => exact ⟨[], [], rfl, Path.within_nil, ih _⟩
  | group place _ inside rest _ ih => exact ⟨[], [], rfl, Path.within_nil, ih _⟩

end Scheme

namespace Chart

open Scheme in
theorem Reads.follows (hfull : t.Full) (hshows : c.Shows σ n k led t) (hloops : σ.loops = false)
    (hexit : σ.exit = none) (h : c.Reads j (σ.leave n t) p) : t.Follows n p := by
  induction t generalizing n k led j p with
  | done =>
    rw [Setting.leave, if_pos rfl, hloops, hexit] at h
    exact h.eq_nil
  | syllable place m quantifier rest ih =>
    rw [Setting.leave_syllable] at h
    cases quantifier with
    | none =>
      obtain ⟨x, hx, hmark, honward, hbypass, hrest⟩ := hshows.plain
      rw [hexit, ite_self] at hbypass
      rcases h.of_syllable hx hmark with rfl | ⟨i, -, hread⟩ | ⟨i, -, v, rfl, hread⟩
      · exact Or.inl rfl
      · rw [hbypass] at hread
        exact Or.inl hread.eq_nil
      · rw [honward] at hread
        exact Or.inr ⟨v, rfl, ih hfull hrest hread⟩
    | some quantifier =>
      obtain ⟨x, hx, hmark, honward, hbypass, hrest⟩ := hshows.quantified
      rcases h.quantified hx hmark honward hbypass with hsplit | ⟨u, v, i, rfl, -, hin, -, hread⟩
      · exact ⟨p, [], (List.append_nil p).symm, hsplit.stops.2, follows_nil rest _⟩
      · exact ⟨u, v, rfl, hin, ih hfull hrest hread⟩
  | group place quantifier inside rest _ ih =>
    obtain ⟨hne, hfulli, hfullr⟩ := hfull
    have hinside := fun i p => Reads.divides (j := i) (p := p) hfulli hshows.inside_of_group
    rw [Setting.leave_group] at h
    rcases h.group hne hinside with hsplit | ⟨u, v, i, rfl, -, hin, -, hread⟩
    · exact ⟨p, [], (List.append_nil p).symm, hsplit.stops.2, follows_nil rest _⟩
    · exact ⟨u, v, rfl, hin, ih hfullr hshows.rest_of_group hread⟩

end Chart

namespace Scheme

theorem Follows.within (h : t.Follows n p) : p.Within n (n + t.size) := by
  induction t generalizing n p with
  | done =>
    rw [Follows] at h
    subst h
    exact Path.within_nil
  | syllable place m quantifier rest ih =>
    rw [add_size_syllable]
    cases quantifier with
    | none =>
      rcases h with rfl | ⟨v, rfl, hv⟩
      · exact Path.within_nil
      · have hhead : Path.Within n (n + 1 + rest.size) [⟨n, m⟩] :=
          Path.within_singleton le_rfl (by omega)
        exact hhead.append ((ih hv).widen n.le_succ le_rfl)
    | some _ =>
      obtain ⟨u, v, rfl, hu, hv⟩ := h
      exact (hu.widen le_rfl (by omega)).append ((ih hv).widen n.le_succ le_rfl)
  | group place _ inside rest _ ih =>
    obtain ⟨u, v, rfl, hu, hv⟩ := h
    rw [add_size_group]
    exact (hu.widen le_rfl (by omega)).append ((ih hv).widen (by omega) le_rfl)

/-- What a path reads before number `n` does not count for spots from there on. -/
theorem filter_append_of_within {spots : List Spot} (hspots : ∀ q ∈ spots, n ≤ q.number)
    (hu : u.Within i n) (ha : a < n)
    (hv : ∀ b < n, v.filter (· ∈ spots) = spots.filter (·.number ≤ Path.endsAt b v)) :
    (u ++ v).filter (· ∈ spots) = spots.filter (·.number ≤ Path.endsAt a (u ++ v)) := by
  have hnone : u.filter (· ∈ spots) = [] := by
    rw [List.filter_eq_nil_iff]
    intro q hq
    rw [decide_eq_true_iff]
    exact fun hmem => absurd (hspots q hmem) (Nat.not_le.mpr (hu q hq).2)
  rw [List.filter_append, hnone, List.nil_append, Path.endsAt_append]
  exact hv _ (hu.endsAt_lt ha)

/-- A path that follows a run reads its unquantified syllables up to the end of the path, each once
and in order. -/
theorem Follows.filter_plains (h : t.Follows n p) (ha : a < n) :
    p.filter (· ∈ t.plains n) = (t.plains n).filter (·.number ≤ p.endsAt a) := by
  induction t generalizing n p a with
  | done =>
    rw [Follows] at h
    subst h
    rfl
  | syllable place m quantifier rest ih =>
    cases quantifier with
    | none =>
      rcases h with rfl | ⟨v, rfl, hv⟩
      · rw [List.filter_nil, eq_comm, List.filter_eq_nil_iff]
        intro q hq
        have hle := number_of_mem_plains hq
        rw [decide_eq_true_iff, Path.endsAt]
        omega
      · have hends : n ≤ v.endsAt n := hv.within.le_endsAt n.le_succ le_rfl
        -- the path does not come back to the syllable it starts with
        have hother : v.filter (· ∈ plains n (syllable place m none rest)) =
            v.filter (· ∈ rest.plains (n + 1)) := by
          apply List.filter_congr
          intro q hq
          have hlt := (hv.within q hq).1
          have hne : q ≠ ⟨n, m⟩ := by
            rintro rfl
            exact absurd hlt n.not_succ_le_self
          rw [decide_eq_decide, plains, List.mem_cons, or_iff_right hne]
        rw [List.filter_cons_of_pos (by simp [plains]), hother, ih hv n.lt_succ_self, plains]
        exact (List.filter_cons_of_pos (p := fun q : Spot => q.number ≤ Path.endsAt n v)
          (decide_eq_true hends)).symm
    | some _ =>
      obtain ⟨u, v, rfl, hu, hv⟩ := h
      exact filter_append_of_within (fun q hq => number_of_mem_plains (t := rest) hq) hu (by omega)
        fun b hb => ih hv hb
  | group place _ inside rest _ ih =>
    obtain ⟨u, v, rfl, hu, hv⟩ := h
    exact filter_append_of_within (fun q hq => number_of_mem_plains (t := rest) hq) hu (by omega)
      fun b hb => ih hv hb

theorem filter_plains_of_last (hlast : ∀ last ∈ t.lastPlain? n, last ≤ a) :
    (t.plains n).filter (·.number ≤ a) = t.plains n := by
  rw [List.filter_eq_self]
  intro q hq
  obtain ⟨last, hmem, hle⟩ := exists_lastPlain?_of_mem_plains hq
  exact decide_eq_true (hle.trans (hlast last hmem))

end Scheme

end Prosody
