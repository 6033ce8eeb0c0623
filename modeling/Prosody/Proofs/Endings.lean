import Prosody.Proofs.Covering
import Prosody.Proofs.Likeness

/-!
# Optional endings

If a pattern is written behind another one, the second scheme stands behind the first. Where all its
outermost constructs have a quantifier, it adds no syllable that a line has to come to, so scanning
may stop and a line may end wherever it could before. Such an ending leads to no worse answers.
-/

namespace Prosody

variable {σ : Setting} {n k : ℕ} {closes led : Bool} {s t : Scheme} {p q : Phrase}
  {front back : List Char}

namespace Scheme

theorem hasPlain_append (s t : Scheme) : (s ++ t).hasPlain = (s.hasPlain || t.hasPlain) := by
  induction s with
  | done => rfl
  | syllable place m q rest ih =>
    cases q with
    | none => rfl
    | some q => exact ih
  | group place q inside rest _ ih => exact ih

/-- Where scanning may stop in a run of the outermost constructs, it may stop if more follows. -/
theorem part_le_part_append (s t : Scheme) (closes led : Bool) :
    (s.passage false closes led).part ≤ ((s ++ t).passage false closes led).part := by
  induction s generalizing led with
  | done => exact Word.one_le (t.nil_mem_part _ _ _)
  | syllable place m q rest ih =>
    cases q with
    | none => exact add_le_add le_rfl (mul_le_mul' le_rfl (ih true))
    | some q => exact mul_le_mul' le_rfl (ih led)
  | group place q inside rest _ ih =>
    -- a group directly under the whole closes no repeated one, whether something follows or not
    exact add_le_add le_rfl (mul_le_mul' le_rfl (ih led))

/-- Where a line may end, it may end if an optional ending follows. -/
theorem scanned_le_scanned_append (s : Scheme) (ht : t.hasPlain = false) :
    s.scanned ≤ (s ++ t).scanned := by
  induction s with
  | done => exact Word.one_le (nil_mem_scanned ht)
  | syllable place m q rest ih =>
    cases q with
    | none => exact mul_le_mul' le_rfl ih
    | some q => exact mul_le_mul' le_rfl ih
  | group place q inside rest _ ih =>
    rw [group_append, scanned, scanned, hasPlain_append, ht, Bool.or_false]
    exact add_le_add (mul_le_mul' le_rfl ih) le_rfl

theorem hasPlain_eq_false_of_sitesFrom (hσ : σ.parent = 0)
    (h : ∀ x ∈ t.sitesFrom σ n k led, x.parent = some 0 → x.quantifier? ≠ none) :
    t.hasPlain = false := by
  induction t generalizing n k led with
  | done => rfl
  | syllable place m q rest ih =>
    rw [sitesFrom, List.forall_mem_cons] at h
    cases q with
    | none => exact absurd rfl (h.1 (congrArg some hσ))
    | some q => exact ih h.2
  | group place q inside rest _ ih =>
    rw [sitesFrom, List.forall_mem_cons] at h
    exact ih fun x hx => h.2 x (List.mem_append_right _ hx)

theorem hasPlain_eq_false_of_quantified
    (h : ∀ x ∈ t.sites, x.parent = some 0 → x.quantifier? ≠ none) : t.hasPlain = false :=
  hasPlain_eq_false_of_sitesFrom (σ := t.setting) rfl fun x hx => h x (List.mem_cons_of_mem _ hx)

end Scheme

namespace Phrase

theorem scheme_append (p q : Phrase) (n : ℕ) :
    (p ++ q).scheme n = p.scheme n ++ q.scheme (n + p.width) := by
  induction p generalizing n with
  | done => rfl
  | syllable m run rest ih =>
    have hplace : n + (syllable m run rest).width = n + 1 + run.length + rest.width := by
      rw [width]
      omega
    rw [hplace, syllable_append, scheme, scheme, ih, Scheme.syllable_append]
  | group inside run rest _ ih =>
    have hplace : n + (group inside run rest).width =
        n + 2 + inside.width + run.length + rest.width := by
      rw [width]
      omega
    rw [hplace, group_append, scheme, scheme, ih]
    cases run.getLast? with
    | none => exact (Scheme.append_assoc _ _ _).symm
    | some q => rfl

/-- What is read from a pattern behind another one stands behind what is read from that one. -/
theorem read_append (hp : Phrase.read front = .ok p) (hq : Phrase.read back = .ok q) :
    Phrase.read (front ++ back) = .ok (p ++ q) := by
  obtain ⟨-, hfullp, rfl⟩ := derives_of_read hp
  obtain ⟨hneq, hfullq, rfl⟩ := derives_of_read hq
  rw [← write_append]
  exact read_write (append_ne_done hneq) ((full_append p q).mpr ⟨hfullp, hfullq⟩)

end Phrase

namespace Gauge

variable {border : ℕ} {g : Gauge}

/-- A pattern may be extended by another one whose outermost constructs all have a quantifier. Then
no line is read worse: it is not overrun if it was not before, and it is read to its end if it was
so before, with no more errors. -/
theorem optional_endings_do_no_harm (hg : ofPattern front border = .ok g)
    (ht : Scheme.read back = .ok t)
    (hquantified : ∀ x ∈ t.sites, x.parent = some 0 → x.quantifier? ≠ none) :
    ∃ h, ofPattern (front ++ back) border = .ok h ∧ ∀ line,
      ((g.scan line).isMatch = true →
        (h.scan line).isMatch = true ∧ (h.scan line).tally ≤ (g.scan line).tally) ∧
      ((g.scan line).overrun = false → (h.scan line).overrun = false) := by
  obtain ⟨p, hp, hscheme⟩ := Scheme.exists_phrase_of_read (scheme_of_ofPattern hg).1
  obtain ⟨q, hq, rfl⟩ := Scheme.exists_phrase_of_read ht
  have hplain : (q.scheme (0 + p.width)).hasPlain = false := by
    rw [(q.alike_scheme _ 0).hasPlain_eq]
    exact Scheme.hasPlain_eq_false_of_quantified hquantified
  have hh := ofPattern_of_read (Phrase.read_append hp hq) border
  have hbegun : g.scheme.begun ≤ ((p ++ q).scheme 0).begun := by
    rw [← hscheme, Phrase.scheme_append]
    exact Scheme.part_le_part_append _ _ _ _
  have hscanned : g.scheme.scanned ≤ ((p ++ q).scheme 0).scanned := by
    rw [← hscheme, Phrase.scheme_append]
    exact Scheme.scanned_le_scanned_append _ hplain
  refine ⟨_, hh, fun line => ?_⟩
  have hnoWorse := noWorse_of_coveredBy hg hh (.of_le hbegun) (.of_le hscanned) line
  exact ⟨hnoWorse.isMatch, hnoWorse.overrun⟩

/-- Behind a metre, an optional syllable and a repeated group read `uSuu` with a weak error in place
of a strong one. -/
theorem optional_endings_do_no_harm_of_two_constructs :
    ∃ g t, ofPattern "(us)*uS".toList 3 = .ok g ∧ Scheme.read "U?(su)*".toList = .ok t ∧
      (∀ x ∈ t.sites, x.parent = some 0 → x.quantifier? ≠ none) ∧
      ∃ h, ofPattern ("(us)*uS".toList ++ "U?(su)*".toList) 3 = .ok h ∧
        (g.scan "uSuu".toList).tally = ⟨1, 0⟩ ∧ (h.scan "uSuu".toList).tally = ⟨0, 1⟩ ∧
        ∀ line,
          ((g.scan line).isMatch = true →
            (h.scan line).isMatch = true ∧ (h.scan line).tally ≤ (g.scan line).tally) ∧
          ((g.scan line).overrun = false → (h.scan line).overrun = false) := by
  have hg : ofPattern "(us)*uS".toList 3 = .ok _ := rfl
  have ht : Scheme.read "U?(su)*".toList = .ok _ := rfl
  have hh : ofPattern ("(us)*uS".toList ++ "U?(su)*".toList) 3 = .ok _ := rfl
  obtain ⟨h, hextended, hscan⟩ := optional_endings_do_no_harm hg ht (by decide)
  obtain rfl := Except.ok.inj (hextended.symm.trans hh)
  exact ⟨_, _, hg, ht, by decide, _, hextended, by decide, by decide, hscan⟩

end Gauge

end Prosody
