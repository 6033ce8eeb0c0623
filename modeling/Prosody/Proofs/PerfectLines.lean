import Prosody.Proofs.Metres

/-!
# Lines that fit a metre perfectly

A line is perfect for a metre if it spells a word of the metre's regular expression, where a weak
mark stands for its letter in either case and a strong one for the letter as it is written. Scanning
finds no errors in just these lines. Where the words of a metre all begin with a stressed syllable,
or all with an unstressed one, so do the perfect lines.
-/

namespace Prosody

variable {m : Metre} {k : Mark} {a : Char} {w : Word} {line : Line} {g : Gauge} {s : Scheme}

theorem Word.cost_eq_zero_iff_standsFor (h : w.length = line.length) :
    w.cost line = 0 ↔ List.Forall₂ Mark.StandsFor w line := by
  rw [cost_eq_zero_iff h]
  simp only [Mark.cost_eq_zero_iff]

namespace Scheme

def heads : Scheme → List Mark
  | done => []
  | syllable _ m none _ => [m]
  | syllable _ m (some _) rest => m :: rest.heads
  | group _ _ inside rest => inside.heads ++ rest.heads

theorem mem_of_cons_mem_repeated {q : Quantifier} {L : Language Mark}
    (h : k :: w ∈ q.repeated L) : ∃ v, k :: v ∈ L := by
  have hone : k :: w ∈ 1 + L → ∃ v, k :: v ∈ L := by
    rintro (hnil | hmem)
    · cases hnil
    · exact ⟨w, hmem⟩
  cases q with
  | many =>
    obtain ⟨parts, hparts, hmem⟩ := Language.mem_kstar_iff_exists_nonempty.mp h
    cases parts with
    | nil => cases hparts
    | cons u parts =>
      obtain ⟨hu, hne⟩ := hmem u List.mem_cons_self
      cases u with
      | nil => exact absurd rfl hne
      | cons j v =>
        rw [List.flatten_cons, List.cons_append, List.cons.injEq] at hparts
        exact ⟨v, hparts.1 ▸ hu⟩
  | optional => exact hone h
  | wildcard => exact hone h

theorem head_mem_heads (h : k :: w ∈ s.language) : k ∈ s.heads := by
  induction s generalizing k w with
  | done => cases h
  | syllable place m q rest ih =>
    cases q with
    | none =>
      rw [language_syllable] at h
      obtain ⟨_, rfl, v, -, hv⟩ := h
      cases hv
      exact List.mem_singleton_self m
    | some q =>
      rw [language_quantified] at h
      obtain ⟨u, hu, v, hv, huv⟩ := h
      cases u with
      | nil =>
        obtain rfl : v = k :: w := huv
        exact List.mem_cons_of_mem m (ih hv)
      | cons j u =>
        obtain ⟨rfl, -⟩ := List.cons.inj huv
        obtain ⟨_, hj⟩ := mem_of_cons_mem_repeated hu
        cases hj
        exact List.mem_cons_self
  | group place q inside rest ihi ih =>
    rw [language_group] at h
    obtain ⟨u, hu, v, hv, huv⟩ := h
    cases u with
    | nil =>
      obtain rfl : v = k :: w := huv
      exact List.mem_append_right _ (ih hv)
    | cons j u =>
      obtain ⟨rfl, -⟩ := List.cons.inj huv
      obtain ⟨_, hj⟩ := mem_of_cons_mem_repeated hu
      exact List.mem_append_left _ (ihi hj)

end Scheme

namespace Metre

/-- The line spells a word of the metre's regular expression. -/
def Perfect (m : Metre) (line : Line) : Prop :=
  ∃ p : Phrase, p.Derives m.pattern ∧ ∃ w ∈ p.regex.matches', List.Forall₂ Mark.StandsFor w line

/-- A line is perfect for a metre of the catalogue just when it is read to its end without errors. -/
theorem perfect_iff (hm : m ∈ catalogue) (hg : m.gauge = .ok g) :
    m.Perfect line ↔ (g.scan line).isMatch = true ∧ (g.scan line).tally = 0 := by
  obtain ⟨p, hp, hgauge, hne, hfull, hexact⟩ := gauge_of_mem_catalogue hm
  rw [hg] at hgauge
  cases hgauge
  have hwords : p.regex.matches' = (p.scheme 0).language := p.matches'_regex 0
  constructor
  · rintro ⟨p', hp', w, hw, hfits⟩
    rw [← Phrase.read_eq_ok_iff, hp] at hp'
    cases hp'
    have hlen := hfits.length_eq
    have hcost := (Word.cost_eq_zero_iff_standsFor hlen).mpr hfits
    rw [hwords] at hw
    have hmem : Rank.of 0 w ∈ ranking (p.scheme 0).language m.border line := by
      refine ⟨w, hw, hlen, ?_, ?_⟩
      · rw [hcost]
        exact Nat.zero_le _
      · rw [hcost]
    obtain ⟨hmatch, hleast⟩ := Scheme.scan_of_exact hne hfull hexact ⟨_, hmem⟩
    exact ⟨hmatch, Tally.eq_zero_of_le (Rank.tally_le (hleast.2 hmem))⟩
  · rintro ⟨hmatch, htally⟩
    have hfits := Scheme.nonempty_of_isMatch hne hfull hexact hmatch
    obtain ⟨hw, hlen, hcost, -⟩ :=
      mem_of_isLeast_ranking (Scheme.scan_of_exact hne hfull hexact hfits).2
    rw [← hwords] at hw
    exact ⟨p, Phrase.read_eq_ok_iff.mp hp, _, hw,
      (Word.cost_eq_zero_iff_standsFor hlen).mp (hcost.symm.trans htally)⟩

def opensWith (m : Metre) (stress : Stress) : Bool :=
  match Phrase.read m.pattern with
  | .ok p => (p.scheme 0).heads.all fun k => k.stress == stress
  | .error _ => false

theorem isStressed_of_perfect (stress : Stress) (hopens : m.opensWith stress = true)
    (h : m.Perfect (a :: line)) : isStressed a = (stress == .stressed) := by
  obtain ⟨p, hp, w, hw, hfits⟩ := h
  rw [opensWith, Phrase.read_eq_ok_iff.mpr hp] at hopens
  rw [p.matches'_regex 0] at hw
  cases hfits with
  | cons hk _ =>
    have hstress := List.all_eq_true.mp hopens _ (Scheme.head_mem_heads hw)
    rw [hk.isStressed, eq_of_beq hstress]

theorem not_perfect_iambos_of_perfect_choreios (hline : line ≠ [])
    (h : choreios.Perfect line) : ¬iambos.Perfect line := by
  intro hiambos
  cases line with
  | nil => exact hline rfl
  | cons a line =>
    have hstressed := isStressed_of_perfect .stressed (m := choreios) rfl h
    rw [isStressed_of_perfect .unstressed (m := iambos) rfl hiambos] at hstressed
    cases hstressed

end Metre

end Prosody
