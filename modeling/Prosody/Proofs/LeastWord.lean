import Prosody.Classification
import Prosody.Proofs.Mismatches
import Prosody.Proofs.Spanning
import Prosody.Proofs.Survivors

/-!
# The least word for a line

When no symbol of a line is left over, scanning answers with the least of the scanned words that
have the length of the line and few enough errors. On the symbols of a scanned word this is the word
itself, as a strong mark is less than the weak one of the same stress.
-/

namespace Prosody

variable {L M : Language Mark} {border : ℕ} {line : List Char} {a b : Mark} {u v w : Word}
  {s : Scheme} {p : Path}

theorem Rank.of_injective {x y : Tally} (h : Rank.of x u = Rank.of y v) : x = y ∧ u = v := by
  have h : (x.strong, x.weak, u.map Mark.symbol) = (y.strong, y.weak, v.map Mark.symbol) := h
  simp only [Prod.mk.injEq] at h
  obtain ⟨hstrong, hweak, hmarks⟩ := h
  have hinj : Function.Injective Mark.symbol := fun _ _ => Mark.symbol_injective
  exact ⟨Tally.ext hstrong hweak, List.map_injective_iff.mpr hinj hmarks⟩

def ranking (L : Language Mark) (border : ℕ) (line : List Char) : Set Rank :=
  {r | ∃ w ∈ L, w.length = line.length ∧ (Word.cost w line).total ≤ border ∧
    Rank.of (Word.cost w line) w = r}

/-- The words of a language that have the length of a line and no more mismatches with it than the
border allows. -/
def fitting (L : Language Mark) (border : ℕ) (line : List Char) : Set Word :=
  {w | w ∈ L ∧ w.length = line.length ∧
    Word.mismatches .strong w line + Word.mismatches .weak w line ≤ border}

theorem ranking_eq_image (L : Language Mark) (border : ℕ) (line : List Char) :
    ranking L border line = (Word.rank · line) '' fitting L border line := by
  ext r
  refine exists_congr fun w => ?_
  rw [Word.total_cost, ← Word.rank_eq]
  simp only [fitting, Set.mem_ofPred_eq, and_assoc]

theorem mem_of_isLeast_ranking {t : Tally} (h : IsLeast (ranking L border line) (Rank.of t w)) :
    w ∈ L ∧ w.length = line.length ∧ t = Word.cost w line ∧ t.total ≤ border := by
  obtain ⟨⟨v, hv, hlen, hcost, hrank⟩, -⟩ := h
  obtain ⟨rfl, rfl⟩ := Rank.of_injective hrank
  exact ⟨hv, hlen, rfl, hcost⟩

namespace Course

variable {c : Course}

def words (c : Course) : Language Mark := {w | ∃ p, c.Allows 0 p ∧ c.Complete p ∧ p.marks = w}

theorem ranks_eq_words (c : Course) (border : ℕ) (line : List Char) (k : ℕ) :
    c.ranks border line k = {r | ∃ w ∈ c.words, w.length = k ∧ k ≤ line.length ∧
      (Word.cost w line).total ≤ border ∧ Rank.of (Word.cost w line) w = r} := by
  ext r
  constructor
  · intro hr
    obtain ⟨p, ⟨hallows, hlen, hcost⟩, hcomplete, rfl, rfl⟩ := hr
    rw [Path.cost_eq] at hcost
    refine ⟨p.marks, ⟨p, hallows, hcomplete, rfl⟩, Path.length_marks, hlen, hcost, ?_⟩
    rw [Path.rank, Path.cost_eq]
  · intro hr
    obtain ⟨_, ⟨p, hallows, hcomplete, rfl⟩, rfl, hlen, hcost, rfl⟩ := hr
    rw [Path.length_marks] at hlen ⊢
    rw [← Path.cost_eq] at hcost
    refine ⟨p, ⟨hallows, hlen, hcost⟩, hcomplete, rfl, ?_⟩
    rw [Path.rank, Path.cost_eq]

theorem ranks_eq_ranking (c : Course) (border : ℕ) (line : List Char) :
    c.ranks border line line.length = ranking c.words border line := by
  rw [ranks_eq_words]
  simp only [le_refl, true_and, ranking]

theorem overrun_eq_false (h : (ranking c.words border line).Nonempty) :
    (c.scan border line).overrun = false := by
  obtain ⟨k, ⟨-, hk⟩, hoverrun, -⟩ := c.scan_spec border line
  rw [← ranks_eq_ranking] at h
  obtain ⟨-, p, hp, -, hlen, -⟩ := h
  have hge : line.length ≤ k := hlen ▸ hk ⟨p, hp, rfl⟩
  rw [hoverrun, decide_eq_false_iff_not]
  omega

theorem scan_of_not_overrun (h : (c.scan border line).overrun = false) :
    IsLeast (ranking c.words border line)
        (Rank.of (c.scan border line).tally (c.scan border line).marks) ∨
      ranking c.words border line = ∅ ∧ (c.scan border line).tally = 0 ∧
        (c.scan border line).marks = [] := by
  obtain ⟨k, ⟨hfeasible, -⟩, hoverrun, t, ht, hleast⟩ := c.scan_spec border line
  rw [h, eq_comm, decide_eq_false_iff_not] at hoverrun
  obtain ⟨p, hp, rfl⟩ := hfeasible
  have hlen : p.length = line.length := le_antisymm hp.2.1 (not_lt.mp hoverrun)
  have hzero : Tally.both 0 = 0 := rfl
  rw [hlen, Nat.sub_self, hzero, Tally.add_zero] at ht
  rw [hlen, ranks_eq_ranking, ← ht] at hleast
  exact hleast

/-- A line is read to its end only if some word fits it, and the answer is the least of these. -/
theorem isLeast_of_isMatch (h : (c.scan border line).isMatch = true) :
    IsLeast (ranking c.words border line)
      (Rank.of (c.scan border line).tally (c.scan border line).marks) := by
  obtain ⟨hoverrun, hmarks⟩ := Scansion.isMatch_iff.mp h
  rcases scan_of_not_overrun hoverrun with hleast | ⟨-, -, hnil⟩
  · exact hleast
  · exact absurd hnil hmarks

theorem scan_of_nonempty (h : (ranking c.words border line).Nonempty) :
    (c.scan border line).overrun = false ∧
      IsLeast (ranking c.words border line)
        (Rank.of (c.scan border line).tally (c.scan border line).marks) := by
  have hoverrun := overrun_eq_false h
  rcases scan_of_not_overrun hoverrun with hleast | ⟨hempty, -, -⟩
  · exact ⟨hoverrun, hleast⟩
  · exact absurd hempty h.ne_empty

theorem isMatch_of_nonempty (hline : line ≠ []) (h : (ranking c.words border line).Nonempty) :
    (c.scan border line).isMatch = true := by
  obtain ⟨hoverrun, hleast⟩ := scan_of_nonempty h
  have hlen := (mem_of_isLeast_ranking hleast).2.1
  refine Scansion.isMatch_iff.mpr ⟨hoverrun, fun hnil => hline ?_⟩
  rwa [hnil, List.length_nil, eq_comm, List.length_eq_zero_iff] at hlen

end Course

namespace Scheme

variable (hne : s ≠ done) (hfull : s.Full)

include hne hfull in
theorem words_course : s.course.words = s.scanned :=
  Set.ext fun _ => (mem_scanned_iff hne hfull).symm

include hne hfull in
theorem scan_of_not_overrun (h : (s.course.scan border line).overrun = false) :
    IsLeast (ranking s.scanned border line)
        (Rank.of (s.course.scan border line).tally (s.course.scan border line).marks) ∨
      ranking s.scanned border line = ∅ ∧ (s.course.scan border line).tally = 0 ∧
        (s.course.scan border line).marks = [] := by
  rw [← words_course hne hfull]
  exact Course.scan_of_not_overrun h

include hne hfull in
theorem scan_of_nonempty (h : (ranking s.scanned border line).Nonempty) :
    (s.course.scan border line).overrun = false ∧
      IsLeast (ranking s.scanned border line)
        (Rank.of (s.course.scan border line).tally (s.course.scan border line).marks) := by
  rw [← words_course hne hfull] at h ⊢
  exact Course.scan_of_nonempty h

end Scheme

/-- The mark reads the letter of another one without an error. -/
def Mark.Covers (a b : Mark) : Prop := a = b ∨ a = ⟨b.stress, .weak⟩

theorem Mark.cost_symbol_eq_zero_iff (a b : Mark) : a.cost b.symbol = 0 ↔ a.Covers b := by
  rcases a with ⟨_ | _, _ | _⟩ <;> rcases b with ⟨_ | _, _ | _⟩ <;> simp [Covers] <;> decide

theorem Mark.Covers.not_lt (h : a.Covers b) : ¬a < b := by
  rcases h with rfl | rfl
  · exact Char.lt_irrefl _
  · rcases b with ⟨_ | _, _ | _⟩ <;> decide

theorem Tally.add_eq_zero_iff (x y : Tally) : x + y = 0 ↔ x = 0 ∧ y = 0 := by
  simp only [Tally.ext_iff, strong_add, weak_add, strong_zero, weak_zero]
  omega

theorem Tally.eq_zero_of_le {x : Tally} (h : x ≤ 0) : x = 0 := by
  rw [le_iff, strong_zero, weak_zero] at h
  rw [Tally.ext_iff, strong_zero, weak_zero]
  omega

namespace Word

theorem cost_eq_zero_iff (h : w.length = line.length) :
    cost w line = 0 ↔ List.Forall₂ (fun m symbol => m.cost symbol = 0) w line := by
  induction w generalizing line with
  | nil =>
    rw [List.length_nil, eq_comm, List.length_eq_zero_iff] at h
    subst h
    exact iff_of_true rfl .nil
  | cons m w ih =>
    cases line with
    | nil => simp at h
    | cons symbol line =>
      rw [List.forall₂_cons, ← ih (Nat.succ.inj h)]
      exact Tally.add_eq_zero_iff _ _

theorem cost_symbols_eq_zero_iff (h : v.length = w.length) :
    cost v w.symbols = 0 ↔ List.Forall₂ Mark.Covers v w := by
  rw [cost_eq_zero_iff (h.trans w.length_symbols.symm), symbols, List.forall₂_map_right_iff]
  simp only [Mark.cost_symbol_eq_zero_iff]

theorem not_lt_of_covers (h : List.Forall₂ Mark.Covers v w) : ¬v < w := by
  induction h with
  | nil => exact List.lt_irrefl _
  | cons hab _ ih =>
    rw [List.cons_lt_cons_iff]
    rintro (hlt | ⟨-, hlt⟩)
    · exact hab.not_lt hlt
    · exact ih hlt

theorem covers_refl (w : Word) : List.Forall₂ Mark.Covers w w :=
  List.forall₂_same.mpr fun _ _ => Or.inl rfl

theorem cost_symbols (w : Word) : cost w w.symbols = 0 :=
  (cost_symbols_eq_zero_iff rfl).mpr w.covers_refl

end Word

namespace Scheme

variable (hne : s ≠ done) (hfull : s.Full)

include hne hfull in
/-- A scanned word that covers a line fits it without errors, and so does the answer. -/
theorem scan_of_covers (hv : v ∈ s.scanned) (h : List.Forall₂ Mark.Covers v w) (border : ℕ) :
    (s.course.scan border w.symbols).overrun = false ∧
      (s.course.scan border w.symbols).tally = 0 ∧
      IsLeast (ranking s.scanned border w.symbols)
        (Rank.of 0 (s.course.scan border w.symbols).marks) := by
  have hlen := h.length_eq
  have hcost := (Word.cost_symbols_eq_zero_iff hlen).mpr h
  have hmem : Rank.of 0 v ∈ ranking s.scanned border w.symbols := by
    refine ⟨v, hv, hlen.trans w.length_symbols.symm, ?_, ?_⟩
    · rw [hcost]
      exact Nat.zero_le border
    · rw [hcost]
  obtain ⟨hoverrun, hleast⟩ := scan_of_nonempty hne hfull ⟨_, hmem⟩
  have hzero := Tally.eq_zero_of_le (Rank.tally_le (hleast.2 hmem))
  rw [hzero] at hleast
  exact ⟨hoverrun, hzero, hleast⟩

include hne hfull in
/-- Scanning the letters of a scanned word gives the word, under every border. -/
theorem scan_symbols (hw : w ∈ s.scanned) (border : ℕ) :
    s.course.scan border w.symbols = ⟨w, 0, false⟩ := by
  obtain ⟨hoverrun, htally, hleast⟩ := scan_of_covers hne hfull hw w.covers_refl border
  obtain ⟨-, hlen, hcost, -⟩ := mem_of_isLeast_ranking hleast
  have hmem : Rank.of 0 w ∈ ranking s.scanned border w.symbols := by
    refine ⟨w, hw, w.length_symbols.symm, ?_, ?_⟩
    · rw [Word.cost_symbols]
      exact Nat.zero_le border
    · rw [Word.cost_symbols]
  rw [Word.length_symbols] at hlen
  have hcovers := (Word.cost_symbols_eq_zero_iff hlen).mp hcost.symm
  have hle := hleast.2 hmem
  rw [← not_lt, Rank.of_lt_iff, not_or] at hle
  have hnot : ¬w < (s.course.scan border w.symbols).marks := fun hlt => hle.2 ⟨rfl, hlt⟩
  have hmarks := Std.Trichotomous.trichotomous _ _ (Word.not_lt_of_covers hcovers) hnot
  calc s.course.scan border w.symbols
      = ⟨(s.course.scan border w.symbols).marks, (s.course.scan border w.symbols).tally,
          (s.course.scan border w.symbols).overrun⟩ := rfl
    _ = ⟨w, 0, false⟩ := by rw [hmarks, htally, hoverrun]

include hne hfull in
/-- Under any border a line of letters is read to its end without errors just when a scanned word
covers it. -/
theorem fits_iff (hw : w ≠ []) (border : ℕ) :
    ((s.course.scan border w.symbols).overrun = false ∧
      (s.course.scan border w.symbols).tally = 0 ∧
      (s.course.scan border w.symbols).marks.length = w.length) ↔
    ∃ v ∈ s.scanned, List.Forall₂ Mark.Covers v w := by
  constructor
  · intro hfits
    obtain ⟨hoverrun, htally, hlen⟩ := hfits
    rcases scan_of_not_overrun hne hfull hoverrun with hleast | ⟨-, -, hnil⟩
    · obtain ⟨hmem, -, hcost, -⟩ := mem_of_isLeast_ranking hleast
      rw [htally] at hcost
      exact ⟨_, hmem, (Word.cost_symbols_eq_zero_iff hlen).mp hcost.symm⟩
    · rw [hnil, List.length_nil, eq_comm, List.length_eq_zero_iff] at hlen
      exact absurd hlen hw
  · intro hcovered
    obtain ⟨v, hv, hcovers⟩ := hcovered
    obtain ⟨hoverrun, htally, hleast⟩ := scan_of_covers hne hfull hv hcovers border
    have hlen := (mem_of_isLeast_ranking hleast).2.1
    rw [Word.length_symbols] at hlen
    exact ⟨hoverrun, htally, hlen⟩

end Scheme

end Prosody
