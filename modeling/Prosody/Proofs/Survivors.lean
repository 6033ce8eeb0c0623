import Prosody.Path
import Prosody.Scansion
import Prosody.Proofs.Ranking
import Mathlib.Data.List.Induction
import Mathlib.Order.Bounds.Basic

/-!
# The paths that a generation stands for

After `k` symbols a generation holds a reading for every standing that some feasible path of length
`k` comes to, and the least marks among the paths that meet there. One symbol keeps this, so a whole
run ends with the longest feasible paths and decides between them.
-/

namespace Prosody

namespace Tally

theorem add_assoc (a b c : Tally) : a + b + c = a + (b + c) :=
  ext (Nat.add_assoc _ _ _) (Nat.add_assoc _ _ _)

@[simp] theorem zero_add (a : Tally) : 0 + a = a := ext (Nat.zero_add _) (Nat.zero_add _)

@[simp] theorem add_zero (a : Tally) : a + 0 = a := rfl

end Tally

namespace Path

variable {symbols : List Char} {symbol : Char} {p : Path} {s : Spot}

def reading (symbols : List Char) (p : Path) : Reading :=
  ⟨⟨p.endsAt 0, p.cost symbols⟩, p.marks.reverse⟩

def rank (symbols : List Char) (p : Path) : Rank := Rank.of (p.cost symbols) p.marks

@[simp] theorem marks_reading : (p.reading symbols).marks = p.marks := List.reverse_reverse _

theorem rank_reading : (p.reading symbols).rank = p.rank symbols := by
  rw [Reading.rank, marks_reading]
  rfl

theorem length_marks : p.marks.length = p.length := List.length_map _

theorem endsAt_concat (n : ℕ) : endsAt n (p ++ [s]) = s.number := by
  rw [endsAt_append]
  rfl

theorem cost_concat (h : symbols[p.length]? = some symbol) :
    cost (p ++ [s]) symbols = cost p symbols + s.mark.cost symbol := by
  induction p generalizing symbols with
  | nil =>
    cases symbols with
    | nil => simp at h
    | cons c symbols =>
      rw [List.length_nil, List.getElem?_cons_zero] at h
      cases h
      simp [cost]
  | cons q p ih =>
    cases symbols with
    | nil => simp at h
    | cons c symbols =>
      rw [List.length_cons, List.getElem?_cons_succ] at h
      simp only [List.cons_append, cost, ih h, Tally.add_assoc]

theorem reading_concat (h : symbols[p.length]? = some symbol) :
    (p ++ [s]).reading symbols = (p.reading symbols).extend s symbol := by
  simp [reading, Reading.extend, endsAt_concat, cost_concat h, marks]

end Path

namespace Course

variable {c : Course} {border : ℕ} {symbols : List Char} {symbol : Char} {k : ℕ}
  {generation : List Reading} {p : Path} {s : Spot}

theorem feasible_nil : c.Feasible border symbols [] :=
  ⟨trivial, Nat.zero_le _, Nat.zero_le _⟩

theorem feasible_concat :
    c.Feasible border symbols (p ++ [s]) ↔ c.Feasible border symbols p ∧ s ∈ c.after (p.endsAt 0) ∧
      ∃ symbol, symbols[p.length]? = some symbol ∧
        (p.cost symbols + s.mark.cost symbol).total ≤ border := by
  simp only [Feasible, allows_append, List.length_append, List.length_singleton]
  constructor
  · rintro ⟨⟨hp, hs, -⟩, hlen, hcost⟩
    have hget : symbols[p.length]? = some symbols[p.length] := List.getElem?_eq_getElem hlen
    rw [Path.cost_concat hget] at hcost
    have hle : (p.cost symbols).total ≤ border := by
      rw [Tally.total_add] at hcost
      omega
    exact ⟨⟨hp, by omega, hle⟩, hs, _, hget, hcost⟩
  · rintro ⟨⟨hp, -, -⟩, hs, symbol, hget, hcost⟩
    obtain ⟨hlen, -⟩ := List.getElem?_eq_some_iff.mp hget
    rw [Path.cost_concat hget]
    exact ⟨⟨hp, hs, trivial⟩, hlen, hcost⟩

theorem feasible_take (h : c.Feasible border symbols p) (hk : k ≤ p.length) :
    ∃ q, c.Feasible border symbols q ∧ q.length = k := by
  induction p using List.reverseRecOn with
  | nil => exact ⟨[], h, (Nat.le_zero.mp hk).symm⟩
  | append_singleton p s ih =>
    rcases Nat.lt_or_ge p.length k with hlt | hge
    · refine ⟨p ++ [s], h, ?_⟩
      rw [List.length_append, List.length_singleton] at hk ⊢
      omega
    · exact ih (feasible_concat.mp h).1 hge

/-- The readings of a generation are those of the feasible paths of length `k`, except that of
paths that meet only one with least marks need be there. -/
structure Represents (c : Course) (border : ℕ) (symbols : List Char) (k : ℕ)
    (generation : List Reading) : Prop where
  sound : ∀ r ∈ generation, ∃ p, c.Feasible border symbols p ∧ p.length = k ∧ p.reading symbols = r
  least : ∀ p, c.Feasible border symbols p → p.length = k →
    ∃ r ∈ generation, r.toStanding = (p.reading symbols).toStanding ∧ ¬p.marks < r.marks

theorem represents_start : c.Represents border symbols 0 [.start] where
  sound r hr := by
    rw [List.mem_singleton] at hr
    exact ⟨[], feasible_nil, rfl, hr.symm⟩
  least p _ hp := by
    rw [List.length_eq_zero_iff] at hp
    subst hp
    exact ⟨.start, List.mem_singleton_self _, rfl, List.lt_irrefl _⟩

theorem exists_mem_gather {readings : List Reading} {t : Reading} (ht : t ∈ readings) :
    ∃ r ∈ Reading.gather readings, r.toStanding = t.toStanding ∧ ¬t.marks < r.marks := by
  have empty : Trails.Least [] t.toStanding (∅ : Trails)[t.toStanding]? := by simp [Trails.Least]
  have least := Trails.least_foldl_keep empty readings
  rw [List.nil_append] at least
  cases hk : (readings.foldl Trails.keep ∅)[t.toStanding]? with
  | none =>
    rw [hk] at least
    exact absurd rfl (least t ht)
  | some trail =>
    rw [hk] at least
    refine ⟨⟨t.toStanding, trail⟩, Reading.mem_gather.mpr least, rfl, ?_⟩
    exact least.2 t ht rfl

theorem represents_advance (h : c.Represents border symbols k generation)
    (hk : symbols[k]? = some symbol) :
    c.Represents border symbols (k + 1) (c.advance border generation symbol) where
  sound t ht := by
    obtain ⟨r, hr, ht⟩ := List.mem_flatMap.mp (Reading.mem_gather.mp ht).1
    obtain ⟨s, hs, hcost, rfl⟩ := mem_successors.mp ht
    obtain ⟨p, hp, rfl, rfl⟩ := h.sound r hr
    refine ⟨p ++ [s], feasible_concat.mpr ⟨hp, hs, symbol, hk, hcost⟩, ?_, ?_⟩
    · rw [List.length_append, List.length_singleton]
    · exact Path.reading_concat hk
  least p hp hlen := by
    cases p using List.reverseRecOn with
    | nil => simp at hlen
    | append_singleton p s =>
      rw [List.length_append, List.length_singleton, Nat.add_right_cancel_iff] at hlen
      subst hlen
      obtain ⟨hp, hs, symbol', hget, hcost⟩ := feasible_concat.mp hp
      rw [hk] at hget
      cases hget
      obtain ⟨r, hr, hstand, hmarks⟩ := h.least p hp rfl
      obtain ⟨q, -, hqlen, hq⟩ := h.sound r hr
      have hsite : r.site = Path.endsAt 0 p := congrArg Standing.site hstand
      have htally : r.tally = Path.cost p symbols := congrArg Standing.tally hstand
      have hsucc : r.extend s symbol ∈ generation.flatMap (c.successors border symbol) := by
        refine List.mem_flatMap.mpr ⟨r, hr, mem_successors.mpr ⟨s, ?_, ?_, rfl⟩⟩
        · rwa [hsite]
        · rwa [htally]
      obtain ⟨t, ht, htstand, htmarks⟩ := exists_mem_gather hsucc
      have hmarks' : ¬Path.marks (p ++ [s]) < (r.extend s symbol).marks := by
        rw [Reading.marks_extend, Path.marks_append]
        intro hlt
        refine hmarks (Mark.lt_of_append_lt_append ?_ hlt)
        rw [← hq, Path.marks_reading, Path.length_marks, Path.length_marks, hqlen]
      refine ⟨t, ht, htstand.trans ?_, Mark.not_lt_trans htmarks hmarks'⟩
      rw [Path.reading_concat hk, Reading.extend, Reading.extend, htally]
      rfl

theorem next_of_drop_eq_cons {rest : List Char} (h : symbols.drop k = symbol :: rest) :
    symbols[k]? = some symbol ∧ symbols.drop (k + 1) = rest := by
  rw [← List.head?_drop, ← List.tail_drop, h]
  exact ⟨rfl, rfl⟩

/-- A run stops at the end of the line or before a symbol that no feasible path reads. -/
theorem represents_run (h : c.Represents border symbols k generation) (hne : generation ≠ []) :
    ∃ j, (c.run border generation (symbols.drop k)).2 = symbols.drop j ∧
      c.Represents border symbols j (c.run border generation (symbols.drop k)).1 ∧
      (c.run border generation (symbols.drop k)).1 ≠ [] ∧
      ∀ p, c.Feasible border symbols p → p.length ≤ j := by
  generalize hrest : symbols.drop k = rest
  induction rest generalizing k generation with
  | nil =>
    refine ⟨k, hrest.symm, h, hne, fun p hp => ?_⟩
    exact hp.2.1.trans (List.drop_eq_nil_iff.mp hrest)
  | cons symbol rest ih =>
    obtain ⟨hk, hdrop⟩ := next_of_drop_eq_cons hrest
    have hnext := represents_advance h hk
    by_cases hstop : c.advance border generation symbol = []
    · rw [run_cons_of_eq_nil hstop]
      refine ⟨k, hrest.symm, h, hne, fun p hp => ?_⟩
      by_contra! hlt
      obtain ⟨q, hq, hqlen⟩ := feasible_take hp hlt
      obtain ⟨r, hr, -⟩ := hnext.least q hq hqlen
      rw [hstop] at hr
      exact List.not_mem_nil hr
    · rw [run_cons_of_ne_nil hstop]
      exact ih hnext hstop hdrop

def ranks (c : Course) (border : ℕ) (symbols : List Char) (k : ℕ) : Set Rank :=
  {r | ∃ p, c.Feasible border symbols p ∧ c.Complete p ∧ p.length = k ∧ p.rank symbols = r}

theorem rank_conclude (h : c.Represents border symbols k generation) :
    IsLeast (c.ranks border symbols k) (c.conclude generation).rank ∨
      c.ranks border symbols k = ∅ ∧ c.conclude generation = .start := by
  have hends : ∀ p, c.Feasible border symbols p → c.Complete p → p.length = k →
      ∃ r ∈ generation.filter fun r => c.completes r.site, r.rank ≤ p.rank symbols := by
    intro p hp hcomplete hlen
    obtain ⟨r, hr, hstand, hmarks⟩ := h.least p hp hlen
    have hsite : r.site = p.endsAt 0 := congrArg Standing.site hstand
    have htally : r.tally = p.cost symbols := congrArg Standing.tally hstand
    refine ⟨r, List.mem_filter.mpr ⟨hr, ?_⟩, not_lt.mp fun hlt => ?_⟩
    · rw [hsite]
      exact hcomplete
    · rw [Reading.rank, htally, Path.rank, Rank.of_lt_iff] at hlt
      rcases hlt with hlt | ⟨-, hlt⟩
      · exact Tally.not_lt.mpr (Or.inr ⟨rfl, le_rfl⟩) hlt
      · exact hmarks hlt
  cases hb : Reading.best? (generation.filter fun r => c.completes r.site) with
  | none =>
    rw [Reading.best?_eq_none_iff] at hb
    refine Or.inr ⟨Set.eq_empty_of_forall_notMem ?_, ?_⟩
    · rintro _ ⟨p, hp, hcomplete, hlen, -⟩
      obtain ⟨r, hr, -⟩ := hends p hp hcomplete hlen
      rw [hb] at hr
      exact List.not_mem_nil hr
    · rw [conclude, hb]
      rfl
  | some r =>
    obtain ⟨hmem, hle⟩ := Reading.best?_spec hb
    rw [List.mem_filter] at hmem
    obtain ⟨p, hp, hlen, hread⟩ := h.sound r hmem.1
    have hr : c.conclude generation = r := by
      rw [conclude, hb]
      rfl
    rw [hr]
    refine Or.inl ⟨⟨p, hp, ?_, hlen, ?_⟩, ?_⟩
    · rw [Complete, ← hmem.2, ← hread]
      rfl
    · rw [← Path.rank_reading, hread]
    · rintro _ ⟨q, hq, hcomplete, hqlen, rfl⟩
      obtain ⟨t, ht, htle⟩ := hends q hq hcomplete hqlen
      exact (hle t ht).trans htle

/-- Scanning reads as far as feasible paths go, and then takes the least rank among those of them
at which the line may end. -/
theorem scan_spec (c : Course) (border : ℕ) (symbols : List Char) :
    ∃ k, IsGreatest {j | ∃ p, c.Feasible border symbols p ∧ p.length = j} k ∧
      (c.scan border symbols).overrun = decide (k < symbols.length) ∧
      ∃ t, (c.scan border symbols).tally = t + .both (symbols.length - k) ∧
        (IsLeast (c.ranks border symbols k) (Rank.of t (c.scan border symbols).marks) ∨
          c.ranks border symbols k = ∅ ∧ t = 0 ∧ (c.scan border symbols).marks = []) := by
  obtain ⟨k, hleft, hrep, hne, hmax⟩ :=
    represents_run (represents_start : c.Represents border symbols 0 [.start]) (by simp)
  rw [List.drop_zero] at hleft hrep hne
  obtain ⟨r, hr⟩ := List.exists_mem_of_ne_nil _ hne
  obtain ⟨p, hp, hlen, -⟩ := hrep.sound r hr
  refine ⟨k, ⟨⟨p, hp, hlen⟩, ?_⟩, ?_, (c.conclude (c.run border [.start] symbols).1).tally, ?_, ?_⟩
  · rintro _ ⟨q, hq, rfl⟩
    exact hmax q hq
  · simp only [scan, hleft]
    rw [Bool.eq_iff_iff, decide_eq_true_iff, Bool.not_eq_true', List.isEmpty_eq_false_iff, ne_eq,
      List.drop_eq_nil_iff, not_le]
  · simp only [scan, hleft, List.length_drop]
  · rcases rank_conclude hrep with hleast | ⟨hempty, hstart⟩
    · exact Or.inl hleast
    · refine Or.inr ⟨hempty, ?_, ?_⟩
      · rw [hstart]
        rfl
      · simp only [scan, hstart]
        rfl

end Course

end Prosody
