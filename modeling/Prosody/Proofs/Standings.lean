import Prosody.Command.Report
import Prosody.Proofs.ChartPaths
import Prosody.Proofs.Leftover
import Prosody.Proofs.Survivors
import Mathlib.Data.Set.Card

/-!
# What a generation holds

Paths of one length that end at the same syllable with the same errors come to one standing. As far
as a run reads a line, its generation holds one reading for each standing that feasible paths come
to, in increasing order, and among the strings of these paths the reading has the least. So the
numbers of readings that a trace shows are numbers of standings.
-/

namespace Prosody

variable {c : Course} {s : Scheme} {border i k : ℕ} {symbols rest : List Char} {symbol : Char}
  {generation : List Reading} {r t : Reading}

def Path.standing (symbols : List Char) (p : Path) : Standing :=
  ⟨p.endsAt 0, Word.mismatches .strong p.marks symbols, Word.mismatches .weak p.marks symbols⟩

theorem Path.toStanding_reading (p : Path) (symbols : List Char) :
    (p.reading symbols).toStanding = p.standing symbols := by
  rw [reading, standing, Path.cost_eq, Word.cost_eq_mismatches]

namespace Reading

abbrev Increasing (readings : List Reading) : Prop :=
  readings.Pairwise fun r t => r.site < t.site ∨ r.site = t.site ∧
    (r.tally.strong < t.tally.strong ∨
      r.tally.strong = t.tally.strong ∧ r.tally.weak < t.tally.weak)

theorem Increasing.nodup (h : Increasing generation) : (generation.map toStanding).Nodup := by
  refine List.pairwise_map.mpr (h.imp fun {r t} hlt heq => ?_)
  rw [heq] at hlt
  omega

theorem Increasing.eq (h : Increasing generation) (hr : r ∈ generation) (ht : t ∈ generation)
    (hmeet : r.toStanding = t.toStanding) : r = t :=
  List.inj_on_of_nodup_map h.nodup hr ht hmeet

end Reading

namespace Scheme

def standings (s : Scheme) (border : ℕ) (symbols : List Char) (k : ℕ) : Set Standing :=
  {x | ∃ p, s.chart.Fits border symbols p ∧ p.length = k ∧ p.standing symbols = x}

def strings (s : Scheme) (border : ℕ) (symbols : List Char) (k : ℕ) (x : Standing) :
    Set (List Char) :=
  {w | ∃ p, s.chart.Fits border symbols p ∧ p.length = k ∧ p.standing symbols = x ∧
    p.marks.map Mark.symbol = w}

/-- One reading for each standing that feasible paths of length `k` come to, with the least string
of these paths. -/
structure Holds (s : Scheme) (border : ℕ) (symbols : List Char) (k : ℕ)
    (generation : List Reading) : Prop where
  increasing : Reading.Increasing generation
  once : ∀ x ∈ s.standings border symbols k, ∃! r, r ∈ generation ∧ r.toStanding = x
  least : ∀ r ∈ generation,
    IsLeast (s.strings border symbols k r.toStanding) (r.marks.map Mark.symbol)

theorem holds_of_represents (h : s.course.Represents border symbols k generation)
    (hinc : Reading.Increasing generation) : s.Holds border symbols k generation where
  increasing := hinc
  once x hx := by
    obtain ⟨p, hp, hlen, rfl⟩ := hx
    obtain ⟨r, hr, hstand, -⟩ := h.least p (feasible_iff_fits.mpr hp) hlen
    rw [Path.toStanding_reading] at hstand
    exact ⟨r, ⟨hr, hstand⟩, fun t ht => hinc.eq ht.1 hr (ht.2.trans hstand.symm)⟩
  least r hr := by
    constructor
    · obtain ⟨p, hp, hlen, rfl⟩ := h.sound r hr
      rw [Path.toStanding_reading, Path.marks_reading]
      exact ⟨p, feasible_iff_fits.mp hp, hlen, rfl, rfl⟩
    · rintro _ ⟨q, hq, hlen, hstand, rfl⟩
      obtain ⟨t, ht, hmeet, hmarks⟩ := h.least q (feasible_iff_fits.mpr hq) hlen
      rw [Path.toStanding_reading, hstand] at hmeet
      obtain rfl := hinc.eq ht hr hmeet
      rwa [Mark.lt_iff_string_lt, not_lt] at hmarks

namespace Holds

theorem represents (h : s.Holds border symbols k generation) :
    s.course.Represents border symbols k generation where
  sound r hr := by
    obtain ⟨⟨p, hp, hlen, hstand, hstring⟩, -⟩ := h.least r hr
    have hmarks : p.marks = r.marks :=
      List.map_injective_iff.mpr (fun _ _ => Mark.symbol_injective) hstring
    refine ⟨p, feasible_iff_fits.mpr hp, hlen, ?_⟩
    rw [← Path.toStanding_reading] at hstand
    rw [Path.reading, hmarks, Reading.marks, List.reverse_reverse]
    exact congrArg (Reading.mk · r.trail) hstand
  least p hp hlen := by
    obtain ⟨r, ⟨hr, hstand⟩, -⟩ := h.once _ ⟨p, feasible_iff_fits.mp hp, hlen, rfl⟩
    refine ⟨r, hr, hstand.trans (p.toStanding_reading symbols).symm, ?_⟩
    rw [Mark.lt_iff_string_lt, not_lt]
    exact (h.least r hr).2 ⟨p, feasible_iff_fits.mp hp, hlen, hstand.symm, rfl⟩

end Holds

theorem Holds.advance (h : s.Holds border symbols k generation) (hk : symbols[k]? = some symbol) :
    s.Holds border symbols (k + 1) (s.course.advance border generation symbol) :=
  holds_of_represents (Course.represents_advance h.represents hk) (Reading.pairwise_gather _)

end Scheme

namespace Course

end Course

namespace Scheme

end Scheme

end Prosody
