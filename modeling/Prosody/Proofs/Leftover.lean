import Prosody.Gauge
import Mathlib.Data.List.Infix
import Mathlib.Data.List.Induction

/-!
# Symbols left over

A line is scanned symbol by symbol. When one more symbol leaves no reading alive, the line is overrun
from there on: the readings before that symbol decide, and each symbol left over adds one error of
both kinds, whatever it is. So the answer for a line that is overrun is that for the longest
beginning of it that is not.
-/

namespace Prosody

variable {c : Course} {border k : ℕ} {line front rest : List Char} {generation : List Reading}
  {symbol : Char}

/-- The same answer with `k` symbols left over. -/
def Scansion.charged (s : Scansion) (k : ℕ) : Scansion :=
  ⟨s.marks, ⟨s.tally.strong + k, s.tally.weak + k⟩, true⟩

theorem Scansion.charged_charged (s : Scansion) (m n : ℕ) :
    (s.charged m).charged n = s.charged (m + n) := by
  simp only [charged, Nat.add_assoc]

theorem Tally.add_both (t : Tally) (n : ℕ) : t + .both n = ⟨t.strong + n, t.weak + n⟩ := rfl

namespace Course

theorem run_append_of_eq_nil (h : (c.run border generation line).2 = []) (rest : List Char) :
    c.run border generation (line ++ rest) =
      c.run border (c.run border generation line).1 rest := by
  induction line generalizing generation with
  | nil => rfl
  | cons a line ih =>
    by_cases hstop : c.advance border generation a = []
    · rw [run_cons_of_eq_nil hstop] at h
      cases h
    · rw [run_cons_of_ne_nil hstop] at h
      rw [List.cons_append, run_cons_of_ne_nil hstop, run_cons_of_ne_nil hstop]
      exact ih h

theorem run_append_of_ne_nil (h : (c.run border generation line).2 ≠ []) (rest : List Char) :
    c.run border generation (line ++ rest) =
      ((c.run border generation line).1, (c.run border generation line).2 ++ rest) := by
  induction line generalizing generation with
  | nil => exact absurd rfl h
  | cons a line ih =>
    by_cases hstop : c.advance border generation a = []
    · rw [List.cons_append, run_cons_of_eq_nil hstop, run_cons_of_eq_nil hstop]
      rfl
    · rw [run_cons_of_ne_nil hstop] at h
      rw [List.cons_append, run_cons_of_ne_nil hstop, run_cons_of_ne_nil hstop]
      exact ih h

theorem run_singleton (c : Course) (border : ℕ) (generation : List Reading) (symbol : Char) :
    (c.run border generation [symbol]).2 = [] ∨
      c.run border generation [symbol] = (generation, [symbol]) := by
  by_cases hstop : c.advance border generation symbol = []
  · exact Or.inr (run_cons_of_eq_nil hstop [])
  · rw [run_cons_of_ne_nil hstop]
    exact Or.inl rfl

theorem overrun_eq_true_iff :
    (c.scan border line).overrun = true ↔ (c.run border [.start] line).2 ≠ [] := by
  rw [scan, Bool.not_eq_true', List.isEmpty_eq_false_iff]

theorem overrun_eq_false_iff :
    (c.scan border line).overrun = false ↔ (c.run border [.start] line).2 = [] := by
  rw [scan, Bool.not_eq_false', List.isEmpty_iff]

/-- All symbols behind a line that is overrun are left over. -/
theorem scan_append_of_overrun (h : (c.scan border line).overrun = true) (rest : List Char) :
    c.scan border (line ++ rest) = (c.scan border line).charged rest.length := by
  have hline := overrun_eq_true_iff.mp h
  have hleft : (!((c.run border [.start] line).2 ++ rest).isEmpty) = true := by
    rw [Bool.not_eq_true', List.isEmpty_eq_false_iff]
    exact List.append_ne_nil_of_left_ne_nil hline rest
  simp only [scan, run_append_of_ne_nil hline, Scansion.charged, Tally.add_both,
    List.length_append, Nat.add_assoc, hleft]

/-- A symbol behind a line that is not overrun is read, or it is the first one left over. -/
theorem scan_concat_of_not_overrun (h : (c.scan border line).overrun = false) (symbol : Char) :
    (c.scan border (line ++ [symbol])).overrun = false ∨
      c.scan border (line ++ [symbol]) = (c.scan border line).charged 1 := by
  have hline := overrun_eq_false_iff.mp h
  have hrun := run_append_of_eq_nil hline [symbol]
  rcases c.run_singleton border (c.run border [.start] line).1 symbol with hread | hleft
  · apply Or.inl
    rw [overrun_eq_false_iff, hrun, hread]
  · apply Or.inr
    simp only [scan, hrun, hleft, hline, Scansion.charged, Tally.add_both]
    rfl

theorem overrun_of_prefix (hpre : front <+: line) (h : (c.scan border front).overrun = true) :
    (c.scan border line).overrun = true := by
  obtain ⟨rest, rfl⟩ := hpre
  rw [scan_append_of_overrun h]
  rfl

structure StopsAt (c : Course) (border : ℕ) (front : List Char) (symbol : Char) : Prop where
  before : (c.scan border front).overrun = false
  after : (c.scan border (front ++ [symbol])).overrun = true

theorem exists_stopsAt (h : (c.scan border line).overrun = true) :
    ∃ front symbol rest, line = front ++ symbol :: rest ∧ c.StopsAt border front symbol := by
  induction line using List.reverseRecOn with
  | nil => cases h
  | append_singleton line a ih =>
    by_cases hline : (c.scan border line).overrun = true
    · obtain ⟨front, symbol, rest, rfl, hstop⟩ := ih hline
      exact ⟨front, symbol, rest ++ [a], by simp, hstop⟩
    · rw [Bool.not_eq_true] at hline
      exact ⟨line, a, [], rfl, hline, h⟩

/-- Where a scan stops, what stands behind the symbol that it stops at does not matter. -/
theorem StopsAt.scan_eq (h : c.StopsAt border front symbol) (rest : List Char) :
    c.scan border (front ++ symbol :: rest) = (c.scan border front).charged (rest.length + 1) := by
  have hstop : c.scan border (front ++ [symbol]) = (c.scan border front).charged 1 := by
    rcases scan_concat_of_not_overrun h.before symbol with hread | hleft
    · rw [h.after] at hread
      cases hread
    · exact hleft
  rw [List.append_cons, scan_append_of_overrun h.after, hstop, Scansion.charged_charged,
    Nat.add_comm]

theorem StopsAt.overrun_eq_false_iff (h : c.StopsAt border front symbol) {other : List Char}
    (hother : other <+: front ++ symbol :: rest) :
    (c.scan border other).overrun = false ↔ other <+: front := by
  have hfront : front ++ [symbol] <+: front ++ symbol :: rest := ⟨rest, by simp⟩
  constructor
  · intro hread
    by_cases hlen : other.length ≤ front.length
    · exact List.prefix_of_prefix_length_le hother (List.prefix_append _ _) hlen
    · have hlong : (front ++ [symbol]).length ≤ other.length := by
        rw [List.length_append, List.length_singleton]
        omega
      have hover := overrun_of_prefix (List.prefix_of_prefix_length_le hfront hother hlong) h.after
      rw [hread] at hover
      cases hover
  · intro hpre
    by_contra hover
    rw [Bool.not_eq_false] at hover
    have hbefore := overrun_of_prefix hpre hover
    rw [h.before] at hbefore
    cases hbefore

end Course

namespace Gauge

/-- One more symbol is left over if the line before it is overrun, and read or left over if it is
not. So a line that is overrun has a longest beginning that is not, and its answer is the one for
this beginning, charged for the symbols left over. What they are does not matter behind the first. -/
theorem scanning_is_incremental (g : Gauge) (line : List Char) (symbol : Char) :
    ((g.scan line).overrun = true → g.scan (line ++ [symbol]) = (g.scan line).charged 1) ∧
      ((g.scan line).overrun = false → (g.scan (line ++ [symbol])).overrun = false ∨
        g.scan (line ++ [symbol]) = (g.scan line).charged 1) ∧
      ((g.scan line).overrun = true → ∃ front stop rest, line = front ++ stop :: rest ∧
        (∀ other, other <+: line → ((g.scan other).overrun = false ↔ other <+: front)) ∧
        ∀ rest', g.scan (front ++ stop :: rest') = (g.scan front).charged (rest'.length + 1)) := by
  refine ⟨fun h => Course.scan_append_of_overrun h [symbol],
    fun h => Course.scan_concat_of_not_overrun h symbol, fun h => ?_⟩
  obtain ⟨front, stop, rest, rfl, hstop⟩ := Course.exists_stopsAt h
  exact ⟨front, stop, rest, rfl, fun _ hother => hstop.overrun_eq_false_iff hother, hstop.scan_eq⟩

/-- Under `U?S` the first two symbols are read, and each one more is charged. -/
theorem scanning_is_incremental_behind_two_symbols :
    ∃ g, ofPattern "U?S".toList 8 = .ok g ∧
      g.scan "Sx".toList = ⟨[⟨.unstressed, .strong⟩, ⟨.stressed, .strong⟩], ⟨2, 0⟩, false⟩ ∧
      g.scan "SxU".toList = ⟨[⟨.unstressed, .strong⟩, ⟨.stressed, .strong⟩], ⟨3, 1⟩, true⟩ ∧
      g.scan "SxUu".toList = ⟨[⟨.unstressed, .strong⟩, ⟨.stressed, .strong⟩], ⟨4, 2⟩, true⟩ := by
  have hg : ofPattern "U?S".toList 8 = .ok _ := rfl
  obtain ⟨hmore, -, -⟩ := scanning_is_incremental _ "SxU".toList 'u'
  exact ⟨_, hg, rfl, rfl, hmore rfl⟩

end Gauge

end Prosody
