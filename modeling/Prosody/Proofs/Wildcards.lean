import Prosody.Proofs.Likeness

/-!
# Wildcards

A wildcard is another way to write that something is optional. A pattern with `?` in place of each
`w` is called tame here, and so is what is read from it. Reading it does the same steps, and what is
read differs in quantifiers that do not repeat.
-/

namespace Prosody

def tameChar (c : Char) : Char := if c = 'w' then '?' else c

namespace Quantifier

def tame : Quantifier → Quantifier
  | many => many
  | optional => optional
  | wildcard => optional

theorem isMany_tame (q : Quantifier) : q.tame.isMany = q.isMany := by
  cases q <;> rfl

end Quantifier

namespace Sign

def tame : Sign → Sign
  | mark m => mark m
  | quantifier q => quantifier q.tame
  | opening => opening
  | closing => closing

theorem tameChar_symbol (s : Sign) : tameChar s.symbol = s.tame.symbol := by
  cases s with
  | mark m =>
    obtain ⟨stress, force⟩ := m
    cases stress <;> cases force <;> rfl
  | quantifier q => cases q <;> rfl
  | opening => rfl
  | closing => rfl

end Sign

/-- The same fault, but the quantifier it names is tame. -/
def Fault.tame : Fault → Fault
  | looseQuantifier place q => looseQuantifier place q.tame
  | strangeCharacter place c => strangeCharacter place c
  | unmatchedClosing place => unmatchedClosing place
  | unclosedGroup place => unclosedGroup place
  | emptyGroup place => emptyGroup place
  | emptyPattern => emptyPattern

namespace Phrase

def tame : Phrase → Phrase
  | done => done
  | syllable m run rest => syllable m (run.map Quantifier.tame) rest.tame
  | group inside run rest => group inside.tame (run.map Quantifier.tame) rest.tame

theorem tame_append (s t : Phrase) : (s ++ t).tame = s.tame ++ t.tame := by
  induction s with
  | done => rfl
  | syllable m run rest ih => simp [tame, ih]
  | group inside run rest _ ih => simp [tame, ih]

theorem tame_reverse (p : Phrase) : p.reverse.tame = p.tame.reverse := by
  induction p with
  | done => rfl
  | syllable m run rest ih =>
    simp only [reverse_syllable, tame_append, tame, ih, List.map_reverse]
  | group inside run rest _ ih =>
    simp only [reverse_group, tame_append, tame, ih, List.map_reverse]

theorem tame_quantify (p : Phrase) (q : Quantifier) :
    (p.quantify q).tame = p.tame.quantify q.tame := by
  cases p <;> rfl

theorem isDone_tame (p : Phrase) : p.tame.isDone = p.isDone := by
  cases p <;> rfl

theorem isMany_getLast?_tame (run : List Quantifier) : run.getLast?.map Quantifier.isMany =
    (run.map Quantifier.tame).getLast?.map Quantifier.isMany := by
  rw [List.getLast?_map, Option.map_map]
  exact congrArg (run.getLast?.map ·) (funext fun q => q.isMany_tame.symm)

/-- The normal forms of a phrase and the tame phrase scan alike. -/
theorem alike_tame (p : Phrase) (n k : ℕ) : (p.scheme n).Alike (p.tame.scheme k) := by
  induction p generalizing n k with
  | done => exact .done
  | syllable m run rest ih => exact alike_syllable m (isMany_getLast?_tame run) ih n k
  | group inside run rest ihi ih => exact alike_group (isMany_getLast?_tame run) ihi ih n k

end Phrase

def tameResult {α : Type} (f : α → α) : Except Fault α → Except Fault α
  | .error fault => .error fault.tame
  | .ok a => .ok (f a)

namespace Draft

def tame (d : Draft) : Draft := ⟨d.outer.map fun x => (x.1, x.2.tame), d.current.tame⟩

theorem quantify_tame (d : Draft) (place : ℕ) (q : Quantifier) :
    d.tame.quantify place q.tame = tameResult tame (d.quantify place q) := by
  rw [quantify, quantify, tame, Phrase.isDone_tame]
  by_cases hdone : d.current.isDone = true
  · rw [if_pos hdone, if_pos hdone]
    rfl
  · rw [if_neg hdone, if_neg hdone, ← Phrase.tame_quantify]
    rfl

theorem closeGroup_tame (d : Draft) (place : ℕ) :
    d.tame.closeGroup place = tameResult tame (d.closeGroup place) := by
  obtain ⟨outer, current⟩ := d
  cases outer with
  | nil => rfl
  | cons x outer =>
    simp only [closeGroup, tame, List.map_cons, Phrase.isDone_tame]
    by_cases hdone : current.isDone = true
    · rw [if_pos hdone, if_pos hdone]
      rfl
    · rw [if_neg hdone, if_neg hdone, ← Phrase.tame_reverse]
      rfl

/-- One step of reading does not tell `w` from `?`. -/
theorem read_tame (d : Draft) (place : ℕ) (c : Char) :
    d.tame.read place (tameChar c) = tameResult tame (d.read place c) := by
  cases hc : Sign.ofChar? c with
  | none =>
    have hne : c ≠ 'w' := by
      rintro rfl
      cases hc
    rw [tameChar, if_neg hne, read, read, hc]
    rfl
  | some s =>
    obtain rfl : s.symbol = c := Sign.symbol_of_ofChar? hc
    rw [Sign.tameChar_symbol, read, read, hc, Sign.ofChar?_symbol]
    cases s with
    | mark m => rfl
    | quantifier q => exact d.quantify_tame place q
    | opening => rfl
    | closing => exact d.closeGroup_tame place

theorem readAll_tame (d : Draft) (place : ℕ) (pattern : List Char) :
    d.tame.readAll place (pattern.map tameChar) = tameResult tame (d.readAll place pattern) := by
  induction pattern generalizing d place with
  | nil => rfl
  | cons c pattern ih =>
    rw [List.map_cons, readAll, readAll, read_tame]
    cases d.read place c with
    | error fault => rfl
    | ok e => exact ih e (place + 1)

theorem finish_tame (d : Draft) : d.tame.finish = tameResult Phrase.tame d.finish := by
  obtain ⟨outer, current⟩ := d
  cases outer with
  | cons x outer => rfl
  | nil =>
    simp only [finish, tame, List.map_nil, Phrase.isDone_tame]
    by_cases hdone : current.isDone = true
    · rw [if_pos hdone, if_pos hdone]
      rfl
    · rw [if_neg hdone, if_neg hdone, ← Phrase.tame_reverse]
      rfl

end Draft

theorem Phrase.read_tame (pattern : List Char) :
    Phrase.read (pattern.map tameChar) = tameResult Phrase.tame (Phrase.read pattern) := by
  have hread := Draft.start.readAll_tame 0 pattern
  have hstart : Draft.start.tame = Draft.start := rfl
  rw [hstart] at hread
  rw [Phrase.read, Phrase.read, hread]
  cases Draft.start.readAll 0 pattern with
  | error fault => rfl
  | ok d => exact d.finish_tame

namespace Gauge

/-- With `?` in place of each `w`, a pattern is refused just when it was refused before, for the
same fault in the same place, and when it is read it has the same answers. -/
theorem wildcards_count_as_optional (pattern : List Char) (border : ℕ) :
    (∃ f, ofPattern pattern border = .error f ∧
        ofPattern (pattern.map tameChar) border = .error f.tame) ∨
      ∃ g h, ofPattern pattern border = .ok g ∧ ofPattern (pattern.map tameChar) border = .ok h ∧
        ∀ line, h.scan line = g.scan line := by
  have hread := Phrase.read_tame pattern
  cases hp : Phrase.read pattern with
  | error f =>
    rw [hp] at hread
    exact Or.inl ⟨f, ofPattern_of_error hp border, ofPattern_of_error hread border⟩
  | ok p =>
    rw [hp] at hread
    have hg := ofPattern_of_read hp border
    have hh := ofPattern_of_read hread border
    exact Or.inr ⟨_, _, hg, hh, scan_eq_of_alike hg hh (p.alike_tame 0 0)⟩

end Gauge

end Prosody
