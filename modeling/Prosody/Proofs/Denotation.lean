import Prosody.Language
import Prosody.Phrase
import Mathlib.Computability.RegularExpressions
import Mathlib.Order.CompletePartialOrder

/-!
# The regular expression that a pattern stands for

A pattern is read as a regular expression over the marks. Its language is that of its scheme, so
neither brackets of unquantified groups nor overruled quantifiers count.
-/

namespace Prosody

open Computability

variable {w : Word} {q : Quantifier} {L : Language Mark}

theorem Word.mem_of_le {L M : Language Mark} (h : L ≤ M) (hw : w ∈ L) : w ∈ M := by
  rw [← (Language.le_iff L M).mp h]
  exact Or.inl hw

theorem Word.one_le (h : [] ∈ L) : 1 ≤ L := by
  intro w hw
  rw [(Language.mem_one w).mp hw]
  exact h

namespace Quantifier

def regex (r : RegularExpression Mark) : Quantifier → RegularExpression Mark
  | many => r.star
  | optional => 1 + r
  | wildcard => 1 + r

def repeated (L : Language Mark) : Quantifier → Language Mark
  | many => L∗
  | optional => 1 + L
  | wildcard => 1 + L

theorem repeated_eq (q : Quantifier) (L : Language Mark) :
    q.repeated L = if q.isMany then L∗ else 1 + L := by
  cases q <;> rfl

theorem matches'_regex (q : Quantifier) (r : RegularExpression Mark) :
    (q.regex r).matches' = q.repeated r.matches' := by
  cases q <;> rfl

theorem iterated_iff : Iterated (· ∈ L) w ↔ w ∈ L∗ := by
  constructor
  · intro h
    induction h with
    | none => exact Language.nil_mem_kstar L
    | more hu _ ih => exact Word.mem_of_le mul_kstar_le_kstar (Language.append_mem_mul hu ih)
  · intro h
    obtain ⟨parts, rfl, hparts⟩ := Language.mem_kstar.mp h
    induction parts with
    | nil => exact .none
    | cons u parts ih =>
      have hrest : ∀ v ∈ parts, v ∈ L := fun v hv => hparts v (List.mem_cons_of_mem u hv)
      exact .more (hparts u List.mem_cons_self) (ih hrest (Language.join_mem_kstar hrest))

theorem admits_iff : q.Admits (· ∈ L) w ↔ w ∈ q.repeated L := by
  cases q with
  | many => exact iterated_iff
  | optional => rfl
  | wildcard => rfl

theorem one_le_repeated (L : Language Mark) (q : Quantifier) : 1 ≤ q.repeated L := by
  cases q with
  | many => exact one_le_kstar
  | optional => exact le_sup_left
  | wildcard => exact le_sup_left

theorem le_repeated (L : Language Mark) (q : Quantifier) : L ≤ q.repeated L := by
  cases q with
  | many => exact le_kstar
  | optional => exact le_sup_right
  | wildcard => exact le_sup_right

end Quantifier

namespace Scheme

variable {s t rest inside : Scheme} {place : ℕ} {m : Mark}

def language (s : Scheme) : Language Mark := {w | s.Spells w}

theorem mem_language : w ∈ s.language ↔ s.Spells w := Iff.rfl

@[simp] theorem language_done : language done = 1 := rfl

theorem language_append (s t : Scheme) : (s ++ t).language = s.language * t.language := by
  ext w
  rw [mem_language, spells_append, Language.mem_mul]
  constructor
  · rintro ⟨u, v, rfl, hu, hv⟩
    exact ⟨u, hu, v, hv, rfl⟩
  · rintro ⟨u, hu, v, hv, rfl⟩
    exact ⟨u, v, rfl, hu, hv⟩

@[simp] theorem language_syllable :
    (syllable place m none rest).language = {[m]} * rest.language := by
  ext w
  rw [mem_language, Spells, Language.mem_mul]
  constructor
  · rintro ⟨v, rfl, hv⟩
    exact ⟨[m], rfl, v, hv, rfl⟩
  · rintro ⟨_, rfl, v, hv, rfl⟩
    exact ⟨v, rfl, hv⟩

@[simp] theorem language_quantified :
    (syllable place m (some q) rest).language = q.repeated {[m]} * rest.language := by
  ext w
  rw [mem_language, Spells, Language.mem_mul]
  constructor
  · rintro ⟨u, v, rfl, hu, hv⟩
    exact ⟨u, Quantifier.admits_iff.mp hu, v, hv, rfl⟩
  · rintro ⟨u, hu, v, hv, rfl⟩
    exact ⟨u, v, rfl, Quantifier.admits_iff.mpr hu, hv⟩

@[simp] theorem language_group :
    (group place q inside rest).language = q.repeated inside.language * rest.language := by
  ext w
  rw [mem_language, Spells, Language.mem_mul]
  constructor
  · rintro ⟨u, v, rfl, hu, hv⟩
    exact ⟨u, Quantifier.admits_iff.mp hu, v, hv, rfl⟩
  · rintro ⟨u, hu, v, hv, rfl⟩
    exact ⟨u, v, rfl, Quantifier.admits_iff.mpr hu, hv⟩

end Scheme

namespace Phrase

/-- A construct with a run of quantifiers, of which the last counts. -/
def quantified (r : RegularExpression Mark) (run : List Quantifier) : RegularExpression Mark :=
  match run.getLast? with
  | none => r
  | some q => q.regex r

def regex : Phrase → RegularExpression Mark
  | done => 1
  | syllable m run rest => quantified (.char m) run * rest.regex
  | group inside run rest => quantified inside.regex run * rest.regex

theorem matches'_regex (p : Phrase) (n : ℕ) : p.regex.matches' = (p.scheme n).language := by
  induction p generalizing n with
  | done => rfl
  | syllable m run rest ih =>
    rw [regex, RegularExpression.matches'_mul, ih (n + 1 + run.length), quantified, scheme]
    cases run.getLast? with
    | none => rw [Scheme.language_syllable, RegularExpression.matches'_char]
    | some q =>
      rw [Scheme.language_quantified, Quantifier.matches'_regex, RegularExpression.matches'_char]
  | group inside run rest ihi ih =>
    rw [regex, RegularExpression.matches'_mul, ih (n + 2 + inside.width + run.length), quantified,
      scheme]
    cases run.getLast? with
    | none => rw [Scheme.language_append, ihi (n + 1)]
    | some q => rw [Scheme.language_group, Quantifier.matches'_regex, ihi (n + 1)]

end Phrase

end Prosody
