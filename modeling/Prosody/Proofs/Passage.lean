import Prosody.Proofs.Denotation

/-!
# The words that scanning spells

Scanning does not follow the regular expression of a pattern to the letter. It may leave a group
before the first unquantified syllable of the group, whatever it has read there, and a group that
closes a repeated one before any of its unquantified syllables. It leaves a repeated group in no
other way. The words that scanning spells under these rules are a language of its own, given here by
recursion on the scheme.
-/

namespace Prosody

open Computability

/-- What scanning spells in a run of siblings. -/
structure Passage where
  /-- The run is read to its end. -/
  whole : Language Mark
  /-- The group around the run is left before one of the syllables of the run. -/
  early : Language Mark
  /-- Scanning stops in the run. -/
  part : Language Mark

namespace Quantifier

variable {q : Quantifier} {P : Passage}

def leaving (q : Quantifier) (P : Passage) : Language Mark :=
  if q.isMany then P.whole∗ * P.early else P.whole + P.early

def staying (q : Quantifier) (P : Passage) : Language Mark :=
  if q.isMany then P.whole∗ * P.part else P.part

theorem le_kstar_mul (L M : Language Mark) : M ≤ L∗ * M := by
  simpa using mul_le_mul' (one_le_kstar (a := L)) (le_refl M)

theorem mul_kstar_mul_le (L M : Language Mark) : L * (L∗ * M) ≤ L∗ * M := by
  rw [← mul_assoc]
  exact mul_le_mul' mul_kstar_le_kstar le_rfl

theorem early_le_leaving (q : Quantifier) (P : Passage) : P.early ≤ q.leaving P := by
  unfold leaving
  split
  · exact le_kstar_mul _ _
  · exact le_sup_right

theorem whole_le_leaving (hq : q.isMany = false) (P : Passage) : P.whole ≤ q.leaving P := by
  rw [leaving, hq]
  exact le_sup_left

theorem whole_mul_leaving_le (hq : q.isMany = true) (P : Passage) :
    P.whole * q.leaving P ≤ q.leaving P := by
  rw [leaving, if_pos hq]
  exact mul_kstar_mul_le _ _

theorem part_le_staying (q : Quantifier) (P : Passage) : P.part ≤ q.staying P := by
  unfold staying
  split
  · exact le_kstar_mul _ _
  · exact le_rfl

theorem whole_mul_staying_le (hq : q.isMany = true) (P : Passage) :
    P.whole * q.staying P ≤ q.staying P := by
  rw [staying, if_pos hq]
  exact mul_kstar_mul_le _ _

end Quantifier

namespace Scheme

/-- What scanning spells in a run of siblings. The flag `loops` says that the group around them is
repeated, `closes` that this group is the last child of a repeated one, and `led` that an
unquantified syllable stands before the run. -/
def passage (loops closes led : Bool) : Scheme → Passage
  | done => ⟨1, 0, 1⟩
  | syllable _ m none rest =>
    let P := rest.passage loops closes true
    { whole := {[m]} * P.whole
      early := (if !led || closes then 1 else 0) + {[m]} * P.early
      part := 1 + {[m]} * P.part }
  | syllable _ m (some q) rest =>
    let P := rest.passage loops closes led
    { whole := q.repeated {[m]} * P.whole
      early := q.repeated {[m]} * P.early
      part := q.repeated {[m]} * P.part }
  | group _ q inside rest =>
    let I := inside.passage q.isMany (loops && rest = done) false
    let P := rest.passage loops closes led
    { whole := q.leaving I * P.whole
      early := q.leaving I * P.early
      part := q.staying I + q.leaving I * P.part }

def hasPlain : Scheme → Bool
  | done => false
  | syllable _ _ none _ => true
  | syllable _ _ (some _) rest => rest.hasPlain
  | group _ _ _ rest => rest.hasPlain

/-- The words after which scanning may end a line: it has to come as far as the last unquantified
syllable directly under the whole, and may stop anywhere after it. -/
def scanned : Scheme → Language Mark
  | done => 1
  | syllable _ m none rest => {[m]} * rest.scanned
  | syllable _ m (some q) rest => q.repeated {[m]} * rest.scanned
  | group _ q inside rest =>
    let I := inside.passage q.isMany false false
    q.leaving I * rest.scanned + if rest.hasPlain then 0 else q.staying I

theorem lastPlain?_eq_none_iff (s : Scheme) (n : ℕ) :
    s.lastPlain? n = none ↔ s.hasPlain = false := by
  induction s generalizing n with
  | done => simp [lastPlain?, hasPlain]
  | syllable p m q rest ih =>
    cases q with
    | none => simp [lastPlain?, hasPlain, Option.orElse_eq_orElse, Option.orElse_eq_or]
    | some q => exact ih (n + 1)
  | group p q inside rest _ ih => exact ih (n + 1 + inside.size)

theorem nil_mem_part (s : Scheme) (loops closes led : Bool) :
    [] ∈ (s.passage loops closes led).part := by
  induction s generalizing loops closes led with
  | done => exact Language.nil_mem_one
  | syllable p m q rest ih =>
    cases q with
    | none => exact Or.inl rfl
    | some q =>
      exact Language.append_mem_mul (Word.mem_of_le (q.one_le_repeated _) Language.nil_mem_one)
        (ih loops closes led)
  | group p q inside rest ihi _ =>
    exact Or.inl (Word.mem_of_le (q.part_le_staying _) (ihi _ _ _))

theorem nil_mem_scanned {s : Scheme} (h : s.hasPlain = false) : [] ∈ s.scanned := by
  induction s with
  | done => exact Language.nil_mem_one
  | syllable p m q rest ih =>
    cases q with
    | none => cases h
    | some q =>
      exact Language.append_mem_mul (Word.mem_of_le (q.one_le_repeated _) Language.nil_mem_one)
        (ih h)
  | group p q inside rest _ _ =>
    have hrest : rest.hasPlain = false := h
    apply Or.inr
    rw [hrest]
    exact Word.mem_of_le (q.part_le_staying _) (nil_mem_part _ _ _ _)

end Scheme

end Prosody
