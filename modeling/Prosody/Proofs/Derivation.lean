import Prosody.Proofs.NormalForm

/-!
# The derivation of a pattern

A draft keeps what was read: written out, it gives the characters back, and each open bracket stands
where its place says. So reading succeeds just on the writings of phrases without empty groups, and
it finds the one phrase that is written so.
-/

namespace Prosody

variable {p : Phrase} {d e : Draft} {place : ℕ} {c : Char} {w : List Char}

namespace Phrase

theorem reverse_append (s t : Phrase) : (s ++ t).reverse = t.reverse ++ s.reverse := by
  induction s with
  | done => simp
  | syllable m run rest ih => simp only [syllable_append, reverse_syllable, ih, append_assoc]
  | group inside run rest _ ih => simp only [group_append, reverse_group, ih, append_assoc]

theorem reverse_reverse (s : Phrase) : s.reverse.reverse = s := by
  induction s with
  | done => rfl
  | syllable m run rest ih => simp [reverse_syllable, reverse_append, ih]
  | group inside run rest _ ih => simp [reverse_group, reverse_append, ih]

def quantifyAll (p : Phrase) (run : List Quantifier) : Phrase :=
  run.foldl (fun p q => p.quantify q) p

theorem quantifyAll_syllable (m : Mark) (run more : List Quantifier) (rest : Phrase) :
    (syllable m run rest).quantifyAll more = syllable m (more.reverse ++ run) rest := by
  induction more generalizing run with
  | nil => rfl
  | cons q more ih =>
    rw [List.reverse_cons, List.append_assoc]
    exact ih (q :: run)

theorem quantifyAll_group (inside : Phrase) (run more : List Quantifier) (rest : Phrase) :
    (group inside run rest).quantifyAll more = group inside (more.reverse ++ run) rest := by
  induction more generalizing run with
  | nil => rfl
  | cons q more ih =>
    rw [List.reverse_cons, List.append_assoc]
    exact ih (q :: run)

theorem quantify_ne_done (h : p ≠ done) (q : Quantifier) : p.quantify q ≠ done := by
  cases p with
  | done => exact absurd rfl h
  | syllable m run rest => simp [quantify]
  | group inside run rest => simp [quantify]

/-- The phrase is a derivation of the pattern: a sequence of syllables and groups, none of them
empty, that is written as the pattern. -/
structure Derives (p : Phrase) (pattern : List Char) : Prop where
  ne_done : p ≠ done
  full : p.Full
  write : p.write = pattern

end Phrase

namespace Draft

inductive Takes (d : Draft) (place : ℕ) : Char → Draft → Prop where
  | mark (m : Mark) : Takes d place m.symbol (d.mark m)
  | quantifier (q : Quantifier) (hne : d.current ≠ .done) :
      Takes d place q.symbol { d with current := d.current.quantify q }
  | opening : Takes d place '(' (d.openGroup place)
  | closing {opened : ℕ} {before : Phrase} {outer : List (ℕ × Phrase)}
      (houter : d.outer = (opened, before) :: outer) (hne : d.current ≠ .done) :
      Takes d place ')' ⟨outer, .group d.current.reverse [] before⟩

inductive Refuses (d : Draft) (place : ℕ) (c : Char) : Fault → Prop where
  | strange (hc : Sign.ofChar? c = none) : Refuses d place c (.strangeCharacter place c)
  | quantifier {q : Quantifier} (hc : c = q.symbol) (hdone : d.current = .done) :
      Refuses d place c (.looseQuantifier place q)
  | unmatched (hc : c = ')') (houter : d.outer = []) : Refuses d place c (.unmatchedClosing place)
  | empty {opened : ℕ} {before : Phrase} {outer : List (ℕ × Phrase)} (hc : c = ')')
      (houter : d.outer = (opened, before) :: outer) (hdone : d.current = .done) :
      Refuses d place c (.emptyGroup opened)

theorem read_spec (d : Draft) (place : ℕ) (c : Char) :
    (∃ e, d.read place c = .ok e ∧ d.Takes place c e) ∨
      ∃ f, d.read place c = .error f ∧ d.Refuses place c f := by
  unfold read
  split
  · rename_i hc
    exact Or.inr ⟨_, rfl, .strange hc⟩
  · rename_i m hc
    obtain rfl : m.symbol = c := Sign.symbol_of_ofChar? hc
    exact Or.inl ⟨_, rfl, .mark m⟩
  · rename_i q hc
    obtain rfl : q.symbol = c := Sign.symbol_of_ofChar? hc
    unfold quantify
    split
    · rename_i hdone
      exact Or.inr ⟨_, rfl, .quantifier rfl (Phrase.isDone_iff.mp hdone)⟩
    · rename_i hdone
      rw [Phrase.isDone_iff] at hdone
      exact Or.inl ⟨_, rfl, .quantifier q hdone⟩
  · rename_i hc
    obtain rfl : '(' = c := Sign.symbol_of_ofChar? hc
    exact Or.inl ⟨_, rfl, .opening⟩
  · rename_i hc
    obtain rfl : ')' = c := Sign.symbol_of_ofChar? hc
    unfold closeGroup
    split
    · rename_i houter
      exact Or.inr ⟨_, rfl, .unmatched rfl houter⟩
    · rename_i opened before outer houter
      split
      · rename_i hdone
        exact Or.inr ⟨_, rfl, .empty rfl houter (Phrase.isDone_iff.mp hdone)⟩
      · rename_i hdone
        rw [Phrase.isDone_iff] at hdone
        exact Or.inl ⟨_, rfl, .closing houter hdone⟩

theorem takes_of_read (h : d.read place c = .ok e) : d.Takes place c e := by
  rcases d.read_spec place c with ⟨e', he, htakes⟩ | ⟨f, hf, -⟩
  · rw [h] at he
    cases he
    exact htakes
  · rw [h] at hf
    cases hf

theorem refuses_of_read {f : Fault} (h : d.read place c = .error f) : d.Refuses place c f := by
  rcases d.read_spec place c with ⟨e, he, -⟩ | ⟨f', hf, hrefuses⟩
  · rw [h] at he
    cases he
  · rw [h] at hf
    cases hf
    exact hrefuses

theorem read_of_takes (h : d.Takes place c e) : d.read place c = .ok e := by
  have hdone {p : Phrase} (hne : p ≠ .done) : ¬p.isDone = true := fun h =>
    hne (Phrase.isDone_iff.mp h)
  cases h with
  | mark m =>
    have hsign := Sign.ofChar?_symbol (.mark m)
    rw [Sign.symbol] at hsign
    rw [read, hsign]
  | quantifier q hne =>
    have hsign := Sign.ofChar?_symbol (.quantifier q)
    rw [Sign.symbol] at hsign
    rw [read, hsign]
    exact if_neg (hdone hne)
  | opening => rfl
  | closing houter hne =>
    change d.closeGroup place = _
    rw [closeGroup, houter]
    exact if_neg (hdone hne)

theorem finish_eq_ok_iff : d.finish = .ok p ↔
    d.outer = [] ∧ d.current ≠ .done ∧ d.current.reverse = p := by
  rw [ne_eq, ← Phrase.isDone_iff]
  unfold finish
  split
  · rename_i houter
    simp [houter]
  · rename_i houter
    split
    · rename_i hdone
      simp [hdone]
    · rename_i hdone
      simp [houter, hdone]

def writeOuter : List (ℕ × Phrase) → List Char
  | [] => []
  | (_, before) :: outer => writeOuter outer ++ before.reverse.write ++ ['(']

def write (d : Draft) : List Char := writeOuter d.outer ++ d.current.reverse.write

def Full (d : Draft) : Prop := d.current.Full ∧ ∀ x ∈ d.outer, x.2.Full

def Placed : List (ℕ × Phrase) → Prop
  | [] => True
  | (opened, before) :: outer =>
    opened = (writeOuter outer ++ before.reverse.write).length ∧ Placed outer

structure Keeps (d : Draft) (w : List Char) : Prop where
  write : d.write = w
  full : d.Full
  placed : Placed d.outer

theorem keeps_start : start.Keeps [] :=
  ⟨rfl, ⟨trivial, fun _ hx => absurd hx List.not_mem_nil⟩, trivial⟩

theorem keeps_takes (hd : d.Keeps w) (h : d.Takes w.length c e) : e.Keeps (w ++ [c]) := by
  obtain ⟨rfl, ⟨hcurrent, houters⟩, hplaced⟩ := hd
  cases h with
  | mark m =>
    refine ⟨?_, ⟨hcurrent, houters⟩, hplaced⟩
    simp [write, mark, Phrase.reverse_syllable, Phrase.write_append, Phrase.write]
  | quantifier q hne =>
    refine ⟨?_, ⟨Phrase.full_quantify hcurrent, houters⟩, hplaced⟩
    rw [write, write, Phrase.write_reverse_quantify hne, List.append_assoc]
  | opening =>
    refine ⟨?_, ⟨trivial, List.forall_mem_cons.mpr ⟨hcurrent, houters⟩⟩, rfl, hplaced⟩
    simp [write, openGroup, writeOuter, Phrase.write]
  | closing houter hne =>
    rw [houter] at houters hplaced
    obtain ⟨hbefore, houters⟩ := List.forall_mem_cons.mp houters
    have hinside := (Phrase.full_reverse d.current).mpr hcurrent
    refine ⟨?_, ⟨⟨Phrase.reverse_ne_done hne, hinside, hbefore⟩, houters⟩, hplaced.2⟩
    rw [write, write, houter]
    simp [writeOuter, Phrase.reverse_group, Phrase.write_append, Phrase.write]

theorem readAll_cons (h : d.read place c = .ok e) :
    d.readAll place (c :: w) = e.readAll (place + 1) w := by
  rw [readAll, h]

theorem takes_of_readAll (h : d.readAll place (c :: w) = .ok e) :
    ∃ d', d.Takes place c d' ∧ d'.readAll (place + 1) w = .ok e := by
  cases hr : d.read place c with
  | error fault =>
    rw [readAll, hr] at h
    cases h
  | ok d' =>
    rw [readAll_cons hr] at h
    exact ⟨d', takes_of_read hr, h⟩

theorem keeps_readAll {v : List Char} (hd : d.Keeps v) (h : d.readAll v.length w = .ok e) :
    e.Keeps (v ++ w) := by
  induction w generalizing d v with
  | nil =>
    cases h
    rwa [List.append_nil]
  | cons c w ih =>
    obtain ⟨d', htakes, hd'⟩ := takes_of_readAll h
    have hlen : (v ++ [c]).length = v.length + 1 := by simp
    have hrest := ih (keeps_takes hd htakes) (by rwa [hlen])
    rwa [List.append_assoc] at hrest

theorem readAll_append_of_ok {v : List Char} (h : d.readAll place v = .ok e) :
    d.readAll place (v ++ w) = e.readAll (place + v.length) w := by
  rw [readAll_append, h]

theorem readAll_run (run : List Quantifier) (h : d.current ≠ .done) :
    d.readAll place (run.map Quantifier.symbol) =
      .ok { d with current := d.current.quantifyAll run } := by
  induction run generalizing d place with
  | nil => rfl
  | cons q run ih =>
    rw [List.map_cons, readAll_cons (read_of_takes (.quantifier q h))]
    exact ih (Phrase.quantify_ne_done h q)

/-- Reading what a phrase is written as adds its constructs to the innermost open group. -/
theorem readAll_write (hp : p.Full) (d : Draft) (place : ℕ) :
    d.readAll place p.write = .ok { d with current := p.reverseOnto d.current } := by
  induction p generalizing d place with
  | done => rfl
  | syllable m run rest ih =>
    have hrun : (d.mark m).readAll (place + 1) (run.map Quantifier.symbol) =
        .ok { d with current := .syllable m run.reverse d.current } := by
      rw [readAll_run run (by simp [mark]), mark, Phrase.quantifyAll_syllable, List.append_nil]
    rw [Phrase.write, readAll_cons (read_of_takes (.mark m)), readAll_append_of_ok hrun]
    exact ih hp _ _
  | group inside run rest ihi ih =>
    obtain ⟨hne, hinside, hrest⟩ := hp
    have hinner (place : ℕ) : (d.openGroup place).readAll (place + 1) inside.write =
        .ok ⟨(place, d.current) :: d.outer, inside.reverse⟩ := ihi hinside _ _
    have hclose (opened place : ℕ) :
        (⟨(opened, d.current) :: d.outer, inside.reverse⟩ : Draft).read place ')' =
          .ok ⟨d.outer, .group inside [] d.current⟩ := by
      have h : (⟨(opened, d.current) :: d.outer, inside.reverse⟩ : Draft).Takes place ')' _ :=
        .closing rfl (Phrase.reverse_ne_done hne)
      rw [Phrase.reverse_reverse] at h
      exact read_of_takes h
    have hrun (place : ℕ) : (⟨d.outer, .group inside [] d.current⟩ : Draft).readAll place
        (run.map Quantifier.symbol) = .ok ⟨d.outer, .group inside run.reverse d.current⟩ := by
      rw [readAll_run run (by simp), Phrase.quantifyAll_group, List.append_nil]
    rw [Phrase.write, readAll_cons (read_of_takes .opening), readAll_append_of_ok (hinner place),
      readAll_cons (hclose _ _), readAll_append_of_ok (hrun _)]
    exact ih hrest _ _

end Draft

namespace Phrase

theorem read_write (hne : p ≠ done) (hp : p.Full) : Phrase.read p.write = .ok p := by
  rw [Phrase.read, Draft.readAll_write hp]
  exact Draft.finish_eq_ok_iff.mpr ⟨rfl, reverse_ne_done hne, reverse_reverse p⟩

theorem derives_of_read (h : Phrase.read w = .ok p) : p.Derives w := by
  unfold Phrase.read at h
  split at h
  · cases h
  · rename_i d hd
    obtain ⟨hwrite, hfull, -⟩ := Draft.keeps_readAll Draft.keeps_start hd
    obtain ⟨houter, hne, rfl⟩ := Draft.finish_eq_ok_iff.mp h
    rw [Draft.write, houter] at hwrite
    exact ⟨reverse_ne_done hne, (full_reverse _).mpr hfull.1, hwrite⟩

theorem full_of_read (h : Phrase.read w = .ok p) : p ≠ done ∧ p.Full :=
  ⟨(derives_of_read h).ne_done, (derives_of_read h).full⟩

theorem read_eq_ok_iff : Phrase.read w = .ok p ↔ p.Derives w := by
  constructor
  · exact derives_of_read
  · rintro ⟨hne, hfull, rfl⟩
    exact read_write hne hfull

theorem Derives.unique {q : Phrase} (hp : p.Derives w) (hq : q.Derives w) : p = q := by
  have h := read_eq_ok_iff.mpr hp
  rw [read_eq_ok_iff.mpr hq] at h
  exact (Except.ok.inj h).symm

end Phrase

namespace Scheme

variable {s : Scheme}

theorem read_eq_ok_iff : Scheme.read w = .ok s ↔ ∃ p : Phrase, p.Derives w ∧ p.scheme 0 = s := by
  constructor
  · intro h
    obtain ⟨p, hp, hs⟩ := exists_phrase_of_read h
    exact ⟨p, Phrase.read_eq_ok_iff.mp hp, hs⟩
  · rintro ⟨p, hp, rfl⟩
    rw [Scheme.read, Phrase.read_eq_ok_iff.mpr hp]

theorem full_of_read (h : Scheme.read w = .ok s) : s ≠ done ∧ s.Full := by
  obtain ⟨p, hp, rfl⟩ := exists_phrase_of_read h
  obtain ⟨hne, hfull⟩ := Phrase.full_of_read hp
  exact ⟨Phrase.scheme_ne_done hne hfull 0, Phrase.full_scheme hfull 0⟩

end Scheme

end Prosody
