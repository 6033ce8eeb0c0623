import Prosody.Proofs.Likeness

/-!
# Brackets around quantified syllables

A mark with a quantifier may as well stand in brackets before the quantifier. Reading a pattern with
such brackets follows the reading of the pattern without them: the drafts differ only in groups of
one syllable, and so do the phrases at the end.
-/

namespace Prosody

variable {u v : List Char} {n k : ℕ} {c : Char} {d d' e : Draft}

/-- The second pattern is the first with brackets around some marks that stand directly before a
quantifier. -/
inductive AddsBrackets : List Char → List Char → Prop where
  | nil : AddsBrackets [] []
  | keep {u v : List Char} (c : Char) (rest : AddsBrackets u v) : AddsBrackets (c :: u) (c :: v)
  | bracket {u v : List Char} (m : Mark) (q : Quantifier) (rest : AddsBrackets u v) :
      AddsBrackets (m.symbol :: q.symbol :: u) ('(' :: m.symbol :: ')' :: q.symbol :: v)

namespace Phrase

inductive Bracketed : Phrase → Phrase → Prop where
  | done : Bracketed done done
  | syllable {s t : Phrase} (m : Mark) (run : List Quantifier) (rest : Bracketed s t) :
      Bracketed (syllable m run s) (syllable m run t)
  | group {i j s t : Phrase} (run : List Quantifier) (inside : Bracketed i j)
      (rest : Bracketed s t) : Bracketed (group i run s) (group j run t)
  | bracket {s t : Phrase} (m : Mark) {run : List Quantifier} (quantified : run ≠ [])
      (rest : Bracketed s t) :
      Bracketed (syllable m run s) (group (syllable m [] .done) run t)

namespace Bracketed

variable {i j s t : Phrase}

theorem append (hs : s.Bracketed t) (hi : i.Bracketed j) : (s ++ i).Bracketed (t ++ j) := by
  induction hs with
  | done => exact hi
  | syllable m run _ ih => exact .syllable m run ih
  | group run hinside _ _ ih => exact .group run hinside ih
  | bracket m hrun _ ih => exact .bracket m hrun ih

theorem reverse (h : s.Bracketed t) : s.reverse.Bracketed t.reverse := by
  induction h with
  | done => exact .done
  | syllable m run _ ih =>
    rw [reverse_syllable, reverse_syllable]
    exact ih.append (.syllable m run.reverse .done)
  | group run hinside _ _ ih =>
    rw [reverse_group, reverse_group]
    exact ih.append (.group run.reverse hinside .done)
  | bracket m hrun _ ih =>
    rw [reverse_syllable, reverse_group]
    exact ih.append (.bracket m (by simpa using hrun) .done)

theorem quantify (h : s.Bracketed t) (q : Quantifier) :
    (s.quantify q).Bracketed (t.quantify q) := by
  cases h with
  | done => exact .done
  | syllable m run hrest => exact .syllable m (q :: run) hrest
  | group run hinside hrest => exact .group (q :: run) hinside hrest
  | bracket m _ hrest => exact .bracket m (List.cons_ne_nil q _) hrest

theorem ne_done (h : s.Bracketed t) (hs : s ≠ .done) : t ≠ .done := by
  cases h with
  | done => exact absurd rfl hs
  | syllable m run _ => simp
  | group run _ _ => simp
  | bracket m _ _ => simp

theorem alike (h : s.Bracketed t) (n k : ℕ) : (s.scheme n).Alike (t.scheme k) := by
  induction h generalizing n k with
  | done => exact .done
  | syllable m run _ ih => exact alike_syllable m rfl ih n k
  | group run _ _ ihi ih => exact alike_group rfl ihi ih n k
  | bracket m hrun _ ih =>
    rw [scheme, scheme, List.getLast?_eq_some_getLast hrun]
    exact .bracketed _ _ _ rfl (ih _ _)

end Bracketed

end Phrase

namespace Draft

structure Bracketed (d e : Draft) : Prop where
  outer : List.Forall₂ (fun x y => x.2.Bracketed y.2) d.outer e.outer
  current : d.current.Bracketed e.current

theorem Bracketed.takes (h : d.Bracketed e) (hd : d.Takes n c d') (k : ℕ) :
    ∃ e', e.Takes k c e' ∧ d'.Bracketed e' := by
  cases hd with
  | mark m => exact ⟨e.mark m, .mark m, h.outer, .syllable m [] h.current⟩
  | quantifier q hne =>
    exact ⟨_, .quantifier q (h.current.ne_done hne), h.outer, h.current.quantify q⟩
  | opening => exact ⟨_, .opening, .cons h.current h.outer, .done⟩
  | closing houter hne =>
    have houters := h.outer
    rw [houter] at houters
    obtain ⟨⟨opened, before⟩, outer, hbefore, hrest, he⟩ := List.forall₂_cons_left_iff.mp houters
    exact ⟨_, .closing he (h.current.ne_done hne), hrest, .group [] h.current.reverse hbefore⟩

/-- Reading goes on alike where one pattern has brackets that the other has not. -/
theorem Bracketed.readAll (hw : AddsBrackets u v) (h : d.Bracketed e)
    (hd : d.readAll n u = .ok d') (k : ℕ) : ∃ e', e.readAll k v = .ok e' ∧ d'.Bracketed e' := by
  induction hw generalizing d e n k with
  | nil =>
    cases hd
    exact ⟨e, rfl, h⟩
  | keep c _ ih =>
    obtain ⟨d₁, htakes, hd⟩ := takes_of_readAll hd
    obtain ⟨e₁, htakes', h₁⟩ := h.takes htakes k
    obtain ⟨e', he', h'⟩ := ih h₁ hd (k + 1)
    exact ⟨e', by rw [readAll_cons (read_of_takes htakes'), he'], h'⟩
  | @bracket u v m q _ ih =>
    -- two signs are read on one side and four on the other before the drafts are compared again
    have hplain : d.readAll n [m.symbol, q.symbol] =
        .ok { d with current := .syllable m [q] d.current } :=
      readAll_write (p := .syllable m [q] .done) trivial d n
    have hgroup : e.readAll k ['(', m.symbol, ')', q.symbol] =
        .ok { e with current := .group (.syllable m [] .done) [q] e.current } :=
      readAll_write (p := .group (.syllable m [] .done) [q] .done) (by simp [Phrase.Full]) e k
    have hboth : Bracketed { d with current := .syllable m [q] d.current }
        { e with current := .group (.syllable m [] .done) [q] e.current } :=
      ⟨h.outer, .bracket m (List.cons_ne_nil q []) h.current⟩
    have hrest := readAll_append_of_ok (w := u) hplain
    have hrest' := readAll_append_of_ok (w := v) hgroup
    obtain ⟨e', he', h'⟩ := ih hboth (hrest.symm.trans hd) (k + 4)
    exact ⟨e', hrest'.trans he', h'⟩

end Draft

theorem Phrase.exists_bracketed {pattern other : List Char} {p : Phrase}
    (hp : Phrase.read pattern = .ok p) (h : AddsBrackets pattern other) :
    ∃ q, Phrase.read other = .ok q ∧ p.Bracketed q := by
  obtain ⟨hne, hfull, rfl⟩ := derives_of_read hp
  have hd : Draft.start.readAll 0 p.write = .ok ⟨[], p.reverse⟩ :=
    Draft.readAll_write hfull Draft.start 0
  have hstart : Draft.start.Bracketed Draft.start := ⟨.nil, .done⟩
  obtain ⟨e, he, houter, hcurrent⟩ := hstart.readAll h hd 0
  have hclosed : e.outer = [] := List.forall₂_nil_left_iff.mp houter
  have hsome : e.current ≠ .done := hcurrent.ne_done (reverse_ne_done hne)
  have hfinish : e.finish = .ok e.current.reverse :=
    Draft.finish_eq_ok_iff.mpr ⟨hclosed, hsome, rfl⟩
  have hphrases := hcurrent.reverse
  rw [reverse_reverse] at hphrases
  refine ⟨e.current.reverse, ?_, hphrases⟩
  rw [Phrase.read, he]
  exact hfinish

namespace Gauge

variable {pattern other : List Char} {border : ℕ} {g : Gauge}

/-- A pattern that is read is also read with brackets around any of its marks that have a
quantifier, and has the same answers then. -/
theorem brackets_around_quantified_marks_do_not_count (hg : ofPattern pattern border = .ok g)
    (hadds : AddsBrackets pattern other) :
    ∃ h, ofPattern other border = .ok h ∧ ∀ line, h.scan line = g.scan line := by
  obtain ⟨hread, -⟩ := scheme_of_ofPattern hg
  obtain ⟨p, hp, hscheme⟩ := Scheme.exists_phrase_of_read hread
  obtain ⟨q, hq, hpq⟩ := Phrase.exists_bracketed hp hadds
  have hother := ofPattern_of_read hq border
  refine ⟨_, hother, scan_eq_of_alike hg hother ?_⟩
  rw [← hscheme]
  exact hpq.alike 0 0

/-- Two of the three quantified marks of a pattern, one of them inside a repeated group. -/
theorem brackets_around_quantified_marks_do_not_count_of_nested :
    ∃ g h, ofPattern "u?(s*wU)*S*".toList 3 = .ok g ∧
      AddsBrackets "u?(s*wU)*S*".toList "(u)?((s)*wU)*S*".toList ∧
      ofPattern "(u)?((s)*wU)*S*".toList 3 = .ok h ∧
      ∀ line, h.scan line = g.scan line := by
  have hg : ofPattern "u?(s*wU)*S*".toList 3 = .ok _ := rfl
  have h : AddsBrackets "u?(s*wU)*S*".toList "(u)?((s)*wU)*S*".toList :=
    .bracket ⟨.unstressed, .weak⟩ .optional (.keep '(' (.bracket ⟨.stressed, .weak⟩ .many
      (.keep 'w' (.keep 'U' (.keep ')' (.keep '*' (.keep 'S' (.keep '*' .nil))))))))
  obtain ⟨g', hg', hscan⟩ := brackets_around_quantified_marks_do_not_count hg h
  exact ⟨_, g', hg, h, hg', hscan⟩

end Gauge

end Prosody
