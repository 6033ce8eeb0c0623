import Prosody.Proofs.OpenBrackets

/-!
# The earliest fault

Reading stops at the first character with which no pattern that can be read goes on, and names that
character's place. Whatever was read before can be completed: one more syllable, and a closing
bracket for each group that is open. Places count characters, also where other characters than signs
take several bytes.
-/

namespace Prosody

variable {n i : ℕ} {c : Char} {u v w pattern : List Char} {d e : Draft} {f g : Fault}

def Viable (w : List Char) : Prop := ∃ t s, Scheme.read (w ++ t) = .ok s

/-- Place `i` is the first at which no pattern that can be read agrees any more. -/
def HaltsAt (pattern : List Char) (i : ℕ) : Prop :=
  IsLeast {i | i < pattern.length ∧ ¬Viable (pattern.take (i + 1))} i

def alphabet : List Char := ['u', 's', 'U', 'S', '(', ')', '*', '?', 'w']

theorem isSome_ofChar?_of_mem (h : c ∈ alphabet) : (Sign.ofChar? c).isSome = true := by
  have hall : (alphabet.all fun c => (Sign.ofChar? c).isSome) = true := rfl
  exact List.all_eq_true.mp hall c h

namespace Fault

inductive ShownBy (pattern : List Char) (i : ℕ) (c : Char) : Fault → Prop where
  | strangeCharacter (hc : c ∉ alphabet) : ShownBy pattern i c (.strangeCharacter i c)
  | looseQuantifier {q : Quantifier} (hc : c = q.symbol) :
      ShownBy pattern i c (.looseQuantifier i q)
  | emptyGroup {j : ℕ} (hc : c = ')') (hi : i = j + 1) (hj : pattern[j]? = some '(') :
      ShownBy pattern i c (.emptyGroup j)
  | unmatchedClosing (hc : c = ')') (hbefore : ∀ j, i = j + 1 → pattern[j]? ≠ some '(')
      (hopen : ∀ p, ¬OpenAt (pattern.take i) p) : ShownBy pattern i c (.unmatchedClosing i)

inductive ShownByEnd (pattern : List Char) : Fault → Prop where
  | emptyPattern (h : pattern = []) : ShownByEnd pattern .emptyPattern
  | unclosedGroup {p : ℕ} (h : pattern ≠ []) (hp : IsGreatest {p | OpenAt pattern p} p) :
      ShownByEnd pattern (.unclosedGroup p)

/-- The fault is shown by the character at which the pattern halts, or else by its end. -/
def Earliest (pattern : List Char) (f : Fault) : Prop :=
  (∃ i c, HaltsAt pattern i ∧ pattern[i]? = some c ∧ f.ShownBy pattern i c) ∨
    (∀ i, ¬HaltsAt pattern i) ∧ f.ShownByEnd pattern

theorem ShownBy.unique (hf : f.ShownBy pattern i c) (hg : g.ShownBy pattern i c) : f = g := by
  have hquantifier (q : Quantifier) : q.symbol ∈ alphabet ∧ q.symbol ≠ ')' := by
    cases q <;> decide
  have hclosing : ')' ∈ alphabet := by decide
  cases hf with
  | strangeCharacter hc =>
    cases hg with
    | strangeCharacter _ => rfl
    | looseQuantifier hq => exact absurd (hq ▸ (hquantifier _).1) hc
    | emptyGroup hq _ _ => exact absurd (hq ▸ hclosing) hc
    | unmatchedClosing hq _ _ => exact absurd (hq ▸ hclosing) hc
  | @looseQuantifier q hc =>
    cases hg with
    | strangeCharacter hq => exact absurd (hc ▸ (hquantifier _).1) hq
    | @looseQuantifier r hq =>
      have h := Quantifier.ofChar?_symbol q
      rw [← hc, hq, Quantifier.ofChar?_symbol] at h
      rw [Option.some.inj h]
    | emptyGroup hq _ _ => exact absurd (hc.symm.trans hq) (hquantifier _).2
    | unmatchedClosing hq _ _ => exact absurd (hc.symm.trans hq) (hquantifier _).2
  | emptyGroup hc hi hj =>
    cases hg with
    | strangeCharacter hq => exact absurd (hc ▸ hclosing) hq
    | looseQuantifier hq => exact absurd (hq.symm.trans hc) (hquantifier _).2
    | emptyGroup _ hk _ => rw [Nat.succ.inj (hi.symm.trans hk)]
    | unmatchedClosing _ hbefore _ => exact absurd hj (hbefore _ hi)
  | unmatchedClosing hc hbefore hopen =>
    cases hg with
    | strangeCharacter hq => exact absurd (hc ▸ hclosing) hq
    | looseQuantifier hq => exact absurd (hq.symm.trans hc) (hquantifier _).2
    | emptyGroup _ hi hj => exact absurd hj (hbefore _ hi)
    | unmatchedClosing _ _ _ => rfl

theorem ShownByEnd.unique (hf : f.ShownByEnd pattern) (hg : g.ShownByEnd pattern) : f = g := by
  cases hf with
  | emptyPattern h =>
    cases hg with
    | emptyPattern _ => rfl
    | unclosedGroup hne _ => exact absurd h hne
  | unclosedGroup hne hp =>
    cases hg with
    | emptyPattern h => exact absurd h hne
    | unclosedGroup _ hq => rw [hp.unique hq]

theorem Earliest.unique (hf : f.Earliest pattern) (hg : g.Earliest pattern) : f = g := by
  rcases hf with ⟨i, c, hi, hc, hf⟩ | ⟨hnone, hf⟩
  · rcases hg with ⟨j, b, hj, hb, hg⟩ | ⟨hnone, -⟩
    · obtain rfl := hi.unique hj
      rw [hc] at hb
      cases hb
      exact hf.unique hg
    · exact absurd hi (hnone i)
  · rcases hg with ⟨i, -, hi, -⟩ | ⟨-, hg⟩
    · exact absurd hi (hnone i)
    · exact hf.unique hg

end Fault

namespace Draft

/-- The groups that are open can be closed once something was read in the innermost. -/
theorem readAll_closings (d : Draft) (n : ℕ) (h : d.current ≠ .done) :
    ∃ p, d.readAll n (List.replicate d.outer.length ')') = .ok ⟨[], p⟩ ∧ p ≠ .done := by
  obtain ⟨outer, current⟩ := d
  induction outer generalizing current n with
  | nil => exact ⟨current, rfl, h⟩
  | cons x outer ih =>
    obtain ⟨opened, before⟩ := x
    have hread : (⟨(opened, before) :: outer, current⟩ : Draft).read n ')' =
        .ok ⟨outer, .group current.reverse [] before⟩ := read_of_takes (.closing rfl h)
    obtain ⟨p, hp, hne⟩ := ih (n + 1) (.group current.reverse [] before) (by simp)
    refine ⟨p, ?_, hne⟩
    rw [List.length_cons, List.replicate_succ, readAll_cons hread]
    exact hp

/-- Reading fails at the first character that cannot be taken in. -/
theorem exists_of_readAll_error (h : d.readAll n w = .error f) :
    ∃ u c t e, w = u ++ c :: t ∧ d.readAll n u = .ok e ∧ e.read (n + u.length) c = .error f := by
  induction w generalizing d n with
  | nil => cases h
  | cons c w ih =>
    cases hr : d.read n c with
    | error fault =>
      rw [readAll, hr] at h
      cases h
      exact ⟨[], c, w, d, rfl, rfl, hr⟩
    | ok d' =>
      rw [readAll_cons hr] at h
      obtain ⟨u, b, t, e, rfl, hu, hb⟩ := ih h
      refine ⟨c :: u, b, t, e, rfl, ?_, ?_⟩
      · rw [readAll_cons hr, hu]
      · rw [List.length_cons, ← hb]
        congr 1
        omega

end Draft

theorem Scheme.exists_draft_of_read {s : Scheme} (h : Scheme.read w = .ok s) :
    ∃ d, Draft.start.readAll 0 w = .ok d ∧ d.outer = [] := by
  obtain ⟨p, ⟨-, hfull, rfl⟩, -⟩ := Scheme.read_eq_ok_iff.mp h
  exact ⟨_, Draft.readAll_write hfull Draft.start 0, rfl⟩

theorem viable_iff : Viable w ↔ ∃ d, Draft.start.readAll 0 w = .ok d := by
  constructor
  · rintro ⟨t, s, h⟩
    obtain ⟨d, hd, -⟩ := Scheme.exists_draft_of_read h
    rw [Draft.readAll_append] at hd
    cases hw : Draft.start.readAll 0 w with
    | error fault =>
      rw [hw] at hd
      cases hd
    | ok e => exact ⟨e, rfl⟩
  · rintro ⟨d, hd⟩
    -- one more syllable, and all brackets that are open
    obtain ⟨p, hp, hne⟩ := (d.mark ⟨.unstressed, .weak⟩).readAll_closings (0 + w.length + 1)
      (by simp [Draft.mark])
    refine ⟨'u' :: List.replicate d.outer.length ')', p.reverse.scheme 0, ?_⟩
    have hmark (n : ℕ) : d.read n 'u' = .ok (d.mark ⟨.unstressed, .weak⟩) := rfl
    have hread : Draft.start.readAll 0 (w ++ 'u' :: List.replicate d.outer.length ')') =
        .ok ⟨[], p⟩ := by
      rw [Draft.readAll_append_of_ok hd, Draft.readAll_cons (hmark _)]
      exact hp
    have hfinish : (⟨[], p⟩ : Draft).finish = .ok p.reverse :=
      Draft.finish_eq_ok_iff.mpr ⟨rfl, hne, rfl⟩
    rw [Scheme.read, Phrase.read, hread]
    simp only [hfinish]

theorem Viable.of_append (h : Viable (u ++ v)) : Viable u := by
  obtain ⟨t, s, h⟩ := h
  rw [List.append_assoc] at h
  exact ⟨v ++ t, s, h⟩

theorem viable_take (h : Viable w) (i : ℕ) : Viable (w.take i) := by
  rw [← List.take_append_drop i w] at h
  exact h.of_append

theorem not_haltsAt_of_viable (h : Viable w) (i : ℕ) : ¬HaltsAt w i :=
  fun hi => hi.1.2 (viable_take h (i + 1))

theorem haltsAt_of_read_error (hu : Draft.start.readAll 0 u = .ok d)
    (hc : d.read u.length c = .error f) (t : List Char) : HaltsAt (u ++ c :: t) u.length := by
  constructor
  · refine ⟨by simp, fun hviable => ?_⟩
    have htake : (u ++ c :: t).take (u.length + 1) = u ++ [c] := by
      rw [List.take_length_add_append]
      rfl
    rw [htake] at hviable
    obtain ⟨e, he⟩ := viable_iff.mp hviable
    rw [Draft.readAll_append_of_ok hu, Nat.zero_add, Draft.readAll, hc] at he
    cases he
  · rintro j ⟨-, hj⟩
    by_contra! hlt
    apply hj
    rw [List.take_append_of_le_length hlt]
    exact viable_take (viable_iff.mpr ⟨d, hu⟩) _

theorem Draft.Keeps.shownBy (hd : d.Keeps u) (h : d.read u.length c = .error f) (t : List Char) :
    f.ShownBy (u ++ c :: t) u.length c := by
  cases Draft.refuses_of_read h with
  | strange hc =>
    refine .strangeCharacter fun hmem => ?_
    have hsign := isSome_ofChar?_of_mem hmem
    rw [hc] at hsign
    cases hsign
  | quantifier hc _ => exact .looseQuantifier hc
  | unmatched hc houter =>
    have hopen : ∀ p, ¬OpenAt u p := by
      intro p hp
      have hmem := hd.openAt_iff.mp hp
      rw [houter] at hmem
      exact List.not_mem_nil hmem
    refine .unmatchedClosing hc (fun j hj hbefore => ?_) (fun p => ?_)
    · -- a bracket directly before would still be open
      rw [List.getElem?_append_left (by omega)] at hbefore
      have hu : u = u.take j ++ ['('] :=
        calc u = u.take (j + 1) := (List.take_of_length_le hj.le).symm
          _ = u.take j ++ ['('] := by rw [List.take_add_one, hbefore]; rfl
      rw [hu] at hopen
      exact hopen _ (openAt_append_opening_iff.mpr (Or.inl rfl))
    · rw [List.take_left]
      exact hopen p
  | @empty opened before outer hc houter hdone =>
    have hplaced := hd.placed
    have hwrite := hd.write
    rw [houter] at hplaced
    rw [Draft.write, houter, hdone] at hwrite
    -- all that was read of the group is its bracket
    have hu : u = Draft.writeOuter outer ++ before.reverse.write ++ ['('] := by
      rw [← hwrite]
      exact List.append_nil _
    refine .emptyGroup hc ?_ ?_
    · rw [hu, hplaced.1, List.length_append, List.length_singleton]
    · rw [hu, hplaced.1, List.append_assoc, List.getElem?_append_right le_rfl, Nat.sub_self]
      rfl

theorem Draft.Keeps.shownByEnd (hd : d.Keeps w) (h : d.finish = .error f) :
    f.ShownByEnd w := by
  unfold Draft.finish at h
  split at h
  · rename_i opened before outer houter
    cases h
    have hgreatest := hd.isGreatest_openAt houter
    refine .unclosedGroup (fun hnil => ?_) hgreatest
    have hopen := hgreatest.1
    rw [hnil] at hopen
    exact Balanced.nil.not_openAt hopen
  · rename_i houter
    split at h
    · rename_i hdone
      cases h
      rw [Phrase.isDone_iff] at hdone
      have hwrite := hd.write
      rw [Draft.write, houter, hdone] at hwrite
      exact .emptyPattern hwrite.symm
    · cases h

theorem Phrase.earliest_of_read (h : Phrase.read pattern = .error f) : f.Earliest pattern := by
  unfold Phrase.read at h
  cases hr : Draft.start.readAll 0 pattern with
  | error fault =>
    rw [hr] at h
    cases h
    obtain ⟨u, c, t, d, rfl, hu, hc⟩ := Draft.exists_of_readAll_error hr
    rw [Nat.zero_add] at hc
    refine Or.inl ⟨u.length, c, haltsAt_of_read_error hu hc t, by simp, ?_⟩
    exact (Draft.keeps_readAll Draft.keeps_start hu).shownBy hc t
  | ok d =>
    rw [hr] at h
    refine Or.inr ⟨not_haltsAt_of_viable (viable_iff.mpr ⟨d, hr⟩), ?_⟩
    exact (Draft.keeps_readAll Draft.keeps_start hr).shownByEnd h

theorem Scheme.earliest_of_read (h : Scheme.read pattern = .error f) : f.Earliest pattern := by
  unfold Scheme.read at h
  cases hp : Phrase.read pattern with
  | error fault =>
    rw [hp] at h
    cases h
    exact Phrase.earliest_of_read hp
  | ok p =>
    rw [hp] at h
    cases h

theorem Scheme.not_earliest_of_read {s : Scheme} (h : Scheme.read pattern = .ok s) :
    ¬f.Earliest pattern := by
  obtain ⟨d, hd, houter⟩ := Scheme.exists_draft_of_read h
  rintro (⟨i, -, hi, -⟩ | ⟨-, hend⟩)
  · exact not_haltsAt_of_viable (viable_iff.mpr ⟨d, hd⟩) i hi
  · cases hend with
    | emptyPattern hnil =>
      rw [hnil] at h
      cases h
    | unclosedGroup _ hp =>
      have hmem := (Draft.keeps_readAll Draft.keeps_start hd).openAt_iff.mp hp.1
      rw [houter] at hmem
      exact List.not_mem_nil hmem

/-- Reads with places counted in the bytes that the characters take in UTF-8. -/
def Draft.readBytes (d : Draft) (offset : ℕ) : List Char → Except Fault Draft
  | [] => .ok d
  | c :: rest =>
    match d.read offset c with
    | .error fault => .error fault
    | .ok d => d.readBytes (offset + c.utf8Size) rest

theorem Sign.utf8Size_symbol (s : Sign) : s.symbol.utf8Size = 1 := by
  rcases s with ⟨⟨_ | _, _ | _⟩⟩ | ⟨_ | _ | _⟩ | _ | _ <;> rfl

theorem Draft.exists_sign_of_read (h : d.read n c = .ok e) : ∃ s : Sign, s.symbol = c := by
  cases hc : Sign.ofChar? c with
  | none =>
    rw [read, hc] at h
    cases h
  | some s => exact ⟨s, Sign.symbol_of_ofChar? hc⟩

/-- All signs take one byte, so bytes and characters agree as far as anything is read. -/
theorem Draft.readBytes_eq_readAll (d : Draft) (n : ℕ) (w : List Char) :
    d.readBytes n w = d.readAll n w := by
  induction w generalizing d n with
  | nil => rfl
  | cons c w ih =>
    cases hr : d.read n c with
    | error fault => rw [readBytes, readAll, hr]
    | ok e =>
      obtain ⟨s, rfl⟩ := exists_sign_of_read hr
      rw [readBytes, readAll, hr, s.utf8Size_symbol]
      exact ih e (n + 1)

def Scheme.readBytes (pattern : List Char) : Except Fault Scheme :=
  match Draft.start.readBytes 0 pattern with
  | .error fault => .error fault
  | .ok d =>
    match d.finish with
    | .error fault => .error fault
    | .ok p => .ok (p.scheme 0)

/-- A pattern is refused with a fault just when this is the earliest fault, whether places count
characters or bytes. -/
theorem Scheme.refuses_earliest_fault (pattern : List Char) (fault : Fault) :
    (Scheme.read pattern = .error fault ↔ fault.Earliest pattern) ∧
      (Scheme.readBytes pattern = .error fault ↔ fault.Earliest pattern) := by
  have hbytes : Scheme.readBytes pattern = Scheme.read pattern := by
    rw [readBytes, Draft.readBytes_eq_readAll, Scheme.read, Phrase.read]
    cases Draft.start.readAll 0 pattern <;> rfl
  rw [hbytes, and_self]
  constructor
  · exact Scheme.earliest_of_read
  · intro hfault
    cases hr : Scheme.read pattern with
    | error fault' => rw [(Scheme.earliest_of_read hr).unique hfault]
    | ok s => exact absurd hfault (Scheme.not_earliest_of_read hr)

end Prosody
