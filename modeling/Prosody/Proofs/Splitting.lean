import Prosody.Proofs.Alternatives
import Prosody.Proofs.NormalForm
import Prosody.Proofs.Passage

/-!
# Splitting a path

A path that is read through a run of siblings stops in the run, reads it to its end, or leaves the
group around it early. In each case it splits into a part within the run, whose marks the passage of
the run admits, and a rest that is read in fewer steps from what is due afterwards. So the words of
complete paths are among those that scanning is said to spell.
-/

namespace Prosody

variable {c : Chart} {σ : Setting} {L M : Language Mark} {a a' b b' n k i i' j j' place : ℕ}
  {led : Bool} {e o : Option ℕ} {p u v : Path} {m : Mark} {t rest inside : Scheme}
  {q : Quantifier} {x : Site}

namespace Path

def Within (a b : ℕ) (p : Path) : Prop := ∀ q ∈ p, a ≤ q.number ∧ q.number < b

theorem within_nil : Within a b [] := fun _ hq => absurd hq List.not_mem_nil

theorem within_singleton (h : a ≤ n) (h' : n < b) : Within a b [⟨n, m⟩] := by
  intro q hq
  rw [List.mem_singleton] at hq
  subst hq
  exact ⟨h, h'⟩

theorem Within.append (hu : Within a b u) (hv : Within a b v) : Within a b (u ++ v) := by
  intro q hq
  rcases List.mem_append.mp hq with hq | hq
  · exact hu q hq
  · exact hv q hq

theorem Within.widen (h : Within a b p) (ha : a' ≤ a) (hb : b ≤ b') : Within a' b' p := by
  intro q hq
  obtain ⟨h1, h2⟩ := h q hq
  exact ⟨ha.trans h1, h2.trans_le hb⟩

theorem Within.endsAt_lt (h : Within a b p) (hn : n < b) : p.endsAt n < b := by
  induction p generalizing n with
  | nil => exact hn
  | cons q p ih =>
    exact ih (fun r hr => h r (List.mem_cons_of_mem q hr)) (h q List.mem_cons_self).2

end Path

namespace Chart

theorem Reads.eq_nil (h : c.Reads k none p) : p = [] := by
  cases h
  rfl

/-- A path that is read from a syllable stops there, passes the syllable or starts with it. -/
theorem Reads.of_syllable (hx : c.site? n = some x) (hmark : x.mark? = some m)
    (h : c.Reads j (some n) p) :
    p = [] ∨ (∃ i < j, c.Reads i x.bypass p) ∨
      ∃ i < j, ∃ v, p = ⟨n, m⟩ :: v ∧ c.Reads i x.onward v := by
  cases h with
  | stop => exact Or.inl rfl
  | @pass i _ y _ hy hread =>
    rw [hx] at hy
    cases hy
    exact Or.inr (Or.inl ⟨i, i.lt_succ_self, hread⟩)
  | @read i _ y _ v hy hmark' hread =>
    rw [hx] at hy
    cases hy
    rw [hmark] at hmark'
    cases hmark'
    exact Or.inr (Or.inr ⟨i, i.lt_succ_self, v, rfl, hread⟩)

/-- The path `p` starts with a word of `L`, read between the numbers `a` and `b`; what is left is
read in fewer than `j` steps when `e` is due. -/
def Splits (c : Chart) (L : Language Mark) (a b j : ℕ) (e : Option ℕ) (p : Path) : Prop :=
  ∃ u v i, p = u ++ v ∧ u.marks ∈ L ∧ u.Within a b ∧ i < j ∧ c.Reads i e v

theorem Splits.mono (h : c.Splits L a b i e p) (hL : L ≤ M) (ha : a' ≤ a) (hb : b ≤ b')
    (hij : i ≤ j) : c.Splits M a' b' j e p := by
  obtain ⟨u, v, r, hp, hu, hin, hr, hread⟩ := h
  exact ⟨u, v, r, hp, Word.mem_of_le hL hu, hin.widen ha hb, hr.trans_le hij, hread⟩

/-- A split goes through to a longer path if its language takes in what is put in front. -/
theorem Splits.prepend (h : c.Splits L a b i e p) (hu : u.marks ∈ M) (hin : u.Within a b)
    (hij : i ≤ j) : c.Splits (M * L) a b j e (u ++ p) := by
  obtain ⟨u', v, r, rfl, hu', hin', hr, hread⟩ := h
  refine ⟨u ++ u', v, r, (List.append_assoc u u' v).symm, ?_, hin.append hin', by omega, hread⟩
  rw [Path.marks_append]
  exact Language.append_mem_mul hu hu'

theorem splits_of_reads (h : c.Reads i e p) (hL : [] ∈ L) (hij : i < j) :
    c.Splits L a b j e p :=
  ⟨[], p, i, rfl, hL, Path.within_nil, hij, h⟩

theorem Reads.quantified (hx : c.site? n = some x) (hmark : x.mark? = some m)
    (honward : x.onward = if q = .many then some n else e) (hbypass : x.bypass = e)
    (h : c.Reads j (some n) p) :
    c.Splits (q.repeated {[m]}) n (n + 1) 1 none p ∨
      c.Splits (q.repeated {[m]}) n (n + 1) j e p := by
  have hnil : [] ∈ q.repeated {[m]} := Word.mem_of_le (q.one_le_repeated _) Language.nil_mem_one
  have hm : Path.marks [⟨n, m⟩] ∈ ({[m]} : Language Mark) := rfl
  have hin : Path.Within n (n + 1) [⟨n, m⟩] := Path.within_singleton le_rfl n.lt_succ_self
  induction j using Nat.strong_induction_on generalizing p with
  | _ j ih =>
    rcases h.of_syllable hx hmark with rfl | ⟨i, hij, hread⟩ | ⟨i, hij, v, rfl, hread⟩
    · exact Or.inl (splits_of_reads .stop hnil Nat.zero_lt_one)
    · rw [hbypass] at hread
      exact Or.inr (splits_of_reads hread hnil hij)
    · rw [honward] at hread
      split_ifs at hread with hq
      · subst hq
        have hle : {[m]} * Quantifier.many.repeated {[m]} ≤ Quantifier.many.repeated {[m]} :=
          mul_kstar_le_kstar
        rcases ih i hij hread with hsplit | hsplit
        · exact Or.inl ((hsplit.prepend hm hin le_rfl).mono hle le_rfl le_rfl le_rfl)
        · exact Or.inr ((hsplit.prepend hm hin hij.le).mono hle le_rfl le_rfl le_rfl)
      · have hone := Word.mem_of_le (q.le_repeated _) hm
        exact Or.inr ⟨[⟨n, m⟩], v, i, rfl, hone, hin, hij, hread⟩

/-- A path stops between the numbers `a` and `b`, reads what is there to its end and goes on from
`o`, or leaves early and goes on from `e`. -/
inductive Divides (c : Chart) (P : Passage) (a b i j : ℕ) (o e : Option ℕ) (p : Path) : Prop
  | stop : c.Splits P.part a b 1 none p → c.Divides P a b i j o e p
  | through : c.Splits P.whole a b i o p → c.Divides P a b i j o e p
  | leave : c.Splits P.early a b j e p → c.Divides P a b i j o e p

theorem Divides.prepend {P R : Passage} (h : c.Divides R a b i' j' o e v) (hu : u.marks ∈ L)
    (hin : u.Within n a) (hna : n ≤ a) (hab : a ≤ b) (hi : i' ≤ i) (hj : j' ≤ j)
    (hpart : L * R.part ≤ P.part) (hwhole : L * R.whole ≤ P.whole)
    (hearly : L * R.early ≤ P.early) : c.Divides P n b i j o e (u ++ v) := by
  have hin : u.Within n b := hin.widen le_rfl hab
  cases h with
  | stop h =>
    have hsplit := (h.mono le_rfl hna le_rfl le_rfl).prepend hu hin le_rfl
    exact .stop (hsplit.mono hpart le_rfl le_rfl le_rfl)
  | through h =>
    have hsplit := (h.mono le_rfl hna le_rfl le_rfl).prepend hu hin hi
    exact .through (hsplit.mono hwhole le_rfl le_rfl le_rfl)
  | leave h =>
    have hsplit := (h.mono le_rfl hna le_rfl le_rfl).prepend hu hin hj
    exact .leave (hsplit.mono hearly le_rfl le_rfl le_rfl)

theorem Divides.of_part {P : Passage} (hu : p.marks ∈ P.part) (hin : p.Within a b) :
    c.Divides P a b i j o e p :=
  .stop ⟨p, [], 0, (List.append_nil p).symm, hu, hin, Nat.zero_lt_one, .stop⟩

/-- A group, once it is known how paths go through its inside. A path that comes back to the entry
of a repeated group does so with fewer steps left. -/
theorem Reads.group {I : Passage} (hne : inside ≠ .done)
    (hinside : ∀ i p, c.Reads i ((σ.inner n q inside rest).leave (n + 1) inside) p →
      c.Divides I (n + 1) (n + 1 + inside.size) (if inside = .done then i + 1 else i) i
        ((σ.inner n q inside rest).leave (n + 1 + inside.size) .done)
        (σ.inner n q inside rest).exit p)
    (h : c.Reads j (some (n + 1 + inside.lead)) p) :
    c.Splits (q.staying I) n (n + 1 + inside.size) 1 none p ∨
      c.Splits (q.leaving I) n (n + 1 + inside.size) j (σ.leave (n + 1 + inside.size) rest) p := by
  have hentry : (σ.inner n q inside rest).leave (n + 1) inside = some (n + 1 + inside.lead) :=
    if_neg hne
  have hend : (σ.inner n q inside rest).leave (n + 1 + inside.size) .done =
      if q.isMany then some (n + 1 + inside.lead) else σ.leave (n + 1 + inside.size) rest :=
    if_pos rfl
  rw [hentry] at hinside
  simp only [if_neg hne, hend] at hinside
  induction j using Nat.strong_induction_on generalizing p with
  | _ j ih =>
    cases hinside j p h with
    | stop hpart => exact Or.inl (hpart.mono (q.part_le_staying I) n.le_succ le_rfl le_rfl)
    | leave hearly => exact Or.inr (hearly.mono (q.early_le_leaving I) n.le_succ le_rfl le_rfl)
    | through hwhole =>
      obtain ⟨u, v, i, rfl, hu, hin, hij, hread⟩ := hwhole
      have hin : u.Within n (n + 1 + inside.size) := hin.widen n.le_succ le_rfl
      split_ifs at hread with hq
      · have hstaying := q.whole_mul_staying_le hq I
        have hleaving := q.whole_mul_leaving_le hq I
        rcases ih i hij hread with hsplit | hsplit
        · exact Or.inl ((hsplit.prepend hu hin le_rfl).mono hstaying le_rfl le_rfl le_rfl)
        · exact Or.inr ((hsplit.prepend hu hin hij.le).mono hleaving le_rfl le_rfl le_rfl)
      · rw [Bool.not_eq_true] at hq
        exact Or.inr ⟨u, v, i, rfl, Word.mem_of_le (q.whole_le_leaving hq I) hu, hin, hij, hread⟩

theorem Splits.stops (h : c.Splits L a b j none p) : p.marks ∈ L ∧ p.Within a b := by
  obtain ⟨u, v, i, rfl, hu, hin, -, hread⟩ := h
  rw [hread.eq_nil, List.append_nil]
  exact ⟨hu, hin⟩

/-- Every way through a run of siblings is one of the three that its passage tells apart. Only a run
without siblings is read to its end in no step at all. -/
theorem Reads.divides (hfull : t.Full) (hshows : c.Shows σ n k led t)
    (h : c.Reads j (σ.leave n t) p) :
    c.Divides (t.passage σ.loops σ.closes led) n (n + t.size) (if t = .done then j + 1 else j) j
      (σ.leave (n + t.size) .done) σ.exit p := by
  induction t generalizing σ n k led j p with
  | done => exact .through (splits_of_reads h rfl j.lt_succ_self)
  | syllable place m q rest ih =>
    rw [Setting.leave_syllable] at h
    rw [Scheme.add_size_syllable, if_neg (by simp)]
    cases q with
    | none =>
      obtain ⟨x, hx, hmark, honward, hbypass, hrest⟩ := hshows.plain
      rcases h.of_syllable hx hmark with rfl | ⟨i, hij, hread⟩ | ⟨i, hij, v, rfl, hread⟩
      · exact Divides.of_part (Or.inl rfl) Path.within_nil
      · rw [hbypass] at hread
        split_ifs at hread with hleads
        · refine .leave (splits_of_reads hread (Or.inl ?_) hij)
          rw [if_pos hleads]
          exact Language.nil_mem_one
        · rw [hread.eq_nil]
          exact Divides.of_part (Or.inl rfl) Path.within_nil
      · rw [honward] at hread
        have hin : Path.Within n (n + 1) [⟨n, m⟩] := Path.within_singleton le_rfl n.lt_succ_self
        have hu : Path.marks [⟨n, m⟩] ∈ ({[m]} : Language Mark) := rfl
        refine (ih hfull hrest hread).prepend hu hin n.le_succ (by omega) ?_ hij.le
          le_sup_right le_rfl le_sup_right
        split_ifs <;> omega
    | some q =>
      obtain ⟨x, hx, hmark, honward, hbypass, hrest⟩ := hshows.quantified
      rcases h.quantified hx hmark honward hbypass with hsplit | ⟨u, v, i, rfl, hu, hin, hij, hread⟩
      · obtain ⟨hu, hin⟩ := hsplit.stops
        have hmem := Language.append_mem_mul hu (rest.nil_mem_part σ.loops σ.closes led)
        rw [List.append_nil] at hmem
        exact Divides.of_part hmem (hin.widen le_rfl (by omega))
      · refine (ih hfull hrest hread).prepend hu hin n.le_succ (by omega) ?_ hij.le
          le_rfl le_rfl le_rfl
        split_ifs <;> omega
  | group place q inside rest ihi ih =>
    obtain ⟨hne, hfulli, hfullr⟩ := hfull
    rw [Setting.leave_group] at h
    rw [Scheme.add_size_group, if_neg (by simp)]
    have hinside := fun i p => ihi (j := i) (p := p) hfulli hshows.inside_of_group
    rcases h.group hne hinside with hsplit | ⟨u, v, i, rfl, hu, hin, hij, hread⟩
    · obtain ⟨hu, hin⟩ := hsplit.stops
      exact Divides.of_part (Or.inl hu) (hin.widen le_rfl (by omega))
    · refine (ih hfullr hshows.rest_of_group hread).prepend hu hin (by omega) (by omega) ?_ hij.le
        le_sup_right le_rfl le_rfl
      split_ifs <;> omega

/-- A path that ends before the run has come as far as its last unquantified syllable only if it has
none. -/
theorem hasPlain_eq_false (hlast : ∀ last ∈ t.lastPlain? n, last ≤ a) (ha : a < n) :
    t.hasPlain = false := by
  rw [← Scheme.lastPlain?_eq_none_iff t n]
  cases hplain : t.lastPlain? n with
  | none => rfl
  | some last =>
    have hle := hlast last hplain
    have hge := (Scheme.lastPlain?_bounds hplain).1
    omega

/-- A path through a run of siblings directly under the whole that comes as far as the last
unquantified syllable among them. -/
theorem Reads.marks_mem_scanned (hfull : t.Full) (hshows : c.Shows σ n k led t)
    (hloops : σ.loops = false) (hexit : σ.exit = none)
    (h : c.Reads j (σ.leave n t) p) (ha : a < n)
    (hlast : ∀ last ∈ t.lastPlain? n, last ≤ p.endsAt a) : p.marks ∈ t.scanned := by
  induction t generalizing n k led j p a with
  | done =>
    rw [Setting.leave, if_pos rfl, hloops, hexit] at h
    rw [h.eq_nil]
    rfl
  | syllable place m q rest ih =>
    rw [Setting.leave_syllable] at h
    cases q with
    | none =>
      obtain ⟨x, hx, hmark, honward, hbypass, hrest⟩ := hshows.plain
      rw [hexit, ite_self] at hbypass
      have hplain : p ≠ [] := by
        rintro rfl
        cases hasPlain_eq_false hlast ha
      rcases h.of_syllable hx hmark with rfl | ⟨i, hij, hread⟩ | ⟨i, hij, v, rfl, hread⟩
      · exact absurd rfl hplain
      · rw [hbypass] at hread
        exact absurd hread.eq_nil hplain
      · rw [honward] at hread
        have hm : [m] ∈ ({[m]} : Language Mark) := rfl
        refine Language.append_mem_mul hm (ih hfull hrest hread n.lt_succ_self fun last hl => ?_)
        apply hlast last
        rw [Scheme.lastPlain?, hl]
        rfl
    | some q =>
      obtain ⟨x, hx, hmark, honward, hbypass, hrest⟩ := hshows.quantified
      rcases h.quantified hx hmark honward hbypass with hsplit | ⟨u, v, i, rfl, hu, hin, hij, hread⟩
      · obtain ⟨hu, hin⟩ := hsplit.stops
        have hends : p.endsAt a < n + 1 := hin.endsAt_lt (ha.trans n.lt_succ_self)
        have hplain : rest.hasPlain = false := hasPlain_eq_false hlast hends
        have hmem := Language.append_mem_mul hu (Scheme.nil_mem_scanned hplain)
        rwa [List.append_nil] at hmem
      · rw [Path.endsAt_append] at hlast
        rw [Path.marks_append]
        exact Language.append_mem_mul hu
          (ih hfull hrest hread (hin.endsAt_lt (ha.trans n.lt_succ_self)) hlast)
  | group place q inside rest _ ih =>
    obtain ⟨hne, hfulli, hfullr⟩ := hfull
    have hcloses : (σ.inner n q inside rest).closes = false := by
      rw [Setting.inner, hloops, Bool.false_and]
    have hinside := fun i p => Reads.divides (j := i) (p := p) hfulli hshows.inside_of_group
    have hnext : a < n + 1 + inside.size := by omega
    rw [Setting.leave_group] at h
    rw [hcloses] at hinside
    rcases h.group hne hinside with hsplit | ⟨u, v, i, rfl, hu, hin, hij, hread⟩
    · obtain ⟨hu, hin⟩ := hsplit.stops
      have hplain : rest.hasPlain = false := hasPlain_eq_false hlast (hin.endsAt_lt hnext)
      apply Or.inr
      rw [hplain]
      exact hu
    · rw [Path.endsAt_append] at hlast
      rw [Path.marks_append]
      exact Or.inl (Language.append_mem_mul hu
        (ih hfullr hshows.rest_of_group hread (hin.endsAt_lt hnext) hlast))

end Chart

end Prosody
