import Prosody.Proofs.Splitting

/-!
# Spanning the passages of a run

Conversely, every word of a passage is read along some path: the paths for parts of a word are put
together from the end, as what comes after a part may be read in any way. Together with the
splitting of paths this settles which words the complete paths of a scheme spell.
-/

namespace Prosody

open Computability

variable {c : Chart} {σ : Setting} {L M : Language Mark} {a a' b b' n k i j place : ℕ} {led : Bool}
  {e o r : Option ℕ} {p u v : Path} {m : Mark} {s t rest inside : Scheme} {q : Quantifier}
  {x : Site} {w : Word}

theorem Path.Within.le_endsAt (h : Path.Within a b p) (ha : i ≤ a) (hn : i ≤ n) :
    i ≤ p.endsAt n := by
  induction p generalizing n with
  | nil => exact hn
  | cons q p ih =>
    exact ih (fun r hr => h r (List.mem_cons_of_mem q hr)) (ha.trans (h q List.mem_cons_self).1)

namespace Chart

/-- Every word of `L` is read between the numbers `a` and `b` when `o` is due, and `e` is due
afterwards. -/
def Spans (c : Chart) (L : Language Mark) (a b : ℕ) (o e : Option ℕ) : Prop :=
  ∀ w ∈ L, ∃ u : Path, u.marks = w ∧ u.Within a b ∧
    ∀ v i, c.Reads i e v → ∃ j, c.Reads j o (u ++ v)

theorem spans_one : c.Spans 1 a b o o := by
  rintro w rfl
  exact ⟨[], rfl, Path.within_nil, fun v i hv => ⟨i, hv⟩⟩

theorem Spans.add (hL : c.Spans L a b o e) (hM : c.Spans M a b o e) : c.Spans (L + M) a b o e := by
  rintro w (hw | hw)
  · exact hL w hw
  · exact hM w hw

theorem Spans.mul (hL : c.Spans L a b o r) (hM : c.Spans M a b r e) :
    c.Spans (L * M) a b o e := by
  rintro _ ⟨w, hw, w', hw', rfl⟩
  obtain ⟨u, rfl, hin, hu⟩ := hL w hw
  obtain ⟨u', rfl, hin', hu'⟩ := hM w' hw'
  refine ⟨u ++ u', Path.marks_append u u', hin.append hin', fun v i hv => ?_⟩
  obtain ⟨j, hj⟩ := hu' v i hv
  rw [List.append_assoc]
  exact hu (u' ++ v) j hj

theorem Spans.kstar (h : c.Spans L a b o o) : c.Spans (L∗) a b o o := by
  intro w hw
  obtain ⟨parts, rfl, hparts⟩ := Language.mem_kstar.mp hw
  clear hw
  induction parts with
  | nil => exact spans_one [] rfl
  | cons w parts ih =>
    have hrest := ih fun v hv => hparts v (List.mem_cons_of_mem w hv)
    obtain ⟨u, rfl, hin, hu⟩ := h w (hparts w List.mem_cons_self)
    obtain ⟨u', hmarks, hin', hu'⟩ := hrest
    refine ⟨u ++ u', ?_, hin.append hin', fun v i hv => ?_⟩
    · rw [Path.marks_append, hmarks, List.flatten_cons]
    · obtain ⟨j, hj⟩ := hu' v i hv
      rw [List.append_assoc]
      exact hu (u' ++ v) j hj

theorem Spans.widen (h : c.Spans L a b o e) (ha : a' ≤ a) (hb : b ≤ b') : c.Spans L a' b' o e := by
  intro w hw
  obtain ⟨u, hu, hin, hread⟩ := h w hw
  exact ⟨u, hu, hin.widen ha hb, hread⟩

theorem spans_pass (hx : c.site? n = some x) : c.Spans 1 a b (some n) x.bypass := by
  rintro w rfl
  exact ⟨[], rfl, Path.within_nil, fun v i hv => ⟨i + 1, .pass hx hv⟩⟩

theorem spans_read (hx : c.site? n = some x) (hmark : x.mark? = some m) :
    c.Spans {[m]} n (n + 1) (some n) x.onward := by
  rintro w rfl
  exact ⟨[⟨n, m⟩], rfl, Path.within_singleton le_rfl n.lt_succ_self,
    fun v i hv => ⟨i + 1, .read hx hmark hv⟩⟩

theorem spans_stop : c.Spans 1 a b o none := by
  rintro w rfl
  refine ⟨[], rfl, Path.within_nil, fun v i hv => ⟨0, ?_⟩⟩
  rw [hv.eq_nil]
  exact .stop

theorem spans_quantified (hx : c.site? n = some x) (hmark : x.mark? = some m)
    (honward : x.onward = if q = .many then some n else e) (hbypass : x.bypass = e) :
    c.Spans (q.repeated {[m]}) n (n + 1) (some n) e := by
  have hpass : c.Spans 1 n (n + 1) (some n) e := hbypass ▸ spans_pass hx
  have hread := spans_read hx hmark
  rw [honward] at hread
  cases q with
  | many =>
    have hmul := hread.kstar.mul hpass
    rwa [mul_one] at hmul
  | optional => exact hpass.add hread
  | wildcard => exact hpass.add hread

structure Traverses (c : Chart) (P : Passage) (a b : ℕ) (start finish exit : Option ℕ) : Prop where
  whole : c.Spans P.whole a b start finish
  early : c.Spans P.early a b start exit
  part : c.Spans P.part a b start none

theorem Traverses.prepend {P : Passage} (h : c.Traverses P a b r o e) (hL : c.Spans L n a i r)
    (hna : n ≤ a) (hab : a ≤ b) :
    c.Traverses ⟨L * P.whole, L * P.early, L * P.part⟩ n b i o e where
  whole := (hL.widen le_rfl hab).mul (h.whole.widen hna le_rfl)
  early := (hL.widen le_rfl hab).mul (h.early.widen hna le_rfl)
  part := (hL.widen le_rfl hab).mul (h.part.widen hna le_rfl)

/-- A group, once it is known that the passage of its inside is read. -/
theorem Traverses.group {I : Passage} (hne : inside ≠ .done)
    (h : c.Traverses I (n + 1) (n + 1 + inside.size)
      ((σ.inner n q inside rest).leave (n + 1) inside)
      ((σ.inner n q inside rest).leave (n + 1 + inside.size) .done)
      (σ.inner n q inside rest).exit) :
    c.Spans (q.leaving I) n (n + 1 + inside.size) (some (n + 1 + inside.lead))
        (σ.leave (n + 1 + inside.size) rest) ∧
      c.Spans (q.staying I) n (n + 1 + inside.size) (some (n + 1 + inside.lead)) none := by
  have hentry : (σ.inner n q inside rest).leave (n + 1) inside = some (n + 1 + inside.lead) :=
    if_neg hne
  have hend : (σ.inner n q inside rest).leave (n + 1 + inside.size) .done =
      if q.isMany then some (n + 1 + inside.lead) else σ.leave (n + 1 + inside.size) rest :=
    if_pos rfl
  rw [hentry, hend] at h
  have hwhole := h.whole.widen n.le_succ le_rfl
  have hearly := h.early.widen n.le_succ le_rfl
  have hpart := h.part.widen n.le_succ le_rfl
  rw [Quantifier.leaving, Quantifier.staying]
  split_ifs at hwhole ⊢ with hq
  · exact ⟨hwhole.kstar.mul hearly, hwhole.kstar.mul hpart⟩
  · exact ⟨hwhole.add hearly, hpart⟩

/-- The passage of a run is made up of words that are read along paths. -/
theorem traverses_passage (hfull : t.Full) (hshows : c.Shows σ n k led t) :
    c.Traverses (t.passage σ.loops σ.closes led) n (n + t.size) (σ.leave n t)
      (σ.leave (n + t.size) .done) σ.exit := by
  induction t generalizing σ n k led with
  | done => exact ⟨spans_one, fun w hw => absurd hw (Set.notMem_empty w), spans_stop⟩
  | syllable place m q rest ih =>
    rw [Setting.leave_syllable, Scheme.add_size_syllable]
    cases q with
    | none =>
      obtain ⟨x, hx, hmark, honward, hbypass, hrest⟩ := hshows.plain
      have hread := spans_read hx hmark
      have hpass : c.Spans 1 n (n + 1 + rest.size) (some n) x.bypass := spans_pass hx
      rw [honward] at hread
      have hall := (ih hfull hrest).prepend hread n.le_succ (Nat.le_add_right _ _)
      refine ⟨hall.whole, ?_, spans_stop.add hall.part⟩
      rw [hbypass] at hpass
      refine Spans.add ?_ hall.early
      split_ifs with hleads
      · rwa [if_pos hleads] at hpass
      · exact fun w hw => absurd hw (Set.notMem_empty w)
    | some q =>
      obtain ⟨x, hx, hmark, honward, hbypass, hrest⟩ := hshows.quantified
      have hquant := spans_quantified hx hmark honward hbypass
      exact (ih hfull hrest).prepend hquant n.le_succ (Nat.le_add_right _ _)
  | group place q inside rest ihi ih =>
    obtain ⟨hne, hfulli, hfullr⟩ := hfull
    obtain ⟨hleaving, hstaying⟩ := (ihi hfulli hshows.inside_of_group).group hne
    rw [Setting.leave_group, Scheme.add_size_group]
    have hall := (ih hfullr hshows.rest_of_group).prepend hleaving (by omega)
      (Nat.le_add_right _ _)
    have hstay := hstaying.widen le_rfl (Nat.le_add_right _ rest.size)
    exact ⟨hall.whole, hall.early, hstay.add hall.part⟩

def Attains (c : Chart) (w : Word) (a b : ℕ) (o goal : Option ℕ) : Prop :=
  ∃ p : Path, p.marks = w ∧ p.Within a b ∧ (∃ j, c.Reads j o p) ∧
    ∀ i, ∀ last ∈ goal, last ≤ p.endsAt i

theorem Attains.prepend {w' : Word} {goal : Option ℕ} (h : c.Attains w' a b r goal)
    (hL : c.Spans L n a o r) (hw : w ∈ L) (hna : n ≤ a) (hab : a ≤ b) :
    c.Attains (w ++ w') n b o goal := by
  obtain ⟨u, rfl, hinu, hu⟩ := hL w hw
  obtain ⟨v, rfl, hinv, ⟨j, hread⟩, hlast⟩ := h
  refine ⟨u ++ v, Path.marks_append u v, ?_, hu v j hread, ?_⟩
  · exact (hinu.widen le_rfl hab).append (hinv.widen hna le_rfl)
  · intro i last hl
    rw [Path.endsAt_append]
    exact hlast _ last hl

theorem attains_of_mem_scanned (hfull : t.Full) (hshows : c.Shows σ n k led t)
    (hloops : σ.loops = false) (hw : w ∈ t.scanned) :
    c.Attains w n (n + t.size) (σ.leave n t) (t.lastPlain? n) := by
  induction t generalizing n k led w with
  | done =>
    cases hw
    exact ⟨[], rfl, Path.within_nil, ⟨0, .stop⟩, fun i last hlast => nomatch hlast⟩
  | syllable place m q rest ih =>
    rw [Setting.leave_syllable, Scheme.add_size_syllable]
    cases q with
    | none =>
      obtain ⟨x, hx, hmark, honward, -, hrest⟩ := hshows.plain
      obtain ⟨_, rfl, w, hw, rfl⟩ := hw
      obtain ⟨p, rfl, hin, ⟨j, hread⟩, hlast⟩ := ih hfull hrest hw
      rw [← honward] at hread
      have hsyll : Path.Within n (n + 1 + rest.size) [⟨n, m⟩] :=
        Path.within_singleton le_rfl (by omega)
      have hall := hsyll.append (hin.widen n.le_succ le_rfl)
      refine ⟨⟨n, m⟩ :: p, rfl, hall, ⟨j + 1, .read hx hmark hread⟩, ?_⟩
      intro i last hl
      rw [Scheme.lastPlain?, Option.orElse_eq_orElse, Option.orElse_eq_or, Option.mem_def,
        Option.or_eq_some_iff] at hl
      rcases hl with hl | ⟨-, hl⟩
      · exact hlast n last hl
      · cases hl
        exact hin.le_endsAt n.le_succ le_rfl
    | some q =>
      obtain ⟨x, hx, hmark, honward, hbypass, hrest⟩ := hshows.quantified
      obtain ⟨w₁, hw₁, w₂, hw₂, rfl⟩ := hw
      have hquant := spans_quantified hx hmark honward hbypass
      exact (ih hfull hrest hw₂).prepend hquant hw₁ n.le_succ (Nat.le_add_right _ _)
  | group place q inside rest _ ih =>
    obtain ⟨hne, hfulli, hfullr⟩ := hfull
    have hcloses : (σ.inner n q inside rest).closes = false := by
      rw [Setting.inner, hloops, Bool.false_and]
    have hinside := traverses_passage hfulli hshows.inside_of_group
    rw [hcloses] at hinside
    obtain ⟨hleaving, hstaying⟩ := hinside.group hne
    rw [Setting.leave_group, Scheme.add_size_group]
    rcases hw with ⟨w₁, hw₁, w₂, hw₂, rfl⟩ | hw
    · have hrest := ih hfullr hshows.rest_of_group hw₂
      exact hrest.prepend hleaving hw₁ (by omega) (Nat.le_add_right _ _)
    · split_ifs at hw with hplain
      · exact absurd hw (Set.notMem_empty w)
      · rw [Bool.not_eq_true, ← Scheme.lastPlain?_eq_none_iff rest (n + 1 + inside.size)] at hplain
        obtain ⟨u, rfl, hinu, hu⟩ := hstaying w hw
        obtain ⟨j, hj⟩ := hu [] 0 .stop
        rw [List.append_nil] at hj
        refine ⟨u, rfl, hinu.widen le_rfl (by omega), ⟨j, hj⟩, ?_⟩
        intro i last hl
        rw [Scheme.lastPlain?, hplain] at hl
        cases hl

end Chart

namespace Scheme

theorem complete_iff : s.course.Complete p ↔ ∀ last ∈ s.lastPlain? 1, last ≤ p.endsAt 0 := by
  simp only [Course.Complete, course, Chart.course, Chart.lastPlain?_chart]
  cases s.lastPlain? 1 with
  | none => simp
  | some last => simp

/-- The complete paths of a scheme spell just its scanned words. -/
theorem mem_scanned_iff (hne : s ≠ done) (hfull : s.Full) :
    w ∈ s.scanned ↔ ∃ p : Path, s.course.Allows 0 p ∧ s.course.Complete p ∧ p.marks = w := by
  have hdue : s.chart.due? 0 = s.setting.leave 1 s := (if_neg hne).symm
  have hshows := Chart.shows_chart s
  constructor
  · intro hw
    obtain ⟨p, rfl, -, hread, hlast⟩ := Chart.attains_of_mem_scanned hfull hshows rfl hw
    rw [← hdue, ← allows_iff_reads] at hread
    exact ⟨p, hread, complete_iff.mpr (hlast 0), rfl⟩
  · intro hpath
    obtain ⟨p, hallows, hcomplete, rfl⟩ := hpath
    obtain ⟨k, hread⟩ := allows_iff_reads.mp hallows
    rw [hdue] at hread
    exact hread.marks_mem_scanned hfull hshows rfl rfl Nat.zero_lt_one (complete_iff.mp hcomplete)

end Scheme

end Prosody
