import Prosody.Command.Report
import Prosody.Proofs.Improvement
import Prosody.Proofs.PerfectPoems
import Mathlib.Data.List.DropRight

/-!
# Poems that are printed and read again

The lines of a poem that was read from a text are tidy: not empty, on one row, and without blanks at
their ends. A poem of tidy lines that is printed row by row is read back as it was. Corrections put
letters in the place of other characters, so improved lines are tidy too, and what is printed of a
poem that was improved can be given to the next round.
-/

namespace Prosody

variable {text row : List Char} {l l' : Line} {poem : Poem} {a : Char}

namespace Text

def dropReturn (row : List Char) : List Char :=
  if row.getLast? = some '\r' then row.dropLast else row

/-- The lines of a text. Each ends with a line feed, or with a carriage return and a line feed; the
last one may lack its end. -/
def lines (text : List Char) : List (List Char) :=
  (rows text).dropLast.map dropReturn ++ (rows text).getLast?.toList.filter fun row => !row.isEmpty

/-- A carriage return that no line feed follows belongs to its line. -/
example : lines "uS\r\n\nsu\r".toList = ["uS".toList, [], "su\r".toList] := rfl

theorem rows_ne_nil (text : List Char) : rows text ≠ [] := by
  cases text with
  | nil => exact List.cons_ne_nil _ _
  | cons b text =>
    rw [rows, List.foldr_cons]
    unfold pushCharacter
    split_ifs
    · exact List.cons_ne_nil _ _
    · split <;> exact List.cons_ne_nil _ _

theorem exists_rows_cons (ha : a ≠ '\n') (text : List Char) :
    ∃ row rest, rows text = row :: rest ∧ rows (a :: text) = (a :: row) :: rest := by
  obtain ⟨row, rest, hrows⟩ := List.exists_cons_of_ne_nil (rows_ne_nil text)
  refine ⟨row, rest, hrows, ?_⟩
  change pushCharacter a (rows text) = _
  rw [hrows]
  exact if_neg ha

theorem feed_notMem_of_mem_rows (h : row ∈ rows text) : '\n' ∉ row := by
  induction text generalizing row with
  | nil =>
    rw [List.mem_singleton.mp h]
    exact List.not_mem_nil
  | cons b text ih =>
    by_cases hb : b = '\n'
    · subst hb
      rcases List.mem_cons.mp h with rfl | h
      · exact List.not_mem_nil
      · exact ih h
    · obtain ⟨first, rest, hrows, hcons⟩ := exists_rows_cons hb text
      rw [hcons] at h
      rw [hrows] at ih
      rcases List.mem_cons.mp h with rfl | h
      · exact List.not_mem_cons_of_ne_of_not_mem (Ne.symm hb) (ih List.mem_cons_self)
      · exact ih (List.mem_cons_of_mem first h)

theorem rows_append_feed (h : '\n' ∉ row) (text : List Char) :
    rows (row ++ '\n' :: text) = row :: rows text := by
  induction row with
  | nil => rfl
  | cons b row ih =>
    obtain ⟨hb, hrow⟩ := List.ne_and_not_mem_of_not_mem_cons h
    obtain ⟨first, rest, hrows, hcons⟩ := exists_rows_cons hb.symm (row ++ '\n' :: text)
    rw [ih hrow] at hrows
    cases hrows
    exact hcons

theorem rows_joinRows (h : ∀ row ∈ poem, '\n' ∉ row) :
    rows (joinRows poem ++ ['\n']) = if poem = [] then [[], []] else poem ++ [[]] := by
  induction poem with
  | nil => rfl
  | cons row poem ih =>
    obtain ⟨hrow, hpoem⟩ := List.forall_mem_cons.mp h
    rw [if_neg (List.cons_ne_nil row poem)]
    cases poem with
    | nil => exact rows_append_feed hrow []
    | cons next poem =>
      have hrest := ih hpoem
      rw [if_neg (List.cons_ne_nil next poem)] at hrest
      rw [joinRows, List.append_assoc, List.cons_append, rows_append_feed hrow, hrest]
      · rfl
      · exact fun h => absurd h (List.cons_ne_nil next poem)

theorem trim_eq_rdropWhile (text : List Char) :
    trim text = (text.dropWhile isBlank).rdropWhile isBlank := rfl

theorem trim_prefix (text : List Char) : trim text <+: text.dropWhile isBlank :=
  List.rdropWhile_prefix _ _

theorem trim_append_blank (ha : isBlank a = true) (text : List Char) :
    trim (text ++ [a]) = trim text := by
  rw [trim_eq_rdropWhile, trim_eq_rdropWhile, List.dropWhile_append]
  split_ifs with hempty
  · rw [List.isEmpty_iff.mp hempty, List.dropWhile_cons_of_pos ha]
    rfl
  · exact List.rdropWhile_concat_pos _ _ _ ha

theorem trim_dropReturn (row : List Char) : trim (dropReturn row) = trim row := by
  unfold dropReturn
  split_ifs with hlast
  · have h := trim_append_blank (show isBlank '\r' = true from rfl) row.dropLast
    rwa [List.dropLast_append_getLast? '\r' hlast, eq_comm] at h
  · rfl

theorem isBlank_head_trim (ha : a ∈ (trim text).head?) : isBlank a = false := by
  obtain ⟨rest, hrest⟩ := List.head?_eq_some_iff.mp ha
  obtain ⟨dropped, hdropped⟩ := trim_prefix text
  have hhead := List.head?_dropWhile_not isBlank text
  rw [← hdropped, hrest] at hhead
  exact hhead

theorem isBlank_last_trim (ha : a ∈ (trim text).getLast?) : isBlank a = false := by
  obtain ⟨hne, rfl⟩ := List.mem_getLast?_eq_getLast ha
  rw [← Bool.not_eq_true]
  exact List.rdropWhile_last_not _ _ hne

theorem trim_eq_self (hhead : ∀ a ∈ text.head?, isBlank a = false)
    (hlast : ∀ a ∈ text.getLast?, isBlank a = false) : trim text = text := by
  have hdrop : text.dropWhile isBlank = text := by
    cases text with
    | nil => rfl
    | cons b text => exact List.dropWhile_cons_of_neg (by simp [hhead b rfl])
  rw [trim_eq_rdropWhile, hdrop, List.rdropWhile_eq_self_iff]
  intro hne
  rw [hlast _ (List.getLast?_eq_some_getLast hne)]
  exact Bool.false_ne_true

end Text

/-- A line that is not empty, stands on one row and has no blanks at its ends. -/
structure Line.Tidy (l : Line) : Prop where
  ne_nil : l ≠ []
  feed_notMem : '\n' ∉ l
  head : ∀ a ∈ l.head?, Text.isBlank a = false
  last : ∀ a ∈ l.getLast?, Text.isBlank a = false

namespace Poem

/-- A poem has the lines of a text, blanks at their ends and empty lines apart. -/
theorem ofText_eq_lines (text : List Char) :
    ofText text = ((Text.lines text).map Text.trim).filter fun l => !l.isEmpty := by
  have hlast := List.getLast?_eq_some_getLast (Text.rows_ne_nil text)
  have hrows := List.dropLast_append_getLast? _ hlast
  have htrim : Text.trim ∘ Text.dropReturn = Text.trim := funext Text.trim_dropReturn
  rw [Text.lines, hlast, ofText]
  generalize (Text.rows text).getLast _ = last at hrows
  conv_lhs => rw [← hrows]
  rw [List.map_append, List.map_append, List.map_map, htrim, List.filter_append, List.filter_append]
  cases last with
  | nil => rfl
  | cons a last => rfl

theorem tidy_of_mem_ofText (h : l ∈ ofText text) : Line.Tidy l := by
  obtain ⟨hmem, hne⟩ := List.mem_filter.mp h
  obtain ⟨row, hrow, rfl⟩ := List.mem_map.mp hmem
  rw [Bool.not_eq_true', List.isEmpty_eq_false_iff] at hne
  refine ⟨hne, fun hfeed => ?_, fun a => Text.isBlank_head_trim, fun a => Text.isBlank_last_trim⟩
  have hmem := (List.dropWhile_sublist _).subset ((Text.trim_prefix row).subset hfeed)
  exact Text.feed_notMem_of_mem_rows hrow hmem

/-- A poem of tidy lines is read as it was printed. -/
theorem ofText_toText (h : ∀ l ∈ poem, Line.Tidy l) : ofText poem.toText = poem := by
  have htrim : poem.map Text.trim = poem := by
    conv_rhs => rw [← List.map_id poem]
    exact List.map_congr_left fun l hl => Text.trim_eq_self (h l hl).head (h l hl).last
  have hfilter : poem.filter (fun l => !l.isEmpty) = poem := by
    rw [List.filter_eq_self]
    intro l hl
    rw [Bool.not_eq_true', List.isEmpty_eq_false_iff]
    exact (h l hl).ne_nil
  rw [ofText, toText, Text.rows_joinRows fun l hl => (h l hl).feed_notMem]
  split_ifs with hnil
  · rw [hnil]
    rfl
  · rw [List.map_append, htrim, List.filter_append, hfilter]
    exact List.append_nil poem

end Poem

/-- A line stays tidy if only letters for stress are put in the place of its characters. -/
theorem Line.Tidy.of_changes (hl : Tidy l) (hlen : l'.length = l.length)
    (h : ∀ k : ℕ, l'[k]? = l[k]? ∨ ∃ change : Change, l'[k]? = some change.symbol) : Tidy l' := by
  have hsymbol (change : Change) :
      change.symbol ≠ '\n' ∧ Text.isBlank change.symbol = false := by
    cases change <;> exact ⟨by decide, rfl⟩
  have hblank (k : ℕ) (hk : ∀ a, l[k]? = some a → Text.isBlank a = false) (a : Char)
      (ha : l'[k]? = some a) : Text.isBlank a = false := by
    rcases h k with heq | ⟨change, heq⟩
    · exact hk a (heq.symm.trans ha)
    · rw [heq] at ha
      cases ha
      exact (hsymbol change).2
  refine ⟨?_, ?_, ?_, ?_⟩
  · intro hnil
    rw [hnil] at hlen
    exact hl.ne_nil (List.length_eq_zero_iff.mp hlen.symm)
  · intro hfeed
    obtain ⟨k, hk⟩ := List.mem_iff_getElem?.mp hfeed
    rcases h k with heq | ⟨change, heq⟩
    · rw [heq] at hk
      exact hl.feed_notMem (List.mem_of_getElem? hk)
    · rw [heq] at hk
      exact (hsymbol change).1 (Option.some.inj hk)
  · have hhead := hl.head
    rw [List.head?_eq_getElem?] at hhead ⊢
    exact hblank 0 hhead
  · have hlast := hl.last
    rw [List.getLast?_eq_getElem?] at hlast ⊢
    rw [hlen]
    exact hblank _ hlast

theorem Word.getElem?_correct_cases (w : Word) (l : Line) (k : ℕ) :
    (w.correct l)[k]? = l[k]? ∨ ∃ change : Change, (w.correct l)[k]? = some change.symbol := by
  rw [getElem?_correct]
  cases l[k]? with
  | none => exact Or.inl rfl
  | some a =>
    cases w[k]? with
    | none => exact Or.inl rfl
    | some m =>
      rw [Option.map_some, Option.map_some, Option.getD_some, Mark.correct]
      cases Change.due? m.symbol a with
      | none => exact Or.inl rfl
      | some change => exact Or.inr ⟨change, rfl⟩

namespace Classifier

theorem tidy_correct (c : Classifier) (g : Gauge) (hl : Line.Tidy l) :
    Line.Tidy (c.correct g l) := by
  rcases c.scoreLine_cases g 0 l with ⟨-, hcorrect⟩ | ⟨-, -, hcorrect⟩ | ⟨-, -, -, hcorrect⟩
  · rwa [hcorrect]
  · rwa [hcorrect]
  · rw [hcorrect]
    exact hl.of_changes (Word.length_correct _ _) (Word.getElem?_correct_cases _ _)

theorem tidy_improve (c : Classifier) (h : ∀ l ∈ poem, Line.Tidy l) :
    ∀ l ∈ c.improve poem, Line.Tidy l := by
  rcases best?_eq_none_or_score c poem with ⟨-, hbest⟩ | ⟨metre, -, hbest⟩
  · rw [improve, Classification.corrections, hbest]
    exact h
  · rw [improve_eq hbest, List.forall_mem_map]
    exact fun l hl => tidy_correct c metre.2 (h l hl)

theorem ofText_toText_improve (c : Classifier) (text : List Char) :
    Poem.ofText (c.improve (Poem.ofText text)).toText = c.improve (Poem.ofText text) :=
  Poem.ofText_toText (tidy_improve c fun _ => Poem.tidy_of_mem_ofText)

end Classifier

namespace Command

def table (result : Classification) : String :=
  lines (result.metre :: result.scores.map Score.summary)

theorem decode_toUTF8 (text : String) : decode (.ok text.toUTF8) = .ok text := by
  have htext : String.fromUTF8? text.toUTF8 = some text := dif_pos text.isValidUTF8
  rw [decode, htext]

theorem run_classify {c : Classifier} {longest : ℕ}
    (hc : Classifier.ofMetres Metre.catalogue longest = .ok c) (file : Option String)
    (text : String) :
    (classify file true longest).run (.ok text.toUTF8) =
      .success (table (c.classify (Poem.ofText text.toList)) ++
        String.ofList (c.improve (Poem.ofText text.toList)).toText) "" := by
  rw [run, decode_toUTF8]
  simp only
  rw [runClassify, hc]
  rfl

/-- Whatever lines are too long, the poem that is printed for a text is read from the print line by
line as it was improved. So a second run on the print is the next round. -/
theorem improved_poems_read_back (longest : ℕ) :
    ∃ c, Classifier.ofMetres Metre.catalogue longest = .ok c ∧ c.longest = longest ∧
      ∀ text : String,
        let poem := Poem.ofText text.toList
        let printed := String.ofList (c.improve poem).toText
        poem = (((Text.lines text.toList).map Text.trim).filter fun l => !l.isEmpty) ∧
        Poem.ofText printed.toList = c.improve poem ∧
        ∀ file,
          (classify file true longest).run (.ok text.toUTF8) =
            .success (table (c.classify poem) ++ printed) "" ∧
          (classify file true longest).run (.ok printed.toUTF8) =
            .success (table (c.classify (c.improve poem)) ++
              String.ofList (c.improve (c.improve poem)).toText) "" := by
  obtain ⟨gauges, hgauges⟩ := Metre.exists_gauges Metre.catalogue fun _ hm => hm
  have hc : Classifier.ofMetres Metre.catalogue longest = .ok ⟨gauges, longest⟩ := by
    rw [Classifier.ofMetres, hgauges]
  refine ⟨_, hc, rfl, fun text => ?_⟩
  intro poem printed
  have hback : Poem.ofText printed.toList = Classifier.improve ⟨gauges, longest⟩ poem := by
    rw [String.toList_ofList]
    exact Classifier.ofText_toText_improve _ _
  refine ⟨Poem.ofText_eq_lines _, hback, fun file => ⟨run_classify hc file text, ?_⟩⟩
  rw [← hback]
  exact run_classify hc file printed

end Command

end Prosody
