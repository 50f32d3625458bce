import BayesCircuit.Decimal.Layout
import BayesCircuit.Text.Blank
import BayesCircuit.Text.Numeral
import Mathlib.Data.List.Basic

/-!
# Texts that are read as they were written

What is put together from numbers, words and lines is cut into the same numbers, words and lines.
A number is read as long as it fits (`unsigned?_toString`), the words of a line have no blanks
(`words_join`), and a line neither has a line feed nor ends in a carriage return, which would be
taken for a part of its end (`IsLine`, `lines_of_feeds`). However many digits a number is written
with, and wherever its point or exponent stands, its text is one word (`Decimal.isWord_source`).
-/

namespace BayesCircuit.Text

variable {s w field rest : String} {ws ls : List String} {cs ds run : List Char} {c sep : Char}
variable {n limit : Nat}

/-! ## Numbers -/

theorem isDigit_of_mem_toString (h : c ∈ (toString n).toList) : isDigit c = true := by
  have hmem : c ∈ Nat.toDigits 10 n := by simpa using h
  exact Nat.isDigit_of_mem_toDigits (by decide) (by decide) hmem

theorem natural?_toString : natural? (toString n).toList = some n := by
  have hdigits : (toString n).toList.all isDigit = true :=
    List.all_eq_true.2 fun _ => isDigit_of_mem_toString
  have hvalue : digitsValue (Nat.toDigits 10 n) = n :=
    Nat.ofDigitChars_toDigits (by decide) (by decide)
  rw [natural?, hdigits]
  simp [hvalue]

/-- A number that fits is read back. -/
theorem unsigned?_toString (h : n < limit) : unsigned? limit (toString n) = some n := by
  have hread : natural? (toString n).toList = some n := natural?_toString
  rw [unsigned?]
  split
  · rename_i cs hplus
    have hdigit : isDigit '+' = true := isDigit_of_mem_toString (n := n) (by rw [hplus]; simp)
    exact absurd hdigit (by decide)
  · rw [hread]
    exact if_pos h

/-! ## Words -/

theorem isBlank_of_isDigit (h : isDigit c = true) : isBlank c = false := by
  have hrange : 48 ≤ c.toNat ∧ c.toNat ≤ 57 := by
    rw [isDigit, Bool.and_eq_true, decide_eq_true_eq, decide_eq_true_eq] at h
    exact h
  simp only [isBlank, Bool.or_eq_false_iff, Bool.and_eq_false_iff, decide_eq_false_iff_not,
    beq_eq_false_iff_ne]
  omega

/-- A text without blanks and with something in it. -/
structure IsWord (s : String) : Prop where
  ne_nil : s.toList ≠ []
  no_blank : ∀ c ∈ s.toList, isBlank c = false

theorem isWord_iff : IsWord s ↔ s.toList ≠ [] ∧ (s.toList.all fun c => !isBlank c) = true := by
  rw [List.all_eq_true]
  constructor
  · exact fun h => ⟨h.ne_nil, fun c hc => by rw [h.no_blank c hc]; rfl⟩
  · exact fun h => ⟨h.1, fun c hc => by simpa using h.2 c hc⟩

instance : Decidable (IsWord s) := decidable_of_iff _ isWord_iff.symm

theorem isWord_toString : IsWord (toString n) where
  ne_nil := by simp
  no_blank _ hc := isBlank_of_isDigit (isDigit_of_mem_toString hc)

theorem dropWhile_blank (h : ∀ c ∈ cs.head?, isBlank c = false) : cs.dropWhile isBlank = cs := by
  cases cs with
  | nil => rfl
  | cons c cs =>
      have hc : isBlank c = false := h c rfl
      rw [List.dropWhile_cons_of_neg (by simp [hc])]

/-- A text with no blanks at its ends. -/
theorem trim_eq_self (hhead : ∀ c ∈ s.toList.head?, isBlank c = false)
    (hlast : ∀ c ∈ s.toList.getLast?, isBlank c = false) : trim s = s := by
  rw [← List.head?_reverse] at hlast
  rw [Text.trim, trimChars, dropWhile_blank hhead, trimEndChars, dropWhile_blank hlast,
    List.reverse_reverse, String.ofList_toList]

theorem trim_of_no_blank (h : ∀ c ∈ s.toList, isBlank c = false) : trim s = s :=
  trim_eq_self (fun c hc => h c (List.mem_of_mem_head? hc))
    fun c hc => h c (List.mem_of_mem_getLast? hc)

theorem IsWord.trim (h : IsWord s) : trim s = s := trim_of_no_blank h.no_blank

/-- Nothing is added at the ends of a text. -/
theorem mem_of_mem_trim (h : c ∈ (trim s).toList) : c ∈ s.toList := by
  rw [Text.trim, trimChars, trimEndChars, String.toList_ofList, List.mem_reverse] at h
  exact (List.dropWhile_sublist _).mem (List.mem_reverse.1 ((List.dropWhile_sublist _).mem h))

theorem wordsFrom_append (h : ∀ c ∈ cs, isBlank c = false) :
    wordsFrom run (cs ++ ds) = wordsFrom (cs.reverse ++ run) ds := by
  induction cs generalizing run with
  | nil => rfl
  | cons c cs ih =>
      obtain ⟨hc, hcs⟩ := List.forall_mem_cons.1 h
      rw [List.cons_append, wordsFrom, if_neg (by simp [hc]), ih hcs, List.reverse_cons,
        List.append_assoc]
      rfl

/-- A text is cut into words at any of its blanks. -/
theorem wordsFrom_blank (hc : isBlank c = true) :
    wordsFrom run (cs ++ c :: ds) = wordsFrom run cs ++ wordsFrom [] ds := by
  induction cs generalizing run with
  | nil =>
      simp only [List.nil_append, wordsFrom, hc, if_true]
      split
      · rfl
      · rfl
  | cons d cs ih =>
      rw [List.cons_append, wordsFrom, wordsFrom]
      split
      · split
        · exact ih
        · rw [ih, List.cons_append]
      · exact ih

theorem words_append_blank : words (s ++ " " ++ w) = words s ++ words w := by
  rw [words, String.toList_append, String.toList_append, List.append_assoc]
  exact wordsFrom_blank (by decide)

theorem IsWord.words (h : IsWord w) : words w = [w] := by
  have hrun : (w.toList.reverse ++ []).isEmpty = false := by
    simpa [List.isEmpty_eq_false_iff] using h.ne_nil
  rw [Text.words, ← List.append_nil w.toList, wordsFrom_append h.no_blank, wordsFrom, hrun]
  simp

/-- The words of a line with one blank after each but the last. -/
theorem words_join (h : ∀ w ∈ ws, IsWord w) : words (join " " ws) = ws := by
  induction ws with
  | nil => rfl
  | cons w ws ih =>
      obtain ⟨hw, hws⟩ := List.forall_mem_cons.1 h
      cases ws with
      | nil => exact hw.words
      | cons v ws =>
          have hjoin : join " " (w :: v :: ws) = w ++ " " ++ join " " (v :: ws) := rfl
          rw [hjoin, words_append_blank, hw.words, ih hws, List.singleton_append]

/-- Words with something else between them that is not blank. -/
theorem no_blank_join (hsep : ∀ c ∈ field.toList, isBlank c = false) (h : ∀ w ∈ ws, IsWord w) :
    ∀ c ∈ (join field ws).toList, isBlank c = false := by
  induction ws with
  | nil => simp [join]
  | cons w ws ih =>
      obtain ⟨hw, hws⟩ := List.forall_mem_cons.1 h
      cases ws with
      | nil => exact hw.no_blank
      | cons v ws =>
          have hjoin : join field (w :: v :: ws) = w ++ field ++ join field (v :: ws) := rfl
          rw [hjoin, String.toList_append, String.toList_append, List.forall_mem_append,
            List.forall_mem_append]
          exact ⟨⟨hw.no_blank, hsep⟩, ih hws⟩

/-! ## Fields -/

/-- A text is cut at the first place where the separator stands. -/
theorem splitOnce?_eq_some (hs : s.toList = field.toList ++ sep :: rest.toList)
    (hfield : sep ∉ field.toList) : splitOnce? sep s = some (field, rest) := by
  have hkept : ∀ c ∈ field.toList, (c != sep) = true := by
    intro c hc
    rw [bne_iff_ne]
    rintro rfl
    exact hfield hc
  rw [splitOnce?, hs, List.dropWhile_append_of_pos hkept, List.takeWhile_append_of_pos hkept]
  simp

/-- What a text is cut into is all there is in it. -/
theorem toList_of_splitOnce? (h : splitOnce? sep s = some (field, rest)) :
    s.toList = field.toList ++ sep :: rest.toList := by
  rw [splitOnce?] at h
  split at h
  · cases h
  · rename_i c cs hcs
    obtain ⟨rfl, rfl⟩ := Prod.mk.inj (Option.some.inj h)
    have hsep : c = sep := by
      have hhead := List.head?_dropWhile_not (· != sep) s.toList
      rw [hcs] at hhead
      simpa using hhead
    have hall := List.takeWhile_append_dropWhile (p := (· != sep)) (l := s.toList)
    rw [hcs, hsep] at hall
    simpa using hall.symm

theorem splitChars_append (h : sep ∉ cs) : splitChars sep (cs ++ sep :: ds) =
    cs :: splitChars sep ds := by
  induction cs with
  | nil => rw [List.nil_append, splitChars, if_pos (beq_self_eq_true sep)]
  | cons c cs ih =>
      obtain ⟨hc, hcs⟩ := not_or.1 (mt List.mem_cons.2 h)
      rw [List.cons_append, splitChars, if_neg (by simpa using Ne.symm hc), ih hcs]

theorem splitChars_self (h : sep ∉ cs) : splitChars sep cs = [cs] := by
  induction cs with
  | nil => rfl
  | cons c cs ih =>
      obtain ⟨hc, hcs⟩ := not_or.1 (mt List.mem_cons.2 h)
      rw [splitChars, if_neg (by simpa using Ne.symm hc), ih hcs]

theorem not_mem_of_mem_splitChars (h : run ∈ splitChars sep cs) : sep ∉ run := by
  induction cs generalizing run with
  | nil =>
      obtain rfl := List.mem_singleton.1 h
      exact List.not_mem_nil
  | cons c cs ih =>
      rw [splitChars] at h
      split at h
      · rcases List.mem_cons.1 h with rfl | h
        · exact List.not_mem_nil
        · exact ih h
      · rename_i hc
        have hne : sep ≠ c := Ne.symm (by simpa using hc)
        split at h
        · obtain rfl := List.mem_singleton.1 h
          simpa using hne
        · rename_i hcs
          rw [hcs] at ih
          rcases List.mem_cons.1 h with rfl | h
          · exact mt List.mem_cons.1 (not_or.2 ⟨hne, ih (List.mem_cons_self ..)⟩)
          · exact ih (List.mem_cons_of_mem _ h)

/-- No piece of a text has the separator in it. -/
theorem not_mem_of_mem_split (h : w ∈ split sep s) : sep ∉ w.toList := by
  obtain ⟨cs, hcs, rfl⟩ := List.mem_map.1 h
  rw [String.toList_ofList]
  exact not_mem_of_mem_splitChars hcs

/-- Texts without the separator that stands between them. -/
theorem split_join : ∀ {ws : List String}, ws ≠ [] → (∀ w ∈ ws, sep ∉ w.toList) →
    split sep (join (String.singleton sep) ws) = ws
  | [w], _, h => by
      rw [join, split, splitChars_self (h w (List.mem_cons_self ..)), List.map_singleton,
        String.ofList_toList]
  | w :: v :: ws, _, h => by
      obtain ⟨hw, hws⟩ := List.forall_mem_cons.1 h
      have hjoin : join (String.singleton sep) (w :: v :: ws) =
          w ++ String.singleton sep ++ join (String.singleton sep) (v :: ws) := rfl
      have hrest := split_join (List.cons_ne_nil v ws) hws
      rw [split] at hrest ⊢
      rw [hjoin, String.toList_append, String.toList_append, String.toList_singleton,
        List.append_assoc, List.singleton_append, splitChars_append hw, List.map_cons, hrest,
        String.ofList_toList]

/-! ## Lines -/

/-- A text that is read as one line. -/
structure IsLine (s : String) : Prop where
  no_feed : '\n' ∉ s.toList
  no_return : s.toList.getLast? ≠ some '\r'

theorem IsLine.append (ha : IsLine s) (hb : IsLine w) : IsLine (s ++ w) where
  no_feed := by
    rw [String.toList_append, List.mem_append]
    exact not_or.2 ⟨ha.no_feed, hb.no_feed⟩
  no_return := by
    rw [String.toList_append, List.getLast?_append]
    cases hlast : w.toList.getLast? with
    | none => exact ha.no_return
    | some c =>
        rw [Option.some_or, ← hlast]
        exact hb.no_return

theorem isLine_of_no_blank (h : ∀ c ∈ s.toList, isBlank c = false) : IsLine s where
  no_feed hc := absurd (h _ hc) (by decide)
  no_return hc := absurd (h _ (List.mem_of_getLast? hc)) (by decide)

theorem IsWord.isLine (h : IsWord s) : IsLine s := isLine_of_no_blank h.no_blank

theorem isLine_toString : IsLine (toString n) := isWord_toString.isLine

theorem isLine_join (h : ∀ w ∈ ws, IsLine w) : IsLine (join " " ws) := by
  have hblank : IsLine " " := ⟨by decide, by decide⟩
  induction ws with
  | nil => exact ⟨by decide, by decide⟩
  | cons w ws ih =>
      obtain ⟨hw, hws⟩ := List.forall_mem_cons.1 h
      cases ws with
      | nil => exact hw
      | cons v ws => exact (hw.append hblank).append (ih hws)

theorem linesFrom_append (h : '\n' ∉ cs) :
    linesFrom run (cs ++ ds) = linesFrom (cs.reverse ++ run) ds := by
  induction cs generalizing run with
  | nil => rfl
  | cons c cs ih =>
      obtain ⟨hc, hcs⟩ := not_or.1 (mt List.mem_cons.2 h)
      rw [List.cons_append, linesFrom, if_neg (by simpa using Ne.symm hc), ih hcs,
        List.reverse_cons, List.append_assoc]
      rfl

theorem IsLine.dropReturn (h : IsLine s) : dropReturn s.toList.reverse = s.toList.reverse := by
  rw [Text.dropReturn.eq_def]
  split
  · rename_i cs hcs
    refine absurd ?_ h.no_return
    rw [← List.head?_reverse, hcs, List.head?_cons]
  · rfl

/-- Lines with a line feed after each. -/
theorem lines_of_feeds (hs : s.toList = ls.flatMap fun l => l.toList ++ ['\n'])
    (h : ∀ l ∈ ls, IsLine l) : lines s = ls := by
  rw [lines, hs]
  clear hs
  induction ls with
  | nil => rfl
  | cons l ls ih =>
      obtain ⟨hl, hls⟩ := List.forall_mem_cons.1 h
      rw [List.flatMap_cons, List.append_assoc, linesFrom_append hl.no_feed, List.append_nil,
        List.singleton_append, linesFrom, if_pos (by rfl), hl.dropReturn, List.reverse_reverse,
        String.ofList_toList, ih hls]

theorem no_feed_of_mem_linesFrom (hrun : '\n' ∉ run) (h : s ∈ linesFrom run cs) :
    '\n' ∉ s.toList := by
  induction cs generalizing run with
  | nil =>
      rw [linesFrom] at h
      split at h
      · cases h
      · obtain rfl := List.mem_singleton.1 h
        simpa using hrun
  | cons c cs ih =>
      rw [linesFrom] at h
      split at h
      · rcases List.mem_cons.1 h with rfl | h
        · have hdrop : Text.dropReturn run ⊆ run := by
            rw [Text.dropReturn.eq_def]
            split
            · exact List.subset_cons_self ..
            · exact List.Subset.refl _
          simpa using fun hmem => hrun (hdrop hmem)
        · exact ih List.not_mem_nil h
      · rename_i hc
        refine ih (mt List.mem_cons.1 (not_or.2 ⟨?_, hrun⟩)) h
        rintro rfl
        exact hc rfl

/-- No line has a line feed. -/
theorem no_feed_of_mem_lines (h : w ∈ lines s) : '\n' ∉ w.toList :=
  no_feed_of_mem_linesFrom List.not_mem_nil h

end BayesCircuit.Text

/-! ## Decimal texts as words -/

namespace BayesCircuit.Decimal

open Text (IsWord isBlank)

variable {s t digits : String} {cs : List Char} {point : Int} {keepPoint : Bool}

/-- A text without blanks, which may be empty. -/
def Blankless (s : String) : Prop := ∀ c ∈ s.toList, isBlank c = false

theorem Blankless.append (hs : Blankless s) (ht : Blankless t) : Blankless (s ++ t) := by
  rw [Blankless, String.toList_append]
  exact List.forall_mem_append.2 ⟨hs, ht⟩

theorem blankless_ofList (h : ∀ c ∈ cs, isBlank c = false) : Blankless (String.ofList cs) := by
  rwa [Blankless, String.toList_ofList]

theorem blankless_empty : Blankless "" := blankless_ofList fun _ hc => absurd hc List.not_mem_nil

theorem isWord_append_right (hs : IsWord s) (ht : Blankless t) : IsWord (s ++ t) where
  ne_nil := by
    rw [String.toList_append]
    exact List.append_ne_nil_of_left_ne_nil hs.ne_nil _
  no_blank := Blankless.append hs.no_blank ht

theorem isWord_append_left (hs : Blankless s) (ht : IsWord t) : IsWord (s ++ t) where
  ne_nil := by
    rw [String.toList_append]
    exact List.append_ne_nil_of_right_ne_nil _ ht.ne_nil
  no_blank := Blankless.append hs ht.no_blank

theorem isWord_minus : IsWord "-" := by decide

theorem isWord_point : IsWord "." := by decide

theorem isWord_exponent : IsWord "e" := by decide

theorem isWord_zero : IsWord "0" := by decide

theorem isWord_toString_int (n : Int) : IsWord (toString n) := by
  cases n with
  | ofNat n => exact Text.isWord_toString
  | negSucc n => exact isWord_append_right isWord_minus (Text.isWord_toString).no_blank

theorem blankless_zeros (n : Nat) : Blankless (zeros n) := by
  refine blankless_ofList fun c hc => ?_
  obtain rfl := List.eq_of_mem_replicate hc
  decide

theorem isWord_positional (h : IsWord digits) : IsWord (positional keepPoint digits point) := by
  have hstart : IsWord "0." := isWord_append_right isWord_zero isWord_point.no_blank
  have hfraction : Blankless ".0" := Blankless.append isWord_point.no_blank isWord_zero.no_blank
  unfold positional
  dsimp only
  split
  · exact isWord_append_right (isWord_append_right hstart (blankless_zeros _)) h.no_blank
  · split
    · refine isWord_append_right (isWord_append_right h (blankless_zeros _)) ?_
      split
      · exact hfraction
      · exact blankless_empty
    · have htake : Blankless (String.ofList (digits.toList.take point.toNat)) :=
        blankless_ofList fun c hc => h.no_blank c (List.mem_of_mem_take hc)
      have hdrop : Blankless (String.ofList (digits.toList.drop point.toNat)) :=
        blankless_ofList fun c hc => h.no_blank c (List.mem_of_mem_drop hc)
      exact isWord_append_right (isWord_append_left htake isWord_point) hdrop

theorem isWord_scientific (h : IsWord digits) : IsWord (scientific digits point) := by
  have hdigits := h.no_blank
  -- whatever the mantissa is, the exponent is a word that follows it
  refine isWord_append_right (isWord_append_left ?_ isWord_exponent)
    (isWord_toString_int _).no_blank
  split
  · exact isWord_zero.no_blank
  · rename_i c hc
    rw [hc] at hdigits
    exact blankless_ofList hdigits
  · rename_i c cs _ hc
    rw [hc] at hdigits
    obtain ⟨hfirst, hrest⟩ := List.forall_mem_cons.1 hdigits
    have hpoint : isBlank '.' = false := by decide
    exact blankless_ofList (List.forall_mem_cons.2 ⟨hfirst, List.forall_mem_cons.2
      ⟨hpoint, hrest⟩⟩)

theorem isWord_magnitude (layout : Layout) (d : Digits) : IsWord (layout.magnitude d) := by
  unfold Layout.magnitude
  split
  · split
    · exact isWord_append_right isWord_zero
        (Blankless.append isWord_point.no_blank isWord_zero.no_blank)
    · exact isWord_zero
  · dsimp only
    split
    · exact isWord_scientific Text.isWord_toString
    · exact isWord_positional Text.isWord_toString

/-- The text of a number is one word. -/
theorem isWord_source (x : Float) : IsWord (source x) := by
  unfold source Layout.write
  split
  · unfold notFinite
    split
    · decide
    · split <;> decide
  · refine isWord_append_left ?_ (isWord_magnitude _ _)
    split
    · exact isWord_minus.no_blank
    · exact blankless_empty

end BayesCircuit.Decimal
