import BayesCircuit.Network.Token

/-!
# Texts that spell given tokens

Between the tokens of a network file there may be blanks and comments, as many as one likes. None
are needed except between two words. Whatever a text has between its tokens, they are the ones that
are found in it (`scan_of_layout`).
-/

namespace BayesCircuit.Network.Token

open Decimal (Double)

variable {cs rest gap body run : List Char} {t : Token} {ts : List Token} {c : Char} {line : Nat}
variable {x : Double} {s : String}

/-! ## Spelling -/

/-- A run of characters that is read as a whole. -/
structure IsWord (cs : List Char) : Prop where
  ne_nil : cs ≠ []
  inside : ∀ c ∈ cs, endsWord c = false

/-- A word that starts like a number and spells one. -/
def Numeric (cs : List Char) (x : Double) : Prop :=
  cs.head?.any startsNumber = true ∧ Decimal.read? (String.ofList cs) = some x

/-- Characters that stand for a token. A number may be written in any way in which it is read. -/
def Spells (cs : List Char) : Token → Prop
  | identifier name => cs = name.toList ∧ IsWord cs ∧ ∀ x, ¬ Numeric cs x
  | text s => cs = '"' :: (s.toList ++ ['"']) ∧ '"' ∉ s.toList
  | number x => IsWord cs ∧ Numeric cs x
  | mark c => cs = [c] ∧ c ∈ marks

theorem isWord_iff : (cs.isEmpty || cs.any endsWord) = false ↔ IsWord cs := by
  rw [Bool.or_eq_false_iff, List.isEmpty_eq_false_iff, List.any_eq_false]
  simp only [Bool.not_eq_true]
  exact ⟨fun h => ⟨h.1, h.2⟩, fun h => ⟨h.ne_nil, h.inside⟩⟩

instance : Decidable (IsWord cs) := decidable_of_iff _ isWord_iff

instance : Decidable (Numeric cs x) := inferInstanceAs (Decidable (_ ∧ _))

theorem not_numeric_iff : (∀ x, ¬ Numeric cs x) ↔
    ¬ (cs.head?.any startsNumber = true ∧ (Decimal.read? (String.ofList cs)).isSome = true) := by
  constructor
  · rintro h ⟨hhead, hread⟩
    obtain ⟨x, hx⟩ := Option.isSome_iff_exists.1 hread
    exact h x ⟨hhead, hx⟩
  · exact fun h x hx => h ⟨hx.1, hx.2 ▸ rfl⟩

instance : Decidable (∀ x, ¬ Numeric cs x) := decidable_of_iff _ not_numeric_iff.symm

instance : Decidable (Spells cs t) :=
  match t with
  | .identifier _ | .text _ | .number _ | .mark _ => inferInstanceAs (Decidable (_ ∧ _))

/-- Blanks and whole comments. -/
inductive Gap : List Char → Prop where
  | nil : Gap []
  | blank {c : Char} {cs : List Char} : Text.isBlank c = true → Gap cs → Gap (c :: cs)
  | comment {body cs : List Char} : '\n' ∉ body → Gap cs → Gap ('%' :: (body ++ '\n' :: cs))

/-- Whether a token is read as a word. -/
def isWord : Token → Bool
  | identifier _ | number _ => true
  | text _ | mark _ => false

/-- A text in which tokens are spelled one after the other. A word ends before a character that
cannot belong to it; the last comment need not end. -/
inductive Layout : List Token → List Char → Prop where
  | done {gap : List Char} : Gap gap → Layout [] gap
  | unended {gap body : List Char} : Gap gap → '\n' ∉ body → Layout [] (gap ++ '%' :: body)
  | token {gap cs rest : List Char} {t : Token} {ts : List Token} : Gap gap → Spells cs t →
      (t.isWord = true → ∀ c ∈ rest.head?, endsWord c = true) → Layout ts rest →
      Layout (t :: ts) (gap ++ (cs ++ rest))

theorem ofWord_of_numeric (h : Numeric cs x) : ofWord cs = number x := by
  obtain ⟨hhead, hread⟩ := h
  obtain ⟨c, hc, hstarts⟩ := Option.any_eq_true _ _ |>.1 hhead
  rw [ofWord, hc, Option.filter_some_pos hstarts, hread]

theorem ofWord_of_not_numeric (h : ∀ x, ¬ Numeric cs x) :
    ofWord cs = identifier (String.ofList cs) := by
  cases hread : Decimal.read? (String.ofList cs) with
  | none => simp [ofWord, hread]
  | some x =>
      have hhead : cs.head?.filter startsNumber = none := by
        rw [Option.filter_eq_none_iff]
        intro c hc hstarts
        exact h x ⟨Option.any_eq_true _ _ |>.2 ⟨c, hc, hstarts⟩, hread⟩
      simp [ofWord, hhead]

theorem Spells.ofWord (h : Spells cs t) (ht : t.isWord = true) : IsWord cs ∧ ofWord cs = t := by
  cases t with
  | identifier name =>
      obtain ⟨rfl, hword, hnumeric⟩ := h
      exact ⟨hword, by rw [ofWord_of_not_numeric hnumeric, String.ofList_toList]⟩
  | number x => exact ⟨h.1, ofWord_of_numeric h.2⟩
  | text s => cases ht
  | mark c => cases ht

/-! ## Scanning -/

theorem startAt_word (hc : endsWord c = false) : startAt line c = (.word [c], line, []) := by
  simp only [endsWord, Bool.or_eq_false_iff] at hc
  obtain ⟨⟨⟨hblank, hmark⟩, hquote⟩, hpercent⟩ := hc
  have hfeed : (c == '\n') = false := by
    rw [beq_eq_false_iff_ne]
    rintro rfl
    exact absurd hblank (by decide)
  rw [startAt, hfeed, hblank, hpercent, hquote, hmark]
  rfl

theorem startAt_mark (hc : c ∈ marks) : startAt line c = (.between, line, [⟨.mark c, line⟩]) := by
  simp only [marks, List.mem_cons, List.not_mem_nil, or_false] at hc
  rcases hc with rfl | rfl | rfl | rfl | rfl | rfl | rfl <;> rfl

theorem startAt_blank (line : Nat) (hc : Text.isBlank c = true) :
    ∃ next, startAt line c = (.between, next, []) := by
  by_cases hfeed : c = '\n'
  · exact ⟨line + 1, by rw [startAt, hfeed]; rfl⟩
  · exact ⟨line, by rw [startAt, if_neg (by simpa using hfeed), if_pos hc]⟩

theorem scanFrom_cons {mode mode' : Mode} {line' : Nat} {done : List Lexeme}
    (h : advance mode line c = (mode', line', done)) :
    scanFrom mode line (c :: cs) = (scanFrom mode' line' cs).map (done ++ ·) := by
  rw [scanFrom, h]

theorem scanFrom_silent {mode mode' : Mode} {line' : Nat}
    (h : advance mode line c = (mode', line', [])) :
    scanFrom mode line (c :: cs) = scanFrom mode' line' cs := by
  rw [scanFrom_cons h]
  cases scanFrom mode' line' cs <;> rfl

theorem scanFrom_start {mode : Mode} {line' : Nat} {done : List Lexeme}
    (h : startAt line c = (mode, line', done)) :
    scanFrom .between line (c :: cs) = (scanFrom mode line' cs).map (done ++ ·) := by
  rw [scanFrom, advance, h]

theorem scanFrom_start_silent {mode : Mode} {line' : Nat} (h : startAt line c = (mode, line', [])) :
    scanFrom .between line (c :: cs) = scanFrom mode line' cs := by
  rw [scanFrom_start h]
  cases scanFrom mode line' cs <;> rfl

theorem scanFrom_comment (h : '\n' ∉ body) :
    scanFrom .comment line (body ++ rest) = scanFrom .comment line rest := by
  induction body with
  | nil => rfl
  | cons c body ih =>
      rw [List.mem_cons, not_or] at h
      have hc : (c == '\n') = false := by simpa using Ne.symm h.1
      rw [List.cons_append, scanFrom_silent (by rw [advance, hc]; rfl), ih h.2]

theorem scanFrom_string (run rest : List Char) (line : Nat) (h : '"' ∉ body) : ∃ next,
    scanFrom (.string run) line (body ++ rest) =
      scanFrom (.string (body.reverse ++ run)) next rest := by
  induction body generalizing run line with
  | nil => exact ⟨line, rfl⟩
  | cons c body ih =>
      rw [List.mem_cons, not_or] at h
      have hc : (c == '"') = false := by simpa using Ne.symm h.1
      obtain ⟨next, hnext⟩ := ih (c :: run) (if c == '\n' then line + 1 else line) h.2
      refine ⟨next, ?_⟩
      rw [List.cons_append, scanFrom_silent (by rw [advance, hc]; rfl), hnext]
      simp

theorem scanFrom_word (h : ∀ c ∈ body, endsWord c = false) :
    scanFrom (.word run) line (body ++ rest) =
      scanFrom (.word (body.reverse ++ run)) line rest := by
  induction body generalizing run with
  | nil => rfl
  | cons c body ih =>
      rw [List.forall_mem_cons] at h
      rw [List.cons_append, scanFrom_silent (by rw [advance, h.1]; rfl), ih h.2]
      simp

/-- At a character that cannot belong to a word, the word is complete. -/
theorem scanFrom_word_end (h : ∀ c ∈ rest.head?, endsWord c = true) :
    scanFrom (.word run) line rest =
      (scanFrom .between line rest).map (⟨ofWord run.reverse, line⟩ :: ·) := by
  cases rest with
  | nil => rfl
  | cons c rest =>
      have hc : endsWord c = true := h c rfl
      rcases hstart : startAt line c with ⟨mode, next, started⟩
      have hword : advance (.word run) line c =
          (mode, next, ⟨ofWord run.reverse, line⟩ :: started) := by
        simp only [advance, hc, if_true, hstart]
      rw [scanFrom_start hstart, scanFrom_cons hword]
      cases scanFrom mode next rest <;> rfl

theorem scanFrom_gap (rest : List Char) (line : Nat) (h : Gap gap) :
    ∃ next, scanFrom .between line (gap ++ rest) = scanFrom .between next rest := by
  induction h generalizing line with
  | nil => exact ⟨line, rfl⟩
  | blank hc _ ih =>
      obtain ⟨next, hstart⟩ := startAt_blank line hc
      obtain ⟨last, hlast⟩ := ih next
      exact ⟨last, by rw [List.cons_append, scanFrom_start_silent hstart, hlast]⟩
  | comment hbody _ ih =>
      obtain ⟨last, hlast⟩ := ih (line + 1)
      have hopen : startAt line '%' = (.comment, line, []) := rfl
      have hclose : advance .comment line '\n' = (.between, line + 1, []) := rfl
      refine ⟨last, ?_⟩
      rw [List.cons_append, scanFrom_start_silent hopen, List.append_assoc, scanFrom_comment hbody,
        List.cons_append, scanFrom_silent hclose, hlast]

theorem scanFrom_spelled (line : Nat) (h : Spells cs t)
    (hend : t.isWord = true → ∀ c ∈ rest.head?, endsWord c = true) : ∃ l next,
      l.token = t ∧
        scanFrom .between line (cs ++ rest) = (scanFrom .between next rest).map (l :: ·) := by
  by_cases ht : t.isWord = true
  · obtain ⟨⟨hne, hinside⟩, rfl⟩ := h.ofWord ht
    obtain ⟨c, cs, rfl⟩ := List.exists_cons_of_ne_nil hne
    rw [List.forall_mem_cons] at hinside
    refine ⟨⟨_, line⟩, line, rfl, ?_⟩
    rw [List.cons_append, scanFrom_start_silent (startAt_word hinside.1),
      scanFrom_word hinside.2, scanFrom_word_end (hend ht), List.reverse_append,
      List.reverse_reverse]
    rfl
  · cases t with
    | identifier name => exact absurd rfl ht
    | number x => exact absurd rfl ht
    | mark c =>
        obtain ⟨rfl, hc⟩ := h
        exact ⟨_, line, rfl, scanFrom_start (startAt_mark hc)⟩
    | text s =>
        obtain ⟨rfl, hs⟩ := h
        obtain ⟨next, hnext⟩ := scanFrom_string [] ('"' :: rest) line hs
        have hopen : startAt line '"' = (.string [], line, []) := rfl
        have hclose : advance (.string (s.toList.reverse ++ [])) next '"' =
            (.between, next, [⟨.text s, next⟩]) := by
          simp [advance]
        refine ⟨⟨.text s, next⟩, next, rfl, ?_⟩
        rw [List.cons_append, scanFrom_start_silent hopen, List.append_assoc, List.singleton_append,
          hnext, scanFrom_cons hclose]
        rfl

/-- Scanning a text finds the tokens that it spells. -/
theorem scanFrom_of_layout (line : Nat) (h : Layout ts cs) :
    ∃ ls, scanFrom .between line cs = .ok ls ∧ ls.map (·.token) = ts := by
  induction h generalizing line with
  | done hgap =>
      obtain ⟨next, hnext⟩ := scanFrom_gap [] line hgap
      rw [List.append_nil] at hnext
      exact ⟨[], hnext, rfl⟩
  | @unended gap body hgap hbody =>
      obtain ⟨next, hnext⟩ := scanFrom_gap ('%' :: body) line hgap
      have hopen : startAt next '%' = (.comment, next, []) := rfl
      refine ⟨[], ?_, rfl⟩
      rw [hnext, scanFrom_start_silent hopen, ← List.append_nil body, scanFrom_comment hbody]
      rfl
  | token hgap hspells hend _ ih =>
      obtain ⟨next, hnext⟩ := scanFrom_gap _ line hgap
      obtain ⟨l, last, htoken, hlast⟩ := scanFrom_spelled next hspells hend
      obtain ⟨ls, hls, hmap⟩ := ih last
      refine ⟨l :: ls, ?_, by rw [List.map_cons, htoken, hmap]⟩
      rw [hnext, hlast, hls]
      rfl

theorem scan_of_layout {text : String} (h : Layout ts text.toList) :
    ∃ ls, scan text = .ok ls ∧ ls.map (·.token) = ts :=
  scanFrom_of_layout 1 h

/-! ## Spaces -/

/-- Tokens that can be spelled make a text if each is followed by a space. -/
theorem layout_spaced {ps : List (List Char × Token)} (h : ∀ p ∈ ps, Spells p.1 p.2)
    (hgap : Gap gap) : Layout (ps.map (·.2)) (gap ++ ps.flatMap fun p => p.1 ++ [' ']) := by
  induction ps generalizing gap with
  | nil => exact .done (by simpa using hgap)
  | cons p ps ih =>
      rw [List.forall_mem_cons] at h
      have hspace : Gap [' '] := .blank (by decide) .nil
      have hrest := ih h.2 hspace
      rw [List.flatMap_cons, List.append_assoc]
      refine .token hgap h.1 (fun _ c hc => ?_) hrest
      obtain rfl : ' ' = c := Option.some.inj hc
      decide

end BayesCircuit.Network.Token
