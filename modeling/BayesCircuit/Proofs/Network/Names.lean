import BayesCircuit.Proofs.Network.Accepted
import BayesCircuit.Proofs.Text

/-!
# Names that files give

A name in a file is what stands between blanks, marks and quotes, so whatever the file says, every
variable of the network that is read from it is named by a word (`named_of_parse`): the scanner
ends a word at the first blank, the rest of the reader drops tokens and makes none, and a block
names a variable by an identifier it has read. A word can hold any other character, a comma too.
-/

namespace BayesCircuit.Network

open Text (IsWord)

/-- Every identifier among some tokens is a word. -/
def Worded (ls : List Lexeme) : Prop :=
  ∀ l ∈ ls, ∀ name, l.token = .identifier name → IsWord name

/-- Every variable is named by a word. -/
def Named (net : Network) : Prop :=
  ∀ {v : Variable} {n : Node}, net.nodes[v]? = some n → IsWord n.name

variable {net net' : Network} {v : Variable} {n : Node} {name file text : String} {c c' : Cursor}
variable {ls ms : List Lexeme} {potentials potentials' : List Potential} {line : Nat}

/-! ### Tokens -/

namespace Token

variable {mode mode' : Mode} {line line' : Nat} {c : Char} {cs : List Char} {done : List Lexeme}

/-- A word that is being read has characters, and none of them is blank. -/
def Mode.Sound : Mode → Prop
  | .word run => run ≠ [] ∧ ∀ c ∈ run, Text.isBlank c = false
  | _ => True

theorem worded_nil : Worded [] := fun _ hl => absurd hl List.not_mem_nil

theorem worded_ofWord (h : Mode.Sound (.word cs)) : Worded [⟨ofWord cs.reverse, line⟩] := by
  intro l hl name hname
  obtain rfl := List.mem_singleton.1 hl
  rw [ofWord] at hname
  split at hname
  · cases hname
  · obtain rfl := Token.identifier.inj hname
    refine ⟨by simpa using h.1, fun c hc => h.2 c ?_⟩
    simpa using hc

theorem worded_startAt (h : startAt line c = (mode', line', done)) : mode'.Sound ∧ Worded done := by
  rw [startAt] at h
  split at h
  · cases h
    exact ⟨trivial, worded_nil⟩
  · split at h
    · cases h
      exact ⟨trivial, worded_nil⟩
    · rename_i hblank
      split at h
      · cases h
        exact ⟨trivial, worded_nil⟩
      · split at h
        · cases h
          exact ⟨trivial, worded_nil⟩
        · split at h
          · cases h
            refine ⟨trivial, fun l hl name hname => ?_⟩
            obtain rfl := List.mem_singleton.1 hl
            cases hname
          · cases h
            exact ⟨⟨List.cons_ne_nil _ _, List.forall_mem_singleton.2 (by simpa using hblank)⟩,
              worded_nil⟩

theorem Worded.append (h : Worded ls) (h' : Worded ms) : Worded (ls ++ ms) :=
  List.forall_mem_append.2 ⟨h, h'⟩

theorem worded_advance (hmode : mode.Sound) (h : advance mode line c = (mode', line', done)) :
    mode'.Sound ∧ Worded done := by
  cases mode with
  | between => exact worded_startAt h
  | comment =>
      rw [advance] at h
      split at h
      · cases h
        exact ⟨trivial, worded_nil⟩
      · cases h
        exact ⟨trivial, worded_nil⟩
  | string run =>
      rw [advance] at h
      split at h
      · cases h
        refine ⟨trivial, fun l hl name hname => ?_⟩
        obtain rfl := List.mem_singleton.1 hl
        cases hname
      · cases h
        exact ⟨trivial, worded_nil⟩
  | word run =>
      rw [advance] at h
      split at h
      · cases h
        obtain ⟨hsound, hstarted⟩ := @worded_startAt _ line _ c _ rfl
        exact ⟨hsound, Worded.append (worded_ofWord hmode) hstarted⟩
      · rename_i hend
        cases h
        simp only [endsWord, Bool.or_eq_true, not_or, Bool.not_eq_true] at hend
        exact ⟨⟨List.cons_ne_nil _ _, List.forall_mem_cons.2 ⟨hend.1.1.1, hmode.2⟩⟩, worded_nil⟩

theorem worded_scanFrom : ∀ {cs mode line ls}, Mode.Sound mode →
    scanFrom mode line cs = .ok ls → Worded ls
  | [], mode, line, ls, hmode, h => by
      cases mode with
      | between | comment =>
          cases h
          exact worded_nil
      | string run => cases h
      | word run =>
          cases h
          exact worded_ofWord hmode
  | c :: cs, mode, line, ls, hmode, h => by
      rcases hnext : advance mode line c with ⟨mode', line', done⟩
      obtain ⟨hmode', hdone⟩ := worded_advance hmode hnext
      rw [scanFrom, hnext] at h
      cases hrest : scanFrom mode' line' cs with
      | error l =>
          simp only [hrest] at h
          cases h
      | ok rest =>
          simp only [hrest] at h
          cases h
          exact Worded.append hdone (worded_scanFrom hmode' hrest)

/-- The identifiers of a text are words. -/
theorem worded_scan (h : scan text = .ok ls) : Worded ls :=
  have hsound : Mode.Sound .between := trivial
  worded_scanFrom hsound h

end Token

/-! ### Cursors -/

namespace Cursor

variable {t : Token} {ts : List Token} {mark : Char} {α : Type}
variable {properties : List (String × List Token)} {vs : List Variable}

theorem next_spec (h : c.next = .ok (t, c')) : ∃ l, l.token = t ∧ c.rest = l :: c'.rest := by
  rw [next] at h
  split at h
  · cases h
  · cases h
    exact ⟨_, rfl, ‹_›⟩

theorem identifier_spec (h : c.identifier = .ok (name, c')) :
    c'.rest <:+ c.rest ∧ ∃ l ∈ c.rest, l.token = .identifier name := by
  rw [identifier] at h
  obtain ⟨⟨t, d⟩, hnext, h⟩ := Outcome.bind_eq_ok_iff.1 h
  obtain ⟨l, rfl, hrest⟩ := next_spec hnext
  rw [hrest]
  split at h
  · rename_i hname
    obtain ⟨ht, rfl⟩ := Prod.mk.inj hname
    cases h
    exact ⟨List.suffix_cons .., l, List.mem_cons_self .., ht⟩
  · cases h

theorem expectMark_suffix (h : c.expectMark mark = .ok c') : c'.rest <:+ c.rest := by
  rw [expectMark] at h
  obtain ⟨⟨t, d⟩, hnext, h⟩ := Outcome.bind_eq_ok_iff.1 h
  obtain ⟨l, -, hrest⟩ := next_spec hnext
  dsimp only at h
  split at h
  · cases h
    rw [hrest]
    exact List.suffix_cons ..
  · cases h

theorem valueAt_suffix (file : String) (lastLine : Nat) : ∀ {ls : List Lexeme} {depth ts},
    valueAt file lastLine depth ls = .ok (ts, c') → c'.rest <:+ ls
  | [], _, _, h => by cases h
  | l :: rest, depth, ts, h => by
      have hmore : ∀ {more : List Lexeme}, more <:+ rest → more <:+ l :: rest :=
        fun hsub => hsub.trans (List.suffix_cons ..)
      rw [valueAt] at h
      split at h
      · split at h
        · exact hmore (valueAt_suffix file lastLine h)
        · split at h
          · cases h
            exact hmore (List.suffix_refl _)
          · split at h
            · exact hmore (valueAt_suffix file lastLine h)
            · cases h
      · split at h
        · cases h
          exact hmore (List.suffix_refl _)
        · obtain ⟨⟨us, d⟩, hvalue, h⟩ := Outcome.bind_eq_ok_iff.1 h
          cases h
          exact hmore (valueAt_suffix file lastLine hvalue)

theorem propertiesToEnd_suffix : ∀ {c : Cursor} {properties},
    c.propertiesToEnd = .ok (properties, c') → c'.rest <:+ c.rest := by
  intro c
  induction c using propertiesToEnd.induct with
  | case1 c hend =>
      intro properties h
      rw [propertiesToEnd, if_pos hend] at h
      obtain ⟨d, hmark, h⟩ := Outcome.bind_eq_ok_iff.1 h
      cases h
      exact expectMark_suffix hmark
  | case2 c hend ih =>
      intro properties h
      rw [propertiesToEnd, if_neg hend] at h
      obtain ⟨⟨key, afterKey⟩, hkey, h⟩ := Outcome.bind_eq_ok_iff.1 h
      obtain ⟨d, hequals, h⟩ := Outcome.bind_eq_ok_iff.1 h
      obtain ⟨⟨value, afterValue⟩, hvalue, h⟩ := Outcome.bind_eq_ok_iff.1 h
      obtain ⟨rest, hsemicolon, h⟩ := Outcome.bind_eq_ok_iff.1 h
      dsimp only at h
      have hsub : rest.rest <:+ c.rest := (expectMark_suffix hsemicolon).trans
        ((valueAt_suffix _ _ hvalue).trans ((expectMark_suffix hequals).trans
          (identifier_spec hkey).1))
      split at h
      · obtain ⟨⟨more, last⟩, hmore, h⟩ := Outcome.bind_eq_ok_iff.1 h
        cases h
        exact (ih rest ‹_› hmore).trans hsub
      · cases h

theorem properties_suffix (h : c.properties = .ok (properties, c')) : c'.rest <:+ c.rest := by
  rw [Cursor.properties] at h
  obtain ⟨d, hmark, h⟩ := Outcome.bind_eq_ok_iff.1 h
  exact (propertiesToEnd_suffix h).trans (expectMark_suffix hmark)

theorem parentsToEnd_suffix : ∀ {c : Cursor} {vs}, c.parentsToEnd net = .ok (vs, c') →
    c'.rest <:+ c.rest := by
  intro c
  induction c using parentsToEnd.induct with
  | case1 c hend =>
      intro vs h
      rw [parentsToEnd, if_pos hend] at h
      obtain ⟨d, hmark, h⟩ := Outcome.bind_eq_ok_iff.1 h
      cases h
      exact expectMark_suffix hmark
  | case2 c hend ih =>
      intro vs h
      rw [parentsToEnd, if_neg hend] at h
      obtain ⟨⟨name, rest⟩, hname, h⟩ := Outcome.bind_eq_ok_iff.1 h
      dsimp only at h
      split at h
      · cases h
      · split at h
        · obtain ⟨⟨more, last⟩, hmore, h⟩ := Outcome.bind_eq_ok_iff.1 h
          cases h
          exact (ih rest ‹_› hmore).trans (identifier_spec hname).1
        · cases h

end Cursor

/-! ### Blocks -/

variable {states : Array String} {p : Potential}

theorem Worded.mono (h : Worded ls) (hsub : ms <:+ ls) : Worded ms :=
  fun l hl => h l (hsub.subset hl)

theorem named_empty : empty.Named := fun h => by simp [empty] at h

theorem Named.addVariable (h : net.Named) (hname : IsWord name) :
    (net.addVariable name states).Named := by
  intro v n hn
  obtain hn | ⟨-, rfl, -⟩ := getElem?_addVariable hn
  · exact h hn
  · exact hname

theorem Named.applyPotential (h : net.Named) (happly : applyPotential file net p = .ok net') :
    net'.Named := by
  rw [Network.applyPotential] at happly
  split at happly
  · cases happly
  · rw [Network.setPotential] at happly
    obtain ⟨counter, -, happly⟩ := Outcome.bind_eq_ok_iff.1 happly
    obtain ⟨expected, -, happly⟩ := Outcome.bind_eq_ok_iff.1 happly
    dsimp only at happly
    split at happly
    · obtain ⟨_, -, happly⟩ := Outcome.bind_eq_ok_iff.1 happly
      cases happly
    · cases happly
      intro v n hn
      obtain ⟨m, hm, hname, -⟩ := getElem?_setPotential hn
      rw [hname]
      exact h hm

theorem Named.foldlM (h : net.Named)
    (hall : potentials.foldlM (Network.applyPotential file) net = .ok net') : net'.Named := by
  induction potentials generalizing net with
  | nil => exact Except.ok.inj hall ▸ h
  | cons p ps ih =>
      rw [List.foldlM_cons] at hall
      obtain ⟨next, hnext, hall⟩ := Outcome.bind_eq_ok_iff.1 hall
      exact ih (h.applyPotential hnext) hall

theorem readNode_named (h : net.Named) (hc : Worded c.rest)
    (hread : readNode net c = .ok (net', c')) : net'.Named ∧ c'.rest <:+ c.rest := by
  rw [readNode] at hread
  obtain ⟨⟨name, d⟩, hname, hread⟩ := Outcome.bind_eq_ok_iff.1 hread
  obtain ⟨hsub, l, hl, htoken⟩ := Cursor.identifier_spec hname
  dsimp only at hread
  split at hread
  · obtain ⟨_, hstop, -⟩ := Outcome.bind_eq_ok_iff.1 hread
    cases hstop
  · obtain ⟨⟨properties, d'⟩, hproperties, hread⟩ := Outcome.bind_eq_ok_iff.1 hread
    dsimp only at hread
    split at hread
    · obtain ⟨_, hstop, -⟩ := Outcome.bind_eq_ok_iff.1 hread
      cases hstop
    · cases hread
      exact ⟨h.addVariable (hc l hl name htoken),
        (Cursor.properties_suffix hproperties).trans hsub⟩

theorem readPotential_suffix (h : readPotential net line c = .ok (p, c')) : c'.rest <:+ c.rest := by
  rw [readPotential] at h
  obtain ⟨c₁, hopen, h⟩ := Outcome.bind_eq_ok_iff.1 h
  obtain ⟨⟨name, c₂⟩, hname, h⟩ := Outcome.bind_eq_ok_iff.1 h
  have hstart : c₂.rest <:+ c.rest :=
    (Cursor.identifier_spec hname).1.trans (Cursor.expectMark_suffix hopen)
  dsimp only at h
  split at h
  · cases h
  · obtain ⟨child, -, h⟩ := Outcome.bind_eq_ok_iff.1 h
    -- Either way of giving the parents takes tokens only.
    have hgiven : ∃ parents c₃, c₃.rest <:+ c₂.rest ∧
        (Cursor.properties c₃ >>= fun body =>
          readData body.2 ((body.1.filter (·.1 == "data")).flatMap (·.2)) >>= fun data =>
            .ok (⟨child, parents, data, line⟩, body.2)) = Except.ok (p, c') := by
      split at h
      · obtain ⟨⟨parents, c₃⟩, hparents, h⟩ := Outcome.bind_eq_ok_iff.1 h
        obtain ⟨⟨bar, c₄⟩, hbar, hparents⟩ := Outcome.bind_eq_ok_iff.1 hparents
        obtain ⟨l, -, hrest⟩ := Cursor.next_spec hbar
        refine ⟨parents, c₃, (Cursor.parentsToEnd_suffix hparents).trans ?_, h⟩
        rw [hrest]
        exact List.suffix_cons ..
      · obtain ⟨⟨parents, c₃⟩, hparents, h⟩ := Outcome.bind_eq_ok_iff.1 h
        cases hend : Cursor.expectMark c₂ ')' with
        | error _ =>
            rw [hend] at hparents
            cases hparents
        | ok rest =>
            rw [hend] at hparents
            cases hparents
            exact ⟨[], _, Cursor.expectMark_suffix hend, h⟩
    obtain ⟨parents, c₃, hsub, h⟩ := hgiven
    obtain ⟨⟨properties, c₄⟩, hproperties, h⟩ := Outcome.bind_eq_ok_iff.1 h
    obtain ⟨data, -, h⟩ := Outcome.bind_eq_ok_iff.1 h
    cases h
    exact (Cursor.properties_suffix hproperties).trans (hsub.trans hstart)

theorem readBlock_named (h : net.Named) (hc : Worded c.rest)
    (hread : readBlock net potentials c = .ok (net', potentials', c')) :
    net'.Named ∧ c'.rest <:+ c.rest := by
  rw [readBlock] at hread
  obtain ⟨⟨keyword, d⟩, hkeyword, hread⟩ := Outcome.bind_eq_ok_iff.1 hread
  have hd := (Cursor.identifier_spec hkeyword).1
  dsimp only at hread
  split at hread
  · obtain ⟨⟨_, _⟩, hproperties, hread⟩ := Outcome.bind_eq_ok_iff.1 hread
    cases hread
    exact ⟨h, (Cursor.properties_suffix hproperties).trans hd⟩
  · obtain ⟨⟨node, d'⟩, hnode, hread⟩ := Outcome.bind_eq_ok_iff.1 hread
    have hd' := (Cursor.identifier_spec hnode).1.trans hd
    dsimp only at hread
    split at hread
    · obtain ⟨_, hstop, -⟩ := Outcome.bind_eq_ok_iff.1 hread
      cases hstop
    · obtain ⟨⟨_, _⟩, hnode, hread⟩ := Outcome.bind_eq_ok_iff.1 hread
      cases hread
      exact (readNode_named h (hc.mono hd') hnode).imp_right fun hsub => hsub.trans hd'
  · obtain ⟨⟨_, _⟩, hnode, hread⟩ := Outcome.bind_eq_ok_iff.1 hread
    cases hread
    exact (readNode_named h (hc.mono hd) hnode).imp_right fun hsub => hsub.trans hd
  · cases hread
  · obtain ⟨⟨_, _⟩, hpotential, hread⟩ := Outcome.bind_eq_ok_iff.1 hread
    cases hread
    exact ⟨h, (readPotential_suffix hpotential).trans hd⟩
  · cases hread

theorem readBlocks_named : ∀ {net : Network} {potentials : List Potential} {c : Cursor},
    net.Named → Worded c.rest → readBlocks net potentials c = .ok (net', potentials') →
    net'.Named := by
  intro net potentials c
  induction net, potentials, c using readBlocks.induct with
  | case1 net potentials c hend =>
      intro h _ hread
      rw [readBlocks, if_pos hend] at hread
      cases hread
      exact h
  | case2 net potentials c hmore ih =>
      intro h hc hread
      rw [readBlocks, if_neg hmore] at hread
      obtain ⟨⟨next, more, rest⟩, hblock, hread⟩ := Outcome.bind_eq_ok_iff.1 hread
      obtain ⟨h, hsub⟩ := readBlock_named h hc hblock
      dsimp only at hread
      split at hread
      · exact ih next more rest ‹_› h (hc.mono hsub) hread
      · cases hread

/-- Whatever a file says, its variables are named by words. -/
theorem named_of_parse (h : parse file text = .ok net) : net.Named := by
  rw [parse] at h
  split at h
  · cases h
  · rename_i ls hscan
    obtain ⟨⟨start, potentials⟩, hread, h⟩ := Outcome.bind_eq_ok_iff.1 h
    exact Named.foldlM (readBlocks_named named_empty (Token.worded_scan hscan) hread) h

/-- Variables are written as words that find them. -/
theorem Accepted.exists_names {vs : List Variable} (hnet : net.Accepted) (hnamed : net.Named)
    (hvs : ∀ v ∈ vs, v < net.size) : ∃ names, vs.mapM net.name = .ok names ∧
      (∀ w ∈ names, IsWord w) ∧ List.Forall₂ (fun v w => net.find? w = some v) vs names := by
  have hname : ∀ v ∈ vs, ∃ w, net.name v = .ok w ∧ IsWord w ∧ net.find? w = some v := by
    intro v hv
    have hn := Array.getElem?_eq_getElem (hvs v hv)
    refine ⟨_, ?_, hnamed hn, hnet.find?_name hn⟩
    rw [Network.name, node, fetch, hn]
    rfl
  choose! name hname using hname
  refine ⟨vs.map name, Outcome.mapM_ok fun v hv => (hname v hv).1,
    List.forall_mem_map.2 fun v hv => (hname v hv).2.1, ?_⟩
  rw [List.forall₂_map_right_iff, List.forall₂_same]
  exact fun v hv => (hname v hv).2.2

end BayesCircuit.Network
