import BayesCircuit.PseudoTree.Text
import BayesCircuit.Proofs.Outcome
import BayesCircuit.Proofs.Text

/-!
# The grammar of pseudo-trees

The text of a tree is an opening parenthesis, the variable of its root in decimal digits, the texts
of the trees below the root one after the other, and a closing parenthesis (`Spells`). The reader
accepts exactly these texts and returns the tree that is spelled; it ends on every text, with a tree
or with an error in the first line (`parse_grammar`).

The reader goes through the bytes of a line. What it has read is what its open parentheses spell
(`Read`), which every byte keeps, so what it accepts is spelled. Conversely it is followed through
the text of a tree: whatever is open before it is still open behind it, and has one more tree
(`Spells.readFrom_append`).
-/

namespace BayesCircuit.PseudoTree

open Text (isDigit digitsValue)

variable {file : String} {position left start v : Nat} {c : Char} {ds cs pre inner run s : List Char}
variable {mode mode' : Mode} {p p' : Progress} {f : Frame} {fs : List Frame} {n root : Node}
variable {ns : List Node} {bs rest : List UInt8}

/-! ## The grammar -/

/-- Decimal digits of a variable, possibly with zeros in front. -/
structure Numeral (v : Variable) (ds : List Char) : Prop where
  ne_nil : ds ≠ []
  digits : ∀ c ∈ ds, isDigit c = true
  value : digitsValue ds = v
  fits : v < halfWordSize

mutual

/-- The text of a tree. -/
inductive Spells : Node → List Char → Prop
  | mk {v : Variable} {ds : List Char} {ns : List Node} {inner : List Char} :
      Numeral v ds → SpellsAll ns inner → Spells (.mk v ns) ('(' :: (ds ++ (inner ++ [')'])))

/-- The texts of trees, one after the other. -/
inductive SpellsAll : List Node → List Char → Prop
  | nil : SpellsAll [] []
  | cons {n : Node} {ns : List Node} {s ss : List Char} :
      Spells n s → SpellsAll ns ss → SpellsAll (n :: ns) (s ++ ss)

end

theorem SpellsAll.concat (h : SpellsAll ns inner) (hn : Spells n s) :
    SpellsAll (ns ++ [n]) (inner ++ s) := by
  induction ns generalizing inner with
  | nil =>
      cases h
      have hone : SpellsAll [n] (s ++ []) := .cons hn .nil
      rwa [List.append_nil] at hone
  | cons m ns ih =>
      cases h with
      | cons hm hns =>
          rw [List.append_assoc]
          exact .cons hm (ih hns)

/-- The characters of trees are parentheses and digits. -/
def IsPlain (c : Char) : Prop := c = '(' ∨ c = ')' ∨ isDigit c = true

mutual

theorem Spells.isPlain : ∀ {n : Node} {s : List Char}, Spells n s → ∀ c ∈ s, IsPlain c
  | _, _, .mk hv hns, c, hc => by
      simp only [List.mem_cons, List.mem_append, List.not_mem_nil, or_false] at hc
      rcases hc with hc | hc | hc | hc
      · exact Or.inl hc
      · exact Or.inr (Or.inr (hv.digits c hc))
      · exact hns.isPlain c hc
      · exact Or.inr (Or.inl hc)

theorem SpellsAll.isPlain : ∀ {ns : List Node} {s : List Char}, SpellsAll ns s →
    ∀ c ∈ s, IsPlain c
  | _, _, .nil, c, hc => absurd hc List.not_mem_nil
  | _, _, .cons hn hns, c, hc => by
      rcases List.mem_append.1 hc with hc | hc
      · exact hn.isPlain c hc
      · exact hns.isPlain c hc

end

theorem Spells.ne_nil (h : Spells n s) : s ≠ [] := by
  cases h
  exact List.cons_ne_nil _ _

/-- What follows the number of a variable does not start with a digit. -/
theorem SpellsAll.head (h : SpellsAll ns inner) (cs : List Char) : ∃ c tail,
    inner ++ ')' :: cs = c :: tail ∧ isDigit c = false := by
  cases h with
  | nil => exact ⟨')', cs, rfl, rfl⟩
  | cons hn hns =>
      cases hn
      exact ⟨'(', _, rfl, rfl⟩

theorem isDigit_range (h : isDigit c = true) : 48 ≤ c.toNat ∧ c.toNat ≤ 57 := by
  rw [isDigit, Bool.and_eq_true, decide_eq_true_eq, decide_eq_true_eq] at h
  exact h

theorem IsPlain.lt (h : IsPlain c) : c.toNat < 128 := by
  rcases h with rfl | rfl | h
  · decide
  · decide
  · have := isDigit_range h
    omega

theorem IsPlain.not_blank (h : IsPlain c) : Text.isBlank c = false := by
  rcases h with rfl | rfl | h
  · decide
  · decide
  · exact Text.isBlank_of_isDigit h

theorem Spells.isWord (h : Spells n s) : Text.IsWord (String.ofList s) where
  ne_nil := by
    rw [String.toList_ofList]
    exact h.ne_nil
  no_blank c hc := by
    rw [String.toList_ofList] at hc
    exact (h.isPlain c hc).not_blank

/-! ## Bytes and characters -/

/-- The byte of an ASCII character. -/
def byteOf (c : Char) : UInt8 := UInt8.ofNat c.toNat

theorem toNat_byteChar (b : UInt8) : (byteChar b).toNat = b.toNat := by
  have hlt : b.toNat < 256 := b.toNat_lt
  have hvalid : b.toNat.isValidChar := Or.inl (by omega)
  rw [byteChar, Char.ofNat, dif_pos hvalid]
  rfl

theorem byteChar_byteOf (h : c.toNat < 128) : byteChar (byteOf c) = c := by
  have hbyte : (byteOf c).toNat = c.toNat := by
    rw [byteOf, UInt8.toNat_ofNat']
    omega
  apply Char.ext
  apply UInt32.toNat_inj.1
  exact (toNat_byteChar _).trans hbyte

theorem loop_toList (bytes : ByteArray) : ∀ (k i : Nat) (acc : List UInt8), bytes.size - i = k →
    ByteArray.toList.loop bytes i acc = acc.reverse ++ bytes.data.toList.drop i
  | 0, i, acc, hk => by
      have hsize : bytes.data.toList.length ≤ i := by
        have : bytes.data.toList.length = bytes.size := rfl
        omega
      rw [ByteArray.toList.loop, if_neg (by omega), List.drop_eq_nil_of_le hsize, List.append_nil]
  | k + 1, i, acc, hk => by
      have hi : i < bytes.data.toList.length := by
        have : bytes.data.toList.length = bytes.size := rfl
        omega
      have hget : bytes.get! i = bytes.data.toList[i] := by
        have hdata : i < bytes.data.size := hi
        show bytes.data[i]! = _
        rw [getElem!_pos bytes.data i hdata, Array.getElem_toList]
      rw [ByteArray.toList.loop, if_pos (by omega), loop_toList bytes k (i + 1) _ (by omega), hget,
        List.drop_eq_getElem_cons hi]
      simp

theorem toList_toUTF8 (s : String) : s.toUTF8.toList = s.toList.flatMap String.utf8EncodeChar := by
  have hdata : s.toUTF8 = s.toList.utf8Encode := by
    conv_lhs => rw [← String.ofList_toList (s := s)]
    exact String.toByteArray_ofList
  rw [ByteArray.toList, loop_toList _ _ 0 [] rfl, hdata, List.utf8Encode]
  simp

theorem utf8EncodeChar_ascii (h : c.toNat < 128) : String.utf8EncodeChar c = [byteOf c] := by
  have hle : c.val.toNat ≤ 127 := Nat.le_of_lt_succ h
  simp only [String.utf8EncodeChar, if_pos hle]
  rfl

/-- Every character that is not ASCII starts with a byte that is not. -/
theorem exists_mem_utf8EncodeChar (h : 128 ≤ c.toNat) :
    ∃ b ∈ String.utf8EncodeChar c, 128 ≤ b.toNat := by
  have hnot : ¬ c.val.toNat ≤ 127 := by
    have : c.val.toNat = c.toNat := rfl
    omega
  simp only [String.utf8EncodeChar, if_neg hnot]
  split
  · refine ⟨_, List.mem_cons_self .., ?_⟩
    rw [UInt8.toNat_ofNat']
    omega
  · split
    · refine ⟨_, List.mem_cons_self .., ?_⟩
      rw [UInt8.toNat_ofNat']
      omega
    · refine ⟨_, List.mem_cons_self .., ?_⟩
      rw [UInt8.toNat_ofNat']
      omega

/-- A text of ASCII characters has one byte for each. -/
theorem toList_toUTF8_ascii {s : String} (h : ∀ c ∈ s.toList, c.toNat < 128) :
    s.toUTF8.toList = s.toList.map byteOf := by
  rw [toList_toUTF8]
  generalize s.toList = cs at h
  induction cs with
  | nil => rfl
  | cons c cs ih =>
      obtain ⟨hc, hcs⟩ := List.forall_mem_cons.1 h
      rw [List.flatMap_cons, utf8EncodeChar_ascii hc, ih hcs, List.map_cons]
      rfl

theorem map_byteChar_byteOf (h : ∀ c ∈ cs, c.toNat < 128) :
    (cs.map byteOf).map byteChar = cs := by
  rw [List.map_map]
  conv_rhs => rw [← List.map_id cs]
  apply List.map_congr_left
  intro c hc
  exact byteChar_byteOf (h c hc)

/-- If the bytes of a text are read as ASCII characters, these are its characters. -/
theorem map_byteChar_toUTF8 {s : String}
    (h : ∀ c ∈ s.toUTF8.toList.map byteChar, c.toNat < 128) :
    s.toUTF8.toList.map byteChar = s.toList := by
  have hascii : ∀ c ∈ s.toList, c.toNat < 128 := by
    intro c hc
    by_contra hlarge
    obtain ⟨b, hb, hlarge⟩ := exists_mem_utf8EncodeChar (c := c) (by omega)
    have hmem : b ∈ s.toUTF8.toList := by
      rw [toList_toUTF8]
      exact List.mem_flatMap.2 ⟨c, hc, hb⟩
    have hlt := h (byteChar b) (List.mem_map_of_mem hmem)
    rw [toNat_byteChar] at hlt
    omega
  rw [toList_toUTF8_ascii hascii, map_byteChar_byteOf hascii]

/-! ## What has been read -/

/-- What open parentheses have read, the innermost of which comes first. -/
inductive Opened : List Frame → List Char → Prop
  | nil : Opened [] []
  | cons {f : Frame} {fs : List Frame} {pre ds inner : List Char} : Opened fs pre →
      Numeral f.label ds → SpellsAll f.below.reverse inner →
      Opened (f :: fs) (pre ++ '(' :: (ds ++ inner))

/-- What has been read from the beginning of a line. -/
inductive Read : Mode → Progress → List Char → Prop
  | between {fs : List Frame} {pre : List Char} : Opened fs pre → Read .between (.opening fs) pre
  | closed {root : Node} {s : List Char} : Spells root s → Read .between (.closed root) s
  | opened {fs : List Frame} {pre : List Char} : Opened fs pre →
      Read .opened (.opening fs) (pre ++ ['('])
  | digits {fs : List Frame} {pre run : List Char} {start : Nat} : Opened fs pre → run ≠ [] →
      (∀ c ∈ run, isDigit c = true) →
      Read (.digits start run) (.opening fs) (pre ++ '(' :: run.reverse)

/-- The frame of a variable is opened if its number fits. -/
theorem openFrame_eq_ok {fs' : List Frame} (h : openFrame file start run fs = .ok fs') :
    digitsValue run.reverse < halfWordSize ∧ fs' = ⟨digitsValue run.reverse, []⟩ :: fs := by
  unfold openFrame at h
  simp only [] at h
  split at h
  · cases h
    exact ⟨‹_›, rfl⟩
  · cases h

theorem openFrame_ok (h : digitsValue run.reverse < halfWordSize) :
    openFrame file start run fs = .ok (⟨digitsValue run.reverse, []⟩ :: fs) :=
  if_pos h

/-- A number is the beginning of a frame. -/
theorem Opened.open (h : Opened fs pre) (hne : run ≠ []) (hrun : ∀ c ∈ run, isDigit c = true)
    (hfits : digitsValue run.reverse < halfWordSize) :
    Opened (⟨digitsValue run.reverse, []⟩ :: fs) (pre ++ '(' :: run.reverse) := by
  have hnumeral : Numeral (digitsValue run.reverse) run.reverse :=
    ⟨by simpa using hne, fun c hc => hrun c (List.mem_reverse.1 hc), rfl, hfits⟩
  have hopened := Opened.cons (f := ⟨digitsValue run.reverse, []⟩) h hnumeral .nil
  rwa [List.append_nil] at hopened

/-- A closing parenthesis completes the tree of the innermost frame. -/
theorem Opened.close (h : Opened (f :: fs) pre) :
    Read .between (Progress.close f fs) (pre ++ [')']) := by
  cases h with
  | cons hpre hv hbelow =>
      have hnode : Spells (.mk f.label f.below.reverse) _ := .mk hv hbelow
      rw [List.append_assoc, List.cons_append, List.append_assoc]
      cases hpre with
      | nil => exact .closed hnode
      | cons hpre hw hnext =>
          rename_i g fs pre ds' inner'
          have hall := hnext.concat hnode
          rw [← List.reverse_cons] at hall
          have hopened := Opened.cons (f := ⟨g.label, .mk f.label f.below.reverse :: g.below⟩)
            hpre hw hall
          rw [List.append_assoc, List.cons_append, List.append_assoc]
          exact .between hopened

/-- A byte between parentheses keeps what has been read. -/
theorem Read.readBetween (h : Read .between p pre)
    (hread : readBetween file position left c p = .ok (mode', p')) : Read mode' p' (pre ++ [c]) := by
  cases h with
  | closed hroot => cases hread
  | between hfs =>
      unfold PseudoTree.readBetween at hread
      simp only [] at hread
      split at hread
      · rename_i hopen
        cases hread
        rw [eq_of_beq hopen]
        exact .opened hfs
      · split at hread
        · cases hread
          exact hfs.close
        · cases hread

/-- Every byte keeps what has been read. -/
theorem Read.readByte (h : Read mode p pre)
    (hread : readByte file position left c mode p = .ok (mode', p')) :
    Read mode' p' (pre ++ [c]) := by
  cases h with
  | between hfs =>
      rw [PseudoTree.readByte] at hread
      exact (Read.between hfs).readBetween hread
  | closed hroot =>
      rw [PseudoTree.readByte] at hread
      exact (Read.closed hroot).readBetween hread
  | opened hfs =>
      rw [PseudoTree.readByte] at hread
      split at hread
      · rename_i hdigit
        cases hread
        rw [List.append_assoc]
        refine .digits hfs (List.cons_ne_nil _ _) ?_
        intro d hd
        rwa [List.mem_singleton.1 hd]
      · cases hread
  | digits hfs hne hrun =>
      rw [PseudoTree.readByte] at hread
      split at hread
      · rename_i hdigit
        cases hread
        rw [List.append_assoc, List.cons_append, ← List.reverse_cons]
        exact .digits hfs (List.cons_ne_nil _ _) (List.forall_mem_cons.2 ⟨hdigit, hrun⟩)
      · obtain ⟨fs', hframe, hread⟩ := Outcome.bind_eq_ok_iff.1 hread
        obtain ⟨hfits, rfl⟩ := openFrame_eq_ok hframe
        exact (Read.between (hfs.open hne hrun hfits)).readBetween hread

/-- The tree that is read from a line is spelled by it, unless there is nothing in the line. -/
theorem Read.spells (h : Read mode p pre) : ∀ {bs : List UInt8} {position : Nat},
    readFrom file position mode p bs = .ok root →
    Spells root (pre ++ bs.map byteChar) ∨ pre ++ bs.map byteChar = [] := by
  intro bs
  induction bs generalizing mode p pre with
  | nil =>
      intro position hread
      rw [List.map_nil, List.append_nil]
      cases h with
      | between hfs =>
          cases hfs with
          | nil => exact Or.inr rfl
          | cons _ _ _ => cases hread
      | closed hroot =>
          cases hread
          exact Or.inl hroot
      | opened _ => cases hread
      | digits _ _ _ =>
          rw [readFrom] at hread
          obtain ⟨fs', -, hread⟩ := Outcome.bind_eq_ok_iff.1 hread
          cases hread
  | cons b bs ih =>
      intro position hread
      rw [readFrom] at hread
      obtain ⟨⟨mode', p'⟩, hbyte, hread⟩ := Outcome.bind_eq_ok_iff.1 hread
      have hrest := ih (h.readByte hbyte) hread
      rwa [List.append_assoc] at hrest

/-! ## What is read behind a tree -/

/-- Put a finished tree into the innermost frame. -/
def attach (n : Node) : List Frame → Progress
  | [] => .closed n
  | f :: fs => .opening ({ f with below := n :: f.below } :: fs)

theorem close_eq_attach : Progress.close f fs = attach (.mk f.label f.below.reverse) fs := by
  cases fs <;> rfl

theorem readByte_digit (h : isDigit c = true) :
    readByte file position left c (.digits start run) p = .ok (.digits start (c :: run), p) := by
  unfold readByte
  simp only [h, if_true]
  rfl

/-- Digits behind a digit are added to the number. -/
theorem readFrom_digits : ∀ {ds run : List Char} {position : Nat}, (∀ c ∈ ds, isDigit c = true) →
    readFrom file position (.digits start run) p (ds.map byteOf ++ rest) =
      readFrom file (position + ds.length) (.digits start (ds.reverse ++ run)) p rest
  | [], _, _, _ => rfl
  | d :: ds, run, position, h => by
      obtain ⟨hd, hds⟩ := List.forall_mem_cons.1 h
      have hbyte : byteChar (byteOf d) = d := byteChar_byteOf (IsPlain.lt (Or.inr (Or.inr hd)))
      rw [List.map_cons, List.cons_append, readFrom, hbyte, readByte_digit hd]
      simp only [bind, Except.bind]
      rw [readFrom_digits hds, List.reverse_cons, List.append_assoc, List.length_cons,
        Nat.add_assoc, Nat.add_comm 1]
      rfl

/-- A number ends at the first character that is no digit. -/
theorem readFrom_number (hc : c.toNat < 128) (hdigit : isDigit c = false)
    (hfits : digitsValue run.reverse < halfWordSize) :
    readFrom file position (.digits start run) (.opening fs) (byteOf c :: rest) =
      readFrom file position .between (.opening (⟨digitsValue run.reverse, []⟩ :: fs))
        (byteOf c :: rest) := by
  rw [readFrom, readFrom, byteChar_byteOf hc, readByte, readByte, hdigit]
  simp only [Bool.false_eq_true, if_false, openFrame_ok hfits, bind, Except.bind]

/-- Behind an opening parenthesis and the number of a variable, a frame is open. -/
theorem Numeral.readFrom (h : Numeral v ds) (hc : c.toNat < 128) (hdigit : isDigit c = false) :
    PseudoTree.readFrom file position .between (.opening fs)
        (byteOf '(' :: (ds.map byteOf ++ byteOf c :: rest)) =
      PseudoTree.readFrom file (position + ds.length + 1) .between (.opening (⟨v, []⟩ :: fs))
        (byteOf c :: rest) := by
  obtain ⟨hne, hdigits, rfl, hfits⟩ := h
  obtain ⟨d, ds, rfl⟩ := List.exists_cons_of_ne_nil hne
  obtain ⟨hd, hds⟩ := List.forall_mem_cons.1 hdigits
  have hopen : byteChar (byteOf '(') = '(' := byteChar_byteOf (by decide)
  have hbyte : byteChar (byteOf d) = d := byteChar_byteOf (IsPlain.lt (Or.inr (Or.inr hd)))
  have hreverse : (ds.reverse ++ [d]).reverse = d :: ds := by simp
  -- the parenthesis, the first digit and the other digits are read in turn
  rw [PseudoTree.readFrom, hopen]
  simp only [readByte, readBetween, beq_self_eq_true, if_true, bind, Except.bind]
  rw [List.map_cons, List.cons_append, PseudoTree.readFrom, hbyte, readByte, hd]
  simp only [if_true, bind, Except.bind]
  rw [readFrom_digits hds, readFrom_number hc hdigit (by rwa [hreverse]), hreverse,
    List.length_cons]
  congr 1
  omega

/-- A closing parenthesis puts the tree of the innermost frame into the next one. -/
theorem readFrom_close :
    readFrom file position .between (.opening (f :: fs)) (byteOf ')' :: rest) =
      readFrom file (position + 1) .between (attach (.mk f.label f.below.reverse) fs) rest := by
  have hclose : byteChar (byteOf ')') = ')' := byteChar_byteOf (by decide)
  rw [readFrom, hclose, ← close_eq_attach]
  rfl

mutual

/-- Behind the text of a tree, the innermost frame has one more tree. -/
theorem Spells.readFrom_append : ∀ {n : Node} {s : List Char}, Spells n s →
    ∀ {position : Nat} {fs : List Frame} {rest : List UInt8},
      readFrom file position .between (.opening fs) (s.map byteOf ++ rest) =
        readFrom file (position + s.length) .between (attach n fs) rest
  | _, _, @Spells.mk v ds ns inner hv hns, position, fs, rest => by
      obtain ⟨c, tail, htail, hdigit⟩ := hns.head []
      have hplain : c.toNat < 128 := by
        have hmem : c ∈ inner ++ [')'] := htail ▸ List.mem_cons_self ..
        rcases List.mem_append.1 hmem with hmem | hmem
        · exact (hns.isPlain c hmem).lt
        · exact IsPlain.lt (Or.inr (Or.inl (List.mem_singleton.1 hmem)))
      have hinner : (inner ++ [')']).map byteOf ++ rest = byteOf c :: (tail.map byteOf ++ rest) := by
        rw [htail]
        rfl
      rw [List.map_cons, List.map_append, List.cons_append, List.append_assoc, hinner,
        hv.readFrom hplain hdigit, ← hinner, List.map_append, List.append_assoc,
        hns.readFrom_append]
      show readFrom file _ .between _ (byteOf ')' :: rest) = _
      rw [readFrom_close, List.append_nil, List.reverse_reverse]
      simp only [List.length_cons, List.length_append, List.length_nil]
      congr 1
      omega

/-- Behind the texts of trees, the innermost frame has these trees as well. -/
theorem SpellsAll.readFrom_append : ∀ {ns : List Node} {s : List Char}, SpellsAll ns s →
    ∀ {position : Nat} {f : Frame} {fs : List Frame} {rest : List UInt8},
      readFrom file position .between (.opening (f :: fs)) (s.map byteOf ++ rest) =
        readFrom file (position + s.length) .between
          (.opening ({ f with below := ns.reverse ++ f.below } :: fs)) rest
  | _, _, .nil, position, f, fs, rest => rfl
  | _, _, .cons hn hns, position, f, fs, rest => by
      rw [List.map_append, List.append_assoc, hn.readFrom_append, attach, hns.readFrom_append,
        List.length_append, List.reverse_cons, List.append_assoc, Nat.add_assoc]
      rfl

end

/-! ## Writing -/

theorem numeral_toString (h : v < halfWordSize) : Numeral v (toString v).toList where
  ne_nil := by simp
  digits _ hc := Text.isDigit_of_mem_toString hc
  value := by
    have hvalue := Text.natural?_toString (n := v)
    rw [Text.natural?] at hvalue
    split at hvalue
    · cases hvalue
    · exact Option.some.inj hvalue
  fits := h

mutual

/-- A tree is spelled by its text if its variables are machine numbers. -/
theorem Node.spells_toText : ∀ {n : Node}, (∀ v ∈ n.preorder, v < halfWordSize) →
    Spells n n.toText.toList
  | .mk v ns, h => by
      rw [Node.preorder, List.forall_mem_cons] at h
      have hspells : Spells (.mk v ns) _ :=
        .mk (numeral_toString h.1) (Node.spellsAll_toText h.2)
      have htext : (Node.mk v ns).toText.toList =
          '(' :: ((toString v).toList ++ ((Node.allToText ns).toList ++ [')'])) := by
        rw [Node.toText]
        simp only [String.toList_append, List.append_assoc]
        rfl
      rwa [htext]

theorem Node.spellsAll_toText : ∀ {ns : List Node}, (∀ v ∈ preorderAll ns, v < halfWordSize) →
    SpellsAll ns (Node.allToText ns).toList
  | [], _ => .nil
  | n :: ns, h => by
      rw [Node.preorderAll, List.forall_mem_append] at h
      rw [Node.allToText, String.toList_append]
      exact .cons (Node.spells_toText h.1) (Node.spellsAll_toText h.2)

end

/-! ## Reading -/

/-- The line that is read, without the blanks around it. -/
def firstLine (text : String) : String := Text.trim ((Text.lines text).headD "")

/-- Reading ends with a value or with an error in the first line of a file. -/
def Settled {α : Type} (file : String) (x : Outcome α) : Prop :=
  (∃ a, x = .ok a) ∨ ∃ reason, x = fail (.parse file 1 reason)

theorem Settled.bind {α β : Type} {x : Outcome α} {g : α → Outcome β} (hx : Settled file x)
    (hg : ∀ a, Settled file (g a)) : Settled file (x >>= g) := by
  rcases hx with ⟨a, rfl⟩ | ⟨reason, rfl⟩
  · exact hg a
  · exact Or.inr ⟨reason, rfl⟩

theorem settled_openFrame : Settled file (openFrame file start run fs) := by
  unfold openFrame
  simp only []
  split
  · exact Or.inl ⟨_, rfl⟩
  · exact Or.inr ⟨_, rfl⟩

theorem settled_readBetween : Settled file (readBetween file position left c p) := by
  unfold readBetween
  split
  · exact Or.inr ⟨_, rfl⟩
  · split
    · exact Or.inl ⟨_, rfl⟩
    · split
      · exact Or.inl ⟨_, rfl⟩
      · exact Or.inr ⟨_, rfl⟩

theorem settled_readByte : Settled file (readByte file position left c mode p) := by
  cases mode with
  | between => exact settled_readBetween
  | opened =>
      rw [readByte]
      split
      · exact Or.inl ⟨_, rfl⟩
      · exact Or.inr ⟨_, rfl⟩
  | digits start run =>
      unfold readByte
      simp only []
      split
      · exact Or.inl ⟨_, rfl⟩
      · cases p with
        | closed root => exact settled_readBetween
        | opening fs =>
            apply settled_openFrame.bind
            intro fs'
            exact settled_readBetween

theorem settled_readFrom : Settled file (readFrom file position mode p bs) := by
  induction bs generalizing position mode p with
  | nil =>
      unfold readFrom
      split
      · exact Or.inl ⟨_, rfl⟩
      · exact Or.inl ⟨_, rfl⟩
      · apply settled_openFrame.bind
        intro fs
        exact Or.inr ⟨_, rfl⟩
      · exact Or.inr ⟨_, rfl⟩
      · exact Or.inr ⟨_, rfl⟩
  | cons b bs ih =>
      rw [readFrom]
      apply settled_readByte.bind
      rintro ⟨mode', p'⟩
      exact ih

theorem settled_parse {text : String} : Settled file (parse file text) := by
  apply settled_readFrom.bind
  intro root
  exact Or.inl ⟨_, rfl⟩

/-- Whatever is read from the first line is there. -/
theorem parse_eq_ok_iff {text : String} {t : PseudoTree} : parse file text = .ok t ↔
    ∃ root, readFrom file 0 .between (.opening []) (firstLine text).toUTF8.toList = .ok root ∧
      t = ofRoot root [] 0 := by
  rw [parse, Outcome.bind_eq_ok_iff]
  constructor
  · rintro ⟨root, hroot, ht⟩
    cases ht
    exact ⟨root, hroot, rfl⟩
  · rintro ⟨root, hroot, rfl⟩
    exact ⟨root, hroot, rfl⟩

/-- The tree that a line spells is read from it. -/
theorem Spells.readFrom {line : String} (h : Spells root line.toList) :
    PseudoTree.readFrom file 0 .between (.opening []) line.toUTF8.toList = .ok root := by
  have hbytes := toList_toUTF8_ascii fun c hc => (h.isPlain c hc).lt
  rw [hbytes, ← List.append_nil (line.toList.map byteOf), h.readFrom_append]
  rfl

/-- Whatever is read from a line is spelled by it. -/
theorem spells_of_readFrom {line : String} (hline : line ≠ "")
    (h : readFrom file 0 .between (.opening []) line.toUTF8.toList = .ok root) :
    Spells root line.toList := by
  have hread := (Read.between .nil).spells h
  rw [List.nil_append] at hread
  rcases hread with hspells | hnil
  · have hchars := map_byteChar_toUTF8 fun c hc => (hspells.isPlain c hc).lt
    rwa [hchars] at hspells
  · have hchars := map_byteChar_toUTF8 (s := line) fun c hc => absurd (hnil ▸ hc) List.not_mem_nil
    rw [hnil] at hchars
    exact absurd (String.toList_eq_nil_iff.1 hchars.symm) hline

/-- No text spells two trees. -/
theorem Spells.unique {m : Node} (h : Spells n s) (h' : Spells m s) : n = m := by
  rw [← String.toList_ofList (l := s)] at h h'
  have hread : PseudoTree.readFrom "" 0 .between (.opening []) _ = .ok n := h.readFrom
  rw [h'.readFrom] at hread
  exact (Except.ok.inj hread).symm

/-- A blank first line is read as the empty tree. -/
theorem parse_blank {text : String} (h : firstLine text = "") :
    parse file text = .ok (ofRoot (.mk joiner []) [] 0) := by
  have hbytes : "".toUTF8.toList = [] := by
    rw [toList_toUTF8]
    rfl
  rw [parse_eq_ok_iff, h, hbytes]
  exact ⟨.mk joiner [], rfl, rfl⟩

theorem firstLine_of_isWord {s : String} (h : Text.IsWord s) : firstLine s = s := by
  have hlines : Text.lines s = [s] := by
    rw [Text.lines, ← List.append_nil s.toList, Text.linesFrom_append h.isLine.no_feed,
      List.append_nil, Text.linesFrom]
    simp [h.ne_nil]
  rw [firstLine, hlines]
  exact h.trim

/-- **The reader accepts exactly the texts of trees.** From a text whose first line is not blank,
the tree is read that the line spells, and there is an error if it spells none; the text of every
tree is read back; and reading ends on every text. -/
theorem parse_grammar (file : String) :
    (∀ text : String, firstLine text ≠ "" → ∀ t : PseudoTree, parse file text = .ok t ↔
      ∃ root, Spells root (firstLine text).toList ∧ t = ofRoot root [] 0) ∧
    (∀ t : PseudoTree, (∀ v ∈ t.root.preorder, v < halfWordSize) →
      parse file t.toText = .ok (ofRoot t.root [] 0)) ∧
    ∀ text : String, Settled file (parse file text) := by
  refine ⟨?_, ?_, ?_⟩
  · intro text hline t
    rw [parse_eq_ok_iff]
    constructor
    · rintro ⟨root, hroot, ht⟩
      exact ⟨root, spells_of_readFrom hline hroot, ht⟩
    · rintro ⟨root, hroot, ht⟩
      exact ⟨root, hroot.readFrom, ht⟩
  · intro t ht
    have hspells : Spells t.root t.toText.toList := Node.spells_toText ht
    have hword : Text.IsWord t.toText := by
      have := hspells.isWord
      rwa [String.ofList_toList] at this
    rw [parse_eq_ok_iff]
    refine ⟨t.root, ?_, rfl⟩
    rw [firstLine_of_isWord hword]
    exact hspells.readFrom
  · exact fun text => settled_parse

/-- Two trees below a root, the second with a zero in front of its number. -/
theorem parse_grammar_twoLeaves :
    firstLine "\t(7(0)(01)) \r\nmore" ≠ "" ∧
    parse "coins.pt" "\t(7(0)(01)) \r\nmore" =
      .ok (ofRoot (.mk 7 [.mk 0 [], .mk 1 []]) [] 0) ∧
    parse "coins.pt" (ofRoot (.mk 7 [.mk 0 [], .mk 1 []]) [] 0).toText =
      .ok (ofRoot (.mk 7 [.mk 0 [], .mk 1 []]) [] 0) := by
  obtain ⟨haccepts, hreads, -⟩ := parse_grammar "coins.pt"
  have hline : firstLine "\t(7(0)(01)) \r\nmore" = "(7(0)(01))" := by decide +kernel
  have hne : firstLine "\t(7(0)(01)) \r\nmore" ≠ "" := by
    rw [hline]
    decide
  refine ⟨hne, ?_, hreads _ (by decide)⟩
  apply (haccepts _ hne _).2
  refine ⟨_, ?_, rfl⟩
  have hzero : Numeral 0 ['0'] :=
    ⟨List.cons_ne_nil _ _, List.all_eq_true.1 rfl, rfl, by decide⟩
  have hone : Numeral 1 ['0', '1'] :=
    ⟨List.cons_ne_nil _ _, List.all_eq_true.1 rfl, rfl, by decide⟩
  have hseven : Numeral 7 ['7'] :=
    ⟨List.cons_ne_nil _ _, List.all_eq_true.1 rfl, rfl, by decide⟩
  rw [hline]
  exact .mk hseven (.cons (.mk hzero .nil) (.cons (.mk hone .nil) .nil))

end BayesCircuit.PseudoTree
