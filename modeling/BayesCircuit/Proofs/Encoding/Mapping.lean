import BayesCircuit.Encoding.Files
import BayesCircuit.Proofs.Encoding.Factors
import BayesCircuit.Proofs.Text

/-!
# Mapping files

A mapping file has a line for each variable, literal and weight. It can be written if every literal
stands for a value of its variable (`exists_toMapText_iff`), and it is read as it was written if its
names are lines and its probabilities are read as they were printed (`parseMap_toMapText`). The
mapping files of networks are of this kind (`parseMap_ofNetwork`). Names of values may have line
feeds, though, and then their lines are not read as they were written.
-/

namespace BayesCircuit.Encoding

open Text (IsLine IsWord)

/-- The first entries of an array are those of another one of the same size. -/
structure Agrees {α : Type} (n : Nat) (a b : Array α) : Prop where
  size : b.size = a.size
  entry : ∀ i < n, b[i]? = a[i]?

/-- A probability that is printed on one line and read back. -/
structure Prints (p : Probability) : Prop where
  line : IsLine p.plain
  read : Decimal.read? (Text.trim p.plain) = some p

/-- The parts of an encoding go together and can be announced. -/
structure Tabled (e : Encoding) : Prop where
  dims : e.dims.size = e.variableCount
  names : e.names.size = e.variableCount
  literalNames : e.literalNames.size = e.literalVariables.size
  variable_zero : e.literalVariables[0]? = some 0
  name_zero : e.literalNames[0]? = some ""
  dim_lt : ∀ v, e.dims.getD v 0 < halfWordSize
  first_lt : ∀ v, e.firstLiterals.getD v 0 < halfWordSize
  variables_fit : 24 * e.variableCount < addressSpace
  literals_fit : 4 * (e.literalCount + 1) < addressSpace
  weights_fit : 8 * e.weightCount < addressSpace

/-- A literal stands for a value of its variable. -/
def InRange (e : Encoding) (l : Nat) : Prop :=
  ∃ v first : Nat, e.literalVariables[l]? = some v ∧ e.firstLiterals[v]? = some first ∧
    first ≤ l ∧ l < first + e.dims.getD v 0

/-- Every line of the mapping file is one line. -/
structure Lined (e : Encoding) : Prop where
  names : ∀ s ∈ e.names, IsLine s
  literalNames : ∀ s ∈ e.literalNames, IsLine s
  weights : ∀ p ∈ e.weightValues, Prints p

/-- The first lines of a mapping file have been read: those of `v` variables, `l` literals and `w`
weights. -/
structure Filled (e : Encoding) (v l w : Nat) (d : Encoding) : Prop where
  dims : Agrees v e.dims d.dims
  firstLiterals : Agrees v e.firstLiterals d.firstLiterals
  names : Agrees v e.names d.names
  literalVariables : Agrees (l + 1) e.literalVariables d.literalVariables
  literalNames : Agrees (l + 1) e.literalNames d.literalNames
  weightValues : Agrees w e.weightValues d.weightValues
  factors : d.factors = #[]

variable {α : Type} {a b : Array α} {x y : α} {e d : Encoding} {s field rest file text : String}
variable {ts : List String} {lines : List (String × Nat)} {i k l n v w line count : Nat}
variable {p : Probability} {P : Nat → Encoding → Prop}

/-! ## Filling arrays -/

namespace Agrees

theorem set (h : Agrees n a b) (hx : a[n]? = some x) : Agrees (n + 1) a (b.setIfInBounds n x) where
  size := by rw [Array.size_setIfInBounds, h.size]
  entry i hi := by
    have hn : n < b.size := h.size ▸ (Array.getElem?_eq_some_iff.1 hx).1
    rcases Nat.lt_succ_iff_lt_or_eq.1 hi with hlt | rfl
    · rw [Array.getElem?_setIfInBounds_ne (Nat.ne_of_gt hlt)]
      exact h.entry i hlt
    · rw [Array.getElem?_setIfInBounds_self_of_lt hn, hx]

theorem eq (h : Agrees n a b) (hn : a.size ≤ n) : b = a := by
  refine Array.ext_getElem? fun i => ?_
  rcases Nat.lt_or_ge i n with hi | hi
  · exact h.entry i hi
  · rw [Array.getElem?_eq_none (hn.trans hi), Array.getElem?_eq_none (h.size ▸ hn.trans hi)]

theorem getD (h : Agrees n a b) (hi : i < n) : b.getD i x = a.getD i x := by
  rw [Array.getD_eq_getD_getElem?, Array.getD_eq_getD_getElem?, h.entry i hi]

end Agrees

/-! ## Numbers and fields -/

theorem number_toString (h : n < wordSize) : number file line (toString n) = .ok n := by
  have hread : Text.u64? (toString n) = some n := Text.unsigned?_toString h
  rw [number, Text.isWord_toString.trim, hread]

theorem comma_not_mem : ',' ∉ (toString n).toList := by
  intro h
  exact absurd (Text.isDigit_of_mem_toString h) (by decide)

/-- A number and a comma are the first field. -/
theorem splitOnce?_number (hs : s = toString n ++ "," ++ rest) :
    Text.splitOnce? ',' s = some (toString n, rest) := by
  refine Text.splitOnce?_eq_some ?_ comma_not_mem
  rw [hs, String.toList_append, String.toList_append, List.append_assoc]
  rfl

theorem fields_number (hs : s = toString n ++ "," ++ rest) :
    fields (count + 2) s = toString n :: fields (count + 1) rest := by
  rw [fields, splitOnce?_number hs]

/-! ## Lines -/

theorem toList_unlines : (unlines ts).toList = ts.flatMap fun l => l.toList ++ ['\n'] := by
  have hfrom : ∀ s : String, (ts.foldl (fun s l => s ++ l ++ "\n") s).toList =
      s.toList ++ ts.flatMap fun l => l.toList ++ ['\n'] := by
    induction ts with
    | nil => exact fun s => (List.append_nil _).symm
    | cons l ts ih =>
        intro s
        rw [List.foldl_cons, ih, String.toList_append, String.toList_append, List.flatMap_cons,
          List.append_assoc, List.append_assoc, List.append_assoc]
        rfl
  exact hfrom ""

/-- Lines that take an encoding from one stage to the next are read. -/
theorem readLines_ok (file missing : String) (lines : List (String × Nat))
    {step : Nat → String → Encoding → Outcome Encoding}
    (h : ∀ i text, ts[i]? = some text → ∀ line d, P i d →
      ∃ d', step line text d = .ok d' ∧ P (i + 1) d') (hd : P 0 d) :
    ∃ d', readLines file missing step ts.length (ts.zipIdx k ++ lines) d = .ok (d', lines) ∧
      P ts.length d' := by
  induction ts generalizing P k d with
  | nil => exact ⟨d, rfl, hd⟩
  | cons t ts ih =>
      obtain ⟨d₁, hstep, hd₁⟩ := h 0 t rfl k d hd
      obtain ⟨d', hread, hd'⟩ := ih (P := fun i => P (i + 1)) (k := k + 1)
        (fun i text htext => h (i + 1) text htext) hd₁
      refine ⟨d', ?_, hd'⟩
      rw [List.length_cons, List.zipIdx_cons, List.cons_append, readLines, hstep]
      exact hread

/-! ## What is written is read -/

theorem half_lt_word (h : n < halfWordSize) : n < wordSize :=
  h.trans (by decide)

theorem Tabled.variables_lt (T : e.Tabled) (hv : v ≤ e.variableCount) : v < wordSize := by
  have hfit := T.variables_fit
  have hspace : addressSpace < wordSize := by decide
  omega

theorem Tabled.literals_lt (T : e.Tabled) (hl : l ≤ e.literalCount) : l < wordSize := by
  have hfit := T.literals_fit
  have hspace : addressSpace < wordSize := by decide
  omega

theorem Tabled.weights_lt (T : e.Tabled) (hw : w ≤ e.weightCount) : w < wordSize := by
  have hfit := T.weights_fit
  have hspace : addressSpace < wordSize := by decide
  omega

theorem Tabled.literalVariables_size (T : e.Tabled) :
    e.literalVariables.size = e.literalCount + 1 := by
  have hpos := (Array.getElem?_eq_some_iff.1 T.variable_zero).1
  rw [literalCount]
  omega

/-- The line of a variable. -/
theorem readVariable_filled (T : e.Tabled) (F : e.Filled v 0 0 d) (hv : v < e.variableCount)
    (hs : s = s!"{v},{e.dims.getD v 0},{e.firstLiterals.getD v 0}," ++ e.names.getD v "") :
    ∃ d', readVariable file e.variableCount line s d = .ok d' ∧ e.Filled (v + 1) 0 0 d' := by
  have hfields : fields 4 s = [toString v, toString (e.dims.getD v 0),
      toString (e.firstLiterals.getD v 0), e.names.getD v ""] := by
    have hs : s = toString v ++ "," ++ (toString (e.dims.getD v 0) ++ "," ++
        (toString (e.firstLiterals.getD v 0) ++ "," ++ e.names.getD v "")) := by
      rw [hs]
      simp only [String.append_assoc]
      rfl
    rw [fields_number hs, fields_number rfl, fields_number rfl]
    rfl
  have hdim := T.dim_lt v
  have hfirst := T.first_lt v
  have hentry : ∀ {α : Type} {xs : Array α} {x : α}, xs.size = e.variableCount →
      xs[v]? = some (xs.getD v x) := by
    intro α xs x hsize
    rw [Array.getD_eq_getD_getElem?, Array.getElem?_eq_getElem (hsize.symm ▸ hv), Option.getD_some]
  refine ⟨{ d with
    dims := d.dims.setIfInBounds v (e.dims.getD v 0)
    firstLiterals := d.firstLiterals.setIfInBounds v (e.firstLiterals.getD v 0)
    names := d.names.setIfInBounds v (e.names.getD v "") }, ?_, ?_⟩
  · rw [readVariable, hfields]
    simp only [number_toString (T.variables_lt hv.le), number_toString (half_lt_word hdim),
      number_toString (half_lt_word hfirst), bind, Except.bind, Nat.not_le.2 hv, if_false,
      Nat.mod_eq_of_lt hdim, Nat.mod_eq_of_lt hfirst]
    rfl
  · exact { F with
      dims := F.dims.set (hentry T.dims)
      firstLiterals := F.firstLiterals.set (hentry rfl)
      names := F.names.set (hentry T.names) }

def literalText (e : Encoding) (l : Nat) : String :=
  s!"{l},{e.literalVariables.getD l 0}," ++ e.literalNames.getD l ""

/-- The line of a literal can be written if its variable has the value that it stands for. -/
theorem literalLine_eq_ok : e.literalLine l = .ok s ↔ e.InRange l ∧ s = e.literalText l := by
  have hentry : ∀ {v : Nat}, e.literalVariables[l]? = some v → e.literalVariables.getD l 0 = v := by
    intro v hv
    rw [Array.getD_eq_getD_getElem?, hv, Option.getD_some]
  rw [literalLine, literalText]
  constructor
  · intro h
    obtain ⟨v, hv, h⟩ := Outcome.bind_eq_ok_iff.1 h
    obtain ⟨first, hfirst, h⟩ := Outcome.bind_eq_ok_iff.1 h
    obtain ⟨value, hvalue, h⟩ := Outcome.bind_eq_ok_iff.1 h
    obtain ⟨_, hrange, hs⟩ := Outcome.bind_eq_ok_iff.1 h
    have hv := fetch_eq_ok.1 hv
    rw [minus] at hvalue
    split at hvalue
    · rename_i hle
      rw [ensure] at hrange
      split at hrange
      · rename_i hlt
        obtain rfl := Except.ok.inj hvalue
        rw [decide_eq_true_eq] at hlt
        rw [hentry hv]
        exact ⟨⟨v, first, hv, fetch_eq_ok.1 hfirst, hle, by omega⟩, (Except.ok.inj hs).symm⟩
      · cases hrange
    · cases hvalue
  · rintro ⟨⟨v, first, hv, hfirst, hle, hlt⟩, rfl⟩
    have hvalue : minus l first = .ok (l - first) := if_pos hle
    have hrange : ensure .outOfRange (l - first < e.dims.getD v 0) = .ok () := by
      rw [ensure, if_pos]
      exact decide_eq_true (by omega)
    rw [fetch_eq_ok.2 hv, hentry hv]
    simp only [firstLiteral, fetch_eq_ok.2 hfirst, hvalue, hrange, bind, Except.bind]
    rfl

/-- The line of a literal. -/
theorem readLiteral_filled (T : e.Tabled) (F : e.Filled e.variableCount l 0 d)
    (hl : l < e.literalCount) (hs : e.literalLine (l + 1) = .ok s) :
    ∃ d', readLiteral file e.variableCount e.literalCount line s d = .ok d' ∧
      e.Filled e.variableCount (l + 1) 0 d' := by
  obtain ⟨⟨v, first, hvariable, hfirst, hle, hlt⟩, rfl⟩ := literalLine_eq_ok.1 hs
  have hv : v < e.variableCount := (Array.getElem?_eq_some_iff.1 hfirst).1
  have hfields : fields 3 (e.literalText (l + 1)) =
      [toString (l + 1), toString v, e.literalNames.getD (l + 1) ""] := by
    have hs : e.literalText (l + 1) = toString (l + 1) ++ "," ++
        (toString v ++ "," ++ e.literalNames.getD (l + 1) "") := by
      have hv : e.literalVariables.getD (l + 1) 0 = v := by
        rw [Array.getD_eq_getD_getElem?, hvariable, Option.getD_some]
      rw [literalText, hv]
      simp only [String.append_assoc]
      rfl
    rw [fields_number hs, fields_number rfl]
    rfl
  have hd : d.firstLiterals.getD v 0 = first ∧ d.dims.getD v 0 = e.dims.getD v 0 := by
    rw [F.firstLiterals.getD hv, F.dims.getD hv, Array.getD_eq_getD_getElem?, hfirst]
    exact ⟨rfl, rfl⟩
  have hname : e.literalNames[l + 1]? = some (e.literalNames.getD (l + 1) "") := by
    have hsize : l + 1 < e.literalNames.size := by
      rw [T.literalNames, T.literalVariables_size]
      omega
    rw [Array.getD_eq_getD_getElem?, Array.getElem?_eq_getElem hsize, Option.getD_some]
  refine ⟨{ d with
    literalVariables := d.literalVariables.setIfInBounds (l + 1) v
    literalNames := d.literalNames.setIfInBounds (l + 1) (e.literalNames.getD (l + 1) "") }, ?_, ?_⟩
  · have hrange : ¬ (l + 1 == 0 || decide (e.literalCount < l + 1) ||
        decide (e.variableCount ≤ v)) = true := by
      simp only [Bool.or_eq_true, beq_iff_eq, decide_eq_true_eq]
      omega
    have hinside : ¬ (decide (l + 1 < first) ||
        decide (first + e.dims.getD v 0 ≤ l + 1)) = true := by
      simp only [Bool.or_eq_true, decide_eq_true_eq]
      omega
    rw [readLiteral, hfields]
    simp only [number_toString (T.literals_lt hl), number_toString (T.variables_lt hv.le), bind,
      Except.bind, hd.1, hd.2, if_neg hrange, if_neg hinside]
    rfl
  · exact { F with
      literalVariables := F.literalVariables.set hvariable
      literalNames := F.literalNames.set hname }

/-- The line of a weight. -/
theorem readWeight_filled (T : e.Tabled) (L : e.Lined)
    (F : e.Filled e.variableCount e.literalCount w d) (hp : e.weightValues[w]? = some p)
    (hs : s = s!"{e.literalCount + 1 + w}," ++ p.plain) :
    ∃ d', readWeight file e.literalCount e.weightCount line s d = .ok d' ∧
      e.Filled e.variableCount e.literalCount (w + 1) d' := by
  have hw : w < e.weightCount := (Array.getElem?_eq_some_iff.1 hp).1
  have hsplit : Text.splitOnce? ',' s = some (toString (e.literalCount + 1 + w), p.plain) := by
    refine splitOnce?_number ?_
    rw [hs]
    rfl
  have hlt : e.literalCount + 1 + w < wordSize := by
    have hliterals := T.literals_fit
    have hweights := T.weights_fit
    have hspace : addressSpace + addressSpace ≤ wordSize := by decide
    omega
  have hprints := L.weights p (Array.mem_of_getElem? hp)
  have hindex : e.literalCount + 1 + w - (e.literalCount + 1) = w := Nat.add_sub_cancel_left _ _
  refine ⟨{ d with weightValues := d.weightValues.setIfInBounds w p }, ?_, ?_⟩
  · have hrange : ¬ (decide (e.literalCount + 1 + w ≤ e.literalCount) ||
        decide (e.weightCount ≤ w)) = true := by
      simp only [Bool.or_eq_true, decide_eq_true_eq]
      omega
    rw [readWeight, hsplit]
    simp only [number_toString hlt, bind, Except.bind, hprints.read, hindex, if_neg hrange]
    rfl
  · exact { F with weightValues := F.weightValues.set hp }

theorem Tabled.filled_unknown (T : e.Tabled)
    (hcount : e.variableCount + e.literalCount + e.weightCount ≤ count) :
    e.Filled 0 0 0 (unknown count e.variableCount e.literalCount e.weightCount) := by
  have hvariables : min e.variableCount count = e.variableCount := Nat.min_eq_left (by omega)
  have hliterals : min e.literalCount count = e.literalCount := Nat.min_eq_left (by omega)
  have hweights : min e.weightCount count = e.weightCount := Nat.min_eq_left (by omega)
  have hstart : ∀ {α : Type} {xs ys : Array α}, ys.size = xs.size → Agrees 0 xs ys :=
    fun hsize => ⟨hsize, fun _ hi => absurd hi (Nat.not_lt_zero _)⟩
  have hzero : ∀ {α : Type} {xs : Array α} {x : α}, xs.size = e.literalCount + 1 →
      xs[0]? = some x → Agrees (0 + 1) xs (Array.replicate (e.literalCount + 1) x) := by
    intro α xs x hsize hx
    refine ⟨by rw [Array.size_replicate, hsize], fun i hi => ?_⟩
    obtain rfl := Nat.lt_one_iff.1 hi
    rw [hx, Array.getElem?_replicate, if_pos (Nat.succ_pos _)]
  simp only [unknown, hvariables, hliterals, hweights]
  exact {
    dims := hstart (by rw [Array.size_replicate, T.dims])
    firstLiterals := hstart (by rw [Array.size_replicate, variableCount])
    names := hstart (by rw [Array.size_replicate, T.names])
    literalVariables := hzero T.literalVariables_size T.variable_zero
    literalNames := hzero (T.literalNames.trans T.literalVariables_size) T.name_zero
    weightValues := hstart (by rw [Array.size_replicate, weightCount])
    factors := rfl }

theorem Filled.eq (F : e.Filled e.variableCount e.literalCount e.weightCount d) (T : e.Tabled) :
    d = { e with factors := #[] } := by
  have hdims := F.dims.eq T.dims.le
  have hfirst := F.firstLiterals.eq le_rfl
  have hnames := F.names.eq T.names.le
  have hvariables := F.literalVariables.eq T.literalVariables_size.le
  have hliterals := F.literalNames.eq (T.literalNames.trans T.literalVariables_size).le
  have hweights := F.weightValues.eq le_rfl
  have hfactors := F.factors
  cases d
  simp_all

/-! ## Whole files -/

def headerLine (e : Encoding) : String :=
  s!"map {e.variableCount} {e.literalCount} {e.weightCount}"

def variableLines (e : Encoding) : List String :=
  (List.range e.variableCount).map fun v =>
    s!"{v},{e.dims.getD v 0},{e.firstLiterals.getD v 0}," ++ e.names.getD v ""

def weightLines (e : Encoding) : List String :=
  e.weightValues.toList.zipIdx.map fun p => s!"{e.literalCount + 1 + p.2}," ++ p.1.plain

theorem toMapText_eq_ok (h : e.toMapText = .ok text) : ∃ ls : List String,
    List.Forall₂ (fun l s => e.literalLine (l + 1) = .ok s) (List.range e.literalCount) ls ∧
      text = unlines (e.headerLine :: (e.variableLines ++ (ls ++ e.weightLines))) := by
  rw [toMapText] at h
  obtain ⟨ls, hls, h⟩ := Outcome.bind_eq_ok_iff.1 h
  refine ⟨ls, List.forall₂_map_left_iff.1 (Outcome.mapM_eq_ok_iff.1 hls), ?_⟩
  rw [← Except.ok.inj h, List.append_assoc]
  rfl

theorem words_headerLine : Text.words e.headerLine =
    ["map", toString e.variableCount, toString e.literalCount, toString e.weightCount] := by
  have hjoin : e.headerLine = Text.join " "
      ["map", toString e.variableCount, toString e.literalCount, toString e.weightCount] := by
    simp only [headerLine, Text.join, ← String.append_assoc]
    rfl
  rw [hjoin]
  refine Text.words_join fun w hw => ?_
  simp only [List.mem_cons, List.not_mem_nil, or_false] at hw
  rcases hw with rfl | rfl | rfl | rfl
  · have hblank : "map".toList.all (!Text.isBlank ·) = true := rfl
    exact ⟨by decide, fun c hc => by simpa using List.all_eq_true.1 hblank c hc⟩
  · exact Text.isWord_toString
  · exact Text.isWord_toString
  · exact Text.isWord_toString

theorem isLine_comma : IsLine "," := ⟨by decide, by decide⟩

theorem isLine_headerLine : IsLine e.headerLine := by
  have hblank : IsLine " " := ⟨by decide, by decide⟩
  have hmap : IsLine "map " := ⟨by decide, by decide⟩
  exact ((((hmap.append Text.isLine_toString).append hblank).append Text.isLine_toString).append
    hblank).append Text.isLine_toString

theorem isLine_getD {xs : Array String} (h : ∀ s ∈ xs, IsLine s) : IsLine (xs.getD i "") := by
  rw [Array.getD_eq_getD_getElem?]
  cases hname : xs[i]? with
  | none => exact ⟨by decide, by decide⟩
  | some s => exact h s (Array.mem_of_getElem? hname)

theorem Lined.variableLines (L : e.Lined) : ∀ s ∈ e.variableLines, IsLine s := by
  intro s hs
  obtain ⟨v, -, rfl⟩ := List.mem_map.1 hs
  have hnumber : IsLine (toString v ++ ",") := Text.isLine_toString.append isLine_comma
  exact ((((hnumber.append Text.isLine_toString).append isLine_comma).append
    Text.isLine_toString).append isLine_comma).append (isLine_getD L.names)

theorem Lined.weightLines (L : e.Lined) : ∀ s ∈ e.weightLines, IsLine s := by
  intro s hs
  obtain ⟨⟨p, i⟩, hp, rfl⟩ := List.mem_map.1 hs
  have hp : p ∈ e.weightValues := Array.mem_toList_iff.1 (List.fst_mem_of_mem_zipIdx hp)
  exact (Text.isLine_toString.append isLine_comma).append (L.weights p hp).line

theorem Lined.literalLine (L : e.Lined) (hs : e.literalLine l = .ok s) : IsLine s := by
  obtain ⟨-, rfl⟩ := literalLine_eq_ok.1 hs
  exact (((Text.isLine_toString.append isLine_comma).append Text.isLine_toString).append
    isLine_comma).append (isLine_getD L.literalNames)

theorem length_variableLines : e.variableLines.length = e.variableCount := by
  rw [variableLines, List.length_map, List.length_range]

theorem length_weightLines : e.weightLines.length = e.weightCount := by
  rw [weightLines, List.length_map, List.length_zipIdx, Array.length_toList]
  rfl

theorem Tabled.readVariables (T : e.Tabled) (F : e.Filled 0 0 0 d) (file : String)
    (lines : List (String × Nat)) : ∃ d',
    readLines file "missing variable line" (readVariable file e.variableCount) e.variableCount
      (e.variableLines.zipIdx k ++ lines) d = .ok (d', lines) ∧
    e.Filled e.variableCount 0 0 d' := by
  have hstep : ∀ v s, e.variableLines[v]? = some s → ∀ line d, e.Filled v 0 0 d →
      ∃ d', readVariable file e.variableCount line s d = .ok d' ∧ e.Filled (v + 1) 0 0 d' := by
    intro v s hs line d F
    rw [variableLines, List.getElem?_map] at hs
    obtain ⟨u, hu, rfl⟩ := Option.map_eq_some_iff.1 hs
    obtain ⟨hv, rfl⟩ := List.getElem?_eq_some_iff.1 hu
    rw [List.length_range] at hv
    rw [List.getElem_range]
    exact readVariable_filled T F hv rfl
  have hread := readLines_ok (P := fun v => e.Filled v 0 0) file "missing variable line" lines
    hstep F (k := k)
  rwa [length_variableLines] at hread

theorem Tabled.readLiterals (T : e.Tabled) {ls : List String}
    (hls : List.Forall₂ (fun l s => e.literalLine (l + 1) = .ok s) (List.range e.literalCount) ls)
    (F : e.Filled e.variableCount 0 0 d) (file : String) (lines : List (String × Nat)) : ∃ d',
    readLines file "missing literal line" (readLiteral file e.variableCount e.literalCount)
      e.literalCount (ls.zipIdx k ++ lines) d = .ok (d', lines) ∧
    e.Filled e.variableCount e.literalCount 0 d' := by
  have hlength : ls.length = e.literalCount := by
    rw [← hls.length_eq, List.length_range]
  have hstep : ∀ l s, ls[l]? = some s → ∀ line d, e.Filled e.variableCount l 0 d →
      ∃ d', readLiteral file e.variableCount e.literalCount line s d = .ok d' ∧
        e.Filled e.variableCount (l + 1) 0 d' := by
    intro l s hs line d F
    obtain ⟨hl, rfl⟩ := List.getElem?_eq_some_iff.1 hs
    have hline := hls.get (hls.length_eq ▸ hl) hl
    rw [List.get_eq_getElem, List.getElem_range] at hline
    exact readLiteral_filled T F (hlength ▸ hl) hline
  have hread := readLines_ok (P := fun l => e.Filled e.variableCount l 0) file
    "missing literal line" lines hstep F (k := k)
  rwa [hlength] at hread

theorem Tabled.readWeights (T : e.Tabled) (L : e.Lined)
    (F : e.Filled e.variableCount e.literalCount 0 d) (file : String) : ∃ d',
    readLines file "missing weight line" (readWeight file e.literalCount e.weightCount)
      e.weightCount (e.weightLines.zipIdx k) d = .ok (d', []) ∧
    e.Filled e.variableCount e.literalCount e.weightCount d' := by
  have hstep : ∀ w s, e.weightLines[w]? = some s →
      ∀ line d, e.Filled e.variableCount e.literalCount w d →
      ∃ d', readWeight file e.literalCount e.weightCount line s d = .ok d' ∧
        e.Filled e.variableCount e.literalCount (w + 1) d' := by
    intro w s hs line d F
    rw [weightLines, List.getElem?_map] at hs
    obtain ⟨q, hq, rfl⟩ := Option.map_eq_some_iff.1 hs
    rw [List.getElem?_zipIdx] at hq
    obtain ⟨p, hp, rfl⟩ := Option.map_eq_some_iff.1 hq
    rw [Array.getElem?_toList] at hp
    exact readWeight_filled T L F hp (by rw [Nat.zero_add])
  have hread := readLines_ok (P := fun w => e.Filled e.variableCount e.literalCount w) file
    "missing weight line" [] hstep F (k := k)
  rwa [List.append_nil, length_weightLines] at hread

/-- What is written is read back, except for the factors. -/
theorem parseMap_toMapText (T : e.Tabled) (L : e.Lined) (htext : e.toMapText = .ok text)
    (file : String) : parseMap file text = .ok { e with factors := #[] } := by
  obtain ⟨ls, hls, rfl⟩ := toMapText_eq_ok htext
  have hlines : Text.lines (unlines (e.headerLine :: (e.variableLines ++ (ls ++ e.weightLines)))) =
      e.headerLine :: (e.variableLines ++ (ls ++ e.weightLines)) := by
    refine Text.lines_of_feeds toList_unlines ?_
    simp only [List.forall_mem_cons, List.forall_mem_append]
    refine ⟨isLine_headerLine, L.variableLines, fun s hs => ?_, L.weightLines⟩
    obtain ⟨i, hi, rfl⟩ := List.getElem_of_mem hs
    exact L.literalLine (hls.get (hls.length_eq ▸ hi) hi)
  have hreserve : reserveParts e.variableCount e.literalCount e.weightCount = .ok () := by
    simp only [reserveParts, reserve, ensure, T.variables_fit, T.literals_fit, T.weights_fit,
      decide_true, if_true, bind, Except.bind]
  have hcount : e.variableCount + e.literalCount + e.weightCount ≤
      ((e.variableLines ++ (ls ++ e.weightLines)).zipIdx (1 + 1)).length := by
    rw [List.length_zipIdx, List.length_append, List.length_append, length_variableLines,
      length_weightLines, ← hls.length_eq, List.length_range, Nat.add_assoc]
  obtain ⟨d₁, hread₁, F₁⟩ := T.readVariables (T.filled_unknown hcount) file
    ((ls ++ e.weightLines).zipIdx (1 + 1 + e.variableLines.length)) (k := 1 + 1)
  obtain ⟨d₂, hread₂, F₂⟩ := T.readLiterals hls F₁ file
    (e.weightLines.zipIdx (1 + 1 + e.variableLines.length + ls.length))
    (k := 1 + 1 + e.variableLines.length)
  obtain ⟨d₃, hread₃, F₃⟩ := T.readWeights L F₂ file
    (k := 1 + 1 + e.variableLines.length + ls.length)
  rw [parseMap, hlines, List.zipIdx_cons]
  simp only [words_headerLine, number_toString (T.variables_lt le_rfl),
    number_toString (T.literals_lt le_rfl), number_toString (T.weights_lt le_rfl), bind,
    Except.bind, hreserve]
  have hsplit : (e.variableLines ++ (ls ++ e.weightLines)).zipIdx (1 + 1) = _ :=
    List.zipIdx_append
  rw [hsplit] at hread₁ ⊢
  simp only [hread₁]
  rw [List.zipIdx_append]
  simp only [hread₂, hread₃, F₃.eq T]
  rfl

/-- The mapping file can be written exactly if every literal stands for a value of its variable. -/
theorem exists_toMapText_iff :
    (∃ text, e.toMapText = .ok text) ↔ ∀ l, 0 < l → l ≤ e.literalCount → e.InRange l := by
  constructor
  · rintro ⟨text, h⟩ l hpos hle
    obtain ⟨ls, hls, -⟩ := toMapText_eq_ok h
    have hl : l - 1 < (List.range e.literalCount).length := by
      rw [List.length_range]
      omega
    have hline := hls.get hl (hls.length_eq ▸ hl)
    rw [List.get_eq_getElem, List.getElem_range, Nat.sub_add_cancel hpos] at hline
    exact (literalLine_eq_ok.1 hline).1
  · intro hrange
    have hline : ∀ l ∈ (List.range e.literalCount).map (· + 1),
        e.literalLine l = .ok (e.literalText l) := by
      intro l hl
      obtain ⟨i, hi, rfl⟩ := List.mem_map.1 hl
      exact literalLine_eq_ok.2 ⟨hrange (i + 1) (Nat.succ_pos i) (List.mem_range.1 hi), rfl⟩
    have hlines := Outcome.mapM_ok hline
    rw [toMapText, hlines]
    exact ⟨_, rfl⟩

/-! ## The mapping files of networks -/

variable {net : Network} {options : EncodingOptions}

/-- The counts of an encoding leave room for its mapping file. -/
structure Small (e : Encoding) : Prop where
  vars : e.variableCount < halfWordSize
  literals : e.literalCount + 1 < halfWordSize
  weights : 8 * e.weightCount < addressSpace

theorem dims_ofNetwork (he : ofNetwork options net = .ok e) : e.dims = net.dims := by
  unfold ofNetwork at he
  obtain ⟨_, _, he⟩ := Outcome.bind_eq_ok_iff.1 he
  cases he
  rfl

theorem literalCount_ofNetwork (he : ofNetwork options net = .ok e) :
    e.literalCount = net.dims.sum := by
  unfold ofNetwork at he
  obtain ⟨_, _, he⟩ := Outcome.bind_eq_ok_iff.1 he
  cases he
  exact size_literalVariables net.dims

/-- Every literal of a network stands for a value of its variable. -/
theorem inRange_ofNetwork (he : ofNetwork options net = .ok e) (hpos : 0 < l)
    (hl : l ≤ e.literalCount) : e.InRange l := by
  have hlt : l < e.literalVariables.size := by
    rw [literalCount] at hl
    omega
  have hentry := Array.getElem?_eq_getElem hlt
  obtain ⟨first, dim, hfirst, hdim, hle, hlt⟩ := (getElem?_literalVariables he hpos).1 hentry
  refine ⟨_, first, hentry, hfirst, hle, ?_⟩
  rwa [dims_ofNetwork he, Array.getD_eq_getD_getElem?, hdim, Option.getD_some]

theorem dim_le_literalCount (he : ofNetwork options net = .ok e) :
    e.dims.getD v 0 ≤ e.literalCount := by
  rw [dims_ofNetwork he, literalCount_ofNetwork he, Array.getD_eq_getD_getElem?]
  cases hdim : net.dims[v]? with
  | none => exact Nat.zero_le _
  | some dim =>
      rw [← Array.sum_toList]
      exact List.le_sum_of_mem (Array.mem_toList_iff.2 (Array.mem_of_getElem? hdim))

theorem first_le_literalCount (he : ofNetwork options net = .ok e) :
    e.firstLiterals.getD v 0 ≤ e.literalCount + 1 := by
  rw [Array.getD_eq_getD_getElem?]
  cases hfirst : e.firstLiterals[v]? with
  | none => exact Nat.zero_le _
  | some first =>
      rw [literalCount_ofNetwork he]
      unfold ofNetwork at he
      obtain ⟨_, _, he⟩ := Outcome.bind_eq_ok_iff.1 he
      cases he
      rw [List.getElem?_toArray] at hfirst
      rw [← Array.sum_toList, Nat.add_comm]
      exact first_le hfirst

theorem names_ofNetwork (he : ofNetwork options net = .ok e) :
    e.names.size = net.size ∧ e.literalNames.size = net.dims.sum + 1 ∧
      e.literalVariables[0]? = some 0 ∧ e.literalNames[0]? = some "" := by
  unfold ofNetwork at he
  obtain ⟨_, _, he⟩ := Outcome.bind_eq_ok_iff.1 he
  cases he
  refine ⟨Array.size_map, ?_, by simp, by simp⟩
  rw [Array.size_append, Array.size_flatMap, Nat.add_comm]
  rfl

theorem tabled_ofNetwork (he : ofNetwork options net = .ok e) (hsmall : e.Small) : e.Tabled := by
  have hspace : 24 * halfWordSize ≤ addressSpace := by decide
  have hvars := hsmall.vars
  have hliterals := hsmall.literals
  have hsize : e.variableCount = net.size := size_firstLiterals he
  have hcount := literalCount_ofNetwork he
  obtain ⟨hnames, hliteralNames, hzero, hempty⟩ := names_ofNetwork he
  have hpos := (Array.getElem?_eq_some_iff.1 hzero).1
  exact {
    dims := by rw [dims_ofNetwork he, hsize, Network.dims, Array.size_map]; rfl
    names := by rw [hnames, hsize]
    literalNames := by
      rw [hliteralNames, ← hcount, literalCount]
      omega
    variable_zero := hzero
    name_zero := hempty
    dim_lt := fun v => (dim_le_literalCount he).trans_lt ((Nat.lt_succ_self _).trans hliterals)
    first_lt := fun v => (first_le_literalCount he).trans_lt hliterals
    variables_fit := by omega
    literals_fit := by omega
    weights_fit := hsmall.weights }

/-- The mapping file of a network is read back and written again as it was, as long as its names are
lines and its probabilities are read as they are printed. -/
theorem parseMap_ofNetwork (he : ofNetwork options net = .ok e) (hsmall : e.Small)
    (hlines : e.Lined) (file : String) : ∃ text, e.toMapText = .ok text ∧
      parseMap file text = .ok { e with factors := #[] } ∧
      { e with factors := #[] }.toMapText = .ok text := by
  obtain ⟨text, htext⟩ := exists_toMapText_iff.2 fun l => inRange_ofNetwork he (l := l)
  exact ⟨text, htext, parseMap_toMapText (tabled_ofNetwork he hsmall) hlines htext file, htext⟩

end BayesCircuit.Encoding
