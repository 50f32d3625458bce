import BayesCircuit.Proofs.Encoding.Mapping

/-!
# Which mapping files are accepted

What the reader accepts has all the parts that the file announces, and names without line feeds
(`parseMap_tabled`). The lines of literals are only counted: if no literal is listed twice, every
literal stands for a value of its variable (`parseMap_inRange`), and if one is, another one may have
no line and no place in the range of a variable. An encoding that has been read and can be written
is read again as it was, as far as its names can end a line and its probabilities are read as they
are printed (`parseMap_again`).
-/

namespace BayesCircuit.Encoding

open Text (IsLine IsWord)

variable {e d d' : Encoding} {s field file text : String} {lines : List (String × Nat)}
variable {i n l line count vars literals weights : Nat}

/-! ## What is read -/

/-- A text without line feeds. -/
def Unfed (s : String) : Prop := '\n' ∉ s.toList

/-- An encoding that is being read has all its parts. -/
structure Sized (vars literals weights : Nat) (d : Encoding) : Prop where
  dims : d.dims.size = vars
  firstLiterals : d.firstLiterals.size = vars
  names : d.names.size = vars
  literalVariables : d.literalVariables.size = literals + 1
  literalNames : d.literalNames.size = literals + 1
  weightValues : d.weightValues.size = weights
  variable_zero : d.literalVariables[0]? = some 0
  name_zero : d.literalNames[0]? = some ""
  dim_lt : ∀ v, d.dims.getD v 0 < halfWordSize
  first_lt : ∀ v, d.firstLiterals.getD v 0 < halfWordSize
  unfed_names : ∀ s ∈ d.names, Unfed s
  unfed_literalNames : ∀ s ∈ d.literalNames, Unfed s
  factors : d.factors = #[]

theorem unfed_of_mem_fields (hs : Unfed s) (h : field ∈ fields count s) : Unfed field := by
  induction count generalizing s with
  | zero => cases h
  | succ count ih =>
      cases count with
      | zero => exact List.mem_singleton.1 h ▸ hs
      | succ count =>
          rw [fields] at h
          split at h
          · exact List.mem_singleton.1 h ▸ hs
          · rename_i first rest hsplit
            rw [Unfed, Text.toList_of_splitOnce? hsplit, List.mem_append, List.mem_cons] at hs
            rcases List.mem_cons.1 h with rfl | h
            · exact fun hmem => hs (Or.inl hmem)
            · exact ih (fun hmem => hs (Or.inr (Or.inr hmem))) h

theorem getD_set_lt {xs : Array Nat} {m : Nat} (h : ∀ v, xs.getD v 0 < n) (hm : m < n) :
    (xs.setIfInBounds i m).getD v 0 < n := by
  rw [Array.getD_eq_getD_getElem?, Array.getElem?_setIfInBounds]
  split
  · split
    · exact hm
    · exact (Nat.zero_le m).trans_lt hm
  · rw [← Array.getD_eq_getD_getElem?]
    exact h v

theorem unfed_set {xs : Array String} (h : ∀ s ∈ xs, Unfed s) (hs : Unfed s) :
    ∀ t ∈ xs.setIfInBounds i s, Unfed t := fun t ht => by
  rcases Array.mem_or_eq_of_mem_setIfInBounds ht with ht | rfl
  · exact h t ht
  · exact hs

theorem readVariable_sized (hs : Unfed s) (h : readVariable file vars line s d = .ok d')
    (S : d.Sized vars literals weights) : d'.Sized vars literals weights := by
  rw [readVariable] at h
  split at h
  · rename_i v dim first name hfields
    obtain ⟨v, -, h⟩ := Outcome.bind_eq_ok_iff.1 h
    dsimp only at h
    split at h
    · cases h
    · obtain ⟨dim, -, h⟩ := Outcome.bind_eq_ok_iff.1 h
      obtain ⟨first, -, h⟩ := Outcome.bind_eq_ok_iff.1 h
      obtain rfl := Except.ok.inj h
      have hname : Unfed name := unfed_of_mem_fields hs (by rw [hfields]; simp)
      have hhalf : 0 < halfWordSize := by decide
      exact { S with
        dims := by rw [Array.size_setIfInBounds, S.dims]
        firstLiterals := by rw [Array.size_setIfInBounds, S.firstLiterals]
        names := by rw [Array.size_setIfInBounds, S.names]
        dim_lt := fun _ => getD_set_lt S.dim_lt (Nat.mod_lt _ hhalf)
        first_lt := fun _ => getD_set_lt S.first_lt (Nat.mod_lt _ hhalf)
        unfed_names := unfed_set S.unfed_names hname }
  · cases h

/-- A line gives a literal inside the range of a variable. -/
theorem readLiteral_eq_ok (h : readLiteral file vars literals line s d = .ok d') :
    ∃ l v fl fv name, fields 3 s = [fl, fv, name] ∧ number file line fl = .ok l ∧ 0 < l ∧
      l ≤ literals ∧ v < vars ∧ d.firstLiterals.getD v 0 ≤ l ∧
      l < d.firstLiterals.getD v 0 + d.dims.getD v 0 ∧ d' = { d with
        literalVariables := d.literalVariables.setIfInBounds l v
        literalNames := d.literalNames.setIfInBounds l name } := by
  rw [readLiteral] at h
  split at h
  · rename_i fl fv name hfields
    obtain ⟨l, hl, h⟩ := Outcome.bind_eq_ok_iff.1 h
    obtain ⟨v, -, h⟩ := Outcome.bind_eq_ok_iff.1 h
    dsimp only at h
    split at h
    · cases h
    · rename_i hrange
      split at h
      · cases h
      · rename_i hinside
        simp only [Bool.or_eq_true, beq_iff_eq, decide_eq_true_eq] at hrange hinside
        exact ⟨l, v, fl, fv, name, hfields, hl, by omega, by omega, by omega, by omega, by omega,
          (Except.ok.inj h).symm⟩
  · cases h

theorem readLiteral_sized (hs : Unfed s) (h : readLiteral file vars literals line s d = .ok d')
    (S : d.Sized vars literals weights) : d'.Sized vars literals weights := by
  obtain ⟨l, v, fl, fv, name, hfields, -, hpos, -, -, -, -, rfl⟩ := readLiteral_eq_ok h
  have hname : Unfed name := unfed_of_mem_fields hs (by rw [hfields]; simp)
  have hzero : l ≠ 0 := Nat.ne_of_gt hpos
  exact { S with
    literalVariables := by rw [Array.size_setIfInBounds, S.literalVariables]
    literalNames := by rw [Array.size_setIfInBounds, S.literalNames]
    variable_zero := by rw [Array.getElem?_setIfInBounds_ne hzero, S.variable_zero]
    name_zero := by rw [Array.getElem?_setIfInBounds_ne hzero, S.name_zero]
    unfed_literalNames := unfed_set S.unfed_literalNames hname }

theorem readWeight_eq_ok (h : readWeight file literals weights line s d = .ok d') :
    ∃ w p, d' = { d with weightValues := d.weightValues.setIfInBounds w p } := by
  rw [readWeight] at h
  split at h
  · cases h
  · obtain ⟨w, -, h⟩ := Outcome.bind_eq_ok_iff.1 h
    dsimp only at h
    split at h
    · cases h
    · split at h
      · cases h
      · exact ⟨_, _, (Except.ok.inj h).symm⟩

theorem readWeight_sized (h : readWeight file literals weights line s d = .ok d')
    (S : d.Sized vars literals weights) : d'.Sized vars literals weights := by
  obtain ⟨w, p, rfl⟩ := readWeight_eq_ok h
  exact { S with weightValues := by rw [Array.size_setIfInBounds, S.weightValues] }

theorem sized_unknown (hvars : vars ≤ count) (hliterals : literals ≤ count)
    (hweights : weights ≤ count) :
    (unknown count vars literals weights).Sized vars literals weights := by
  have hhalf : 0 < halfWordSize := by decide
  have hzero : ∀ v, (Array.replicate vars 0).getD v 0 < halfWordSize := by
    intro v
    rw [Array.getD_eq_getD_getElem?, Array.getElem?_replicate]
    split
    · exact hhalf
    · exact hhalf
  have hunfed : ∀ {n : Nat}, ∀ s ∈ Array.replicate n "", Unfed s := by
    intro n s hs
    rw [(Array.mem_replicate.1 hs).2]
    exact List.not_mem_nil
  rw [unknown, Nat.min_eq_left hvars, Nat.min_eq_left hliterals, Nat.min_eq_left hweights]
  exact ⟨Array.size_replicate, Array.size_replicate, Array.size_replicate, Array.size_replicate,
    Array.size_replicate, Array.size_replicate, rfl, rfl, hzero, hzero, hunfed, hunfed, rfl⟩

/-- As many lines are read as were asked for. -/
theorem readLines_length {missing : String} {step : Nat → String → Encoding → Outcome Encoding}
    {left : List (String × Nat)}
    (h : readLines file missing step count lines d = .ok (d', left)) :
    count ≤ lines.length ∧ left = lines.drop count := by
  induction count generalizing lines d with
  | zero =>
      obtain ⟨-, rfl⟩ := Prod.mk.inj (Except.ok.inj h)
      exact ⟨Nat.zero_le _, rfl⟩
  | succ count ih =>
      cases lines with
      | nil => cases h
      | cons p lines =>
          rw [readLines] at h
          obtain ⟨d₁, -, h⟩ := Outcome.bind_eq_ok_iff.1 h
          obtain ⟨hcount, hleft⟩ := ih h
          exact ⟨Nat.succ_le_succ hcount, hleft⟩

/-- What every line keeps is kept by all of them. -/
theorem readLines_keeps {missing : String} {step : Nat → String → Encoding → Outcome Encoding}
    {left : List (String × Nat)} {Q : List String → Encoding → Prop}
    (hstep : ∀ s line, (s, line) ∈ lines → ∀ before d d', step line s d = .ok d' →
      Q before d → Q (before ++ [s]) d')
    (h : readLines file missing step count lines d = .ok (d', left)) (before : List String)
    (hd : Q before d) : Q (before ++ (lines.take count).map (·.1)) d' := by
  induction count generalizing lines d before with
  | zero =>
      obtain ⟨rfl, -⟩ := Prod.mk.inj (Except.ok.inj h)
      simpa using hd
  | succ count ih =>
      cases lines with
      | nil => cases h
      | cons p lines =>
          obtain ⟨s, line⟩ := p
          rw [readLines] at h
          obtain ⟨d₁, hfirst, h⟩ := Outcome.bind_eq_ok_iff.1 h
          have hd₁ := hstep s line (List.mem_cons_self ..) before d d₁ hfirst hd
          have hd' := ih (fun s line hmem => hstep s line (List.mem_cons_of_mem _ hmem)) h _ hd₁
          rwa [List.append_assoc] at hd'

/-- The number with which the line of a literal begins. -/
def literalNumber (s : String) : Option Nat :=
  (fields 3 s).head?.bind fun l => Text.u64? (Text.trim l)

/-- The literals that lines have given. -/
structure Gives (vars literals weights : Nat) (given : List String) (d : Encoding) : Prop where
  sized : d.Sized vars literals weights
  number : ∀ s ∈ given, ∃ l, literalNumber s = some l ∧ 0 < l ∧ l ≤ literals
  range : ∀ s ∈ given, ∀ l ∈ literalNumber s, d.InRange l

theorem number_eq_ok : number file line s = .ok n ↔ Text.u64? (Text.trim s) = some n := by
  rw [number]
  split
  · rename_i m hm
    rw [hm, Except.ok.injEq, Option.some.injEq]
  · rename_i hnone
    rw [hnone]
    exact ⟨fun h => (by cases h), fun h => (by cases h)⟩

/-- A further line gives its literal, and those that were given before keep a range. -/
theorem readLiteral_gives {given : List String} (hs : Unfed s)
    (h : readLiteral file vars literals line s d = .ok d')
    (G : d.Gives vars literals weights given) :
    d'.Gives vars literals weights (given ++ [s]) := by
  have hsized := readLiteral_sized hs h G.sized
  obtain ⟨l, v, fl, fv, name, hfields, hnumber, hpos, hle, hv, hfirst, hlt, rfl⟩ :=
    readLiteral_eq_ok h
  have hl : literalNumber s = some l := by
    rw [literalNumber, hfields]
    exact number_eq_ok.1 hnumber
  have hsize : l < d.literalVariables.size := by
    rw [G.sized.literalVariables]
    omega
  have hentry : d.firstLiterals[v]? = some (d.firstLiterals.getD v 0) := by
    rw [Array.getD_eq_getD_getElem?,
      Array.getElem?_eq_getElem (G.sized.firstLiterals.symm ▸ hv), Option.getD_some]
  refine ⟨hsized, fun t ht => ?_, fun t ht k hk => ?_⟩
  · rcases List.mem_append.1 ht with ht | ht
    · exact G.number t ht
    · exact List.mem_singleton.1 ht ▸ ⟨l, hl, hpos, hle⟩
  · by_cases hkl : k = l
    · exact ⟨v, _, by rw [hkl, Array.getElem?_setIfInBounds_self_of_lt hsize], hentry,
        hkl ▸ hfirst, hkl ▸ hlt⟩
    · have ht : t ∈ given := by
        rcases List.mem_append.1 ht with ht | ht
        · exact ht
        · rw [List.mem_singleton.1 ht, hl] at hk
          exact absurd (Option.some.inj hk).symm hkl
      obtain ⟨u, first, hvariable, hrange⟩ := G.range t ht k hk
      exact ⟨u, first, by rwa [Array.getElem?_setIfInBounds_ne (Ne.symm hkl)], hrange⟩

theorem readWeight_gives {given : List String}
    (h : readWeight file literals weights line s d = .ok d')
    (G : d.Gives vars literals weights given) : d'.Gives vars literals weights given := by
  have hsized := readWeight_sized h G.sized
  obtain ⟨w, p, rfl⟩ := readWeight_eq_ok h
  exact ⟨hsized, G.number, G.range⟩

theorem lt_of_reserve {bytes : Nat} (h : reserve bytes n = .ok ()) : bytes * n < addressSpace := by
  rw [reserve, ensure] at h
  split at h
  · rename_i hfit
    exact of_decide_eq_true hfit
  · cases h

/-- The lines of the literals in a mapping file. -/
def literalLines (text : String) (vars literals : Nat) : List String :=
  ((Text.lines text).drop (1 + vars)).take literals

/-- The lines of an accepted file are read one after the other. -/
theorem parseMap_stages (h : parseMap file text = .ok e) :
    ∃ header ts vars literals weights d₁ d₂ left₁ left₂ left₃,
      Text.lines text = header :: ts ∧ reserveParts vars literals weights = .ok () ∧
      readLines file "missing variable line" (readVariable file vars) vars (ts.zipIdx (1 + 1))
        (unknown (ts.zipIdx (1 + 1)).length vars literals weights) = .ok (d₁, left₁) ∧
      readLines file "missing literal line" (readLiteral file vars literals) literals left₁ d₁ =
        .ok (d₂, left₂) ∧
      readLines file "missing weight line" (readWeight file literals weights) weights left₂ d₂ =
        .ok (e, left₃) := by
  rw [parseMap] at h
  split at h
  · cases h
  · rename_i header line ls hlines
    have hlines : ∃ ts, Text.lines text = header :: ts ∧ ls = ts.zipIdx (1 + 1) := by
      cases htext : Text.lines text with
      | nil => rw [htext] at hlines; cases hlines
      | cons s ts =>
          rw [htext, List.zipIdx_cons] at hlines
          obtain ⟨hfirst, rfl⟩ := List.cons.inj hlines
          exact ⟨ts, by rw [(Prod.mk.inj hfirst).1], rfl⟩
    obtain ⟨ts, htext, rfl⟩ := hlines
    split at h
    · obtain ⟨vars, -, h⟩ := Outcome.bind_eq_ok_iff.1 h
      obtain ⟨literals, -, h⟩ := Outcome.bind_eq_ok_iff.1 h
      obtain ⟨weights, -, h⟩ := Outcome.bind_eq_ok_iff.1 h
      obtain ⟨_, hreserve, h⟩ := Outcome.bind_eq_ok_iff.1 h
      obtain ⟨⟨d₁, left₁⟩, hread₁, h⟩ := Outcome.bind_eq_ok_iff.1 h
      obtain ⟨⟨d₂, left₂⟩, hread₂, h⟩ := Outcome.bind_eq_ok_iff.1 h
      obtain ⟨⟨d₃, left₃⟩, hread₃, h⟩ := Outcome.bind_eq_ok_iff.1 h
      obtain rfl := Except.ok.inj h
      exact ⟨header, ts, vars, literals, weights, d₁, d₂, left₁, left₂, left₃, htext, hreserve,
        hread₁, hread₂, hread₃⟩
    · cases h

/-- What is accepted has all parts that were announced, and every literal with a line stands for a
value of its variable. -/
theorem parseMap_eq_ok (h : parseMap file text = .ok e) : ∃ vars literals weights,
    e.Gives vars literals weights (literalLines text vars literals) ∧
      (literalLines text vars literals).length = literals ∧ 24 * vars < addressSpace ∧
      4 * (literals + 1) < addressSpace ∧ 8 * weights < addressSpace := by
  obtain ⟨header, ts, vars, literals, weights, d₁, d₂, left₁, left₂, left₃, htext, hreserve, hread₁,
    hread₂, hread₃⟩ := parseMap_stages h
  -- All lines are there, so the parts have the sizes that the header announces.
  obtain ⟨hvars, rfl⟩ := readLines_length hread₁
  obtain ⟨hliterals, rfl⟩ := readLines_length hread₂
  obtain ⟨hweights, -⟩ := readLines_length hread₃
  rw [List.length_drop] at hliterals hweights
  rw [List.length_drop] at hweights
  have S := sized_unknown hvars (hliterals.trans (Nat.sub_le _ _))
    (hweights.trans ((Nat.sub_le _ _).trans (Nat.sub_le _ _)))
  have hunfed : ∀ s line, (s, line) ∈ ts.zipIdx (1 + 1) → Unfed s := fun s line hmem =>
    Text.no_feed_of_mem_lines (htext ▸ List.mem_cons_of_mem _ (List.fst_mem_of_mem_zipIdx hmem))
  have S₁ := readLines_keeps (Q := fun _ d => d.Sized vars literals weights)
    (fun s line hmem _ _ _ hstep => readVariable_sized (hunfed s line hmem) hstep) hread₁ [] S
  have G₂ := readLines_keeps (Q := Gives vars literals weights)
    (fun s line hmem _ _ _ hstep =>
      readLiteral_gives (hunfed s line (List.mem_of_mem_drop hmem)) hstep) hread₂ []
    ⟨S₁, by simp, by simp⟩
  have G₃ := readLines_keeps (Q := fun _ d => d.Gives vars literals weights _)
    (fun s line _ _ _ _ hstep => readWeight_gives hstep) hread₃ [] G₂
  have hgiven : [] ++ (((ts.zipIdx (1 + 1)).drop vars).take literals).map (·.1) =
      literalLines text vars literals := by
    have hfirst : (ts.zipIdx (1 + 1)).map (·.1) = ts := List.zipIdx_map_fst ..
    rw [List.nil_append, List.map_take, List.map_drop, hfirst, literalLines, htext,
      Nat.add_comm 1 vars, List.drop_succ_cons]
  rw [hgiven] at G₃
  have hlength : (literalLines text vars literals).length = literals := by
    rw [← hgiven, List.nil_append, List.length_map, List.length_take, List.length_drop]
    exact Nat.min_eq_left hliterals
  obtain ⟨_, hfit₁, hreserve⟩ := Outcome.bind_eq_ok_iff.1 hreserve
  obtain ⟨_, hfit₂, hfit₃⟩ := Outcome.bind_eq_ok_iff.1 hreserve
  exact ⟨vars, literals, weights, G₃, hlength, lt_of_reserve hfit₁, lt_of_reserve hfit₂,
    lt_of_reserve hfit₃⟩

theorem Gives.counts {given : List String} (G : e.Gives vars literals weights given) :
    e.variableCount = vars ∧ e.literalCount = literals ∧ e.weightCount = weights := by
  refine ⟨G.sized.firstLiterals, ?_, G.sized.weightValues⟩
  rw [literalCount, G.sized.literalVariables, Nat.add_sub_cancel]

/-- What is accepted can be written, as far as its literals have a range. -/
theorem parseMap_tabled (h : parseMap file text = .ok e) : e.Tabled := by
  obtain ⟨vars, literals, weights, G, -, hvars, hliterals, hweights⟩ := parseMap_eq_ok h
  obtain ⟨hv, hl, hw⟩ := G.counts
  exact {
    dims := by rw [hv, G.sized.dims]
    names := by rw [hv, G.sized.names]
    literalNames := by rw [G.sized.literalNames, G.sized.literalVariables]
    variable_zero := G.sized.variable_zero
    name_zero := G.sized.name_zero
    dim_lt := G.sized.dim_lt
    first_lt := G.sized.first_lt
    variables_fit := by rwa [hv]
    literals_fit := by rwa [hl]
    weights_fit := by rwa [hw] }

/-- If no literal is listed twice, every literal stands for a value of its variable. -/
theorem parseMap_inRange (h : parseMap file text = .ok e)
    (hnodup : ((literalLines text e.variableCount e.literalCount).map literalNumber).Nodup) :
    ∀ l, 0 < l → l ≤ e.literalCount → e.InRange l := by
  obtain ⟨vars, literals, weights, G, hlength, -⟩ := parseMap_eq_ok h
  obtain ⟨hv, hl, -⟩ := G.counts
  rw [hv, hl] at hnodup
  have hsubset : (literalLines text vars literals).map literalNumber ⊆
      (List.range literals).map fun l => some (l + 1) := by
    intro n hn
    obtain ⟨s, hs, rfl⟩ := List.mem_map.1 hn
    obtain ⟨l, hnumber, hpos, hle⟩ := G.number s hs
    rw [hnumber]
    refine List.mem_map.2 ⟨l - 1, List.mem_range.2 (by omega), ?_⟩
    rw [Nat.sub_add_cancel hpos]
  have hperm := (List.subperm_of_subset hnodup hsubset).perm_of_length_le (by simp [hlength])
  intro l hpos hle
  have hmem : some l ∈ (literalLines text vars literals).map literalNumber := by
    refine hperm.mem_iff.2 (List.mem_map.2 ⟨l - 1, List.mem_range.2 (by omega), ?_⟩)
    rw [Nat.sub_add_cancel hpos]
  obtain ⟨s, hs, hnumber⟩ := List.mem_map.1 hmem
  exact G.range s hs l hnumber

/-- The third literal is listed twice and the fourth has no line. -/
example : (parseMap "in.map" ("map 2 4 0\n0,2,1,A\n1,2,3,B\n" ++
    "1,0,a\n2,0,b\n3,1,c\n3,1,d\n") >>= toMapText) = abort .outOfRange := by
  decide +kernel

/-- A mapping file that has been read and can be written is read again as it was, unless a name ends
in a carriage return or a probability is not read as it is printed. -/
theorem parseMap_again (h : parseMap file text = .ok e)
    (hreturn : ∀ s ∈ e.names ++ e.literalNames, s.toList.getLast? ≠ some '\r')
    (hprints : ∀ p ∈ e.weightValues, Prints p) {text' : String} (htext : e.toMapText = .ok text')
    (file' : String) : parseMap file' text' = .ok e := by
  obtain ⟨vars, literals, weights, G, -⟩ := parseMap_eq_ok h
  have L : e.Lined := {
    names := fun s hs =>
      ⟨G.sized.unfed_names s hs, hreturn s (Array.mem_append_left _ hs)⟩
    literalNames := fun s hs =>
      ⟨G.sized.unfed_literalNames s hs, hreturn s (Array.mem_append_right _ hs)⟩
    weights := hprints }
  rw [parseMap_toMapText (parseMap_tabled h) L htext, ← G.sized.factors]

end BayesCircuit.Encoding
