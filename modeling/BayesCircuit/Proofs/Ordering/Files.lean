import BayesCircuit.Ordering.Text
import BayesCircuit.Proofs.Encoding.Mapping
import BayesCircuit.Proofs.Network.Names

/-!
# Orderings that are written and read

An ordering of the variables of a network is read from its elimination file and from its index file
as it was, and its literals are collapsed to it again. Names are different words, so a line of an
elimination file is one name that finds its variable; numbers that stand for variables or literals
are different and fit.

Which lists of literals are collapsed to an ordering is said by `Blocks`: without the numbers that
are no literal, the list is made of blocks, and each block holds literals of one variable. While a
list is collapsed, the literals before the next block belong to the variable placed last
(`collapseFrom_eq_ok`).
-/

namespace BayesCircuit.Ordering

open Outcome (Safe)
open Text (IsWord IsLine)

variable {net : Network} {e : Encoding} {options : EncodingOptions} {file source text : String}
variable {o placed vs : List Variable} {v : Variable} {ws : List String} {ns seen : List Nat}

/-! ## Words and their lines -/

/-- Words on one line. -/
theorem numberedWords_line (h : ∀ w ∈ ws, IsWord w) :
    numberedWords (Text.join " " ws ++ "\n") = ws.map (·, 1) := by
  have hlines : Text.lines (Text.join " " ws ++ "\n") = [Text.join " " ws] :=
    Text.lines_of_feeds (by simp) <| List.forall_mem_singleton.2 <|
      Text.isLine_join fun w hw => (h w hw).isLine
  rw [numberedWords, hlines, List.zipIdx_singleton, List.flatMap_singleton]
  exact congrArg (List.map (·, 1)) (Text.words_join h)

theorem toList_join_feed : ∀ {ws : List String}, ws ≠ [] →
    (Text.join "\n" ws ++ "\n").toList = ws.flatMap fun w => w.toList ++ ['\n']
  | [w], _ => by simp [Text.join]
  | w :: v :: ws, _ => by
      have hrest := toList_join_feed (List.cons_ne_nil v ws)
      have hjoin : Text.join "\n" (w :: v :: ws) = w ++ "\n" ++ Text.join "\n" (v :: ws) := rfl
      rw [List.flatMap_cons, ← hrest, hjoin]
      simp

/-- One word on each line. -/
theorem numberedWords_lines (h : ∀ w ∈ ws, IsWord w) :
    numberedWords (Text.join "\n" ws ++ "\n") = ws.zipIdx 1 := by
  rcases eq_or_ne ws [] with rfl | hne
  · rfl
  · have hlines : Text.lines (Text.join "\n" ws ++ "\n") = ws :=
      Text.lines_of_feeds (toList_join_feed hne) fun w hw => (h w hw).isLine
    rw [numberedWords, hlines]
    have hone : ∀ q ∈ ws.zipIdx 1, (Text.words q.1).map (·, q.2) = [q] := by
      rintro ⟨w, n⟩ hq
      have hword : Text.words (Text.join " " [w]) = [w] := Text.words_join <|
        List.forall_mem_singleton.2 <| h w (List.fst_mem_of_mem_zipIdx hq)
      rw [Text.join] at hword
      rw [hword]
      rfl
    rw [List.flatMap_congr hone, List.flatMap_singleton']

/-! ## Index files -/

theorem parseNumbers_eq (hns : ∀ n ∈ ns, n < halfWordSize) (hnodup : (seen.reverse ++ ns).Nodup) :
    parseNumbers file (ns.map fun n => (toString n, 1)) seen = .ok (seen.reverse ++ ns) := by
  induction ns generalizing seen with
  | nil => rw [List.append_nil]; rfl
  | cons n ns ih =>
      obtain ⟨hn, hns⟩ := List.forall_mem_cons.1 hns
      have hread : Text.u32? (toString n) = some n := Text.unsigned?_toString hn
      have hnew : seen.contains n = false := by
        have := (List.nodup_append.1 hnodup).2.2 n
        simpa using fun hmem => this (List.mem_reverse.2 hmem) n (List.mem_cons_self ..) rfl
      have hnext : (seen.reverse ++ n :: ns) = ((n :: seen).reverse ++ ns) := by simp
      rw [List.map_cons, parseNumbers, hread]
      simp only [hnew, Bool.false_eq_true, if_false]
      rw [hnext] at hnodup ⊢
      exact ih hns hnodup

/-- Different numbers that fit are read from their index file. -/
theorem parseIndices_toIndexText (hns : ∀ n ∈ ns, n < halfWordSize) (hnodup : ns.Nodup) :
    parseIndices file (toIndexText ns) = .ok ns := by
  have hwords : ∀ w ∈ ns.map toString, IsWord w := List.forall_mem_map.2 fun _ _ =>
    Text.isWord_toString
  rw [parseIndices, toIndexText, numberedWords_line hwords, List.map_map]
  have hread : ([].reverse ++ ns).Nodup := hnodup
  exact parseNumbers_eq hns hread

/-! ## Elimination files -/

/-- Names that find different variables. -/
theorem parseNames_eq {names : List String}
    (h : List.Forall₂ (fun v w => net.find? w = some v) vs names) (k : Nat)
    (hnodup : (placed.reverse ++ vs).Nodup) :
    parseNames net file (names.zipIdx k) placed = .ok (vs.reverse ++ placed) := by
  induction h generalizing k placed with
  | nil => rfl
  | @cons v w vs names hfind _ ih =>
      have hnew : placed.contains v = false := by
        have := (List.nodup_append.1 hnodup).2.2 v
        simpa using fun hmem => this (List.mem_reverse.2 hmem) v (List.mem_cons_self ..) rfl
      rw [List.zipIdx_cons, parseNames, hfind]
      simp only [hnew, Bool.false_eq_true, if_false]
      rw [ih (k + 1) (by simpa using hnodup)]
      simp

/-- An ordering of variables is read from its elimination file. -/
theorem parseElimination_toEliminationText (haccepted : net.Accepted) (hnamed : net.Named)
    (ho : ∀ v ∈ o, v < net.size) (hnodup : o.Nodup) :
    ∃ t, toEliminationText net o = .ok t ∧ ∀ file, parseElimination net file t = .ok o := by
  obtain ⟨names, hnames, hwords, hfinds⟩ :=
    haccepted.exists_names hnamed fun v hv => ho v (List.mem_reverse.1 hv)
  refine ⟨_, Outcome.bind_eq_ok_iff.2 ⟨_, hnames, rfl⟩, fun file => ?_⟩
  rw [parseElimination, numberedWords_lines hwords,
    parseNames_eq hfinds 1 (by simpa using List.nodup_reverse.2 hnodup)]
  simp

/-! ## Literals -/

/-- A number that is a literal. -/
def IsLiteral (e : Encoding) (l : Int) : Prop := 0 < l ∧ l ≤ e.literalCount

instance (e : Encoding) (l : Int) : Decidable (IsLiteral e l) := inferInstanceAs (Decidable (_ ∧ _))

/-- A list of literals of a variable, which is not empty. -/
def IsBlock (e : Encoding) (block : List Int) (v : Variable) : Prop :=
  block ≠ [] ∧ ∀ l ∈ block, e.literalVariables[l.toNat]? = some v

/-- The literals among some numbers are a row of blocks, one for each variable of an ordering. -/
def Blocks (e : Encoding) (literals : List Int) (ordering : List Variable) : Prop :=
  ∃ blocks : List (List Int), literals.filter (IsLiteral e ·) = blocks.flatten ∧
    List.Forall₂ (IsBlock e) blocks ordering

variable {l : Int} {ls block : List Int} {blocks : List (List Int)}

theorem exists_variable (h : IsLiteral e l) : ∃ v, e.literalVariables[l.toNat]? = some v := by
  have hlt : l.toNat < e.literalVariables.size := by
    have hle := h.2
    have hpos := h.1
    rw [Encoding.literalCount] at hle
    omega
  exact ⟨_, Array.getElem?_eq_getElem hlt⟩

/-- Numbers that are no literal make no difference. -/
theorem collapseFrom_filter : ∀ {ls : List Int} {placed : List Variable},
    collapseFrom e ls placed = collapseFrom e (ls.filter (IsLiteral e ·)) placed
  | [], _ => rfl
  | l :: ls, placed => by
      by_cases hl : IsLiteral e l
      · have hguard : ¬ (l ≤ 0 || (e.literalCount : Int) < l) = true := by
          have := hl.1
          have := hl.2
          simp
          omega
        rw [List.filter_cons_of_pos (by simpa using hl), collapseFrom, collapseFrom, if_neg hguard,
          if_neg hguard]
        simp only [← @collapseFrom_filter ls]
      · have hguard : (l ≤ 0 || (e.literalCount : Int) < l) = true := by
          rw [IsLiteral] at hl
          simp
          omega
        rw [List.filter_cons_of_neg (by simpa using hl), collapseFrom, if_pos hguard]
        exact collapseFrom_filter

/-- What the next literal does: it belongs to the variable placed last, or its variable is placed,
or it is an error because its variable was placed before. -/
theorem collapseFrom_cons (hl : IsLiteral e l) (hv : e.literalVariables[l.toNat]? = some v) :
    (placed.head? = some v → collapseFrom e (l :: ls) placed = collapseFrom e ls placed) ∧
      (v ∉ placed → collapseFrom e (l :: ls) placed = collapseFrom e ls (v :: placed)) ∧
      (placed.head? ≠ some v → v ∈ placed → ∀ o, collapseFrom e (l :: ls) placed ≠ .ok o) := by
  have hguard : ¬ (l ≤ 0 || (e.literalCount : Int) < l) = true := by
    have := hl.1
    have := hl.2
    simp
    omega
  have hstep : collapseFrom e (l :: ls) placed =
      if placed.head? == some v then collapseFrom e ls placed
      else if placed.contains v then do
        fail (.invalidOrdering ("literals of variable '" ++ (← e.name v) ++
            "' are interleaved with other variables"))
      else collapseFrom e ls (v :: placed) := by
    rw [collapseFrom, if_neg hguard, fetch, hv]
    rfl
  rw [hstep]
  refine ⟨fun hhead => if_pos (by simpa using hhead), fun hnew => ?_, fun hhead hmem o h => ?_⟩
  · have hhead : placed.head? ≠ some v := fun h => hnew (List.mem_of_mem_head? h)
    rw [if_neg (by simpa using hhead), if_neg (by simpa using hnew)]
  · rw [if_neg (by simpa using hhead), if_pos (by simpa using hmem)] at h
    obtain ⟨_, -, h⟩ := Outcome.bind_eq_ok_iff.1 h
    cases h

/-- Literals of the variable placed last. -/
theorem collapseFrom_append
    (hblock : ∀ l ∈ block, IsLiteral e l ∧ e.literalVariables[l.toNat]? = some v) :
    collapseFrom e (block ++ ls) (v :: placed) = collapseFrom e ls (v :: placed) := by
  induction block with
  | nil => rfl
  | cons l block ih =>
      obtain ⟨⟨hl, hv⟩, hblock⟩ := List.forall_mem_cons.1 hblock
      rw [List.cons_append, (collapseFrom_cons hl hv).1 rfl, ih hblock]

/-- Blocks of different variables are collapsed to these variables. -/
theorem collapseFrom_flatten (hblocks : List.Forall₂ (IsBlock e) blocks o)
    (hliterals : ∀ l ∈ blocks.flatten, IsLiteral e l) (hnodup : (placed.reverse ++ o).Nodup) :
    collapseFrom e blocks.flatten placed = .ok (placed.reverse ++ o) := by
  induction hblocks generalizing placed with
  | nil => rw [List.append_nil]; rfl
  | @cons block v blocks o hblock _ ih =>
      obtain ⟨l, block, rfl⟩ := List.exists_cons_of_ne_nil hblock.1
      rw [List.flatten_cons, List.forall_mem_append] at hliterals
      obtain ⟨hl, hliteral⟩ := List.forall_mem_cons.1 hliterals.1
      obtain ⟨hv, hvs⟩ := List.forall_mem_cons.1 hblock.2
      have hnew : v ∉ placed := fun hmem => (List.nodup_append.1 hnodup).2.2 v
        (List.mem_reverse.2 hmem) v (List.mem_cons_self ..) rfl
      have hnext : placed.reverse ++ v :: o = (v :: placed).reverse ++ o := by simp
      rw [List.flatten_cons, List.cons_append, (collapseFrom_cons hl hv).2.1 hnew,
        collapseFrom_append fun m hm => ⟨hliteral m hm, hvs m hm⟩, hnext]
      exact ih hliterals.2 (hnext ▸ hnodup)

/-- Literals that are collapsed begin with some of the variable placed last, and blocks of variables
that were not placed follow. -/
theorem blocks_of_collapseFrom (hliterals : ∀ l ∈ ls, IsLiteral e l) (hplaced : placed.Nodup)
    (h : collapseFrom e ls placed = .ok o) : ∃ first blocks vs,
      ls = first ++ blocks.flatten ∧ o = placed.reverse ++ vs ∧
      (∀ l ∈ first, placed.head? = e.literalVariables[l.toNat]?) ∧
      List.Forall₂ (IsBlock e) blocks vs ∧ o.Nodup := by
  induction ls generalizing placed with
  | nil =>
      cases h
      exact ⟨[], [], [], rfl, (List.append_nil _).symm, by simp, .nil, List.nodup_reverse.2 hplaced⟩
  | cons l ls ih =>
      obtain ⟨hl, hls⟩ := List.forall_mem_cons.1 hliterals
      obtain ⟨v, hv⟩ := exists_variable hl
      obtain ⟨hsame, hnew, hbefore⟩ := @collapseFrom_cons e placed v l ls hl hv
      by_cases hhead : placed.head? = some v
      · rw [hsame hhead] at h
        obtain ⟨first, blocks, vs, rfl, ho, hfirst, hblocks, hnodup⟩ := ih hls hplaced h
        exact ⟨l :: first, blocks, vs, rfl, ho,
          List.forall_mem_cons.2 ⟨hhead.trans hv.symm, hfirst⟩, hblocks, hnodup⟩
      · have hmem : v ∉ placed := fun hmem => hbefore hhead hmem o h
        rw [hnew hmem] at h
        obtain ⟨first, blocks, vs, rfl, ho, hfirst, hblocks, hnodup⟩ :=
          ih hls (List.nodup_cons.2 ⟨hmem, hplaced⟩) h
        -- The literals of the variable just placed are a block with the one that placed it.
        have hblock : IsBlock e (l :: first) v :=
          ⟨List.cons_ne_nil _ _, List.forall_mem_cons.2 ⟨hv, fun m hm => (hfirst m hm).symm⟩⟩
        exact ⟨[], (l :: first) :: blocks, v :: vs, by simp, by simpa using ho, by simp,
          .cons hblock hblocks, hnodup⟩

/-- What is collapsed is a row of blocks of different variables. -/
theorem collapseFrom_eq_ok : collapseFrom e ls [] = .ok o ↔ o.Nodup ∧ Blocks e ls o := by
  have hliterals : ∀ l ∈ ls.filter (IsLiteral e ·), IsLiteral e l := by simp
  rw [collapseFrom_filter]
  constructor
  · intro h
    obtain ⟨first, blocks, vs, hls, rfl, hfirst, hblocks, hnodup⟩ :=
      blocks_of_collapseFrom hliterals .nil h
    -- No variable is placed before the first block.
    have hnil : first = [] := by
      refine List.eq_nil_iff_forall_not_mem.2 fun l hl => ?_
      have hliteral := hliterals l (hls ▸ List.mem_append_left _ hl)
      obtain ⟨v, hv⟩ := exists_variable hliteral
      exact absurd ((hfirst l hl).trans hv) (by simp)
    subst hnil
    exact ⟨hnodup, blocks, hls, hblocks⟩
  · rintro ⟨hnodup, blocks, hls, hblocks⟩
    rw [hls] at hliterals ⊢
    exact collapseFrom_flatten hblocks hliterals hnodup

/-- Every literal of an encoded network is one of a variable of the network. -/
theorem lt_of_isLiteral (he : Encoding.ofNetwork options net = .ok e) (hl : IsLiteral e l)
    (hv : e.literalVariables[l.toNat]? = some v) : v < net.size := by
  have hpos : 0 < l.toNat := by
    have := hl.1
    omega
  obtain ⟨first, dim, hfirst, -⟩ := (Encoding.getElem?_literalVariables he hpos).1 hv
  rw [← Encoding.size_firstLiterals he]
  exact (Array.getElem?_eq_some_iff.1 hfirst).1

theorem Blocks.lt (he : Encoding.ofNetwork options net = .ok e) (h : Blocks e ls o) (hv : v ∈ o) :
    v < net.size := by
  obtain ⟨blocks, hls, hblocks⟩ := h
  obtain ⟨block, hmem, hne, hblock⟩ := exists_of_forall₂ hblocks hv
  obtain ⟨l, block, rfl⟩ := List.exists_cons_of_ne_nil hne
  have hl : l ∈ ls.filter (IsLiteral e ·) :=
    hls ▸ List.mem_flatten.2 ⟨_, hmem, List.mem_cons_self ..⟩
  exact lt_of_isLiteral he (by simpa using (List.mem_filter.1 hl).2)
    (hblock l (List.mem_cons_self ..))

/-- A list of numbers is collapsed to an ordering exactly if its literals are a row of blocks, one
for each variable of the network in this order. -/
theorem collapse_eq_ok_iff (he : Encoding.ofNetwork options net = .ok e) :
    collapse e ls = .ok o ↔ o.Perm (List.range net.size) ∧ Blocks e ls o := by
  have hsize : e.variableCount = net.size := Encoding.size_firstLiterals he
  rw [collapse, Outcome.bind_eq_ok_iff, hsize]
  constructor
  · rintro ⟨o', hfrom, h⟩
    obtain ⟨hnodup, hblocks⟩ := collapseFrom_eq_ok.1 hfrom
    split at h
    · rename_i hall
      cases h
      have hmem : ∀ v < net.size, v ∈ o := fun v hv => by
        simpa using List.find?_eq_none.1 hall v (List.mem_range.2 hv)
      refine ⟨(List.perm_ext_iff_of_nodup hnodup List.nodup_range).2 fun v => ?_, hblocks⟩
      exact ⟨fun hv => List.mem_range.2 (hblocks.lt he hv), fun hv => hmem v (List.mem_range.1 hv)⟩
    · obtain ⟨_, -, h⟩ := Outcome.bind_eq_ok_iff.1 h
      cases h
  · rintro ⟨hperm, hblocks⟩
    have hnodup := hperm.nodup_iff.2 List.nodup_range
    refine ⟨o, collapseFrom_eq_ok.2 ⟨hnodup, hblocks⟩, ?_⟩
    have hall : (List.range net.size).find? (fun v => !o.contains v) = none :=
      List.find?_eq_none.2 fun v hv => by simpa using hperm.mem_iff.2 hv
    rw [hall]
    rfl

/-! ## Literals of an ordering -/

/-- The literals of a variable, values ascending. -/
def group (e : Encoding) (v : Variable) : List Nat :=
  (List.range (e.dims.getD v 0)).map (e.firstLiterals.getD v 0 + ·)

theorem expand_eq (he : Encoding.ofNetwork options net = .ok e) (ho : ∀ v ∈ o, v < net.size) :
    expand e o = .ok (o.flatMap (group e)) := by
  have hgroups : (o.mapM fun v => do
      let dim ← fetch e.dims v
      let first ← e.firstLiteral v
      return (List.range dim).map (first + ·)) = .ok (o.map (group e)) := by
    refine Outcome.mapM_ok fun v hv => ?_
    have hdim := Encoding.getElem?_dims (ho v hv)
    have hsize : v < e.firstLiterals.size := by
      rw [Encoding.size_firstLiterals he]
      exact ho v hv
    have hfirst := Array.getElem?_eq_getElem hsize
    rw [group, Array.getD_eq_getD_getElem?, Array.getD_eq_getD_getElem?, Encoding.firstLiteral,
      fetch, fetch, Encoding.dims_ofNetwork he, hdim, hfirst]
    rfl
  rw [expand, hgroups, List.flatMap_def]
  rfl

/-- The group of a variable has literals of this variable only. -/
theorem mem_group (he : Encoding.ofNetwork options net = .ok e) (hv : v < net.size) {n : Nat}
    (hn : n ∈ group e v) :
    0 < n ∧ n ≤ e.literalCount ∧ e.literalVariables[n]? = some v := by
  obtain ⟨value, hvalue, rfl⟩ := List.mem_map.1 hn
  have hsize : v < e.firstLiterals.size := by rwa [Encoding.size_firstLiterals he]
  have hfirst := Array.getElem?_eq_getElem hsize
  have hdim := Encoding.getElem?_dims hv
  rw [Encoding.dims_ofNetwork he, Array.getD_eq_getD_getElem?, hdim, Option.getD_some,
    List.mem_range] at hvalue
  rw [Array.getD_eq_getD_getElem?, hfirst, Option.getD_some]
  have hpos := (Encoding.first_pos he hfirst).trans_le (Nat.le_add_right _ value)
  have hentry := (Encoding.getElem?_literalVariables he hpos).2 ⟨_, _, hfirst, hdim,
    Nat.le_add_right .., Nat.add_lt_add_left hvalue _⟩
  refine ⟨hpos, ?_, hentry⟩
  have hlt := (Array.getElem?_eq_some_iff.1 hentry).1
  rw [Encoding.literalCount]
  omega

/-- The literals of different variables are different. -/
theorem nodup_expand (he : Encoding.ofNetwork options net = .ok e) (ho : ∀ v ∈ o, v < net.size)
    (hnodup : o.Nodup) : (o.flatMap (group e)).Nodup := by
  refine List.nodup_flatMap.2 ⟨fun v _ => ?_, hnodup.imp_of_mem fun {u v} hu hv hne n hn hn' => ?_⟩
  · exact List.nodup_range.map fun _ _ h => Nat.add_left_cancel h
  · have hsame := (mem_group he (ho u hu) hn).2.2.symm.trans (mem_group he (ho v hv) hn').2.2
    exact hne (Option.some.inj hsame)

/-- The literals of an ordering are a row of blocks. -/
theorem blocks_expand (hnet : net.Accepted) (he : Encoding.ofNetwork options net = .ok e)
    (ho : ∀ v ∈ o, v < net.size) : Blocks e ((o.flatMap (group e)).map Int.ofNat) o := by
  refine ⟨o.map fun v => (group e v).map Int.ofNat, ?_, ?_⟩
  · rw [List.filter_eq_self.2, List.map_flatMap, List.flatMap_def]
    intro l hl
    obtain ⟨n, hn, rfl⟩ := List.mem_map.1 hl
    obtain ⟨v, hv, hn⟩ := List.mem_flatMap.1 hn
    obtain ⟨hpos, hle, -⟩ := mem_group he (ho v hv) hn
    simpa [IsLiteral] using And.intro hpos hle
  · rw [List.forall₂_map_left_iff, List.forall₂_same]
    refine fun v hv => ⟨?_, List.forall_mem_map.2 fun n hn => (mem_group he (ho v hv) hn).2.2⟩
    have hdim : e.dims.getD v 0 = net.dimOf v := by rw [Encoding.dims_ofNetwork he, Network.dimOf]
    simpa [group, hdim] using Nat.ne_of_gt (hnet.dim_pos (ho v hv))

/-! ## Failures -/

theorem safe_parseNames {ws : List (String × Nat)} : Safe (parseNames net file ws vs) := by
  induction ws generalizing vs with
  | nil => exact Safe.ok
  | cons w ws ih =>
      rw [parseNames]
      split
      · exact Safe.fail
      · split
        · exact Safe.fail
        · exact ih

theorem safe_parseNumbers {ws : List (String × Nat)} {seen : List Nat} :
    Safe (parseNumbers file ws seen) := by
  induction ws generalizing seen with
  | nil => exact Safe.ok
  | cons w ws ih =>
      rw [parseNumbers]
      split
      · exact Safe.fail
      · split
        · exact Safe.fail
        · exact ih

theorem safe_parseIndices : Safe (parseIndices file text) := safe_parseNumbers

theorem safe_encodingName (he : Encoding.ofNetwork options net = .ok e) {v : Variable}
    (hv : v < net.size) : Safe (e.name v) := by
  have hlt : v < e.names.size := (Encoding.names_ofNetwork he).1.symm ▸ hv
  rw [Encoding.name, fetch, Array.getElem?_eq_getElem hlt]
  exact Safe.ok

theorem safe_collapseFrom (he : Encoding.ofNetwork options net = .ok e) {ls : List Int} :
    Safe (collapseFrom e ls vs) := by
  induction ls generalizing vs with
  | nil => exact Safe.ok
  | cons l ls ih =>
      rw [collapseFrom]
      split
      · exact ih
      · rename_i hguard
        have hl : IsLiteral e l := by
          rw [IsLiteral]
          simp at hguard
          omega
        obtain ⟨v, hv⟩ := exists_variable hl
        rw [fetch, hv]
        refine Safe.ok.bind fun u hu => ?_
        cases hu
        split
        · exact ih
        · split
          · exact (safe_encodingName he (lt_of_isLiteral he hl hv)).bind fun _ _ => Safe.fail
          · exact ih

/-- Collapsing literals fails with an error if it fails. -/
theorem safe_collapse (he : Encoding.ofNetwork options net = .ok e) {ls : List Int} :
    Safe (collapse e ls) := by
  refine (safe_collapseFrom he).bind fun o _ => ?_
  split
  · exact Safe.pure
  · rename_i v hv
    have hlt : v < e.variableCount := List.mem_range.1 (List.mem_of_find?_eq_some hv)
    have hsize : e.variableCount = net.size := Encoding.size_firstLiterals he
    exact (safe_encodingName he (hsize ▸ hlt)).bind fun _ _ => Safe.fail

/-! ## Files of parsed networks -/

/-- There are as many literals as variables at least. -/
theorem size_le_sum_dims (hnet : net.Accepted) : net.size ≤ net.dims.sum := by
  have hpos : ∀ d ∈ net.dims.toList, 1 ≤ d := by
    intro d hd
    obtain ⟨v, hv, rfl⟩ := List.getElem_of_mem hd
    have hlt : v < net.size := by simpa [Network.dims, Network.size] using hv
    have hget := Encoding.getElem?_dims hlt
    rw [← Array.getElem?_toList, List.getElem?_eq_getElem hv] at hget
    rw [Option.some.inj hget]
    exact hnet.dim_pos hlt
  have hle := List.length_le_sum_of_one_le _ hpos
  rwa [Array.length_toList, Array.sum_toList, Network.dims, Array.size_map] at hle

/-- Every ordering of the variables of a network that was read from a file is read from its
elimination file as it was, and collapsed from its literals. If the literals are machine numbers, it
is read from its index file, and so are its literals. A list of numbers is collapsed to an ordering
of the variables exactly if, without the numbers that are no literals, it is a row of blocks, one for
each variable in this order and with literals of this variable only. -/
theorem orderings_read_back (options : EncodingOptions)
    (h : Network.parse source text = .ok net) : ∃ e, Encoding.ofNetwork options net = .ok e ∧
    (∀ o : List Variable, o.Perm (List.range net.size) →
      (∃ t, toEliminationText net o = .ok t ∧ ∀ file, parseElimination net file t = .ok o) ∧
      ∃ ls, expand e o = .ok ls ∧ collapse e (ls.map Int.ofNat) = .ok o ∧
        (net.dims.sum < halfWordSize → ∀ file, parseIndices file (toIndexText o) = .ok o ∧
          parseIndices file (toIndexText ls) = .ok ls)) ∧
    ∀ (literals : List Int) (o : List Variable), collapse e literals = .ok o ↔
      o.Perm (List.range net.size) ∧ Blocks e literals o := by
  have hnet := Network.accepted_of_parse h
  obtain ⟨e, he⟩ := hnet.exists_ofNetwork options
  refine ⟨e, he, fun o hperm => ?_, fun literals o => collapse_eq_ok_iff he⟩
  have hnodup := hperm.nodup_iff.2 List.nodup_range
  have ho : ∀ v ∈ o, v < net.size := fun v hv => List.mem_range.1 (hperm.mem_iff.1 hv)
  refine ⟨parseElimination_toEliminationText hnet (Network.named_of_parse h) ho hnodup, _,
    expand_eq he ho, (collapse_eq_ok_iff he).2 ⟨hperm, blocks_expand hnet he ho⟩, fun hfit file => ?_⟩
  constructor
  · refine parseIndices_toIndexText (fun v hv => ?_) hnodup
    exact (ho v hv).trans_le ((size_le_sum_dims hnet).trans hfit.le)
  · refine parseIndices_toIndexText (fun n hn => ?_) (nodup_expand he ho hnodup)
    obtain ⟨v, hv, hn⟩ := List.mem_flatMap.1 hn
    have hle := (mem_group he (ho v hv) hn).2.1
    rw [Encoding.literalCount_ofNetwork he] at hle
    exact hle.trans_lt hfit

/-- A network of two variables, the second one with a comma in its name. -/
def twoNodes : String :=
  "node A \x7b states = (\"a\" \"b\"); \x7d node B,C \x7b states = (\"x\" \"y\" \"z\"); \x7d"

theorem orderings_read_back_twoNodes : ∃ net e t ls,
    Network.parse "two.net" twoNodes = .ok net ∧ net.size = 2 ∧
    Encoding.ofNetwork ⟨true, true⟩ net = .ok e ∧ [1, 0].Perm (List.range net.size) ∧
    net.dims.sum < halfWordSize ∧ toEliminationText net [1, 0] = .ok t ∧
    parseElimination net "two.ord" t = .ok [1, 0] ∧ expand e [1, 0] = .ok ls ∧
    collapse e (ls.map Int.ofNat) = .ok [1, 0] ∧
    parseIndices "two.vord" (toIndexText [1, 0]) = .ok [1, 0] ∧
    parseIndices "two.lord" (toIndexText ls) = .ok ls := by
  have hsizes : (Network.parse "two.net" twoNodes).map (fun net => (net.size, net.dims.sum)) =
      .ok (2, 5) := by
    decide +kernel
  cases hnet : Network.parse "two.net" twoNodes with
  | error _ =>
      rw [hnet] at hsizes
      cases hsizes
  | ok net =>
      rw [hnet] at hsizes
      obtain ⟨hsize, hsum⟩ := Prod.mk.inj (Except.ok.inj hsizes)
      have hperm : [1, 0].Perm (List.range net.size) := by
        rw [hsize]
        decide
      have hfit : net.dims.sum < halfWordSize := by
        rw [hsum]
        decide
      obtain ⟨e, he, hall, -⟩ := orderings_read_back ⟨true, true⟩ hnet
      obtain ⟨⟨t, ht, hread⟩, ls, hls, hcollapse, hindices⟩ := hall [1, 0] hperm
      exact ⟨net, e, t, ls, rfl, hsize, he, hperm, hfit, ht, hread _, hls, hcollapse,
        (hindices hfit _).1, (hindices hfit _).2⟩

end BayesCircuit.Ordering
