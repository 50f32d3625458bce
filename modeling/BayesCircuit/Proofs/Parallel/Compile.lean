import BayesCircuit.Proofs.Multigraph.Partition
import BayesCircuit.Proofs.Parallel.Plain
import BayesCircuit.Proofs.Parallel.Pool
import Mathlib.Data.List.Pairwise

/-!
# Compiling in parallel

The ranges of a layer tile its contexts: each begins where the one before it ends. Pieces are sorted
by layer and first context, and no two tasks agree in both, so whatever order the results come
in, sorting restores the order of the tasks (`assemblePieces_eq`).

Compiling a chain with a pool of workers gives the multigraph that compiling it alone gives,
whatever the pool is like and whatever order the results of its tasks come in, and so does
compiling several trees (`compile_parallel`).
-/

/-! ## Putting pieces in order -/

namespace BayesCircuit.Parallel

open Multigraph SpanningTree

variable {α β W : Type}

/-! ## Sorting -/

/-- A list is what sorting makes of any permutation of it, if each element is strictly before those
after it. -/
theorem mergeSort_eq_of_perm (le : α → α → Bool) {xs ys : List α}
    (htrans : ∀ a b c, le a b = true → le b c = true → le a c = true)
    (htotal : ∀ a b, (le a b || le b a) = true)
    (hsorted : ys.Pairwise fun a b => le a b = true ∧ le b a = false) (h : xs.Perm ys) :
    xs.mergeSort le = ys := by
  have hperm : (xs.mergeSort le).Perm ys := (List.mergeSort_perm xs le).trans h
  have hsame : ys.Pairwise fun a b => ¬ (le a b = true ∧ le b a = true) :=
    hsorted.imp fun hab hba => by simp [hab.2] at hba
  refine hperm.eq_of_pairwise (fun a b ha hb hab hba => ?_) (List.pairwise_mergeSort htrans htotal xs)
    (hsorted.imp And.left)
  have : Std.Symm fun a b => ¬ (le a b = true ∧ le b a = true) := ⟨fun _ _ h h' => h h'.symm⟩
  by_contra hne
  exact hsame.forall (hperm.mem_iff.1 ha) hb hne ⟨hab, hba⟩

/-! ## Ranges -/

/-- Ranges of `size` numbers, one after the other, are the numbers up to where the last one ends. -/
theorem flatMap_ranges (f : Nat → β) (size bound : Nat) : ∀ m,
    ((List.range m).flatMap fun i =>
      (List.range (min ((i + 1) * size) bound - i * size)).map fun j => f (i * size + j)) =
      (List.range (min (m * size) bound)).map f
  | 0 => by simp
  | m + 1 => by
      have hadd : min ((m + 1) * size) bound =
          min (m * size) bound + (min ((m + 1) * size) bound - m * size) := by
        have hmul : (m + 1) * size = m * size + size := Nat.succ_mul m size
        omega
      have hshift : ∀ j ∈ List.range (min ((m + 1) * size) bound - m * size),
          f (m * size + j) = f (min (m * size) bound + j) := by
        intro j hj
        have := List.mem_range.1 hj
        congr 1
        omega
      rw [List.range_succ, List.flatMap_append, flatMap_ranges f size bound m, hadd, List.range_add,
        List.map_append, List.map_map, List.flatMap_singleton]
      exact congrArg _ (List.map_congr_left hshift)

variable {l : Layer} {size : Nat}

/-- The ranges of a layer tile its contexts. -/
theorem flatMap_chunks (f : Nat → β) (hsize : 0 < size) :
    ((chunks l size).flatMap fun r => (List.range (r.last - r.first)).map fun j => f (r.first + j)) =
      (List.range l.contexts).map f := by
  have hall : min ((l.contexts + (size - 1)) / size * size) l.contexts = l.contexts := by
    have hdiv := Nat.div_add_mod (l.contexts + (size - 1)) size
    have hmod := Nat.mod_lt (l.contexts + (size - 1)) hsize
    have hcomm := Nat.mul_comm size ((l.contexts + (size - 1)) / size)
    omega
  rw [chunks, List.flatMap_map, flatMap_ranges f size l.contexts, hall]

theorem chunkSize_pos (o : Options) (n : Nat) : 0 < chunkSize o n := by
  unfold chunkSize
  split
  · exact Nat.lt_of_lt_of_le Nat.zero_lt_one (Nat.le_max_right ..)
  · exact Nat.lt_of_lt_of_le Nat.zero_lt_one (Nat.le_max_right ..)

/-- The ranges of a layer begin one after the other, and none ends behind the contexts. -/
theorem chunks_spec (hsize : 0 < size) :
    (chunks l size).Pairwise (fun q r => q.first < r.first) ∧
      ∀ r ∈ chunks l size, r.layer = l ∧ r.last ≤ l.contexts := by
  constructor
  · refine List.pairwise_map.2 (List.pairwise_lt_range.imp fun hlt => ?_)
    exact Nat.mul_lt_mul_of_pos_right hlt hsize
  · intro r hr
    obtain ⟨i, _, rfl⟩ := List.mem_map.1 hr
    exact ⟨rfl, Nat.min_le_right ..⟩

/-! ## Pieces -/

/-- The piece of a range whose contexts have the given nodes. -/
def pieceOf (node : Layer → Nat → Node W) (r : Range) : Piece W :=
  ⟨r.layer.index, r.first, (List.range (r.last - r.first)).map fun i => node r.layer (r.first + i)⟩

theorem before_trans (a b c : Piece W) (hab : a.before b = true) (hbc : b.before c = true) :
    a.before c = true := by
  simp only [Piece.before, Bool.or_eq_true, Bool.and_eq_true, decide_eq_true_eq, beq_iff_eq] at *
  omega

theorem before_total (a b : Piece W) : (a.before b || b.before a) = true := by
  simp only [Piece.before, Bool.or_eq_true, Bool.and_eq_true, decide_eq_true_eq, beq_iff_eq]
  omega

variable {s : Source W} {levels : List (Level W)} {o : Options} {node : Layer → Nat → Node W}

theorem numberedFrom_pairwise {k : Nat} {ls : List Layer} (h : NumberedFrom k ls) :
    ls.Pairwise fun l l' => l.index < l'.index := by
  refine List.pairwise_iff_getElem.2 fun i j hi hj hij => ?_
  rw [h i ls[i] (List.getElem?_eq_getElem hi), h j ls[j] (List.getElem?_eq_getElem hj)]
  omega

/-- The pieces of the tasks, in the order of the tasks. -/
theorem pieces_sorted (C : Chain s.tree) :
    ((tasks o s.tree).map (pieceOf node)).Pairwise
      fun a b => a.before b = true ∧ b.before a = false := by
  have hstrict : ∀ a b : Piece W,
      a.layer < b.layer ∨ (a.layer = b.layer ∧ a.first < b.first) →
      a.before b = true ∧ b.before a = false := by
    intro a b h
    rw [← Bool.not_eq_true]
    simp only [Piece.before, Bool.or_eq_true, Bool.and_eq_true, decide_eq_true_eq, beq_iff_eq]
    omega
  refine List.pairwise_map.2 (List.pairwise_flatMap.2 ⟨fun l _ => ?_, ?_⟩)
  · obtain ⟨hfirst, hlayer⟩ := chunks_spec (l := l) (chunkSize_pos o l.contexts)
    refine hfirst.imp_of_mem fun {q r} hq hr hlt => hstrict _ _ (Or.inr ⟨?_, hlt⟩)
    show q.layer.index = r.layer.index
    rw [(hlayer q hq).1, (hlayer r hr).1]
  · refine (numberedFrom_pairwise C.numbered).imp fun {l l'} hlt q hq r hr => hstrict _ _ (Or.inl ?_)
    obtain ⟨hq, _⟩ := (chunks_spec (chunkSize_pos o l.contexts)).2 q hq
    obtain ⟨hr, _⟩ := (chunks_spec (chunkSize_pos o l'.contexts)).2 r hr
    show q.layer.index < r.layer.index
    rw [hq, hr]
    exact hlt

/-- The pieces of a layer are those of its ranges. -/
theorem filter_pieces {ls : List Layer} (h : ls.Pairwise fun l l' => l.index < l'.index)
    (hl : l ∈ ls) (size : Layer → Nat) (hsize : ∀ l, 0 < size l) :
    ((ls.flatMap fun l => chunks l (size l)).map (pieceOf node)).filter (·.layer == l.index) =
      (chunks l (size l)).map (pieceOf node) := by
  have hlayer : ∀ l', ∀ p ∈ (chunks l' (size l')).map (pieceOf node), p.layer = l'.index := by
    intro l' p hp
    obtain ⟨r, hr, rfl⟩ := List.mem_map.1 hp
    rw [pieceOf, ((chunks_spec (hsize l')).2 r hr).1]
  have hnone : ∀ ls : List Layer, (∀ l' ∈ ls, l'.index ≠ l.index) →
      ((ls.flatMap fun l => chunks l (size l)).map (pieceOf node)).filter
        (·.layer == l.index) = [] := by
    intro ls hne
    refine List.filter_eq_nil_iff.2 fun p hp => ?_
    rw [List.map_flatMap] at hp
    obtain ⟨l', hl', hp⟩ := List.mem_flatMap.1 hp
    rw [hlayer l' p hp]
    simpa using hne l' hl'
  obtain ⟨as, bs, rfl⟩ := List.append_of_mem hl
  obtain ⟨_, hbs, has⟩ := List.pairwise_append.1 h
  rw [List.flatMap_append, List.flatMap_cons, List.map_append, List.map_append, List.filter_append,
    List.filter_append, hnone as fun l' hl' => Nat.ne_of_lt (has l' hl' l (List.mem_cons_self ..)),
    hnone bs fun l' hl' => Nat.ne_of_gt ((List.pairwise_cons.1 hbs).1 l' hl'), List.nil_append,
    List.append_nil, List.filter_eq_self]
  intro p hp
  simpa using hlayer l p hp

/-! ## Results in any order -/

/-- The node of a context, where there is one. -/
def nodeOf (s : Source W) (l : Layer) (c : Nat) : Node W :=
  (orNode s l c).toOption.getD terminalNode

theorem orNode_of_plainLevel {level : Level W} (h : plainLevel s l = .ok level) {c : Nat}
    (hc : c < l.contexts) : orNode s l c = .ok (nodeOf s l c) := by
  obtain ⟨nodes, hnodes, _⟩ := Outcome.bind_eq_ok_iff.1 h
  obtain ⟨n, _, hn⟩ := (Outcome.mem_of_mapM_ok hnodes).1 c (List.mem_range.2 hc)
  rw [nodeOf, hn]
  rfl

/-- The level that all nodes of a layer make. -/
theorem levelOf_pieces (C : Chain s.tree) (hl : l ∈ innerLayers s.tree)
    (hnodes : ∀ c < l.contexts, orNode s l c = .ok (node l c)) :
    levelOf ((tasks o s.tree).map (pieceOf node)) l = plainLevel s l := by
  have hall : ((chunks l (chunkSize o l.contexts)).map (pieceOf node)).flatMap (·.nodes) =
      (List.range l.contexts).map (node l) := by
    rw [← flatMap_chunks (node l) (chunkSize_pos o l.contexts), List.flatMap_map]
    refine List.flatMap_congr fun r hr => ?_
    rw [pieceOf, ((chunks_spec (chunkSize_pos o l.contexts)).2 r hr).1]
  have hrun : (List.range l.contexts).mapM (orNode s l) =
      .ok ((List.range l.contexts).map (node l)) :=
    Outcome.mapM_ok fun c hc => hnodes c (List.mem_range.1 hc)
  rw [levelOf, tasks, filter_pieces (numberedFrom_pairwise C.numbered) hl
    (fun l => chunkSize o l.contexts) fun l => chunkSize_pos o l.contexts, hall, plainLevel, hrun]
  simp [bind, Except.bind, pure, Except.pure]

/-- The results of all tasks, in whatever order they come, make the levels of the chain. -/
theorem assemblePieces_eq (C : Chain s.tree)
    (hlevels : (innerLayers s.tree).mapM (plainLevel s) = .ok levels)
    {results : List (Outcome (Piece W))}
    (h : results.Perm ((tasks o s.tree).map (workOn s false))) :
    assemblePieces s results = assemble s.labels s.tree levels := by
  have hplain : ∀ l ∈ innerLayers s.tree, ∀ c < l.contexts,
      orNode s l c = .ok (nodeOf s l c) := by
    intro l hl c hc
    obtain ⟨level, _, hlevel⟩ := (Outcome.mem_of_mapM_ok hlevels).1 l hl
    exact orNode_of_plainLevel hlevel hc
  have hwork : (tasks o s.tree).map (workOn s false) =
      ((tasks o s.tree).map (pieceOf (nodeOf s))).map .ok := by
    rw [List.map_map]
    refine List.map_congr_left fun r hr => ?_
    obtain ⟨l, hl, hr⟩ := List.mem_flatMap.1 hr
    obtain ⟨hlayer, hlast⟩ := (chunks_spec (chunkSize_pos o l.contexts)).2 r hr
    have hnodes : orNodes s r =
        .ok ((List.range (r.last - r.first)).map fun i => nodeOf s r.layer (r.first + i)) := by
      refine Outcome.mapM_ok fun i hi => ?_
      have hi := List.mem_range.1 hi
      rw [hlayer]
      exact hplain l hl _ (by omega)
    rw [workOn, hnodes]
    rfl
  rw [hwork] at h
  obtain ⟨pieces, hpieces, hperm⟩ := Outcome.mapM_id_of_perm h
  have hsort := mergeSort_eq_of_perm _ before_trans before_total (pieces_sorted C) hperm
  have hall : (innerLayers s.tree).mapM (levelOf ((tasks o s.tree).map (pieceOf (nodeOf s)))) =
      .ok levels := by
    rw [← hlevels]
    exact Outcome.mapM_congr fun l hl => levelOf_pieces C hl (hplain l hl)
  simp only [assemblePieces, hpieces, bind, Except.bind, hsort, hall]

end BayesCircuit.Parallel

/-! ## Compiling in parallel -/

namespace BayesCircuit.Parallel

open Multigraph PseudoTree SpanningTree

variable {W : Type} [DecidableEq W] [Hashable W] {s : Source W} {o : Options} {g : Multigraph W}

theorem workerCount_pos (o : Options) : 0 < o.pool.workers := by
  show 0 < o.workerCount
  unfold Options.workerCount
  split
  · exact Nat.lt_of_lt_of_le Nat.zero_lt_one (Nat.le_max_right ..)
  · rename_i h
    simpa [Nat.pos_iff_ne_zero] using h

theorem capacity_pos (o : Options) : 0 < o.pool.capacity :=
  Nat.lt_of_lt_of_le Nat.zero_lt_one (Nat.le_max_right ..)

/-- The results of the tasks of a chain, in any order, make the multigraph of the chain. -/
theorem assemblePieces_of_perm (C : Chain s.tree) (hsharing : s.sharing = false)
    (hg : Multigraph.compile s false = .ok g) {results : List (Outcome (Piece W))}
    (h : results.Perm ((tasks o s.tree).map (workOn s false))) :
    assemblePieces s results = .ok g := by
  obtain ⟨levels, hlevels, hassemble⟩ := compile_ok C hsharing hg
  rw [assemblePieces_eq C hlevels h, hassemble]

/-- Compiling a tree, as a numbered task. -/
def workOnTree (labels : LabelAlgebra W) (e : Encoding) :
    SpanningTree × Nat → Outcome (Nat × Multigraph W) := fun (t, i) => do
  return (i, ← Multigraph.compile ⟨t, e, labels, false⟩ false)

/-- The results of numbered tasks, in any order, are put in the order of their numbers. -/
theorem inOrder_of_perm {α : Type} {xs : List α} {results : List (Outcome (Nat × α))}
    (h : results.Perm ((xs.zipIdx.map fun (x, i) => (i, x)).map .ok)) :
    inOrder results = .ok xs := by
  obtain ⟨found, hfound, hperm⟩ := Outcome.mapM_id_of_perm h
  have hsorted : (xs.zipIdx.map fun (x, i) => (i, x)).Pairwise fun a b =>
      (decide (a.1 ≤ b.1)) = true ∧ (decide (b.1 ≤ a.1)) = false := by
    refine List.pairwise_map.2 (List.pairwise_iff_getElem.2 fun i j hi hj hij => ?_)
    simp only [List.getElem_zipIdx, decide_eq_true_eq, decide_eq_false_iff_not]
    omega
  have hsort := mergeSort_eq_of_perm (fun a b : Nat × α => decide (a.1 ≤ b.1))
    (fun a b c hab hbc => by
      simp only [decide_eq_true_eq] at *
      omega)
    (fun a b => by
      simp only [Bool.or_eq_true, decide_eq_true_eq]
      omega) hsorted hperm
  simp only [inOrder, hfound, bind, Except.bind, pure, Except.pure, hsort, List.map_map]
  rw [show (Prod.snd ∘ fun (p : α × Nat) => (p.2, p.1)) = Prod.fst from rfl, List.zipIdx_map_fst]

theorem map_workOnTree {labels : LabelAlgebra W} {e : Encoding} {trees : List SpanningTree}
    {gs : List (Multigraph W)}
    (h : trees.mapM (fun t => Multigraph.compile ⟨t, e, labels, false⟩ false) = .ok gs) :
    trees.zipIdx.map (workOnTree labels e) = (gs.zipIdx.map fun (g, i) => (i, g)).map .ok := by
  have hall := Outcome.mapM_eq_ok_iff.1 h
  refine List.ext_getElem (by simp [hall.length_eq]) fun i hi hj => ?_
  have hi' : i < trees.length := by simpa using hi
  have hj' : i < gs.length := by simpa using hj
  have hget := List.forall₂_iff_get.1 hall |>.2 i hi' hj'
  simp only [List.get_eq_getElem] at hget
  simp [workOnTree, hget, bind, Except.bind, pure, Except.pure]

/-- Compiling in parallel makes no difference. -/
theorem compile_parallel (o : Options) (labels : LabelAlgebra W) (e : Encoding) :
    (∀ {b : Bound} {t : PseudoTree} {e' : Encoding} {st : SpanningTree},
      ofPseudoTree b t e' = .ok st → st.branches = false →
      ∀ g, Multigraph.compile ⟨st, e, labels, false⟩ false = .ok g →
        compile o ⟨st, e, labels, false⟩ false = .ok g ∧
        ∀ results : List (Outcome (Piece W)),
          results.Perm ((tasks o st).map (workOn ⟨st, e, labels, false⟩ false)) →
          assemblePieces ⟨st, e, labels, false⟩ results = .ok g) ∧
    (∀ {trees : List SpanningTree} {gs : List (Multigraph W)},
      trees.mapM (fun t => Multigraph.compile ⟨t, e, labels, false⟩ false) = .ok gs →
        compileAll o labels e false trees false = .ok gs ∧
        ∀ results : List (Outcome (Nat × Multigraph W)),
          results.Perm (trees.zipIdx.map (workOnTree labels e)) → inOrder results = .ok gs) ∧
    (∀ {net : Network} {vs ordering : List Variable} {p : Partition} {t : PseudoTree}
      {st : SpanningTree} {shape : Shape} {options : EncodingOptions},
      net.WellFormed → Partition.ofOwned net vs = .ok p → build net p ordering shape = .ok t →
      Encoding.ofNetwork options net = .ok e → ofPseudoTree (.ofPartition net p) t e = .ok st →
      (shape = .chain → st.branches = false) ∧
        ∃ g, Multigraph.compile ⟨st, e, labels, false⟩ false = .ok g) := by
  refine ⟨fun {b t e' st} hst hplain g hg => ?_, fun {trees gs} hgs => ?_,
    fun {net vs ordering p t st shape options} hnet hp ht he hst => ?_⟩
  · have C := chain_ofPseudoTree hst hplain
    refine ⟨?_, fun results h => assemblePieces_of_perm C rfl hg h⟩
    have hcheck : checkTree (⟨st, e, labels, false⟩ : Source W) = .ok () := by
      simp [checkTree, checkSharing, hplain, bind, Except.bind, pure, Except.pure]
    rw [compile, hcheck]
    exact assemblePieces_of_perm C rfl hg (Pool.perm_run (workerCount_pos o) (capacity_pos o))
  · have hall : ∀ results : List (Outcome (Nat × Multigraph W)),
        results.Perm (trees.zipIdx.map (workOnTree labels e)) → inOrder results = .ok gs :=
      fun results h => inOrder_of_perm (map_workOnTree hgs ▸ h)
    exact ⟨hall _ (Pool.perm_run (workerCount_pos o) (capacity_pos o)), hall⟩
  · have hproper := Partition.proper_ofOwned hp
    obtain ⟨e', he', R⟩ := Encoding.ofNetwork_spec options hnet
    obtain rfl := Except.ok.inj (he.symm.trans he')
    obtain ⟨g, hg, _⟩ := compile_partition hnet hproper ht hst
      (weighing_trivial hnet hproper R labels) (fun _ _ _ _ _ => rfl) false [] fun _ => 0
    refine ⟨?_, g, hg⟩
    rintro rfl
    exact branches_chain hproper ht hst

theorem compile_parallel_twoCoins : ∃ t e st g,
    build twoCoins ⟨[0, 1], []⟩ [0, 1] .chain = .ok t ∧
    Encoding.ofNetwork ⟨true, true⟩ twoCoins = .ok e ∧
    ofPseudoTree (.ofPartition twoCoins ⟨[0, 1], []⟩) t e = .ok st ∧ st.branches = false ∧
    Multigraph.compile ⟨st, e, Weights.label.toLabelAlgebra, false⟩ false = .ok g ∧
    compile ⟨2, .shared, .node, 1, 4⟩ ⟨st, e, Weights.label.toLabelAlgebra, false⟩ false = .ok g ∧
    compileAll ⟨2, .shared, .node, 1, 4⟩ Weights.label.toLabelAlgebra e false [st, st] false =
      .ok [g, g] := by
  have hp := Partition.proper_ofOwned ofOwned_twoCoins
  obtain ⟨t, ht⟩ := exists_build hp (show [0, 1].Perm _ by decide) .chain
  obtain ⟨e, he, R⟩ := Encoding.ofNetwork_spec ⟨true, true⟩ wellFormed_twoCoins
  obtain ⟨st, hst⟩ := exists_ofPseudoTree wellFormed_twoCoins hp ht R (by decide +kernel)
  obtain ⟨hone, hall, hsome⟩ :=
    compile_parallel ⟨2, .shared, .node, 1, 4⟩ Weights.label.toLabelAlgebra e
  obtain ⟨hplain, g, hg⟩ := hsome wellFormed_twoCoins ofOwned_twoCoins ht he hst
  have hgs : [st, st].mapM (fun t => Multigraph.compile
      ⟨t, e, Weights.label.toLabelAlgebra, false⟩ false) = .ok [g, g] :=
    Outcome.mapM_eq_ok_iff.2 (.cons hg (.cons hg .nil))
  exact ⟨t, e, st, g, ht, he, hst, hplain rfl, hg, (hone hst (hplain rfl) g hg).1, (hall hgs).1⟩

end BayesCircuit.Parallel
