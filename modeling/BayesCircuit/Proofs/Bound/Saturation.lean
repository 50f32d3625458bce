import BayesCircuit.Proofs.Bound.Forest
import BayesCircuit.Proofs.Bound.Walk
import BayesCircuit.Proofs.Multigraph.Size

/-!
# Bounds that saturate

In machine words, the sum of the costs of the levels has a result exactly if the bound fits
(`sumFrom_word_eq`). A level without completed constraints costs no weights, but its width is
multiplied out all the same. If no constraint ends with a variable, the next level is as wide as all
edges of its level (`widthAt_of_ending_nil`), so the edges of every level are counted by the weights
of a later one, and a width that does not fit belongs to a bound that does not fit either.
-/

namespace BayesCircuit.Bound

open Collection.Ascending Tally

variable {b : Bound} {e : Elimination} {u v : Variable} {vs us : List Variable} {c : Nat}
variable {measure : Measure}

/-! ## Levels that no constraint ends -/

/-- If no constraint ends with a variable, each of its constraints has a variable to come. -/
theorem meets_of_ending_nil (B : b.Indexed) (h : b.ending v vs = []) (hc : v ∈ b.scope c) :
    b.meets vs c = true := by
  by_contra hnone
  have hmem : c ∈ b.ending v vs := (mem_ending B).2 ⟨hc, Bool.eq_false_iff.2 hnone⟩
  exact List.not_mem_nil (h ▸ hmem)

/-- Then the variable joins the frontier, which loses nothing. -/
theorem frontier_of_ending_nil (B : b.Indexed) (hv : v ∉ vs) (hmentioned : b.mentioning v ≠ [])
    (h : b.ending v vs = []) : (b.frontier vs).Perm (v :: b.frontier (v :: vs)) := by
  have hself : v ∉ b.frontier (v :: vs) := fun hmem =>
    ((mem_frontier B).1 hmem).1 (List.mem_cons_self ..)
  refine (List.perm_ext_iff_of_nodup strict_frontier.nodup
    (List.nodup_cons.2 ⟨hself, strict_frontier.nodup⟩)).2 fun u => ?_
  have hmeets : ∀ c, b.meets (v :: vs) c = true ↔ b.meets vs c = true := by
    intro c
    simp only [meets_iff, List.mem_cons, exists_eq_or_imp]
    exact or_iff_right_of_imp fun hc => meets_iff.1 (meets_of_ending_nil B h hc)
  rw [List.mem_cons, mem_frontier B, mem_frontier B]
  simp only [hmeets, List.mem_cons, not_or]
  by_cases huv : u = v
  · subst huv
    obtain ⟨c, hc⟩ := List.exists_mem_of_ne_nil _ hmentioned
    have hscope := (B.mem_mentioning u c).1 hc
    exact iff_of_true ⟨hv, c, meets_of_ending_nil B h hscope, hscope⟩ (Or.inl rfl)
  · simp [huv]

theorem widthAt_of_ending_nil (B : b.Indexed) (hv : v ∉ vs) (hmentioned : b.mentioning v ≠ [])
    (h : b.ending v vs = []) : b.widthAt vs = b.widthAt (v :: vs) * b.dim v := by
  rw [widthAt, ((frontier_of_ending_nil B hv hmentioned h).map b.dim).prod_eq, List.map_cons,
    List.prod_cons, Nat.mul_comm]
  rfl

/-- The edges of a level are no more than the weights of it and the levels after it: they are counted
where the next constraint ends. -/
theorem edges_le_weights (B : b.Indexed) : ∀ {vs : List Variable} {v : Variable}, (v :: vs).Nodup →
    (∀ u ∈ v :: vs, 0 < b.dim u ∧ b.mentioning u ≠ []) →
    b.widthAt (v :: vs) * b.dim v ≤ b.pathCost .weights (v :: vs)
  | vs, v, hnodup, hvs => by
      obtain ⟨hv, hnodup'⟩ := List.nodup_cons.1 hnodup
      obtain ⟨⟨_, hmentioned⟩, hvs'⟩ := List.forall_mem_cons.1 hvs
      by_cases hends : b.ending v vs = []
      · rw [pathCost, hends, ← widthAt_of_ending_nil B hv hmentioned hends]
        cases vs with
        | nil =>
            obtain ⟨c, hc⟩ := List.exists_mem_of_ne_nil _ hmentioned
            obtain ⟨x, hx, _⟩ := meets_iff.1
              (meets_of_ending_nil B hends ((B.mem_mentioning v c).1 hc))
            exact absurd hx List.not_mem_nil
        | cons w ws =>
            have hdim := (hvs' w (List.mem_cons_self ..)).1
            calc b.widthAt (w :: ws) ≤ b.widthAt (w :: ws) * b.dim w := Nat.le_mul_of_pos_right _ hdim
              _ ≤ b.pathCost .weights (w :: ws) := edges_le_weights B hnodup' hvs'
              _ ≤ _ := Nat.le_add_left _ _
      · have hone : 1 ≤ (b.ending v vs).length := List.length_pos_iff.2 hends
        rw [pathCost, cost]
        exact (Nat.le_mul_of_pos_right _ hone).trans (Nat.le_add_right _ _)

/-- What a level multiplies out is no more than the bound. -/
theorem factorAt_le_pathCost (B : b.Indexed) (hnodup : (v :: vs).Nodup)
    (hvs : ∀ u ∈ v :: vs, 0 < b.dim u ∧ b.mentioning u ≠ []) :
    b.factorAt measure v vs ≤ b.pathCost measure (v :: vs) := by
  cases measure with
  | nodes => exact Nat.le_add_right _ _
  | edges => exact Nat.le_add_right _ _
  | weights => exact edges_le_weights B hnodup hvs
  | operators =>
      exact (Nat.le_mul_of_pos_right _ (Nat.succ_pos _)).trans (Nat.le_add_right _ _)

/-! ## Machine words -/

theorem word?_eq_some {n m : Nat} (h : word? n = some m) : m = n ∧ n < wordSize := by
  rw [word?] at h
  split at h
  · exact ⟨(Option.some.inj h).symm, ‹_›⟩
  · cases h

/-- What is found in machine words is the cost of a level. -/
theorem cost_of_levelCost_word {dim ended width n : Nat}
    (h : Elimination.levelCost .word measure dim ended width = some n) :
    n = cost measure width dim ended := by
  cases measure with
  | nodes => exact (Option.some.inj h).symm
  | edges => exact (word?_eq_some h).1
  | weights =>
      obtain ⟨m, hm, hn⟩ := Option.bind_eq_some_iff.1 h
      rw [cost, (word?_eq_some hn).1, (word?_eq_some hm).1]
  | operators =>
      obtain ⟨m, hm, hn⟩ := Option.bind_eq_some_iff.1 h
      rw [cost, (word?_eq_some hn).1, (word?_eq_some hm).1]

theorem prod_of_foldlM_word {dims : List Nat} {k n : Nat}
    (h : dims.foldlM Tally.word.mul? k = some n) : n = k * dims.prod := by
  induction dims generalizing k with
  | nil => exact (Option.some.inj h).symm.trans (Nat.mul_one k).symm
  | cons d dims ih =>
      rw [List.foldlM_cons] at h
      obtain ⟨m, hm, hn⟩ := Option.bind_eq_some_iff.1 h
      rw [ih hn, (word?_eq_some hm).1, List.prod_cons, Nat.mul_assoc]

/-- What the levels of an ordering sum up to in machine words is what they cost. -/
theorem pathCost_of_sumFrom_word (B : b.Indexed) : ∀ {vs : List Variable} {e : Elimination}
    {k n : Nat}, vs.Nodup → Walked b vs e → k < wordSize →
    sumFrom .word measure b vs e k = some n → n = k + b.pathCost measure vs ∧ n < wordSize
  | [], e, k, n, _, _, hk, h => by
      obtain rfl := Option.some.inj h
      exact ⟨rfl, hk⟩
  | v :: vs, e, k, n, hnodup, W, _, h => by
      obtain ⟨hv, hvs⟩ := List.nodup_cons.1 hnodup
      obtain ⟨e', hvisit, W'⟩ := W.visit B hv
      rw [sumFrom, Elimination.eliminate] at h
      cases hwidth : e.width .word b with
      | none =>
          rw [hwidth] at h
          cases h
      | some width =>
          have hprod : width = b.widthAt (v :: vs) := by
            rw [Elimination.width, widthFrom_eq, W.spanning] at hwidth
            exact (prod_of_foldlM_word hwidth).trans (Nat.one_mul _)
          rw [hwidth] at h
          simp only [hvisit] at h
          cases hlevel : Elimination.levelCost .word measure (b.dim v) (b.ending v vs).length width with
          | none =>
              rw [hlevel] at h
              cases h
          | some level =>
              have hlevel' := hprod ▸ cost_of_levelCost_word hlevel
              rw [hlevel] at h
              simp only [] at h
              cases hadd : Tally.word.add? k level with
              | none =>
                  rw [hadd] at h
                  cases h
              | some sum =>
                  obtain ⟨hsum, hfits⟩ := word?_eq_some hadd
                  rw [hadd] at h
                  obtain ⟨hn, hsmall⟩ := pathCost_of_sumFrom_word B hvs W' (hsum ▸ hfits) h
                  refine ⟨?_, hsmall⟩
                  rw [hn, hsum, hlevel', pathCost, Nat.add_assoc]

/-- In machine words, the levels of an ordering sum up to what they cost if this fits, and to nothing
otherwise. -/
theorem sumFrom_word_eq (B : b.Regular) {k : Nat} (hnodup : vs.Nodup)
    (hvs : ∀ v ∈ vs, 0 < b.dim v ∧ b.mentioning v ≠ []) (W : Walked b vs e) (hk : k < wordSize) :
    sumFrom .word measure b vs e k = word? (k + b.pathCost measure vs) := by
  rw [word?]
  split
  · refine sumFrom_word B hnodup (fun v hv => (hvs v hv).1) W (fun v us hus => ?_) ‹_›
    have hle : b.factorAt measure v us ≤ b.pathCost measure (v :: us) :=
      factorAt_le_pathCost B.toIndexed (hnodup.sublist hus.sublist) fun u hu =>
        hvs u (hus.subset hu)
    exact (hle.trans (pathCost_le_of_suffix hus)).trans_lt (by omega)
  · cases hrun : sumFrom .word measure b vs e k with
    | none => rfl
    | some n =>
        obtain ⟨rfl, hsmall⟩ := pathCost_of_sumFrom_word B.toIndexed hnodup W hk hrun
        exact absurd hsmall ‹_›

/-! ## Orderings that can be walked along -/

/-- The next variable of a walk has been counted in each of its constraints. -/
theorem Walked.admits (B : b.Indexed) (hv : v ∉ vs) (hlt : v < b.dims.size)
    (W : Walked b (v :: vs) e) : e.admits b v = true := by
  rw [Elimination.admits, Bool.and_eq_true, decide_eq_true_eq, List.all_eq_true]
  refine ⟨hlt, fun c hc => decide_eq_true ?_⟩
  have hcount : (b.mentioning v).count c ≤ 1 := List.nodup_iff_count_le_one.1 (B.nodup_mentioning v) c
  rw [W.unvisited, countIn_cons B hv, if_pos ((B.mem_mentioning v c).1 hc)]
  exact hcount.trans (Nat.le_add_left _ _)

theorem admitsFrom_of_walked (B : b.Indexed) : ∀ {vs : List Variable} {e : Elimination}, vs.Nodup →
    (∀ v ∈ vs, v < b.dims.size) → Walked b vs e → b.admitsFrom vs e = true
  | [], _, _, _, _ => rfl
  | v :: vs, e, hnodup, hlt, W => by
      obtain ⟨hv, hvs⟩ := List.nodup_cons.1 hnodup
      obtain ⟨hfirst, hrest⟩ := List.forall_mem_cons.1 hlt
      obtain ⟨e', hvisit, W'⟩ := W.visit B hv
      rw [admitsFrom, W.admits B hv hfirst, hvisit]
      exact admitsFrom_of_walked B hvs hrest W'

/-- An ordering of different variables that covers all constraints can be walked along. -/
theorem check_eq_ok (B : b.Indexed) (hnodup : vs.Nodup) (hlt : ∀ v ∈ vs, v < b.dims.size)
    (hscope : ∀ c, b.scope c ⊆ vs) : b.check vs = .ok () := by
  have hlength : vs.length ≤ b.dims.size := by
    have hsub := List.subperm_of_subset hnodup fun v hv => List.mem_range.2 (hlt v hv)
    exact hsub.length_le.trans_eq List.length_range
  have hrange : vs.all (· < b.dims.size) = true :=
    List.all_eq_true.2 fun v hv => decide_eq_true (hlt v hv)
  rw [check, admitsFrom_of_walked B hnodup hlt (walked_start B hscope), hrange,
    decide_eq_true hlength]
  rfl

/-! ## Partitions -/

variable {net : Network} {p : Partition} {owned ordering : List Variable}

/-- Every variable of a partition is mentioned by a constraint. -/
theorem mentioning_ne_nil (hnet : net.Linked) (hp : p.Proper net) (hv : v ∈ p.scope) :
    (ofPartition net p).mentioning v ≠ [] := by
  obtain ⟨c, hc, hvc⟩ := hp.mem_scope.1 hv
  exact List.ne_nil_of_mem ((mem_mentioning hnet).2 ((mem_scope hp).2 ⟨hc, hvc⟩))

/-- Every ordering of a partition can be walked along, and its bound in machine words is the exact
one if that fits and saturated otherwise, whatever is multiplied out on the way. -/
theorem compute_saturates (hnet : net.Linked) (hdim : ∀ v, v < net.size → 0 < net.dimOf v)
    (hp : Partition.ofOwned net owned = .ok p) (hordering : ordering.Perm p.scope)
    (measure : Measure) :
    (ofPartition net p).check ordering = .ok () ∧
      (ofPartition net p).sum? .exact measure ordering =
        some ((ofPartition net p).exact measure ordering) ∧
      (ofPartition net p).checked? measure ordering =
        (if (ofPartition net p).exact measure ordering ≤ saturated then
          some ((ofPartition net p).exact measure ordering) else none) ∧
      (ofPartition net p).compute measure ordering =
        if (ofPartition net p).exact measure ordering ≤ saturated then
          (ofPartition net p).exact measure ordering else saturated := by
  have hproper := Partition.proper_ofOwned hp
  have B := regular_ofPartition hnet hdim hproper
  have hnodup := hordering.nodup_iff.2 hproper.strict_scope.nodup
  have hlt : ∀ v ∈ ordering, v < net.size := fun v hv =>
    hproper.scope_lt hnet (hordering.mem_iff.1 hv)
  have hscope : ∀ c, (ofPartition net p).scope c ⊆ ordering := fun c u hu =>
    hordering.mem_iff.2 (hproper.mem_scope.2 ⟨c, (mem_scope hproper).1 hu⟩)
  have hvs : ∀ v ∈ ordering, 0 < (ofPartition net p).dim v ∧
      (ofPartition net p).mentioning v ≠ [] := fun v hv =>
    ⟨hdim v (hlt v hv), mentioning_ne_nil hnet hproper (hordering.mem_iff.1 hv)⟩
  have hexact : (ofPartition net p).exact measure ordering = _ :=
    exact_eq B.toIndexed hnodup hscope
  have hchecked : (ofPartition net p).checked? measure ordering =
      if (ofPartition net p).exact measure ordering ≤ saturated then
        some ((ofPartition net p).exact measure ordering) else none := by
    have hsum : (ofPartition net p).checked? measure ordering =
        word? (0 + (ofPartition net p).pathCost measure ordering) :=
      sumFrom_word_eq B hnodup hvs (walked_start B.toIndexed hscope) (by decide)
    rw [Nat.zero_add, ← hexact] at hsum
    exact hsum.trans (if_congr (Nat.lt_iff_le_pred (by decide)) rfl rfl)
  refine ⟨check_eq_ok B.toIndexed hnodup (fun v hv => size_dims ▸ hlt v hv) hscope, ?_, hchecked, ?_⟩
  · rw [sum?, sumFrom_exact B.toIndexed hnodup (walked_start B.toIndexed hscope), hexact]
    exact congrArg some (Nat.zero_add _)
  · rw [compute, hchecked]
    split <;> rfl

/-- Eleven dials with 64 positions, and for each of them a lock that depends on it. -/
def dialsAndLocks : Network where
  nodes :=
    Array.replicate 11 ⟨"dial", Array.replicate 64 "", [], Array.replicate 64 ⟨0x3F90000000000000⟩⟩ ++
      (Array.range 11).map fun d =>
        ⟨"lock", #["open", "shut"], [d], Array.replicate 128 ⟨0x3FE0000000000000⟩⟩

theorem linked_dialsAndLocks : dialsAndLocks.Linked := by
  have hall : ∀ v, (hv : v < dialsAndLocks.size) →
      (∀ p ∈ dialsAndLocks.nodes[v].parents, p < dialsAndLocks.size) ∧
        dialsAndLocks.nodes[v].parents.Nodup ∧ v ∉ dialsAndLocks.nodes[v].parents := by
    decide +kernel
  have hnode : ∀ {v : Variable} {n : Network.Node}, dialsAndLocks.nodes[v]? = some n →
      (∀ p ∈ n.parents, p < dialsAndLocks.size) ∧ n.parents.Nodup ∧ v ∉ n.parents := by
    intro v n hn
    obtain ⟨hv, rfl⟩ := Array.getElem?_eq_some_iff.1 hn
    exact hall v hv
  exact ⟨fun hn => (hnode hn).1, fun hn => (hnode hn).2.1, fun hn => (hnode hn).2.2⟩

/-- All dials are set before the first lock is tried: the positions of the dials do not fit a word,
at a level where no constraint ends. -/
theorem compute_saturates_dialsAndLocks : ∃ p,
    Partition.ofOwned dialsAndLocks ((List.range 11).map (· + 11)) = .ok p ∧
    saturated < (ofPartition dialsAndLocks p).exact .weights (List.range 22) ∧
    (ofPartition dialsAndLocks p).check (List.range 22) = .ok () ∧
    (ofPartition dialsAndLocks p).checked? .weights (List.range 22) = none ∧
    (ofPartition dialsAndLocks p).compute .weights (List.range 22) = saturated := by
  let p : Partition := ⟨(List.range 11).map (· + 11), List.range 11⟩
  have hp : Partition.ofOwned dialsAndLocks ((List.range 11).map (· + 11)) = .ok p := by
    decide +kernel
  have hlarge : saturated < (ofPartition dialsAndLocks p).exact .weights (List.range 22) := by
    decide +kernel
  have hperm : (List.range 22).Perm p.scope := by decide +kernel
  obtain ⟨hcheck, -, hchecked, hcompute⟩ := compute_saturates linked_dialsAndLocks
    (by decide +kernel) hp hperm .weights
  rw [if_neg (Nat.not_le_of_lt hlarge)] at hchecked hcompute
  exact ⟨p, hp, hlarge, hcheck, hchecked, hcompute⟩

end BayesCircuit.Bound

/-!
## Three ways of counting

What a bound finds by walking along an ordering, what the layers of the spanning tree sum up to and
what a compiled chain has are the same numbers, and so are the bound along the branches and the
totals of the tree's layers (`sizes_agree`): all of them follow from the frontiers of the variables.
-/

namespace BayesCircuit.Bound

open Multigraph PseudoTree SpanningTree

variable {net : Network} {p : Partition} {ordering owned : List Variable} {t : PseudoTree}
variable {e : Encoding} {st : SpanningTree} {options : EncodingOptions} {b : Bound}
variable {ls : List Layer} {top : Layer}

/-! ### Totals of layers -/

theorem saturate_eq {n : Nat} (h : n < wordSize) : saturate n = n :=
  Nat.min_eq_left (Nat.le_sub_one_of_lt h)

/-- Layers that do not branch have no and nodes. -/
theorem sum_andNodes (h : ∀ l ∈ ls, l.branches = false) :
    (ls.map Layer.andNodes).sum = 0 ∧ (ls.map Layer.andEdges).sum = 0 := by
  have hnodes : ∀ l ∈ ls, l.andNodes = 0 := fun l hl => by simp [Layer.andNodes, h l hl]
  have hedges : ∀ l ∈ ls, l.andEdges = 0 := fun l hl => by simp [Layer.andEdges, hnodes l hl]
  rw [List.map_congr_left hnodes, List.map_congr_left hedges]
  simp

/-- The totals of a chain are what its layers cost, if that fits. -/
theorem totals_chain (htop : top.contexts = 0) (hplain : ∀ l ∈ ls, l.branches = false)
    (hcost : ∀ measure, (ls.map (layerCost measure)).sum = b.pathCost measure ordering)
    (hfits : ∀ measure, b.pathCost measure ordering < wordSize)
    (htotals : st.totals = .ofLayers (top :: ls)) :
    st.totals.orNodes = b.pathCost .nodes ordering ∧ st.edgeBound = b.pathCost .edges ordering ∧
      st.totals.weights = b.pathCost .weights ordering := by
  obtain ⟨_, hedges⟩ := sum_andNodes hplain
  have htop' : top.orNodes = 0 ∧ top.orEdges = 0 ∧ top.andEdges = 0 ∧ top.weights = 0 := by
    simp [Layer.orNodes, Layer.orEdges, Layer.andEdges, Layer.andNodes, Layer.weights, htop]
  obtain ⟨h₁, h₂, h₃, h₄⟩ := htop'
  have hzero : saturate 0 = 0 := rfl
  have hor : (ls.map Layer.orNodes).sum = b.pathCost .nodes ordering := hcost .nodes
  have hedge : (ls.map Layer.orEdges).sum = b.pathCost .edges ordering := hcost .edges
  have hweight : (ls.map Layer.weights).sum = b.pathCost .weights ordering := hcost .weights
  simp only [htotals, LayerTotals.ofLayers, edgeBound, sumOf_eq, List.map_cons, List.sum_cons, h₁, h₂, h₃, h₄,
    Nat.zero_add, hedges, hzero, Nat.add_zero, hor, hedge, hweight, saturate_eq (hfits _),
    and_self]

/-- The totals of a tree have room for its nodes, if that fits. -/
theorem totals_tree (htop : top.contexts = 0) {total : Nat} (hnodes : (ls.map Layer.nodes).sum = total)
    (hfits : total < wordSize) (htotals : st.totals = .ofLayers (top :: ls)) :
    st.totals.orNodes + st.totals.andNodes = total := by
  have hsplit : (ls.map Layer.orNodes).sum + (ls.map Layer.andNodes).sum = total := by
    rw [← hnodes, ← List.sum_map_add]
    rfl
  have htop' : top.orNodes = 0 ∧ top.andNodes = 0 := by
    simp [Layer.orNodes, Layer.andNodes, htop]
  obtain ⟨h₁, h₂⟩ := htop'
  simp only [htotals, LayerTotals.ofLayers, sumOf_eq, List.map_cons, List.sum_cons, h₁, h₂,
    Nat.zero_add]
  rw [saturate_eq (by omega), saturate_eq (by omega), hsplit]

/-! ### Agreement -/

/-- The bound of an ordering, the totals of the layers of its chain and the size of the compiled
chain agree, and so do the bound along the branches and the totals of the layers of its tree. -/
theorem sizes_agree (ordering : List Variable) (hnet : net.WellFormed) (hp : Partition.ofOwned net owned = .ok p)
    (he : Encoding.ofNetwork options net = .ok e) :
    (∀ {t st}, build net p ordering .chain = .ok t →
      ofPseudoTree (.ofPartition net p) t e = .ok st →
      (∀ measure, (ofPartition net p).exact measure ordering < wordSize) →
      (ofPartition net p).compute .nodes ordering = st.totals.orNodes ∧
      (ofPartition net p).compute .edges ordering = st.edgeBound ∧
      (ofPartition net p).compute .weights ordering = st.totals.weights ∧
      (options.determinism = false →
        ∃ g, Multigraph.compile ⟨st, e, Weights.label.toLabelAlgebra, false⟩ false = .ok g ∧
          (g.size Weights.label.weightCount).nodes = (ofPartition net p).compute .nodes ordering ∧
          (g.size Weights.label.weightCount).edges = (ofPartition net p).compute .edges ordering ∧
          (g.size Weights.label.weightCount).weights =
            (ofPartition net p).compute .weights ordering ∧
          (g.size Weights.label.weightCount).operators =
            (ofPartition net p).compute .operators ordering)) ∧
    (∀ {t st}, build net p ordering .tree = .ok t →
      ofPseudoTree (.ofPartition net p) t e = .ok st →
      (∀ total, (ofPartition net p).treeSum? .exact ordering = some total → total < wordSize) →
      (ofPartition net p).treeNodes ordering = st.totals.orNodes + st.totals.andNodes ∧
      t.width = (st.layers.toList.map (·.spanning.length)).foldl max 0) := by
  have hproper := Partition.proper_ofOwned hp
  have B := regular_ofPartition hnet.linked (fun _ => hnet.dim_pos) hproper
  obtain ⟨e', he', R⟩ := Encoding.ofNetwork_spec options hnet
  obtain rfl := Except.ok.inj (he.symm.trans he')
  refine ⟨fun {t st} ht hst hfits => ?_, fun {t st} ht hst hfits => ?_⟩
  · obtain ⟨hperm, _⟩ := (build_ok_iff hproper).1 ht
    have hnodup := hperm.nodup_iff.2 hproper.strict_scope.nodup
    have hscope : ∀ c, (ofPartition net p).scope c ⊆ ordering := fun c u hu =>
      hperm.mem_iff.2 (hproper.mem_scope.2 ⟨c, (mem_scope hproper).1 hu⟩)
    have hpos : ∀ v ∈ ordering, 0 < (ofPartition net p).dim v := fun v hv =>
      hnet.dim_pos (hproper.scope_lt hnet.linked (hperm.mem_iff.1 hv))
    have hexact : ∀ measure, (ofPartition net p).pathCost measure ordering < wordSize := by
      intro measure
      rw [← exact_eq B.toIndexed hnodup hscope]
      exact hfits measure
    have hcompute : ∀ measure, (ofPartition net p).compute measure ordering =
        (ofPartition net p).pathCost measure ordering := fun measure =>
      compute_eq B hnodup hpos hscope (hexact .edges) (hexact measure)
    obtain ⟨top, below, hlayers, htop, hshows, htotals⟩ :=
      shows_ofPseudoTree hnet.valued hproper ht hst
    rw [rootsFor_chain hnodup] at hshows
    obtain ⟨hinner, _⟩ := layers_spec hlayers
    have hcost : ∀ measure, (below.flatten.map (layerCost measure)).sum =
        (ofPartition net p).pathCost measure ordering := fun measure => (hshows.cost measure).1
    have hplain := (hshows.cost .nodes).2
    obtain ⟨hor, hedges, hweights⟩ := totals_chain htop.contexts hplain hcost hexact htotals
    rw [hcompute, hcompute, hcompute, hcompute]
    refine ⟨hor.symm, hedges.symm, hweights.symm, fun hreserved => ?_⟩
    obtain ⟨g, hg, hsize⟩ := size_chain hnet hproper ht R hreserved hst
    refine ⟨g, hg, ?_⟩
    rw [show Weights.label.weightCount = List.length from rfl, hsize, hinner]
    exact ⟨hcost .nodes, hcost .edges, hcost .weights, hcost .operators⟩
  · obtain ⟨hperm, htree⟩ := (build_ok_iff hproper).1 ht
    obtain ⟨top, below, hlayers, htop, hshows, htotals⟩ :=
      shows_ofPseudoTree hnet.valued hproper ht hst
    obtain ⟨hexact, hwidth⟩ :=
      treeSum?_partition hnet hproper hperm LevelArithmetic.counts_exact trivial
    have hsmall := hfits _ hexact
    obtain ⟨hword, _⟩ := treeSum?_partition hnet hproper hperm LevelArithmetic.counts_word hsmall
    refine ⟨?_, ?_⟩
    · rw [totals_tree htop.contexts hshows.nodes hsmall htotals, treeNodes, hword, Option.getD_some]
      rfl
    · rw [hlayers, List.map_cons, List.map_append, hshows.spanningSizes, htop.spanning, htree]
      simp only [List.length_nil, List.foldl_cons, Nat.max_self, List.foldl_append, List.map_cons,
        List.map_nil, List.foldl_nil, terminalLayer, Nat.max_zero]
      exact hwidth

theorem sizes_agree_twoCoins : ∃ e t st g t' st',
    Encoding.ofNetwork ⟨false, true⟩ twoCoins = .ok e ∧
    build twoCoins ⟨[0, 1], []⟩ [0, 1] .chain = .ok t ∧
    ofPseudoTree (.ofPartition twoCoins ⟨[0, 1], []⟩) t e = .ok st ∧
    Multigraph.compile ⟨st, e, Weights.label.toLabelAlgebra, false⟩ false = .ok g ∧
    (g.size Weights.label.weightCount).weights =
      (ofPartition twoCoins ⟨[0, 1], []⟩).compute .weights [0, 1] ∧
    (ofPartition twoCoins ⟨[0, 1], []⟩).compute .weights [0, 1] = st.totals.weights ∧
    build twoCoins ⟨[0, 1], []⟩ [0, 1] .tree = .ok t' ∧
    ofPseudoTree (.ofPartition twoCoins ⟨[0, 1], []⟩) t' e = .ok st' ∧
    (ofPartition twoCoins ⟨[0, 1], []⟩).treeNodes [0, 1] =
      st'.totals.orNodes + st'.totals.andNodes ∧
    t'.width = (st'.layers.toList.map (·.spanning.length)).foldl max 0 := by
  have hp := Partition.proper_ofOwned ofOwned_twoCoins
  obtain ⟨t, ht⟩ := exists_build hp (show [0, 1].Perm _ by decide) .chain
  obtain ⟨t', ht'⟩ := exists_build hp (show [0, 1].Perm _ by decide) .tree
  obtain ⟨e, he, R⟩ := Encoding.ofNetwork_spec ⟨false, true⟩ wellFormed_twoCoins
  obtain ⟨st, hst⟩ := exists_ofPseudoTree wellFormed_twoCoins hp ht R (by decide +kernel)
  obtain ⟨st', hst'⟩ := exists_ofPseudoTree wellFormed_twoCoins hp ht' R (by decide +kernel)
  obtain ⟨hchain, htree⟩ := sizes_agree [0, 1] wellFormed_twoCoins ofOwned_twoCoins he
  have hfits : ∀ measure,
      (ofPartition twoCoins ⟨[0, 1], []⟩).exact measure [0, 1] < wordSize := by
    rintro (_ | _ | _ | _) <;> decide +kernel
  have hfits' : ∀ total, (ofPartition twoCoins ⟨[0, 1], []⟩).treeSum? .exact [0, 1] = some total →
      total < wordSize := by
    have hthree : (ofPartition twoCoins ⟨[0, 1], []⟩).treeSum? .exact [0, 1] = some 3 := by
      decide +kernel
    rintro total h
    obtain rfl := Option.some.inj (hthree.symm.trans h)
    decide
  obtain ⟨_, _, hweights, hsize⟩ := hchain ht hst hfits
  obtain ⟨g, hg, _, _, hcompiled, _⟩ := hsize rfl
  obtain ⟨hnodes, hwidth⟩ := htree ht' hst' hfits'
  exact ⟨e, t, st, g, t', st', he, ht, hst, hg, hcompiled, hweights, ht', hst', hnodes, hwidth⟩

end BayesCircuit.Bound
