import BayesCircuit.Proofs.Multigraph.Level
import BayesCircuit.Proofs.Multigraph.Partition
import BayesCircuit.Proofs.Multigraph.Search
import BayesCircuit.Proofs.Parallel.Plain
import BayesCircuit.Proofs.SpanningTree.Descent
import BayesCircuit.Proofs.SpanningTree.Frontier
import Mathlib.Data.List.Induction

/-!
# The size of a compiled chain

If no row has the weight zero, every edge of a chain leads to the layer below and is labelled with
one weight for each table that it completes (`directEdge_spec`). Whatever values the variables of a
context have, they are also the values of a context of the layer above, from which an edge leads
there (`exists_context`). So every node of a compiled chain is below the root (`Unshared.reached`).

If every node is below the root, the size counts the nodes of all levels (`size_of_reached`). In a
chain without sharing and without reserved weights, a level has one node for each context of its
layer, with one edge for each value and one weight for each message. So the size of a chain is what
its layers cost (`Unshared.size_eq`).
-/

/-! ## The contexts of a chain -/

namespace BayesCircuit.Multigraph

open Arrangement Parallel PseudoTree SpanningTree

variable {s : Source Weights} {plan : SpanningTree.Source} {l next : Layer} {ls : List Layer}
variable {v : Variable} {above : List Variable} {cs : List Nat} {c k : Nat} {n : Node Weights}
variable {context : List Nat} {ρ : Assignment} {edge : Edge Weights}

/-! ## Labels that count their weights -/

/-- A power of two for the number of weights; nothing if one of them is zero. -/
def countWorth (ws : Weights) : Nat := if 0 ∈ ws then 0 else 2 ^ ws.length

/-- Every row adds one weight, which is not zero. -/
abbrev Counting (e : Encoding) (scope : Nat → List Variable) (dim : Variable → Nat)
    (labels : LabelAlgebra Weights) : Prop :=
  Weighing e scope dim labels countWorth fun _ _ => 2

theorem perm_insert {w : Weight} {ws : Weights} : (Weights.insert w ws).Perm (w :: ws) := by
  induction ws with
  | nil => exact .refl _
  | cons x ws ih =>
      unfold Weights.insert
      split
      · exact (ih.cons x).trans (.swap w x ws)
      · exact .refl _

theorem countWorth_insert {w : Weight} {ws : Weights} (hw : w ≠ 0) :
    countWorth (Weights.insert w ws) = countWorth ws * 2 := by
  have hmem : 0 ∈ Weights.insert w ws ↔ 0 ∈ ws := by
    rw [perm_insert.mem_iff, List.mem_cons, or_iff_right (Ne.symm hw)]
  rw [countWorth, countWorth, perm_insert.length_eq, List.length_cons, Nat.pow_succ]
  simp only [hmem]
  split
  · exact (Nat.zero_mul 2).symm
  · rfl

/-- Without determinism there are no reserved weights, so labels count their weights. -/
theorem counting_of_represents {net : Network} {p : Partition} {options : EncodingOptions}
    {e : Encoding} (hnet : net.WellFormed) (hp : p.Proper net)
    (R : Encoding.Represents options net e) (hplain : options.determinism = false) :
    Counting e (Bound.ofPartition net p).scope net.dimOf Weights.label.toLabelAlgebra := by
  have hstored : ∀ {c f ρ w}, e.factor c = .ok f → (∀ u ∈ f.scope, ρ u < net.dimOf u) →
      f.weights[Counter.number f.dims (f.scope.map ρ)]? = some w → 1 < w := by
    intro c f ρ w hf hρ hrow
    obtain ⟨hliterals, -, E⟩ := Encoding.row_of_factor hnet R hf
    obtain ⟨_, w', hw, hstands⟩ := E.row ρ hρ
    obtain rfl := Option.some.inj (hrow.symm.trans hw)
    cases hstands with
    | one hd => rw [hplain] at hd; cases hd
    | zero hd => rw [hplain] at hd; cases hd
    | stored hlt => exact Nat.lt_of_le_of_lt hliterals hlt
  refine ⟨rfl, rfl, (weighing_trivial hnet hp R Weights.label.toLabelAlgebra).factor,
    fun hf hρ hrow => absurd (hstored hf hρ hrow) (by decide), fun {c f ρ w x} hf hρ hrow hne => ?_⟩
  have hlt := hstored hf hρ hrow
  have hone : (w == 1) = false := by
    simp only [beq_eq_false_iff_ne]
    exact Nat.ne_of_gt hlt
  simp only [Weights.label, Weights.multiply, Array.getD_eq_getD_getElem?, hrow, Option.getD_some,
    hone, Bool.false_eq_true, if_false]
  exact countWorth_insert hne

/-! ## The node of a context -/

/-- An edge of a chain goes to the layer below, and has one weight for each table. -/
theorem directEdge_spec (C : Carries plan l v cs)
    (L : Counting plan.encoding plan.scope plan.bound.dim s.labels)
    (hencoding : s.encoding = plan.encoding) (hρ : ∃ ρ, Reads plan.bound.dim l.spanning context ρ)
    (hk : k < l.dim) (h : directEdge s l context k = .ok edge) :
    edge.label.length = l.messages.length ∧
      directTarget s context k (l.children.headD 0) = .ok edge.target := by
  obtain ⟨r, hr, hworth⟩ := edgeLabel?_spec L C.strict (C.dim ▸ hk) C.messages C.mentions hρ
  obtain ⟨ρ, hρ⟩ := hρ
  have hcount : r.elim 0 countWorth = 2 ^ cs.length := by
    rw [hworth ρ hρ, entries, List.map_const', List.prod_replicate]
  rw [directEdge, hencoding] at h
  obtain ⟨r', hr', h⟩ := Outcome.bind_eq_ok_iff.1 h
  obtain rfl := Except.ok.inj (hr.symm.trans hr')
  cases r with
  | none => exact absurd hcount.symm (Nat.ne_of_gt (Nat.two_pow_pos _))
  | some label =>
      obtain ⟨target, htarget, h⟩ := Outcome.bind_eq_ok_iff.1 h
      cases h
      refine ⟨?_, htarget⟩
      rw [Option.elim_some, countWorth] at hcount
      split at hcount
      · exact absurd hcount.symm (Nat.ne_of_gt (Nat.two_pow_pos _))
      · rw [Nat.pow_right_injective le_rfl hcount, Outcome.length_of_mapM_ok C.messages]

/-- An or node with `dim` edges, each with as many weights as given. -/
structure Uniform (dim weights : Nat) (n : Node Weights) : Prop where
  kind : n.kind = .or
  edges : n.edges.length = dim
  label : ∀ e ∈ n.edges, e.label.length = weights

/-- The values of a context. -/
theorem reads_context (C : Carries plan l v cs)
    (haddress : l.address.dims = l.spanning.map plan.bound.dim) (hc : c < l.contexts) :
    ∃ ρ, Reads plan.bound.dim l.spanning (l.counter.withValue c).digits ρ ∧
      Counter.number (l.spanning.map plan.bound.dim) (l.spanning.map ρ) = c := by
  have hradices : l.counter.radices = l.spanning.map plan.bound.dim := by
    rw [← haddress]
    simp [Layer.counter, Counter.zero, Counter.radices, Function.comp_def]
  have hdigits : List.Forall₂ (· < ·) (l.counter.withValue c).digits
      (l.spanning.map plan.bound.dim) := by
    have hvalid : Counter.Valid (Counter.wheelsOf (l.spanning.map plan.bound.dim) c) :=
      Counter.valid_wheelsOf (List.forall_mem_map.2 C.pos)
    have hlt := hvalid.digit_lt
    rw [Counter.map_radix_wheelsOf] at hlt
    rw [Counter.withValue, hradices]
    exact hlt
  obtain ⟨ρ, hρ, hlt⟩ := Counter.exists_map_eq C.strict.nodup hdigits
  refine ⟨ρ, ⟨hρ, hlt⟩, ?_⟩
  rw [hρ, Counter.withValue, hradices]
  exact Counter.number_digits_wheelsOf (C.contexts ▸ hc)

/-- The node of a context of a chain. -/
theorem orNode_spec (C : Carries plan l v cs)
    (L : Counting plan.encoding plan.scope plan.bound.dim s.labels)
    (hencoding : s.encoding = plan.encoding)
    (haddress : l.address.dims = l.spanning.map plan.bound.dim) (hc : c < l.contexts)
    (h : orNode s l c = .ok n) :
    Uniform l.dim l.messages.length n ∧ ∀ k < l.dim, ∃ e ∈ n.edges,
      directTarget s (l.counter.withValue c).digits k (l.children.headD 0) = .ok e.target := by
  obtain ⟨ρ, hρ, _⟩ := reads_context C haddress hc
  obtain ⟨edges, hedges, h⟩ := Outcome.bind_eq_ok_iff.1 h
  cases h
  obtain ⟨hevery, honly⟩ := Outcome.mem_of_mapM_ok hedges
  have hspec := fun {k edge} (hk : k < l.dim)
      (h : directEdge s l (l.counter.withValue c).digits k = .ok edge) =>
    directEdge_spec C L hencoding ⟨ρ, hρ⟩ hk h
  refine ⟨⟨rfl, ?_, fun e he => ?_⟩, fun k hk => ?_⟩
  · rw [Outcome.length_of_mapM_ok hedges, List.length_range]
  · obtain ⟨k, hk, he⟩ := honly e he
    exact (hspec (List.mem_range.1 hk) he).1
  · obtain ⟨e, he, hedge⟩ := hevery k (List.mem_range.2 hk)
    exact ⟨e, he, (hspec hk hedge).2⟩

/-- Every context of a layer is the one that some edge of the layer above leads to. -/
theorem exists_context {v' : Variable} {cs' : List Nat} (C : Carries plan l v cs)
    (C' : Carries plan next v' cs') (haddress : l.address.dims = l.spanning.map plan.bound.dim)
    (haddress' : next.address = addressBelow plan.bound v l.spanning next.spanning)
    (habove : next.spanning ⊆ v :: l.spanning) (hpos : 0 < l.dim) (hc : c < next.contexts) :
    ∃ d < l.contexts, ∃ k < l.dim,
      childContext next.address (l.counter.withValue d).digits k = c := by
  obtain ⟨σ, hσ, hnumber⟩ := reads_context C' (by rw [haddress']; rfl) hc
  -- the values of the context, and zero for all other variables
  let ρ : Assignment := fun u => if u ∈ next.spanning then σ u else 0
  have hlt : ∀ u, 0 < plan.bound.dim u → ρ u < plan.bound.dim u := by
    intro u hu
    show (if u ∈ next.spanning then σ u else 0) < _
    split
    · exact hσ.lt u ‹_›
    · exact hu
  have hfits := Counter.fits_map fun u hu => hlt u (C.pos u hu)
  have hradices : l.counter.radices = l.spanning.map plan.bound.dim := by
    rw [← haddress]
    simp [Layer.counter, Counter.zero, Counter.radices, Function.comp_def]
  have hdigits : (l.counter.withValue
      (Counter.number (l.spanning.map plan.bound.dim) (l.spanning.map ρ))).digits =
        l.spanning.map ρ := by
    rw [Counter.withValue, hradices]
    exact Counter.digits_wheelsOf_number hfits
  have hsame : next.spanning.map ρ = next.spanning.map σ :=
    List.map_congr_left fun u hu => if_pos hu
  refine ⟨_, C.contexts ▸ Counter.number_lt hfits, ρ v, ?_, ?_⟩
  · rw [C.dim] at hpos ⊢
    exact hlt v hpos
  · rw [hdigits, haddress', childContext_eq C.strict C'.strict C.notMem habove,
      Function.update_eq_self, hsame, hnumber]

/-! ## The compiled chain -/

/-- The levels of a chain with an empty one above them. -/
structure Unshared (s : Source Weights) (ls : List Layer) (levels : List (Level Weights))
    (g : Multigraph Weights) : Prop where
  plain : ls.mapM (plainLevel s) = .ok levels
  graph : ∃ first : Level Weights, first.nodes = #[] ∧ g.levels = (first :: levels ++ [terminalLevel]).toArray
  root : ls ≠ [] → g.root = some ⟨1, 0⟩

namespace Unshared

variable {levels : List (Level Weights)} {g : Multigraph Weights} {i : Nat} {id : NodeId}

theorem length_eq (h : Unshared s ls levels g) : levels.length = ls.length :=
  Outcome.length_of_mapM_ok h.plain

theorem terminal_eq (h : Unshared s ls levels g) : g.terminal.layer = ls.length + 1 := by
  obtain ⟨first, _, hgraph⟩ := h.graph
  simp [terminal, hgraph, h.length_eq]

/-- The level of a layer has the nodes of its contexts. -/
theorem level (h : Unshared s ls levels g) (hl : ls[i]? = some l) : ∃ level,
    g.levels[i + 1]? = some level ∧ level ∈ levels ∧ level.nodes.size = l.contexts ∧
      ∀ c (hc : c < level.nodes.size), orNode s l c = .ok level.nodes[c] := by
  obtain ⟨hi, rfl⟩ := List.getElem?_eq_some_iff.1 hl
  have hi' : i < levels.length := h.length_eq ▸ hi
  have hlevel := (List.forall₂_iff_get.1 (Outcome.mapM_eq_ok_iff.1 h.plain)).2 i hi hi'
  simp only [List.get_eq_getElem] at hlevel
  obtain ⟨nodes, hnodes, hlevel⟩ := Outcome.bind_eq_ok_iff.1 hlevel
  obtain ⟨first, _, hgraph⟩ := h.graph
  have hsize : levels[i].nodes.size = ls[i].contexts := by
    rw [← Except.ok.inj hlevel]
    simpa using Outcome.length_of_mapM_ok hnodes
  refine ⟨levels[i], ?_, List.getElem_mem hi', hsize, fun c hc => ?_⟩
  · rw [hgraph]
    simp [List.getElem?_append_left, hi']
  · have hget := (List.forall₂_iff_get.1 (Outcome.mapM_eq_ok_iff.1 hnodes)).2 c
      (by rw [List.length_range, ← hsize]; exact hc)
      (by rw [Outcome.length_of_mapM_ok hnodes, List.length_range, ← hsize]; exact hc)
    simp only [List.get_eq_getElem, List.getElem_range] at hget
    rw [hget]
    simp only [← Except.ok.inj hlevel, List.getElem_toArray]

/-- The nodes that count are those of the contexts. -/
theorem inner_iff (h : Unshared s ls levels g) :
    g.Inner id ↔ ∃ i l, ls[i]? = some l ∧ id.layer = i + 1 ∧ id.index < l.contexts := by
  have hterminal := h.terminal_eq
  constructor
  · rintro ⟨hne, hnode⟩
    obtain ⟨first, hfirst, hgraph⟩ := h.graph
    rw [node?] at hnode
    cases hlayer : id.layer with
    | zero => simp [hlayer, hgraph, hfirst] at hnode
    | succ i =>
        by_cases hi : i < ls.length
        · obtain ⟨level, hlevel, _, hsize, _⟩ := h.level (List.getElem?_eq_getElem hi)
          rw [hlayer, hlevel] at hnode
          refine ⟨i, ls[i], List.getElem?_eq_getElem hi, rfl, ?_⟩
          rw [← hsize]
          simpa using hnode
        · have hnone : g.levels[i + 1]? = none := by
            rw [hgraph]
            have := h.length_eq
            simp only [List.getElem?_toArray, List.getElem?_eq_none_iff, List.length_append,
              List.length_cons, List.length_nil]
            omega
          simp [hlayer, hnone] at hnode
  · rintro ⟨i, l, hl, hlayer, hindex⟩
    obtain ⟨hi, _⟩ := List.getElem?_eq_some_iff.1 hl
    obtain ⟨level, hlevel, _, hsize, _⟩ := h.level hl
    refine ⟨by omega, ?_⟩
    rw [node?, hlayer, hlevel]
    simpa [hsize] using hindex

/-- Every node of a chain without reserved weights is below the root. -/
theorem reached (h : Unshared s ls levels g) (C : Chain s.tree) (hls : innerLayers s.tree = ls)
    (D : Descending plan joiner [] ls) (hjoiner : plan.bound.dim joiner = 0)
    (hpos : ∀ l ∈ ls, 0 < l.dim) (hencoding : s.encoding = plan.encoding)
    (L : Counting plan.encoding plan.scope plan.bound.dim s.labels) :
    ∀ i l, ls[i]? = some l → ∀ c < l.contexts, g.Reached ⟨i + 1, c⟩
  | 0, l, hl, c, hc => by
      obtain ⟨ls', rfl⟩ : ∃ ls', ls = l :: ls' := by
        cases ls with
        | nil => cases hl
        | cons l₀ ls' => exact ⟨ls', by rw [Option.some.inj hl]⟩
      obtain ⟨⟨cs, hcarries⟩, _, habove⟩ := D.head
      have hnil : l.spanning = [] := by
        refine List.eq_nil_iff_forall_not_mem.2 fun u hu => ?_
        have hu' := List.mem_singleton.1 (habove hu)
        exact absurd (hcarries.pos u hu) (by rw [hu', hjoiner]; exact Nat.lt_irrefl 0)
      have hone : l.contexts = 1 := by rw [hcarries.contexts, hnil]; rfl
      obtain rfl : c = 0 := by omega
      exact .root (h.root (List.cons_ne_nil _ _)) (h.inner_iff.2 ⟨0, l, hl, rfl, hc⟩)
  | i + 1, next, hnext, c, hc => by
      obtain ⟨hi, _⟩ := List.getElem?_eq_some_iff.1 hnext
      have hl : ls[i]? = some ls[i] := List.getElem?_eq_getElem (by omega)
      generalize ls[i] = l at hl
      have hmem := List.mem_of_getElem? hl
      obtain ⟨⟨cs, hcarries⟩, haddress, hbelow⟩ := D.step i hl
      obtain ⟨haddress', habove⟩ := hbelow next hnext
      obtain ⟨⟨cs', hcarries'⟩, _⟩ := D.step (i + 1) hnext
      obtain ⟨d, hd, k, hk, hchild⟩ :=
        exists_context hcarries hcarries' haddress haddress' habove (hpos l hmem) hc
      obtain ⟨level, hlevel, _, hsize, hnodes⟩ := h.level hl
      have hd' : d < level.nodes.size := hsize ▸ hd
      obtain ⟨edge, hedge, htarget⟩ :=
        (orNode_spec hcarries L hencoding haddress hd (hnodes d hd')).2 k hk
      have hchildren : l.children = [i + 1 + 1] := by
        rw [C.children l (hls ▸ hmem), C.numbered i l (hls ▸ hl), Nat.add_comm 1 i]
      have hne : (i + 1 + 1 == s.tree.terminal) = false := by
        rw [C.terminal, hls, beq_eq_false_iff_ne]
        omega
      rw [hchildren, List.headD_cons, directTarget, hne] at htarget
      simp only [Bool.false_eq_true, if_false, C.layer (i + 1) next (hls ▸ hnext), bind,
        Except.bind, hchild, hc, decide_true, ensure, if_true, pure, Except.pure] at htarget
      have hedge' : edge ∈ g.edgesOf ⟨i + 1, d⟩ := by
        simpa [edgesOf, node?, hlevel, hd'] using hedge
      have hreached := Reached.edge (reached h C hls D hjoiner hpos hencoding L i l hl d hd) hedge'
      rw [← Except.ok.inj htarget] at hreached
      exact hreached (h.inner_iff.2 ⟨i + 1, next, hnext, rfl, hc⟩)

end Unshared
end BayesCircuit.Multigraph

/-! ## The size of a compiled chain -/

namespace BayesCircuit.Multigraph

open Arrangement Parallel PseudoTree SpanningTree

variable {W : Type} {g : Multigraph W} {id : NodeId} {ls : List (Level W)}

/-! ## Counting all nodes -/

theorem filterMap_range {α : Type} (xs : List α) :
    (List.range xs.length).filterMap (xs[·]?) = xs := by
  induction xs using List.reverseRecOn with
  | nil => rfl
  | append_singleton xs x ih =>
      have hinit : ∀ k ∈ List.range xs.length, (xs ++ [x])[k]? = xs[k]? := fun k hk =>
        List.getElem?_append_left (List.mem_range.1 hk)
      rw [List.length_append, List.length_singleton, List.range_succ, List.filterMap_append,
        List.filterMap_congr hinit, ih]
      simp

theorem filterMap_node? {rest : List (Level W)} (hlevels : g.levels.toList = ls ++ rest) :
    (ids ls).filterMap g.node? = ls.flatMap (·.nodes.toList) := by
  have hlevel : ∀ q ∈ ls.zipIdx, ((List.range q.1.nodes.size).map (NodeId.mk q.2)).filterMap g.node? =
      q.1.nodes.toList := by
    rintro ⟨l, i⟩ hq
    have hl : ls[i]? = some l := List.mem_zipIdx_iff_getElem?.1 hq
    have hget : g.levels[i]? = some l := by
      obtain ⟨hi, _⟩ := List.getElem?_eq_some_iff.1 hl
      rw [← Array.getElem?_toList, hlevels, List.getElem?_append_left hi, hl]
    have hnode : ∀ k ∈ List.range l.nodes.size, (g.node? ∘ NodeId.mk i) k = l.nodes.toList[k]? := by
      intro k _
      simp [node?, hget]
    rw [List.filterMap_map, List.filterMap_congr hnode, ← Array.length_toList, filterMap_range]
  rw [ids, List.filterMap_flatMap, List.flatMap_def, List.map_congr_left hlevel, List.flatMap_def,
    show (fun q : Level W × Nat => q.1.nodes.toList) = (·.nodes.toList) ∘ Prod.fst from rfl,
    ← List.map_map, List.zipIdx_map_fst]

/-- If every node is below the root, all of them are counted. -/
theorem size_of_reached (h : ∀ id, g.Inner id → g.Reached id) (weightCount : W → Nat)
    {last : Level W} (hlevels : g.levels.toList = ls ++ [last]) :
    g.size weightCount = (ls.flatMap (·.nodes.toList)).foldl (Size.add weightCount)
      ⟨0, 0, 0, 0, 0, 0⟩ := by
  have hterminal : g.terminal.layer = ls.length := by
    rw [terminal, ← Array.length_toList, hlevels]
    simp
  obtain ⟨hnodup, hmem⟩ := g.descendants_spec
  have hperm : g.descendants.Perm (ids ls) := by
    refine (List.perm_ext_iff_of_nodup hnodup nodup_ids).2 fun id => ?_
    rw [hmem, mem_ids]
    refine ⟨fun hid => ?_, fun hid => h id ⟨?_, isSome_node?.2 ?_⟩⟩
    · obtain ⟨hne, hnode⟩ := hid.inner
      obtain ⟨l, hl, hindex⟩ := isSome_node?.1 hnode
      rw [hlevels] at hl
      refine ⟨l, ?_, hindex⟩
      obtain ⟨hlt, _⟩ := List.getElem?_eq_some_iff.1 hl
      rw [List.length_append, List.length_singleton] at hlt
      rwa [List.getElem?_append_left (by omega)] at hl
    · obtain ⟨l, hl, _⟩ := hid
      obtain ⟨hlt, _⟩ := List.getElem?_eq_some_iff.1 hl
      omega
    · obtain ⟨l, hl, hindex⟩ := hid
      obtain ⟨hlt, _⟩ := List.getElem?_eq_some_iff.1 hl
      exact ⟨l, by rw [hlevels, List.getElem?_append_left hlt, hl], hindex⟩
  have hcomm : RightCommutative (Size.add weightCount) := ⟨size_add_comm weightCount⟩
  rw [size, ← filterMap_node? hlevels]
  exact (hperm.filterMap _).foldl_eq _

/-! ## Uniform levels -/

/-- Nodes with the same numbers of edges and weights are counted. -/
theorem foldl_add_uniform {dim weights : Nat} : ∀ {ns : List (Node Weights)} {s : Size},
    (∀ n ∈ ns, Uniform dim weights n) → ns.foldl (Size.add List.length) s =
      { s with
        nodes := s.nodes + ns.length, orNodes := s.orNodes + ns.length
        edges := s.edges + ns.length * dim
        weights := s.weights + ns.length * dim * weights
        operators := s.operators + ns.length * dim * (weights + 2) }
  | [], s, _ => by simp
  | n :: ns, s, h => by
      obtain ⟨hn, hns⟩ := List.forall_mem_cons.1 h
      have hsum : sumOf (n.edges.map fun e => e.label.length) = dim * weights := by
        rw [sumOf_eq, List.map_congr_left hn.label, List.map_const', List.sum_replicate_nat, hn.edges]
      rw [List.foldl_cons, foldl_add_uniform hns]
      simp only [Size.add, hn.kind, hn.edges, hsum, List.length_cons, Size.mk.injEq, true_and]
      refine ⟨by omega, by omega, ?_, ?_, ?_⟩ <;> ring

/-- A level that has a uniform node for each context of its layer. -/
structure Fills (l : Layer) (level : Level Weights) : Prop where
  size : level.nodes.size = l.contexts
  uniform : ∀ n ∈ level.nodes.toList, Uniform l.dim l.messages.length n

/-- The costs of layers in all measures, as a size. -/
def sizeOf (ls : List Layer) : Size where
  nodes := (ls.map (layerCost .nodes)).sum
  andNodes := 0
  orNodes := (ls.map (layerCost .nodes)).sum
  edges := (ls.map (layerCost .edges)).sum
  weights := (ls.map (layerCost .weights)).sum
  operators := (ls.map (layerCost .operators)).sum

/-- The nodes of the levels of a chain are counted. -/
theorem foldl_add_levels {ls : List Layer} {levels : List (Level Weights)}
    (h : List.Forall₂ Fills ls levels) : ∀ s : Size,
    (levels.flatMap (·.nodes.toList)).foldl (Size.add List.length) s =
      { nodes := s.nodes + (sizeOf ls).nodes, andNodes := s.andNodes
        orNodes := s.orNodes + (sizeOf ls).orNodes, edges := s.edges + (sizeOf ls).edges
        weights := s.weights + (sizeOf ls).weights
        operators := s.operators + (sizeOf ls).operators } := by
  induction h with
  | nil => exact fun s => rfl
  | cons hl _ ih =>
      intro s
      rw [List.flatMap_cons, List.foldl_append, foldl_add_uniform hl.uniform, ih,
        Array.length_toList, hl.size]
      simp only [sizeOf, List.map_cons, List.sum_cons, layerCost, Bound.cost, Nat.add_assoc]

/-- The size of a chain without reserved weights is what its layers cost. -/
theorem Unshared.size_eq {s : Source Weights} {plan : SpanningTree.Source} {ls : List Layer}
    {levels : List (Level Weights)} {g : Multigraph Weights} (h : Unshared s ls levels g)
    (C : Chain s.tree) (hls : innerLayers s.tree = ls) (D : Descending plan joiner [] ls)
    (hjoiner : plan.bound.dim joiner = 0) (hpos : ∀ l ∈ ls, 0 < l.dim)
    (hencoding : s.encoding = plan.encoding)
    (L : Counting plan.encoding plan.scope plan.bound.dim s.labels) :
    g.size List.length = sizeOf ls := by
  have hreached : ∀ id, g.Inner id → g.Reached id := by
    rintro ⟨layer, index⟩ hid
    obtain ⟨i, l, hl, rfl, hindex⟩ := h.inner_iff.1 hid
    exact h.reached C hls D hjoiner hpos hencoding L i l hl index hindex
  have hfills : List.Forall₂ Fills ls levels := by
    refine List.forall₂_iff_get.2 ⟨h.length_eq.symm, fun i hi hi' => ?_⟩
    have hl : ls[i]? = some ls[i] := List.getElem?_eq_getElem hi
    obtain ⟨level, hlevel, _, hsize, hnodes⟩ := h.level hl
    obtain ⟨⟨cs, hcarries⟩, haddress, _⟩ := D.step i hl
    obtain ⟨first, _, hgraph⟩ := h.graph
    have hsame : levels[i] = level := by
      rw [hgraph] at hlevel
      simpa [List.getElem?_append_left, hi'] using hlevel
    simp only [List.get_eq_getElem, hsame]
    refine ⟨hsize, fun n hn => ?_⟩
    obtain ⟨c, hc, rfl⟩ := List.mem_iff_getElem.1 hn
    have hc' : c < level.nodes.size := by simpa using hc
    exact (orNode_spec hcarries L hencoding haddress (hsize ▸ hc') (hnodes c hc')).1
  obtain ⟨first, hfirst, hgraph⟩ := h.graph
  have hlevels : g.levels.toList = (first :: levels) ++ [terminalLevel] := by rw [hgraph]
  have hnone : (#[] : Array (Node Weights)).toList = [] := rfl
  rw [size_of_reached hreached _ hlevels, List.flatMap_cons, hfirst, hnone, List.nil_append,
    foldl_add_levels hfills]
  simp [sizeOf]

/-! ## The chain of a partition -/

/-- The multigraph over the levels of a chain. -/
theorem unshared_of_assemble {s : Source Weights} {top last : Layer} {ls : List Layer}
    {levels : List (Level Weights)} {g : Multigraph Weights}
    (hlayers : s.tree.layers.toList = top :: (ls ++ [last])) (hchildren : top.children = [1])
    (hpos : ∀ l ∈ ls, 0 < l.contexts) (hlevels : ls.mapM (plainLevel s) = .ok levels)
    (hg : assemble s.labels s.tree levels = .ok g) : Unshared s ls levels g := by
  obtain ⟨_, hterminal, htop, _⟩ := layers_spec hlayers
  simp only [assemble, htop, hchildren, hterminal, bind, Except.bind] at hg
  cases ls with
  | nil =>
      obtain rfl : levels = [] := List.length_eq_zero_iff.1 (Outcome.length_of_mapM_ok hlevels)
      cases hg
      exact ⟨hlevels, ⟨_, rfl, rfl⟩, fun h => absurd rfl h⟩
  | cons l ls =>
      have hplain := hlevels
      rw [List.mapM_cons] at hlevels
      obtain ⟨level, hlevel, hlevels⟩ := Outcome.bind_eq_ok_iff.1 hlevels
      obtain ⟨more, _, hlevels⟩ := Outcome.bind_eq_ok_iff.1 hlevels
      cases hlevels
      have hslot : fetch level.slots 0 = .ok 0 := by
        have hcontexts := hpos l (List.mem_cons_self ..)
        simp [fetch, expect, slots_plainLevel hlevel, hcontexts]
      have hne : [1].filter (· != (l :: ls).length + 1) = [1] := by simp
      rw [hne] at hg
      simp only [List.mapM_cons, List.mapM_nil, Nat.sub_self, List.getElem?_cons_zero, expect, hslot,
        bind, Except.bind, pure, Except.pure, Except.ok.injEq] at hg
      subst hg
      exact ⟨hplain, ⟨_, rfl, rfl⟩, fun _ => rfl⟩

variable {net : Network} {p : Partition} {ordering : List Variable} {t : PseudoTree}
variable {e : Encoding} {st : SpanningTree} {options : EncodingOptions}

/-- The multigraph of a chain without sharing and without reserved weights has the size that its
layers cost. -/
theorem size_chain (hnet : net.WellFormed) (hp : p.Proper net)
    (ht : build net p ordering .chain = .ok t) (R : Encoding.Represents options net e)
    (hplain : options.determinism = false)
    (hst : ofPseudoTree (.ofPartition net p) t e = .ok st) :
    ∃ g, compile ⟨st, e, Weights.label.toLabelAlgebra, false⟩ false = .ok g ∧
      g.size List.length = sizeOf (innerLayers st) := by
  have L := counting_of_represents hnet hp R hplain
  obtain ⟨g, hg, _⟩ := compile_partition hnet hp ht hst
    (weighing_trivial hnet hp R Weights.label.toLabelAlgebra) (fun _ _ _ _ _ => rfl) false []
    fun _ => 0
  have hbranches := branches_chain hp ht hst
  have C := chain_ofPseudoTree hst hbranches
  obtain ⟨levels, hlevels, hassemble⟩ := compile_ok C rfl hg
  obtain ⟨ws, ⟨top, below, hlayers, _, hchildren, hlaid, hterminal⟩, hscope, _⟩ :=
    partition_planned hnet.valued hp ht hst
  obtain ⟨hinner, _⟩ := layers_spec hlayers
  have hall : ∀ l ∈ st.layers.toList, l.branches = false := by
    rw [SpanningTree.branches, ← Array.any_toList] at hbranches
    exact fun l hl => by simpa using List.any_eq_false.1 hbranches l hl
  rw [hlayers, List.forall_mem_cons] at hall
  have hone := length_below_le hchildren hall.1
  have D := hlaid.descending hone fun l hl => hall.2 l (List.mem_append_left _ hl)
  have hdim : ∀ l ∈ below.flatten, ∃ cs, Carries (sourceOf net p e t) l l.label cs ∧ 0 < l.dim := by
    intro l hl
    obtain ⟨i, hi⟩ := List.getElem?_of_mem hl
    obtain ⟨⟨cs, hcarries⟩, _⟩ := D.step i hi
    have hmem : l.label ∈ p.scope := by
      rw [← hscope.mem_iff, ← hlaid.labels]
      exact List.mem_map_of_mem hl
    refine ⟨cs, hcarries, ?_⟩
    rw [hcarries.dim]
    exact hnet.dim_pos (hp.scope_lt hnet.linked hmem)
  have htop : top.children = [1] := by
    rw [hchildren, Source.childrenOf]
    cases below with
    | nil => exact congrArg (fun k => [k]) hterminal
    | cons ls rest =>
        obtain rfl : rest = [] := List.length_eq_zero_iff.1 (by simpa using hone)
        rfl
  rw [hinner] at hlevels
  have hunshared : Unshared ⟨st, e, Weights.label.toLabelAlgebra, false⟩ below.flatten levels g := by
    refine unshared_of_assemble hlayers htop (fun l hl => ?_) hlevels hassemble
    obtain ⟨cs, hcarries, _⟩ := hdim l hl
    rw [hcarries.contexts]
    exact List.prod_pos_iff_forall_pos_nat.2 (List.forall_mem_map.2 hcarries.pos)
  refine ⟨g, hg, ?_⟩
  rw [hinner]
  exact hunshared.size_eq C hinner D hnet.dimOf_joiner
    (fun l hl => (hdim l hl).choose_spec.2) rfl L

end BayesCircuit.Multigraph
