import BayesCircuit.Proofs.Multigraph.Partition
import BayesCircuit.Proofs.Multigraph.Search
import BayesCircuit.Proofs.Multigraph.Sharing
import Mathlib.Data.List.Induction

/-!
# Sharing is a lossless reduction

The multigraph that is compiled with sharing has the nodes of the plain one at other places, and no
two equal nodes on a level (`compile_folds`). Edges are placed like nodes, so what is below the root
of the one is placed on what is below the root of the other, and a node has the value of the node at
its place (`Reduces`).
-/

namespace BayesCircuit.Multigraph

variable {W : Type} {places : Nat → Nat → Nat} {index : Nat} {ms ms' : List (Level W)}

/-! ## Whole graphs -/

/-- The level of the terminal has one node without edges. -/
theorem foldsLevel_terminal (hstay : ∀ i, places index i = i) :
    FoldsLevel places index (terminalLevel : Level W) terminalLevel where
  owner := rfl
  folds := folds_single hstay (fun e he => absurd he List.not_mem_nil)
  nodup := List.nodup_singleton _
  slots := by simp [terminalLevel, hstay]

/-- The node of the first context of a layer below the root. -/
def rootAt (ms : List (Level W)) (c : Nat) : Outcome NodeId := do
  let m ← expect .outOfRange ms[c - 1]?
  return ⟨c, ← fetch m.slots 0⟩

/-- The level that joins several trees. -/
def topLevel (labels : LabelAlgebra W) (top : Layer) (trees : List NodeId) : Level W :=
  ⟨top.label, if trees.length ≤ 1 then #[]
    else #[⟨top.label, .and, trees.map fun id => ⟨id, labels.unit⟩⟩], #[]⟩

/-- The root over some trees. -/
def rootOver (trees : List NodeId) : Option NodeId :=
  if trees.length ≤ 1 then trees.head? else some ⟨0, 0⟩

variable {t : SpanningTree} {labels : LabelAlgebra W} {graph graph' : Multigraph W}

theorem assemble_ok (h : assemble labels t ms = .ok graph) : ∃ top trees, t.layer 0 = .ok top ∧
    (top.children.filter (· != t.terminal)).mapM (rootAt ms) = .ok trees ∧
    graph = ⟨(topLevel labels top trees :: ms ++ [terminalLevel]).toArray, rootOver trees,
      t.branches⟩ := by
  unfold assemble at h
  obtain ⟨top, htop, h⟩ := Outcome.bind_eq_ok_iff.1 h
  obtain ⟨trees, htrees, h⟩ := Outcome.bind_eq_ok_iff.1 h
  refine ⟨top, trees, htop, htrees, ?_⟩
  cases trees with
  | nil => exact (Except.ok.inj h).symm
  | cons only more =>
      cases more with
      | nil => exact (Except.ok.inj h).symm
      | cons next more =>
          have hmany : ¬ (only :: next :: more).length ≤ 1 := by simp
          rw [topLevel, rootOver, if_neg hmany, if_neg hmany]
          exact (Except.ok.inj h).symm

theorem roots_placed (h : FoldsFrom places 1 ms ms') : ∀ {cs : List Nat} {ids ids' : List NodeId},
    (∀ c ∈ cs, 0 < c) → cs.mapM (rootAt ms) = .ok ids → cs.mapM (rootAt ms') = .ok ids' →
    (∀ id ∈ ids, 0 < id.layer) ∧ ids' = ids.map (within places)
  | [], ids, ids', _, hids, hids' => by
      cases hids
      cases hids'
      exact ⟨by simp, rfl⟩
  | c :: cs, ids, ids', hcs, hids, hids' => by
      rw [List.mapM_cons] at hids hids'
      obtain ⟨id, hid, hids⟩ := Outcome.bind_eq_ok_iff.1 hids
      obtain ⟨rest, hrest, hids⟩ := Outcome.bind_eq_ok_iff.1 hids
      obtain ⟨id', hid', hids'⟩ := Outcome.bind_eq_ok_iff.1 hids'
      obtain ⟨rest', hrest', hids'⟩ := Outcome.bind_eq_ok_iff.1 hids'
      cases hids
      cases hids'
      obtain ⟨hc, hcs⟩ := List.forall_mem_cons.1 hcs
      obtain ⟨hall, rfl⟩ := roots_placed h hcs hrest hrest'
      obtain ⟨m, hm, hid⟩ := Outcome.bind_eq_ok_iff.1 hid
      obtain ⟨i, hi, hid⟩ := Outcome.bind_eq_ok_iff.1 hid
      obtain ⟨m', hm', hid'⟩ := Outcome.bind_eq_ok_iff.1 hid'
      obtain ⟨j, hj, hid'⟩ := Outcome.bind_eq_ok_iff.1 hid'
      cases hid
      cases hid'
      obtain ⟨m'', hm'', hlevel⟩ := h.get (Outcome.expect_eq_ok.1 hm)
      obtain rfl := Option.some.inj ((Outcome.expect_eq_ok.1 hm').symm.trans hm'')
      rw [show 1 + (c - 1) = c by omega] at hlevel
      have hslot := Outcome.expect_eq_ok.1 hj
      rw [hlevel.slots, Array.getElem?_map, Outcome.expect_eq_ok.1 hi] at hslot
      obtain rfl := Option.some.inj hslot
      exact ⟨List.forall_mem_cons.2 ⟨hc, hall⟩, rfl⟩

/-- The levels of whole graphs, and their roots. -/
theorem assemble_folds {ls : List Layer} {top last : Layer}
    (hlayers : t.layers.toList = top :: (ls ++ [last])) (hchildren : ∀ c ∈ top.children, 0 < c)
    (hlength : ms.length = ls.length) (h : FoldsFrom places 1 ms ms')
    (hstays : Stays 1 (1 + ls.length) places) (hg : assemble labels t ms = .ok graph)
    (hg' : assemble labels t ms' = .ok graph') :
    FoldsFrom places 0 graph.levels.toList graph'.levels.toList ∧
      graph'.root = graph.root.map (within places) := by
  obtain ⟨-, -, htop, -⟩ := SpanningTree.layers_spec hlayers
  obtain ⟨top₁, trees, htop₁, htrees, rfl⟩ := assemble_ok hg
  obtain ⟨top₂, trees', htop₂, htrees', rfl⟩ := assemble_ok hg'
  obtain rfl := Except.ok.inj (htop.symm.trans htop₁)
  obtain rfl := Except.ok.inj (htop.symm.trans htop₂)
  obtain ⟨hlater, rfl⟩ := roots_placed h
    (fun c hc => hchildren c (List.mem_filter.1 hc).1) htrees htrees'
  have hzero : ∀ i, places 0 i = i := hstays 0 (Or.inl Nat.zero_lt_one)
  have hterminal : FoldsFrom places (1 + ms.length) [(terminalLevel : Level W)] [terminalLevel] :=
    .cons (foldsLevel_terminal (hstays _ (Or.inr (by omega)))) .nil
  refine ⟨.cons ⟨rfl, ?_, ?_, Array.map_empty.symm⟩ (h.append hterminal), ?_⟩
  · simp only [topLevel, List.length_map]
    split
    · exact folds_empty hzero
    · have hsingle := folds_single (n := ⟨top.label, .and, trees.map fun id => ⟨id, labels.unit⟩⟩)
        hzero (List.forall_mem_map.2 hlater)
      simpa [Node.place, Edge.place, Function.comp_def] using hsingle
  · simp only [topLevel]
    split
    · exact List.nodup_nil
    · exact List.nodup_singleton _
  · simp only [rootOver, List.length_map, List.head?_map]
    split
    · rfl
    · rw [Option.map_some, within, hzero]

/-! ## The nodes of a graph -/

namespace FoldsFrom

variable (h : FoldsFrom places 0 graph.levels.toList graph'.levels.toList)

include h

theorem node? (id : NodeId) :
    graph'.node? (within places id) = (graph.node? id).map (Node.place (within places)) := by
  rw [Multigraph.node?, Multigraph.node?, within, ← Array.getElem?_toList, ← Array.getElem?_toList]
  cases hm : graph.levels.toList[id.layer]? with
  | some m =>
      obtain ⟨m', hm', hlevel⟩ := h.get hm
      rw [Nat.zero_add] at hlevel
      rw [hm']
      exact hlevel.folds.getElem?_eq id.index
  | none =>
      have hnone : graph'.levels.toList[id.layer]? = none := by
        rw [List.getElem?_eq_none_iff, h.length_eq]
        exact List.getElem?_eq_none_iff.1 hm
      rw [hnone]
      rfl

theorem edgesOf (id : NodeId) :
    graph'.edgesOf (within places id) = (graph.edgesOf id).map (Edge.place (within places)) := by
  rw [Multigraph.edgesOf, Multigraph.edgesOf, h.node? id]
  cases graph.node? id <;> rfl

theorem terminal_eq : graph'.terminal = graph.terminal := by
  rw [terminal, terminal, ← Array.length_toList, ← Array.length_toList, h.length_eq]

theorem inner_iff (id : NodeId) : graph'.Inner (within places id) ↔ graph.Inner id := by
  rw [Inner, Inner, h.terminal_eq, h.node? id, Option.isSome_map]
  rfl

/-- What is below the root is placed below the root, and nothing else is there. -/
theorem reached_iff (hroot : graph'.root = graph.root.map (within places)) (id' : NodeId) :
    graph'.Reached id' ↔ ∃ id, graph.Reached id ∧ within places id = id' := by
  constructor
  · intro hid'
    induction hid' with
    | root hid' hinner =>
        rw [hroot] at hid'
        obtain ⟨id, hid, rfl⟩ := Option.map_eq_some_iff.1 hid'
        exact ⟨id, .root hid ((h.inner_iff id).1 hinner), rfl⟩
    | edge _ hedge hinner ih =>
        obtain ⟨id, hid, rfl⟩ := ih
        rw [h.edgesOf id] at hedge
        obtain ⟨e, he, rfl⟩ := List.mem_map.1 hedge
        exact ⟨e.target, .edge hid he ((h.inner_iff e.target).1 hinner), rfl⟩
  · rintro ⟨id, hid, rfl⟩
    induction hid with
    | root hid hinner =>
        refine .root ?_ ((h.inner_iff _).2 hinner)
        rw [hroot, hid]
        rfl
    | @edge id e _ hedge hinner ih =>
        have hplaced : e.place (within places) ∈ graph'.edgesOf (within places id) := by
          rw [h.edgesOf id]
          exact List.mem_map_of_mem hedge
        exact .edge ih hplaced ((h.inner_iff _).2 hinner)

end FoldsFrom

/-! ## Sizes -/

/-- No count of the first size is larger. -/
structure Size.Le (s s' : Size) : Prop where
  nodes : s.nodes ≤ s'.nodes
  andNodes : s.andNodes ≤ s'.andNodes
  orNodes : s.orNodes ≤ s'.orNodes
  edges : s.edges ≤ s'.edges
  weights : s.weights ≤ s'.weights
  operators : s.operators ≤ s'.operators

variable {weightCount : W → Nat} {s s' : Size} {n : Node W}

theorem size_add_place (φ : NodeId → NodeId) :
    Size.add weightCount s (n.place φ) = Size.add weightCount s n := by
  simp [Size.add, Node.place, Edge.place, Function.comp_def]

theorem Size.Le.add (h : s.Le s') : (Size.add weightCount s n).Le (Size.add weightCount s' n) := by
  obtain ⟨h₁, h₂, h₃, h₄, h₅, h₆⟩ := h
  unfold Size.add
  cases n.kind <;> constructor <;> dsimp only <;> omega

theorem Size.Le.add_right (h : s.Le s') : s.Le (Size.add weightCount s' n) := by
  obtain ⟨h₁, h₂, h₃, h₄, h₅, h₆⟩ := h
  unfold Size.add
  cases n.kind <;> constructor <;> dsimp only <;> omega

/-- Counting some of the nodes does not give more. -/
theorem foldl_add_le {ns ns' : List (Node W)} (h : ns'.Sublist ns) : ∀ {s s' : Size}, s'.Le s →
    (ns'.foldl (Size.add weightCount) s').Le (ns.foldl (Size.add weightCount) s) := by
  induction h with
  | slnil => exact fun hs => hs
  | cons n _ ih => exact fun hs => ih hs.add_right
  | cons_cons n _ ih => exact fun hs => ih hs.add

theorem foldl_add_place (φ : NodeId → NodeId) (ns : List (Node W)) (s : Size) :
    (ns.map (Node.place φ)).foldl (Size.add weightCount) s = ns.foldl (Size.add weightCount) s := by
  rw [List.foldl_map]
  simp only [size_add_place]

/-- A graph onto which another one is placed has no larger size. -/
theorem FoldsFrom.size_le (h : FoldsFrom places 0 graph.levels.toList graph'.levels.toList)
    (hroot : graph'.root = graph.root.map (within places)) (weightCount : W → Nat) :
    (graph'.size weightCount).Le (graph.size weightCount) := by
  obtain ⟨-, hmem⟩ := graph.descendants_spec
  obtain ⟨hnodup', hmem'⟩ := graph'.descendants_spec
  -- every node below the root of the one is the place of a node below the root of the other
  have hsubset : graph'.descendants ⊆ graph.descendants.map (within places) := by
    intro id' hid'
    obtain ⟨id, hid, rfl⟩ := (h.reached_iff hroot id').1 ((hmem' id').1 hid')
    exact List.mem_map_of_mem ((hmem id).2 hid)
  obtain ⟨ids, hperm, hsublist⟩ := List.subperm_of_subset hnodup' hsubset
  have hcomm : RightCommutative (Size.add weightCount) := ⟨size_add_comm weightCount⟩
  have hplaced : (graph.descendants.map (within places)).filterMap graph'.node? =
      (graph.descendants.filterMap graph.node?).map (Node.place (within places)) := by
    rw [List.filterMap_map, List.map_filterMap]
    exact List.filterMap_congr fun id _ => h.node? id
  rw [size, size, ← (hperm.filterMap graph'.node?).foldl_eq,
    ← foldl_add_place (within places) (graph.descendants.filterMap graph.node?), ← hplaced]
  exact foldl_add_le (hsublist.filterMap _) ⟨Nat.le_refl _, Nat.le_refl _, Nat.le_refl _,
    Nat.le_refl _, Nat.le_refl _, Nat.le_refl _⟩

/-! ## Values -/

section Values

variable {α β : Type}

/-- Elements that are pushed one after the other, each depending on those before it. -/
def pushAll (step : Array α → β → α) (xs : List β) : Array α :=
  xs.foldl (fun own x => own.push (step own x)) #[]

variable {step : Array α → β → α} {xs : List β} {x : β} {i j : Nat}

theorem pushAll_append_singleton :
    pushAll step (xs ++ [x]) = (pushAll step xs).push (step (pushAll step xs) x) := by
  simp [pushAll]

theorem size_pushAll : (pushAll step xs).size = xs.length := by
  induction xs using List.reverseRecOn with
  | nil => rfl
  | append_singleton xs x ih =>
      rw [pushAll_append_singleton, Array.size_push, ih, List.length_append, List.length_singleton]

theorem getElem?_pushAll (hx : xs[j]? = some x) :
    (pushAll step xs)[j]? = some (step (pushAll step (xs.take j)) x) := by
  induction xs using List.reverseRecOn with
  | nil => simp at hx
  | append_singleton xs y ih =>
      rw [pushAll_append_singleton, Array.getElem?_push, size_pushAll]
      obtain ⟨hj, -⟩ := List.getElem?_eq_some_iff.1 hx
      rw [List.length_append, List.length_singleton] at hj
      by_cases hlast : j = xs.length
      · subst hlast
        rw [List.getElem?_append_right (Nat.le_refl _), Nat.sub_self] at hx
        obtain rfl := Option.some.inj hx
        rw [if_pos rfl, List.take_left]
      · have hlt : j < xs.length := by omega
        rw [List.getElem?_append_left hlt] at hx
        rw [if_neg hlast, ih hx, List.take_append_of_le_length (Nat.le_of_lt hlt)]

/-- Elements that follow do not change those before them. -/
theorem getElem?_pushAll_take (hi : i < j) :
    (pushAll step (xs.take j))[i]? = (pushAll step xs)[i]? := by
  cases hx : xs[i]? with
  | some x =>
      have htake : (xs.take j)[i]? = some x := by rwa [List.getElem?_take_of_lt hi]
      rw [getElem?_pushAll hx, getElem?_pushAll htake, List.take_take,
        Nat.min_eq_left (Nat.le_of_lt hi)]
  | none =>
      have hlen := List.getElem?_eq_none_iff.1 hx
      rw [Array.getElem?_eq_none, Array.getElem?_eq_none]
      · rwa [size_pushAll]
      · rw [size_pushAll, List.length_take]
        omega

variable {S : SumProduct α} {weigh : W → α} {observed : Option Nat} {terminal : Nat}
variable {evidence : Evidence} {below below' : List (Array α)} {m m' : Level W}

/-- The value of a node depends on what its edges lead to. -/
theorem nodeValue_place {φ : NodeId → NodeId} {valueAt valueAt' : NodeId → α}
    (h : ∀ e ∈ n.edges, valueAt' (φ e.target) = valueAt e.target) :
    nodeValue S weigh observed valueAt' (n.place φ) = nodeValue S weigh observed valueAt n := by
  unfold nodeValue Node.place
  cases n.kind with
  | and =>
      dsimp only
      rw [List.foldl_map]
      exact List.foldl_ext _ _ _ fun acc e he => by rw [Edge.place, h e he]
  | or =>
      dsimp only
      rw [List.zipIdx_map, List.filter_map, List.foldl_map]
      refine List.foldl_ext _ _ _ fun acc q hq => ?_
      have hedge : q.1 ∈ n.edges := List.fst_mem_of_mem_zipIdx (List.mem_filter.1 hq).1
      rw [Prod.map_fst, Edge.place, h q.1 hedge]

/-- The value that an edge reads: that of the terminal, of a node of the same level or of one
below. -/
def readAt (S : SumProduct α) (terminal index : Nat) (below : List (Array α)) (own : Array α)
    (id : NodeId) : α :=
  if id.layer == terminal then S.one
  else if id.layer == index then own.getD id.index S.zero
  else (below.getD (id.layer - (index + 1)) #[]).getD id.index S.zero

theorem levelValues_eq_pushAll : levelValues S weigh terminal index evidence m below =
    pushAll (fun own n => nodeValue S weigh (evidence[m.owner]?).join
      (readAt S terminal index below own) n) m.nodes.toList := by
  unfold levelValues pushAll
  rw [← Array.foldl_toList]
  rfl

/-- Values of levels are the same at the places of their nodes. -/
def ValuesPlaced (S : SumProduct α) (places : Nat → Nat → Nat) (index : Nat)
    (below below' : List (Array α)) : Prop :=
  ∀ k i, (below'.getD k #[]).getD (places (index + k) i) S.zero =
    (below.getD k #[]).getD i S.zero

theorem readAt_place {own own' : Array α} {id : NodeId}
    (hbelow : ValuesPlaced S places (index + 1) below below') (hdown : index ≤ id.layer)
    (hown : id.layer = index →
      own'.getD (places index id.index) S.zero = own.getD id.index S.zero) :
    readAt S terminal index below' own' (within places id) =
      readAt S terminal index below own id := by
  unfold readAt within
  split
  · rfl
  · split
    · rename_i hl
      have hl : id.layer = index := by simpa using hl
      rw [hl]
      exact hown hl
    · rename_i hl
      have hl : id.layer ≠ index := by simpa using hl
      obtain ⟨k, hk⟩ := Nat.exists_eq_add_of_le (show index + 1 ≤ id.layer by omega)
      rw [hk, Nat.add_sub_cancel_left]
      exact hbelow k id.index

theorem levelValues_place (h : FoldsLevel places index m m')
    (hbelow : ValuesPlaced S places (index + 1) below below') (i : Nat) :
    (levelValues S weigh terminal index evidence m' below').getD (places index i) S.zero =
      (levelValues S weigh terminal index evidence m below).getD i S.zero := by
  rw [levelValues_eq_pushAll, levelValues_eq_pushAll, h.owner]
  induction i using Nat.strongRecOn with
  | _ i ih =>
    have hplace := h.folds.getElem?_eq i
    rw [Array.getD_eq_getD_getElem?, Array.getD_eq_getD_getElem?]
    cases hn : m.nodes[i]? with
    | none =>
        rw [hn] at hplace
        rw [Array.getElem?_eq_none, Array.getElem?_eq_none]
        · rw [size_pushAll, Array.length_toList]
          exact Array.getElem?_eq_none_iff.1 hn
        · rw [size_pushAll, Array.length_toList]
          exact Array.getElem?_eq_none_iff.1 hplace
    | some n =>
        rw [hn] at hplace
        rw [getElem?_pushAll (Array.getElem?_toList.trans hplace),
          getElem?_pushAll (Array.getElem?_toList.trans hn), Option.getD_some, Option.getD_some]
        refine nodeValue_place fun e he =>
          readAt_place hbelow (h.folds.downward hn e he) fun hl => ?_
        -- the target comes before the node, and its place before that of the node
        have hlt := h.folds.grounded hn e he hl
        have hlt' : places index e.target.index < places index i := by
          have := h.folds.grounded' hplace (e.place (within places)) (List.mem_map_of_mem he) hl
          rwa [Edge.place, within, hl] at this
        rw [Array.getD_eq_getD_getElem?, Array.getD_eq_getD_getElem?, getElem?_pushAll_take hlt,
          getElem?_pushAll_take hlt', ← Array.getD_eq_getD_getElem?, ← Array.getD_eq_getD_getElem?]
        exact ih _ hlt

theorem valuesFrom_place (h : FoldsFrom places index ms ms') :
    ValuesPlaced S places index (valuesFrom S weigh terminal evidence index ms)
      (valuesFrom S weigh terminal evidence index ms') := by
  induction h with
  | nil => exact fun _ _ => rfl
  | cons level rest ih =>
      intro k i
      cases k with
      | zero => exact levelValues_place level ih i
      | succ k =>
          have hnext := ih k i
          rw [Nat.add_right_comm] at hnext
          exact hnext

theorem FoldsFrom.take (h : FoldsFrom places index ms ms') (k : Nat) :
    FoldsFrom places index (ms.take k) (ms'.take k) := by
  induction h generalizing k with
  | nil => rw [List.take_nil]; exact .nil
  | cons level rest ih =>
      cases k with
      | zero => exact .nil
      | succ k => exact .cons level (ih k)

/-- A graph has the value of the graph that is placed onto it. -/
theorem FoldsFrom.evaluateWith_eq
    (h : FoldsFrom places 0 graph.levels.toList graph'.levels.toList)
    (hroot : graph'.root = graph.root.map (within places)) (S : SumProduct α) (weigh : W → α)
    (evidence : Evidence) :
    graph'.evaluateWith S weigh evidence = graph.evaluateWith S weigh evidence := by
  unfold evaluateWith
  rw [hroot, h.terminal_eq]
  cases graph.root with
  | none => rfl
  | some root =>
      have hvalues : ValuesPlaced S places 0
          (valuesFrom S weigh graph.terminal.layer evidence 0
            (graph.levels.toList.take graph.terminal.layer))
          (valuesFrom S weigh graph.terminal.layer evidence 0
            (graph'.levels.toList.take graph.terminal.layer)) :=
        valuesFrom_place (h.take graph.terminal.layer)
      have hplaced := hvalues root.layer root.index
      rw [Nat.zero_add] at hplaced
      exact hplaced

end Values

variable [DecidableEq W] [Hashable W] {p : Plan W} {expired expired' : Bool}

/-- Compiling a spanning tree with sharing places the nodes that are compiled without. -/
theorem compile_folds {b : Bound} {q : PseudoTree} {e : Encoding}
    (ht : SpanningTree.ofPseudoTree b q e = .ok p.tree)
    (hg : compile (p.source false) expired = .ok graph)
    (hg' : compile (p.source true) expired' = .ok graph') : ∃ places,
    FoldsFrom places 0 graph.levels.toList graph'.levels.toList ∧
      graph'.root = graph.root.map (within places) := by
  obtain ⟨top, ls, terminal, hlayers, hordered, hchildren⟩ := SpanningTree.ordered_ofPseudoTree ht
  obtain ⟨hinner, hterminal, -, -⟩ := SpanningTree.layers_spec hlayers
  obtain ⟨ms, hms, hg⟩ := Outcome.bind_eq_ok_iff.1 hg
  obtain ⟨ms', hms', hg'⟩ := Outcome.bind_eq_ok_iff.1 hg'
  have hms : compileLayers (p.source false) expired ls = .ok ms := hinner ▸ hms
  have hms' : compileLayers (p.source true) expired' ls = .ok ms' := hinner ▸ hms'
  obtain ⟨places, hstays, hfolds⟩ := compileLayers_folds hordered (by omega) hms hms'
  exact ⟨places, assemble_folds hlayers hchildren (length_compileLayers hms) hfolds hstays hg hg'⟩

/-! ## Lossless reductions -/

/-- A graph without equal nodes on a level, onto which the nodes of another one are placed with
their edges, so that it is not larger and has the same values. -/
structure Reduces (φ : NodeId → NodeId) (g g' : Multigraph W) : Prop where
  nodup : ∀ m ∈ g'.levels.toList, m.nodes.toList.Nodup
  layer : ∀ id, (φ id).layer = id.layer
  node : ∀ id, g'.node? (φ id) = (g.node? id).map (Node.place φ)
  root : g'.root = g.root.map φ
  descendants : ∀ id', id' ∈ g'.descendants ↔ ∃ id ∈ g.descendants, φ id = id'
  size : ∀ weightCount : W → Nat, (g'.size weightCount).Le (g.size weightCount)
  value : ∀ {α : Type} (S : SumProduct α) (weigh : W → α) (evidence : Evidence),
    g'.evaluateWith S weigh evidence = g.evaluateWith S weigh evidence

/-- Sharing the equal nodes of every layer of a spanning tree is a lossless reduction. -/
theorem compile_sharing_reduces {b : Bound} {q : PseudoTree} {e e' : Encoding} {t : SpanningTree}
    {labels : LabelAlgebra W} {g g' : Multigraph W} (ht : SpanningTree.ofPseudoTree b q e' = .ok t)
    (hg : compile ⟨t, e, labels, false⟩ expired = .ok g)
    (hg' : compile ⟨t, e, labels, true⟩ expired' = .ok g') : ∃ φ, Reduces φ g g' := by
  obtain ⟨places, h, hroot⟩ := compile_folds (p := ⟨t, e, labels⟩) ht hg hg'
  obtain ⟨-, hmem⟩ := g.descendants_spec
  obtain ⟨-, hmem'⟩ := g'.descendants_spec
  refine ⟨within places, h.nodup, fun id => rfl, h.node?, hroot, fun id' => ?_, h.size_le hroot,
    h.evaluateWith_eq hroot⟩
  rw [hmem', h.reached_iff hroot]
  exact exists_congr fun id => and_congr_left fun _ => (hmem id).symm

/-- The chain of two coins with and without sharing. -/
theorem compile_sharing_reduces_twoCoins : ∃ q e t g g' φ,
    PseudoTree.build twoCoins ⟨[0, 1], []⟩ [0, 1] .chain = .ok q ∧
    Encoding.ofNetwork ⟨true, true⟩ twoCoins = .ok e ∧
    SpanningTree.ofPseudoTree (.ofPartition twoCoins ⟨[0, 1], []⟩) q e = .ok t ∧
    compile ⟨t, e, Weights.label.toLabelAlgebra, false⟩ false = .ok g ∧
    compile ⟨t, e, Weights.label.toLabelAlgebra, true⟩ false = .ok g' ∧ Reduces φ g g' := by
  have hp := Partition.proper_ofOwned ofOwned_twoCoins
  obtain ⟨q, hq⟩ := PseudoTree.exists_build hp (show [0, 1].Perm _ by decide) .chain
  obtain ⟨e, he, R⟩ := Encoding.ofNetwork_spec ⟨true, true⟩ wellFormed_twoCoins
  obtain ⟨t, ht⟩ :=
    SpanningTree.exists_ofPseudoTree wellFormed_twoCoins hp hq R (by decide +kernel)
  have hcompile : ∀ sharing, ∃ g,
      compile ⟨t, e, Weights.label.toLabelAlgebra, sharing⟩ false = .ok g := fun sharing => by
    obtain ⟨g, hg, -⟩ := compile_partition wellFormed_twoCoins hp hq ht
      (weighing_trivial wellFormed_twoCoins hp R Weights.label.toLabelAlgebra)
      (fun _ _ _ _ _ => rfl) sharing [] fun _ => 0
    exact ⟨g, hg⟩
  obtain ⟨g, hg⟩ := hcompile false
  obtain ⟨g', hg'⟩ := hcompile true
  obtain ⟨φ, h⟩ := compile_sharing_reduces ht hg hg'
  exact ⟨q, e, t, g, g', φ, hq, he, ht, hg, hg', h⟩

end BayesCircuit.Multigraph
