import BayesCircuit.Proofs.Counter
import BayesCircuit.Proofs.Multigraph.Reduction

/-!
# Edges of compiled multigraphs

Every edge of a compiled multigraph leads to the terminal or to a node that is stored, and so does
the root (`compile_closed`). While a level is filled, its edges lead to the levels below or to and
nodes of the level itself that are there already (`Lands`); adding a node keeps this up
(`Filling.Closed.add`), since the level only grows. A layer has a first context, so in the end no
slot is left without a node.
-/

namespace BayesCircuit.Multigraph

variable {W : Type} {index : Nat} {m : Level W} {ms ms' : List (Level W)} {id : NodeId}

/-- Whether a node is stored on levels that are numbered from `index` on. -/
def Stored (index : Nat) (ms : List (Level W)) (id : NodeId) : Prop :=
  ∃ k m, id.layer = index + k ∧ ms[k]? = some m ∧ id.index < m.nodes.size

/-- Of levels that are numbered from `index` on, the edges lead to the terminal or to nodes that are
stored, and the slots hold nodes of their level. -/
structure Closed (terminal : NodeId) (index : Nat) (ms : List (Level W)) : Prop where
  edges : ∀ m ∈ ms, ∀ n ∈ m.nodes, ∀ e ∈ n.edges, e.target = terminal ∨ Stored index ms e.target
  slots : ∀ m ∈ ms, ∀ i ∈ m.slots, i < m.nodes.size

theorem Stored.cons (h : Stored (index + 1) ms id) : Stored index (m :: ms) id := by
  obtain ⟨k, m', hlayer, hm', hindex⟩ := h
  exact ⟨k + 1, m', by omega, hm', hindex⟩

theorem Stored.append (h : Stored index ms id) : Stored index (ms ++ ms') id := by
  obtain ⟨k, m', hlayer, hm', hindex⟩ := h
  obtain ⟨hk, -⟩ := List.getElem?_eq_some_iff.1 hm'
  exact ⟨k, m', hlayer, by rw [List.getElem?_append_left hk, hm'], hindex⟩

theorem closed_nil {terminal : NodeId} : Closed terminal index ([] : List (Level W)) where
  edges _ hm := absurd hm List.not_mem_nil
  slots _ hm := absurd hm List.not_mem_nil

/-! ## The top of a graph -/

variable {terminal : NodeId} {labels : LabelAlgebra W} {top : Layer} {trees : List NodeId}
variable {graph : Multigraph W}

/-- The roots of trees are stored. -/
theorem rootAt_stored {c : Nat} (hms : Closed terminal 1 ms) (hc : 0 < c)
    (h : rootAt ms c = .ok id) : Stored 1 ms id := by
  obtain ⟨m, hm, h⟩ := Outcome.bind_eq_ok_iff.1 h
  obtain ⟨i, hi, h⟩ := Outcome.bind_eq_ok_iff.1 h
  cases h
  have hm := Outcome.expect_eq_ok.1 hm
  have hlayer : c = 1 + (c - 1) := by omega
  refine ⟨c - 1, m, hlayer, hm, ?_⟩
  exact hms.slots m (List.mem_of_getElem? hm) i (Array.mem_of_getElem? (Outcome.expect_eq_ok.1 hi))

/-- A level that joins trees, on top of the levels of the trees. -/
theorem topLevel_closed (hms : Closed terminal 1 ms) (htrees : ∀ id ∈ trees, Stored 1 ms id) :
    Closed terminal 0 (topLevel labels top trees :: ms) := by
  constructor
  · refine List.forall_mem_cons.2 ⟨fun n hn e he => ?_, fun m hm n hn e he => ?_⟩
    · unfold topLevel at hn
      split at hn
      · simp at hn
      · obtain rfl : n = ⟨top.label, .and, trees.map fun id => ⟨id, labels.unit⟩⟩ := by
          simpa using hn
        obtain ⟨id, hid, rfl⟩ := List.mem_map.1 he
        exact Or.inr (htrees id hid).cons
    · exact (hms.edges m hm n hn e he).imp_right Stored.cons
  · exact List.forall_mem_cons.2 ⟨fun i hi => by simp [topLevel] at hi, hms.slots⟩

/-- The root over stored trees is stored. -/
theorem rootOver_stored (htrees : ∀ id ∈ trees, Stored 1 ms id) (h : rootOver trees = some id) :
    Stored 0 (topLevel labels top trees :: ms) id := by
  unfold rootOver at h
  split at h
  · exact (htrees id (List.mem_of_head? h)).cons
  · rename_i hmany
    cases h
    exact ⟨0, _, rfl, rfl, by simp [topLevel, hmany]⟩

/-- What is stored before the last level is stored above the terminal. -/
theorem inner_of_stored {last : Level W} (hlevels : graph.levels.toList = ms ++ [last])
    (h : Stored 0 ms id) : graph.Inner id := by
  obtain ⟨k, m, hlayer, hm, hindex⟩ := h
  rw [Nat.zero_add] at hlayer
  obtain ⟨hk, -⟩ := List.getElem?_eq_some_iff.1 hm
  refine ⟨?_, isSome_node?.2 ⟨m, ?_, hindex⟩⟩
  · have hterminal : graph.terminal.layer = ms.length := by
      rw [terminal, ← Array.length_toList, hlevels, List.length_append, List.length_singleton]
      exact Nat.add_sub_cancel _ _
    omega
  · rw [hlevels, hlayer, List.getElem?_append_left hk, hm]

/-! ## A level that is being filled -/

variable {p : Plan W} {l : Layer} {below : List (Level W)} {context : List Nat} {value : Nat}
variable {size size' : Nat} {sharing : Bool}

/-- Where an edge of a level leads that has `size` nodes so far. -/
def Lands (p : Plan W) (l : Layer) (below : List (Level W)) (size : Nat) (id : NodeId) : Prop :=
  id = terminalOf p.tree ∨ Stored (l.index + 1) below id ∨ id.layer = l.index ∧ id.index < size

theorem Lands.mono (h : Lands p l below size id) (hle : size ≤ size') :
    Lands p l below size' id :=
  h.imp_right fun h => h.imp_right fun h => ⟨h.1, Nat.lt_of_lt_of_le h.2 hle⟩

/-- The edges of a layer for one value lead to the terminal or to the levels below. -/
theorem target_lands (hbelow : Closed (terminalOf p.tree) (l.index + 1) below)
    (hchildren : ∀ c ∈ l.children, l.index < c) {c : Nat} (hc : c ∈ l.children)
    (h : target (p.source sharing) l below context value c = .ok id) :
    Lands p l below size id := by
  unfold target at h
  split at h
  · exact Or.inl (Except.ok.inj h).symm
  · obtain ⟨m, hm, h⟩ := Outcome.bind_eq_ok_iff.1 h
    obtain ⟨next, -, h⟩ := Outcome.bind_eq_ok_iff.1 h
    obtain ⟨i, hi, h⟩ := Outcome.bind_eq_ok_iff.1 h
    cases h
    have hm := Outcome.expect_eq_ok.1 hm
    have hlt := hchildren c hc
    have hlayer : c = l.index + 1 + (c - (l.index + 1)) := by omega
    refine Or.inr (Or.inl ⟨c - (l.index + 1), m, hlayer, hm, ?_⟩)
    exact hbelow.slots m (List.mem_of_getElem? hm) i
      (Array.mem_of_getElem? (Outcome.expect_eq_ok.1 hi))

variable [DecidableEq W] [Hashable W] {f g : Filling W} {n : Node W} {i : Nat}

/-- The nodes that are known are there, edges lead where they may, and slots that have been filled
hold nodes that are there. -/
structure Filling.Closed (p : Plan W) (l : Layer) (below : List (Level W)) (f : Filling W) :
    Prop where
  known : ∀ {n : Node W} {i : Nat}, f.known[n]? = some i → i < f.nodes.size
  edges : ∀ n ∈ f.nodes, ∀ e ∈ n.edges, Lands p l below f.nodes.size e.target
  slots : ∀ i ∈ f.slots, i = 0 ∨ i < f.nodes.size

namespace Filling

theorem closed_start : (start l : Filling W).Closed p l below where
  known h := by simp [start] at h
  edges n hn := by simp [start] at hn
  slots i hi := Or.inl (Array.eq_of_mem_replicate hi)

/-- A node that is added is a known one or the last. -/
theorem add_ok (h : f.add sharing l n = .ok (i, g)) : (f.known[n]? = some i ∧ g = f) ∨
    (i = f.nodes.size ∧ g.nodes = f.nodes.push n ∧ g.slots = f.slots ∧
      (g.known = f.known ∨ g.known = f.known.insert n i)) := by
  cases sharing with
  | false =>
      obtain ⟨rfl, rfl⟩ := add_plain h
      exact Or.inr ⟨rfl, rfl, rfl, Or.inl rfl⟩
  | true =>
      rcases add_shared h with hold | ⟨-, rfl, rfl⟩
      · exact Or.inl hold
      · exact Or.inr ⟨rfl, rfl, rfl, Or.inr rfl⟩

theorem Closed.add (F : f.Closed p l below) (hn : ∀ e ∈ n.edges, Lands p l below f.nodes.size e.target)
    (h : f.add sharing l n = .ok (i, g)) :
    g.Closed p l below ∧ i < g.nodes.size ∧ f.nodes.size ≤ g.nodes.size := by
  rcases add_ok h with ⟨hknown, rfl⟩ | ⟨rfl, hnodes, hslots, hknown⟩
  · exact ⟨F, F.known hknown, Nat.le_refl _⟩
  · have hsize : g.nodes.size = f.nodes.size + 1 := by rw [hnodes, Array.size_push]
    have hle : f.nodes.size ≤ g.nodes.size := by omega
    refine ⟨⟨fun {n' j} hj => ?_, fun n' hn' e he => ?_, fun j hj => ?_⟩, by omega, hle⟩
    · rcases hknown with hknown | hknown
      · have := F.known (hknown ▸ hj)
        omega
      · rw [hknown, Std.HashMap.getElem?_insert] at hj
        split at hj
        · obtain rfl := Option.some.inj hj
          omega
        · have := F.known hj
          omega
    · rw [hnodes] at hn'
      rcases Array.mem_push.1 hn' with hn' | rfl
      · exact (F.edges n' hn' e he).mono hle
      · exact (hn e he).mono hle
    · rw [hslots] at hj
      exact (F.slots j hj).imp_right fun hlt => Nat.lt_of_lt_of_le hlt hle

end Filling

section

variable (hbelow : Closed (terminalOf p.tree) (l.index + 1) below)
  (hchildren : ∀ c ∈ l.children, l.index < c)

include hbelow hchildren

/-- The edges of a context lead where they may. -/
theorem edgesFor_closed : ∀ {values f es g}, f.Closed p l below →
    edgesFor (p.source sharing) l below context values f = .ok (es, g) →
    g.Closed p l below ∧ f.nodes.size ≤ g.nodes.size ∧
      ∀ e ∈ es, Lands p l below g.nodes.size e.target
  | [], f, es, g, F, h => by
      cases h
      exact ⟨F, Nat.le_refl _, fun e he => absurd he List.not_mem_nil⟩
  | value :: values, f, es, g, F, h => by
      obtain ⟨r, hr, htargets⟩ := edgeLabel?_of_ok h
      cases r with
      | none =>
          obtain ⟨rest, rfl, hrest⟩ := edgesFor_none hr h
          obtain ⟨G, hle, hes⟩ := edgesFor_closed F hrest
          exact ⟨G, hle, List.forall_mem_cons.2 ⟨Or.inl rfl, hes⟩⟩
      | some label =>
          obtain ⟨ids, hids⟩ := htargets (Option.some_ne_none label)
          have hlands : ∀ {size}, ∀ id ∈ ids, Lands p l below size id := by
            intro size id hid
            obtain ⟨c, hc, hid⟩ := exists_of_forall₂ (Outcome.mapM_eq_ok_iff.1 hids) hid
            exact target_lands hbelow hchildren hc hid
          by_cases hone : ids.length = 1
          · obtain ⟨only, rfl⟩ := List.length_eq_one_iff.1 hone
            obtain ⟨rest, rfl, hrest⟩ := edgesFor_single hr hids h
            obtain ⟨G, hle, hes⟩ := edgesFor_closed F hrest
            exact ⟨G, hle, List.forall_mem_cons.2 ⟨hlands only (List.mem_singleton_self _), hes⟩⟩
          · obtain ⟨i, f₁, rest, hadd, rfl, hrest⟩ := edgesFor_joint hr hids hone h
            have hjoint : ∀ e ∈ (joint p l ids).edges, Lands p l below f.nodes.size e.target :=
              List.forall_mem_map.2 hlands
            obtain ⟨F₁, hi, hle⟩ := F.add hjoint hadd
            obtain ⟨G, hle', hes⟩ := edgesFor_closed F₁ hrest
            refine ⟨G, hle.trans hle', List.forall_mem_cons.2 ⟨?_, hes⟩⟩
            exact Or.inr (Or.inr ⟨rfl, Nat.lt_of_lt_of_le hi hle'⟩)

theorem fillContext_closed {c : Counter} (F : f.Closed p l below)
    (h : fillContext (p.source sharing) l below f c = .ok g) :
    g.Closed p l below ∧ 0 < g.nodes.size := by
  obtain ⟨⟨es, f₁⟩, hes, h⟩ := Outcome.bind_eq_ok_iff.1 h
  obtain ⟨⟨i, f₂⟩, hadd, h⟩ := Outcome.bind_eq_ok_iff.1 h
  cases h
  obtain ⟨F₁, -, hlands⟩ := edgesFor_closed hbelow hchildren F hes
  obtain ⟨F₂, hi, -⟩ := F₁.add hlands hadd
  refine ⟨⟨F₂.known, F₂.edges, fun j hj => ?_⟩, Nat.zero_lt_of_lt hi⟩
  rcases Array.mem_or_eq_of_mem_setIfInBounds hj with hj | rfl
  · exact F₂.slots j hj
  · exact Or.inr hi

/-- After some contexts, the level has a node. -/
theorem foldlM_closed : ∀ {cs : List Counter} {f : Filling W}, f.Closed p l below →
    cs.foldlM (fillContext (p.source sharing) l below) f = .ok g →
    g.Closed p l below ∧ (cs ≠ [] ∨ 0 < f.nodes.size → 0 < g.nodes.size)
  | [], f, F, h => by
      cases h
      exact ⟨F, fun hpos => hpos.resolve_left fun hne => hne rfl⟩
  | c :: cs, f, F, h => by
      rw [List.foldlM_cons] at h
      obtain ⟨f₁, hf₁, h⟩ := Outcome.bind_eq_ok_iff.1 h
      obtain ⟨F₁, hpos⟩ := fillContext_closed hbelow hchildren F hf₁
      obtain ⟨G, hg⟩ := foldlM_closed F₁ h
      exact ⟨G, fun _ => hg (Or.inr hpos)⟩

/-- A compiled layer and the levels below it. -/
theorem compileLayer_closed {expired : Bool}
    (h : compileLayer (p.source sharing) expired l below = .ok m) :
    Closed (terminalOf p.tree) l.index (m :: below) := by
  obtain ⟨f, hf, rfl⟩ := compileLayer_ok h
  obtain ⟨F, hpos⟩ := foldlM_closed hbelow hchildren Filling.closed_start hf
  have hpos := hpos (Or.inl l.counter.walk_ne_nil)
  constructor
  · refine List.forall_mem_cons.2 ⟨fun n hn e he => ?_, fun m' hm' n hn e he => ?_⟩
    · refine (F.edges n hn e he).imp_right fun h => ?_
      rcases h with hstored | ⟨hlayer, hindex⟩
      · exact hstored.cons
      · exact ⟨0, _, hlayer, rfl, hindex⟩
    · exact (hbelow.edges m' hm' n hn e he).imp_right Stored.cons
  · refine List.forall_mem_cons.2 ⟨fun i hi => ?_, hbelow.slots⟩
    rcases F.slots i hi with rfl | hlt
    · exact hpos
    · exact hlt

end

/-! ## Whole graphs -/

theorem compileLayers_closed {expired : Bool} : ∀ {ls : List Layer} {index : Nat} {ms},
    SpanningTree.Ordered index ls → compileLayers (p.source sharing) expired ls = .ok ms →
    Closed (terminalOf p.tree) index ms
  | [], index, ms, _, h => by
      cases h
      exact closed_nil
  | l :: ls, index, ms, hordered, h => by
      rw [compileLayers] at h
      obtain ⟨below, hbelow, h⟩ := Outcome.bind_eq_ok_iff.1 h
      obtain ⟨m, hm, h⟩ := Outcome.bind_eq_ok_iff.1 h
      cases h
      obtain ⟨⟨rfl, hchildren⟩, hrest⟩ := hordered.head_tail
      exact compileLayer_closed (compileLayers_closed hrest hbelow) hchildren hm

/-- The root of a compiled spanning tree and the edges of its nodes lead to nodes that are stored,
or to the terminal. -/
theorem compile_closed {b : Bound} {q : PseudoTree} {e : Encoding} {expired : Bool}
    (ht : SpanningTree.ofPseudoTree b q e = .ok p.tree)
    (hg : compile (p.source sharing) expired = .ok graph) :
    (∀ id, graph.root = some id → graph.Inner id) ∧
      ∀ id n, graph.node? id = some n → ∀ e ∈ n.edges,
        e.target = graph.terminal ∨ graph.Inner e.target := by
  obtain ⟨top, ls, last, hlayers, hordered, hchildren⟩ := SpanningTree.ordered_ofPseudoTree ht
  obtain ⟨hinner, hterminal, htop, -⟩ := SpanningTree.layers_spec hlayers
  obtain ⟨ms, hms, hg⟩ := Outcome.bind_eq_ok_iff.1 hg
  have hms : compileLayers (p.source sharing) expired ls = .ok ms := hinner ▸ hms
  obtain ⟨top', trees, htop', htrees, hgraph⟩ := assemble_ok hg
  obtain rfl := Except.ok.inj (htop.symm.trans htop')
  have hlevels : graph.levels.toList = topLevel p.labels top trees :: ms ++ [terminalLevel] := by
    rw [hgraph]
    rfl
  have hroot : graph.root = rootOver trees := by rw [hgraph]
  have hlast : graph.terminal = terminalOf p.tree := by
    rw [terminal, ← Array.length_toList, hlevels, terminalOf, hterminal, ← length_compileLayers hms]
    simp
  have hclosed := compileLayers_closed hordered hms
  have hstored : ∀ id ∈ trees, Stored 1 ms id := by
    intro id hid
    obtain ⟨c, hc, hid⟩ := exists_of_forall₂ (Outcome.mapM_eq_ok_iff.1 htrees) hid
    exact rootAt_stored hclosed (hchildren c (List.mem_filter.1 hc).1) hid
  have hupper : Closed (terminalOf p.tree) 0 (topLevel p.labels top trees :: ms) :=
    topLevel_closed hclosed hstored
  refine ⟨fun id hid => ?_, fun id n hn e he => ?_⟩
  · rw [hroot] at hid
    exact inner_of_stored hlevels (rootOver_stored hstored hid)
  · obtain ⟨m, hm, hn⟩ := Option.bind_eq_some_iff.1 hn
    have hmem := Array.mem_toList_iff.2 (Array.mem_of_getElem? hm)
    rw [hlevels] at hmem
    rcases List.mem_append.1 hmem with hm | hm
    · rw [hlast]
      exact (hupper.edges m hm n (Array.mem_of_getElem? hn) e he).imp_right
        (inner_of_stored hlevels)
    · obtain rfl := List.mem_singleton.1 hm
      obtain rfl : n = terminalNode := by simpa [terminalLevel] using Array.mem_of_getElem? hn
      exact absurd he List.not_mem_nil

end BayesCircuit.Multigraph
