import BayesCircuit.Parallel.Compile
import BayesCircuit.Proofs.Counter
import BayesCircuit.Proofs.Outcome
import BayesCircuit.Proofs.SpanningTree.Chain

/-!
# The levels of a chain without sharing

When a layer of a chain is compiled without sharing, no and node is needed and every context gets
a node of its own. The contexts are walked through in the order of their numbers, so the node of
context `c` is node `c` of its level, which is where the edges from above look for it
(`compileLayer_eq`). So the levels of a compiled chain hold nothing but what `orNode` makes of each
context (`compileLayers_ok`).
-/

namespace BayesCircuit.Parallel

open Multigraph SpanningTree

variable {W : Type} {s : Source W} {l : Layer} {below levels : List (Level W)} {level : Level W}
variable {context : List Nat} {n : Nat}

/-! ## The edges of a context -/

/-- The layer below is the terminal one, or the first level below is its level, and has the node of
context `c` in slot `c`. -/
def Leads (s : Source W) (l : Layer) (below : List (Level W)) : Prop :=
  l.index + 1 = s.tree.terminal ∨ ∃ next level, below[0]? = some level ∧
    s.tree.layer (l.index + 1) = .ok next ∧ level.slots = Array.range next.contexts

theorem target_eq (h : Leads s l below) (value : Nat) :
    target s l below context value (l.index + 1) = directTarget s context value (l.index + 1) := by
  unfold target directTarget
  rcases h with h | ⟨next, level, hlevel, hnext, hslots⟩
  · simp only [h, beq_self_eq_true, if_true, bind, Except.bind, pure, Except.pure]
  · split
    · rfl
    · simp only [Nat.sub_self, hlevel, expect, hnext, bind, Except.bind, pure, Except.pure]
      by_cases hc : childContext next.address context value < next.contexts
      · simp [fetch, ensure, expect, hslots, hc]
      · simp [fetch, ensure, expect, hslots, hc, abort]

/-- The level of a layer that has a node for each context. -/
def plainLevel (s : Source W) (l : Layer) : Outcome (Level W) := do
  let nodes ← (List.range l.contexts).mapM (orNode s l)
  return ⟨l.label, nodes.toArray, Array.range l.contexts⟩

theorem slots_plainLevel (h : plainLevel s l = .ok level) :
    level.slots = Array.range l.contexts := by
  obtain ⟨nodes, _, h⟩ := Outcome.bind_eq_ok_iff.1 h
  cases h
  rfl

variable [DecidableEq W] [Hashable W]

/-- Without and nodes, a level stays as it is while edges are made. -/
theorem edgesFor_eq (hchildren : l.children = [l.index + 1]) (h : Leads s l below) (f : Filling W) :
    ∀ values, edgesFor s l below context values f =
      values.mapM (directEdge s l context) >>= fun edges => .ok (edges, f)
  | [] => rfl
  | value :: values => by
      rw [edgesFor, List.mapM_cons, hchildren, List.mapM_cons, target_eq h, directEdge, hchildren,
        edgesFor_eq hchildren h f values]
      cases edgeLabel? s.labels s.encoding l context value with
      | error e => rfl
      | ok r =>
          cases r with
          | none =>
              simp only [bind, Except.bind, pure, Except.pure]
              cases values.mapM (directEdge s l context) <;> rfl
          | some label =>
              simp only [bind, Except.bind, pure, Except.pure, List.headD_cons, List.mapM_nil]
              cases directTarget s context value (l.index + 1) with
              | error e => rfl
              | ok id => cases values.mapM (directEdge s l context) <;> rfl

/-! ## The contexts of a layer -/

/-- A level whose first contexts have the given nodes. -/
def filled (l : Layer) (nodes : List (Node W)) : Filling W :=
  ⟨nodes.toArray, ∅, (Array.range l.contexts).map fun i => if i < nodes.length then i else 0⟩

theorem filled_nil : filled l [] = (Filling.start l : Filling W) := by
  simp only [filled, Filling.start, Filling.mk.injEq, true_and]
  exact Array.ext (by simp) fun i _ _ => by simp

theorem filled_full {nodes : List (Node W)} (h : nodes.length = l.contexts) :
    (filled l nodes).slots = Array.range l.contexts := by
  refine Array.ext (by simp [filled]) fun i hi _ => ?_
  have hlt : i < nodes.length := by
    rw [h]
    simpa [filled] using hi
  simp [filled, hlt]

/-- The next context gets the next node. -/
theorem fillContext_filled (hchildren : l.children = [l.index + 1]) (h : Leads s l below)
    (hsharing : s.sharing = false) {nodes : List (Node W)} {c : Counter}
    (hc : c.value = nodes.length) (hroom : nodes.length < l.contexts) :
    fillContext s l below (filled l nodes) c =
      (List.range l.dim).mapM (directEdge s l c.digits) >>= fun edges =>
        .ok (filled l (nodes ++ [⟨l.label, .or, edges⟩])) := by
  have hnodes : ¬ l.nodes ≤ nodes.length := by
    simp only [Layer.nodes, Layer.orNodes]
    omega
  have hslots : ∀ n : Node W,
      ((Array.range l.contexts).map fun i => if i < nodes.length then i else 0).setIfInBounds
        nodes.length nodes.length =
      (Array.range l.contexts).map fun i => if i < (nodes ++ [n]).length then i else 0 := by
    intro n
    refine Array.ext (by simp) fun i hi _ => ?_
    rw [Array.getElem_setIfInBounds (by simpa using hi)]
    simp only [Array.getElem_map, Array.getElem_range, List.length_append, List.length_singleton]
    split
    · rename_i he
      subst he
      simp
    · have hiff : i < nodes.length ↔ i < nodes.length + 1 := by omega
      simp only [hiff]
  rw [fillContext, edgesFor_eq hchildren h]
  cases (List.range l.dim).mapM (directEdge s l c.digits) with
  | error e => rfl
  | ok edges =>
      simp only [bind, Except.bind, pure, Except.pure, Filling.add, hsharing, Bool.false_eq_true,
        if_false]
      rw [if_neg (by simpa [filled] using hnodes)]
      simp only [filled, hc, hslots ⟨l.label, .or, edges⟩, List.push_toArray, List.size_toArray]

theorem foldlM_fillContext (hchildren : l.children = [l.index + 1]) (h : Leads s l below)
    (hsharing : s.sharing = false) (hcontexts : l.contexts = l.address.dims.prod) :
    ∀ n ≤ l.contexts, ((List.range n).map l.counter.withValue).foldlM (fillContext s l below)
        (.start l) = (List.range n).mapM (orNode s l) >>= fun nodes => .ok (filled l nodes)
  | 0, _ => by
      rw [← filled_nil]
      rfl
  | n + 1, hn => by
      have hradices : l.counter.radices = l.address.dims := by
        simp [Layer.counter, Counter.zero, Counter.radices, Function.comp_def]
      have hvalue : (l.counter.withValue n).value = n := by
        rw [Counter.withValue, hradices, Counter.value, Counter.value_wheelsOf (by omega)]
      rw [List.range_succ, List.map_append, List.foldlM_append,
        foldlM_fillContext hchildren h hsharing hcontexts n (by omega), List.mapM_append]
      cases hnodes : (List.range n).mapM (orNode s l) with
      | error e => rfl
      | ok nodes =>
          have hlen : nodes.length = n := by
            rw [Outcome.length_of_mapM_ok hnodes, List.length_range]
          simp only [bind, Except.bind, pure, Except.pure, List.map_singleton, List.foldlM_cons,
            List.foldlM_nil, List.mapM_cons, List.mapM_nil]
          rw [fillContext_filled hchildren h hsharing (hvalue.trans hlen.symm) (by omega), orNode]
          cases (List.range l.dim).mapM (directEdge s l (l.counter.withValue n).digits) <;> rfl

/-! ## Levels -/

/-- A layer that has contexts is compiled to the level with their nodes. -/
theorem compileLayer_eq (hchildren : l.children = [l.index + 1]) (h : Leads s l below)
    (hsharing : s.sharing = false) (hcontexts : l.contexts = l.address.dims.prod)
    (hpos : 0 < l.contexts) : compileLayer s false l below = plainLevel s l := by
  have hdims : ∀ r ∈ l.address.dims, 0 < r := by
    rw [hcontexts] at hpos
    exact List.prod_pos_iff_forall_pos_nat.1 hpos
  have hwalk : l.counter.walk = (List.range l.contexts).map l.counter.withValue := by
    rw [Layer.counter, Counter.walk_zero hdims, hcontexts]
    simp [Counter.withValue, Counter.zero, Counter.radices, Function.comp_def]
  simp only [compileLayer, Bool.false_eq_true, if_false, hwalk, plainLevel]
  rw [foldlM_fillContext hchildren h hsharing hcontexts _ le_rfl]
  cases hnodes : (List.range l.contexts).mapM (orNode s l) with
  | error e => rfl
  | ok nodes =>
      have hlen : nodes.length = l.contexts := by
        rw [Outcome.length_of_mapM_ok hnodes, List.length_range]
      simp only [bind, Except.bind, pure, Except.pure, filled_full hlen]
      rfl

/-- There is no room for the first context of a layer that has none. -/
theorem contexts_pos (hchildren : l.children = [l.index + 1]) (h : Leads s l below)
    (hsharing : s.sharing = false) (hrun : compileLayer s false l below = .ok level) :
    0 < l.contexts := by
  by_contra hzero
  have hnodes : l.nodes = 0 := by
    have hone : l.branches = false := by simp [Layer.branches, hchildren]
    simp only [Layer.nodes, Layer.orNodes, Layer.andNodes, hone, Bool.false_eq_true, if_false]
    omega
  obtain ⟨c, cs, hwalk⟩ := List.exists_cons_of_ne_nil l.counter.walk_ne_nil
  simp only [compileLayer, Bool.false_eq_true, if_false, hwalk, List.foldlM_cons] at hrun
  obtain ⟨f', hrun, _⟩ := Outcome.bind_eq_ok_iff.1 hrun
  obtain ⟨f, hfill, _⟩ := Outcome.bind_eq_ok_iff.1 hrun
  rw [fillContext, edgesFor_eq hchildren h] at hfill
  obtain ⟨⟨edges, f₁⟩, hedges, hfill⟩ := Outcome.bind_eq_ok_iff.1 hfill
  obtain ⟨⟨i, f₂⟩, hadd, _⟩ := Outcome.bind_eq_ok_iff.1 hfill
  simp [Filling.add, hsharing, hnodes, fail] at hadd

/-- What a layer of a chain is compiled to. -/
theorem compileLayer_ok (hchildren : l.children = [l.index + 1]) (h : Leads s l below)
    (hsharing : s.sharing = false)
    (hcounted : l.contexts = 0 ∨ l.contexts = l.address.dims.prod)
    (hrun : compileLayer s false l below = .ok level) : plainLevel s l = .ok level := by
  have hpos := contexts_pos hchildren h hsharing hrun
  rw [← hrun, compileLayer_eq hchildren h hsharing (hcounted.resolve_left (by omega)) hpos]

/-! ## Chains -/

/-- The levels of the last layers of a chain. -/
theorem compileLayers_ok (C : Chain s.tree) (hsharing : s.sharing = false) :
    ∀ {ls k levels}, (innerLayers s.tree).drop k = ls → compileLayers s false ls = .ok levels →
      ls.mapM (plainLevel s) = .ok levels
  | [], _, levels, _, hrun => by
      cases hrun
      rfl
  | l :: ls, k, levels, hdrop, hrun => by
      have hget : (innerLayers s.tree)[k]? = some l := by
        have := @List.getElem?_drop _ (innerLayers s.tree) k 0
        rw [hdrop] at this
        simpa using this.symm
      have hmem := List.mem_of_getElem? hget
      have hrest : (innerLayers s.tree).drop (k + 1) = ls := by
        rw [← List.drop_drop, hdrop, List.drop_one, List.tail_cons]
      rw [compileLayers] at hrun
      obtain ⟨below, hbelow, hrun⟩ := Outcome.bind_eq_ok_iff.1 hrun
      obtain ⟨level, hlevel, hrun⟩ := Outcome.bind_eq_ok_iff.1 hrun
      cases hrun
      have ih := compileLayers_ok C hsharing hrest hbelow
      have hleads : Leads s l below := by
        have hindex := C.numbered k l hget
        cases ls with
        | nil =>
            have hlen := List.drop_eq_nil_iff.1 hrest
            obtain ⟨hlt, _⟩ := List.getElem?_eq_some_iff.1 hget
            refine Or.inl ?_
            rw [C.terminal]
            omega
        | cons next ls =>
            have hnext : (innerLayers s.tree)[k + 1]? = some next := by
              have := @List.getElem?_drop _ (innerLayers s.tree) (k + 1) 0
              rw [hrest] at this
              simpa using this.symm
            rw [List.mapM_cons] at ih
            obtain ⟨first, hfirst, ih⟩ := Outcome.bind_eq_ok_iff.1 ih
            obtain ⟨more, _, ih⟩ := Outcome.bind_eq_ok_iff.1 ih
            cases ih
            refine Or.inr ⟨next, first, rfl, ?_, slots_plainLevel hfirst⟩
            have hlayer := C.layer (k + 1) next hnext
            rwa [show l.index + 1 = k + 1 + 1 by omega]
      rw [List.mapM_cons, ih, compileLayer_ok (C.children l hmem) hleads hsharing (C.counted l hmem)
        hlevel]
      rfl

/-- A compiled chain has the levels that its layers make one by one. -/
theorem compile_ok (C : Chain s.tree) (hsharing : s.sharing = false) {g : Multigraph W}
    (hrun : Multigraph.compile s false = .ok g) :
    ∃ levels, (innerLayers s.tree).mapM (plainLevel s) = .ok levels ∧
      assemble s.labels s.tree levels = .ok g := by
  obtain ⟨levels, hlevels, hrun⟩ := Outcome.bind_eq_ok_iff.1 hrun
  exact ⟨levels, compileLayers_ok C hsharing List.drop_zero hlevels, hrun⟩

end BayesCircuit.Parallel
