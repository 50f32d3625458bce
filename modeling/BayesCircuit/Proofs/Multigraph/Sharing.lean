import BayesCircuit.Proofs.Multigraph.Value
import BayesCircuit.Proofs.Outcome
import BayesCircuit.Proofs.SpanningTree.Descent

/-!
# Sharing equal nodes

A tree is compiled with and without sharing in lock step. What differs is where nodes are stored, so
the nodes of the plain levels are placed among those of the shared ones (`Folds`): a node is placed
where a node with the same edges stands, once the targets of the edges have been placed themselves.
A layer is compiled on top of those after it, and within a layer a node is added after those to
which its edges lead, so the placement grows with the levels and never has to be revised
(`compileLayers_folds`).
-/

namespace BayesCircuit.Multigraph

variable {W : Type}

/-- The edge with its target at another place. -/
def Edge.place (φ : NodeId → NodeId) (e : Edge W) : Edge W := ⟨φ e.target, e.label⟩

/-- The node with the targets of its edges at other places. -/
def Node.place (φ : NodeId → NodeId) (n : Node W) : Node W :=
  { n with edges := n.edges.map (Edge.place φ) }

/-- Nodes are moved within their layers. -/
def within (places : Nat → Nat → Nat) (id : NodeId) : NodeId := ⟨id.layer, places id.layer id.index⟩

variable {places places' : Nat → Nat → Nat} {index i j k : Nat} {n : Node W}
variable {nodes nodes' : Array (Node W)}

theorem place_congr {φ φ' : NodeId → NodeId} (h : ∀ e ∈ n.edges, φ' e.target = φ e.target) :
    n.place φ' = n.place φ := by
  simp only [Node.place, Node.mk.injEq, true_and]
  exact List.map_congr_left fun e he => by rw [Edge.place, Edge.place, h e he]

theorem within_congr {id : NodeId} (h : places' id.layer = places id.layer) :
    within places' id = within places id := by
  rw [within, within, h]

/-! ## Nodes of one level -/

/-- The edges do not lead to layers before the one with the given number. -/
def Downward (index : Nat) (n : Node W) : Prop := ∀ e ∈ n.edges, index ≤ e.target.layer

/-- The nodes of a level are placed among those of a level without equal nodes. Numbers without a
node stay as they are. -/
structure Folds (places : Nat → Nat → Nat) (index : Nat) (nodes nodes' : Array (Node W)) : Prop where
  size_le : nodes'.size ≤ nodes.size
  first : places index 0 = 0
  other : ∀ i, nodes.size ≤ i → places index i = i
  node : ∀ {i : Nat} {n : Node W}, nodes[i]? = some n →
    nodes'[places index i]? = some (n.place (within places))
  onto : ∀ j < nodes'.size, ∃ i < nodes.size, places index i = j
  grounded : ∀ {i : Nat} {n : Node W}, nodes[i]? = some n → Grounded index i n
  grounded' : ∀ {j : Nat} {n : Node W}, nodes'[j]? = some n → Grounded index j n
  downward : ∀ {i : Nat} {n : Node W}, nodes[i]? = some n → Downward index n

theorem folds_empty (h : ∀ i, places index i = i) :
    Folds places index (#[] : Array (Node W)) #[] where
  size_le := Nat.le_refl _
  first := h 0
  other i _ := h i
  node h := by simp at h
  onto j hj := absurd hj (Nat.not_lt_zero j)
  grounded h := by simp at h
  grounded' h := by simp at h
  downward h := by simp at h

/-- The layers before the one with the given number do not matter. -/
theorem Folds.congr (h : Folds places index nodes nodes')
    (hsame : ∀ k, index ≤ k → places' k = places k) : Folds places' index nodes nodes' where
  size_le := h.size_le
  first := by rw [hsame index (Nat.le_refl _), h.first]
  other i hi := by rw [hsame index (Nat.le_refl _), h.other i hi]
  node {i n} hn := by
    have hplace : n.place (within places') = n.place (within places) :=
      place_congr fun e he => within_congr (hsame _ (h.downward hn e he))
    rw [hsame index (Nat.le_refl _), h.node hn, hplace]
  onto j hj := by
    rw [hsame index (Nat.le_refl _)]
    exact h.onto j hj
  grounded := h.grounded
  grounded' := h.grounded'
  downward := h.downward

/-- There is a node at a place if there is one to be placed. -/
theorem Folds.getElem?_eq (h : Folds places index nodes nodes') (i : Nat) :
    nodes'[places index i]? = nodes[i]?.map (Node.place (within places)) := by
  cases hn : nodes[i]? with
  | some n => exact h.node hn
  | none =>
      have hi := Array.getElem?_eq_none_iff.1 hn
      rw [h.other i hi]
      exact Array.getElem?_eq_none (h.size_le.trans hi)

/-- The targets of a placed node stand among the placed nodes. -/
theorem Folds.grounded_place (h : Folds places index nodes nodes')
    (hn : Grounded index nodes.size n) :
    Grounded index nodes'.size (n.place (within places)) := by
  intro placed hplaced hl
  obtain ⟨e, he, rfl⟩ := List.mem_map.1 hplaced
  have hl' : e.target.layer = index := hl
  obtain ⟨hlt, -⟩ := Array.getElem?_eq_some_iff.1
    (h.node (Array.getElem?_eq_getElem (hn e he hl')))
  show places e.target.layer e.target.index < nodes'.size
  rwa [hl']

/-! ## One more node -/

/-- The place of one node is set. -/
def setPlace (places : Nat → Nat → Nat) (index i j : Nat) : Nat → Nat → Nat :=
  Function.update places index (Function.update (places index) i j)

/-- Places are kept, but for the numbers of a layer from the given one on. -/
def Keeps (index size : Nat) (places places' : Nat → Nat → Nat) : Prop :=
  ∀ k i, k ≠ index ∨ i < size → places' k i = places k i

theorem Keeps.refl {size : Nat} : Keeps index size places places := fun _ _ _ => rfl

theorem Keeps.trans {size size' : Nat} {places'' : Nat → Nat → Nat}
    (h : Keeps index size places places') (h' : Keeps index size' places' places'')
    (hle : size ≤ size') : Keeps index size places places'' := by
  intro k i hi
  rw [h' k i (hi.imp_right fun hlt => Nat.lt_of_lt_of_le hlt hle), h k i hi]

theorem Keeps.mono {size size' : Nat} (h : Keeps index size' places places') (hle : size ≤ size') :
    Keeps index size places places' :=
  fun k i hi => h k i (hi.imp_right fun hlt => Nat.lt_of_lt_of_le hlt hle)

/-- Targets that are grounded keep their places. -/
theorem Keeps.within {size : Nat} {id : NodeId} (h : Keeps index size places places')
    (hid : id.layer = index → id.index < size) :
    Multigraph.within places' id = Multigraph.within places id := by
  rw [Multigraph.within, Multigraph.within]
  refine congrArg _ (h _ _ ?_)
  by_cases hl : id.layer = index
  · exact Or.inr (hid hl)
  · exact Or.inl hl

theorem Keeps.place {size : Nat} (h : Keeps index size places places')
    (hn : Grounded index size n) :
    n.place (Multigraph.within places') = n.place (Multigraph.within places) :=
  place_congr fun e he => h.within (hn e he)

theorem setPlace_self : setPlace places index i j index i = j := by
  rw [setPlace, Function.update_self, Function.update_self]

theorem keeps_setPlace : Keeps index i places (setPlace places index i j) := by
  intro k m hm
  rw [setPlace]
  by_cases hk : k = index
  · subst hk
    rw [Function.update_self, Function.update_of_ne]
    exact Nat.ne_of_lt (hm.resolve_left fun h => h rfl)
  · rw [Function.update_of_ne hk]

theorem setPlace_of_ne (h : k ≠ i) : setPlace places index i j index k = places index k := by
  rw [setPlace, Function.update_self, Function.update_of_ne h]

/-- The next node is placed at an equal one, which may be new. -/
theorem Folds.push (h : Folds places index nodes nodes') {more : Array (Node W)}
    (hn : Grounded index nodes.size n) (hdown : Downward index n)
    (hplaced : more[j]? = some (n.place (within places)))
    (hmore : more = nodes' ∨ more = nodes'.push (n.place (within places)) ∧ j = nodes'.size) :
    Folds (setPlace places index nodes.size j) index (nodes.push n) more := by
  have hkeeps : Keeps index nodes.size places (setPlace places index nodes.size j) := keeps_setPlace
  have hold : ∀ {i : Nat} {n : Node W}, nodes'[i]? = some n → more[i]? = some n := by
    intro i n' hn'
    rcases hmore with rfl | ⟨rfl, -⟩
    · exact hn'
    · obtain ⟨hi, -⟩ := Array.getElem?_eq_some_iff.1 hn'
      rwa [Array.getElem?_push_lt hi, ← Array.getElem?_eq_getElem hi]
  have hsize : more.size ≤ nodes'.size + 1 := by
    rcases hmore with rfl | ⟨rfl, -⟩
    · exact Nat.le_succ _
    · rw [Array.size_push]
  have hle := h.size_le
  refine ⟨?_, ?_, fun i hi => ?_, fun {i n'} hn' => ?_, fun m hm => ?_, fun {i n'} hn' => ?_,
    fun {m n'} hn' => ?_, fun {i n'} hn' => ?_⟩
  · rw [Array.size_push]
    omega
  · by_cases hzero : nodes.size = 0
    · rw [hzero, setPlace_self]
      obtain ⟨hj, -⟩ := Array.getElem?_eq_some_iff.1 hplaced
      omega
    · rw [hkeeps index 0 (Or.inr (by omega)), h.first]
  · rw [Array.size_push] at hi
    rw [setPlace_of_ne (by omega), h.other i (by omega)]
  · rcases getElem?_push_cases hn' with ⟨rfl, rfl⟩ | hn'
    · rw [setPlace_self, hplaced, hkeeps.place hn]
    · obtain ⟨hi, -⟩ := Array.getElem?_eq_some_iff.1 hn'
      have hground : Grounded index nodes.size n' := fun e he hl =>
        Nat.lt_trans (h.grounded hn' e he hl) hi
      rw [hkeeps index i (Or.inr hi), hold (h.node hn'), hkeeps.place hground]
  · by_cases hm' : m < nodes'.size
    · obtain ⟨i, hi, rfl⟩ := h.onto m hm'
      refine ⟨i, ?_, hkeeps index i (Or.inr hi)⟩
      rw [Array.size_push]
      omega
    · have hm : m = j := by
        rcases hmore with rfl | ⟨rfl, rfl⟩
        · exact absurd hm hm'
        · rw [Array.size_push] at hm
          omega
      refine ⟨nodes.size, ?_, by rw [setPlace_self, hm]⟩
      rw [Array.size_push]
      exact Nat.lt_succ_self _
  · exact grounded_push h.grounded hn hn'
  · rcases hmore with rfl | ⟨rfl, rfl⟩
    · exact h.grounded' hn'
    · exact grounded_push h.grounded' (h.grounded_place hn) hn'
  · rcases getElem?_push_cases hn' with ⟨rfl, rfl⟩ | hn'
    · exact hdown
    · exact h.downward hn'

/-- A level with one node that leads to later layers only. -/
theorem folds_single (hstay : ∀ i, places index i = i)
    (hlater : ∀ e ∈ n.edges, index < e.target.layer) :
    Folds places index #[n] #[n.place (within places)] := by
  have hsame : setPlace places index 0 0 = places := by
    have hrow : Function.update (places index) 0 0 = places index :=
      Function.update_eq_self_iff.2 (hstay 0).symm
    rw [setPlace, hrow, Function.update_eq_self]
  have hplaced : #[n.place (within places)][0]? = some (n.place (within places)) := rfl
  have h := (folds_empty hstay).push (fun e he hl => absurd hl (Nat.ne_of_gt (hlater e he)))
    (fun e he => Nat.le_of_lt (hlater e he)) hplaced (Or.inr ⟨rfl, rfl⟩)
  rwa [show (#[] : Array (Node W)).size = 0 from rfl, hsame] at h

/-! ## Where edges lead -/

/-- What is compiled with or without sharing. -/
structure Plan (W : Type) where
  tree : SpanningTree
  encoding : Encoding
  labels : LabelAlgebra W

/-- The source of a plan. -/
def Plan.source (p : Plan W) (sharing : Bool) : Source W := ⟨p.tree, p.encoding, p.labels, sharing⟩

variable {p : Plan W} {below below' : List (Level W)} {context : List Nat} {l : Layer}

/-- The and node over some targets. -/
def joint (p : Plan W) (l : Layer) (ids : List NodeId) : Node W :=
  ⟨l.label, .and, ids.map fun id => ⟨id, p.labels.unit⟩⟩

theorem place_joint {φ : NodeId → NodeId} {ids : List NodeId} :
    (joint p l ids).place φ = joint p l (ids.map φ) := by
  simp [joint, Node.place, Edge.place, Function.comp_def]

/-- What the edges of a layer lead to below is placed, and the terminal stays. -/
structure Placed (p : Plan W) (l : Layer) (below below' : List (Level W))
    (places : Nat → Nat → Nat) : Prop where
  terminal_lt : l.index < p.tree.terminal
  terminal : ∀ i, places p.tree.terminal i = i
  target : ∀ {context value c id id'}, c ∈ l.children →
    target (p.source false) l below context value c = .ok id →
    target (p.source true) l below' context value c = .ok id' →
    l.index < id.layer ∧ id' = within places id

/-- Nothing but the places in the layer matters to what is filled. -/
theorem Placed.keeps (h : Placed p l below below' places)
    (hkeeps : Keeps l.index 0 places places') :
    Placed p l below below' places' where
  terminal_lt := h.terminal_lt
  terminal i := by rw [hkeeps _ i (Or.inl (Nat.ne_of_gt h.terminal_lt)), h.terminal i]
  target hc hid hid' := by
    obtain ⟨hlt, rfl⟩ := h.target hc hid hid'
    exact ⟨hlt, (hkeeps.within fun hl => absurd hl (Nat.ne_of_gt hlt)).symm⟩

/-- The targets of the edges of a value are placed one by one. -/
theorem Placed.targets (h : Placed p l below below' places) {value : Nat} :
    ∀ {cs : List Nat} {ids ids' : List NodeId}, (∀ c ∈ cs, c ∈ l.children) →
      cs.mapM (Multigraph.target (p.source false) l below context value) = .ok ids →
      cs.mapM (Multigraph.target (p.source true) l below' context value) = .ok ids' →
      (∀ id ∈ ids, l.index < id.layer) ∧ ids' = ids.map (within places)
  | [], ids, ids', _, hids, hids' => by
      cases hids
      cases hids'
      exact ⟨by simp, rfl⟩
  | c :: cs, ids, ids', hcs, hids, hids' => by
      rw [List.mapM_cons] at hids hids'
      obtain ⟨id, hid, hids⟩ := Outcome.bind_eq_ok_iff.1 hids
      obtain ⟨rest, hrest, hids⟩ := Outcome.bind_eq_ok_iff.1 hids
      obtain ⟨id', hid', hids'⟩ := Outcome.bind_eq_ok_iff.1 hids'
      obtain ⟨rest', hrest', hids'⟩ := Outcome.bind_eq_ok_iff.1 hids'
      cases hids
      cases hids'
      obtain ⟨hc, hcs⟩ := List.forall_mem_cons.1 hcs
      obtain ⟨hlt, rfl⟩ := h.target hc hid hid'
      obtain ⟨hall, rfl⟩ := h.targets hcs hrest hrest'
      exact ⟨List.forall_mem_cons.2 ⟨hlt, hall⟩, rfl⟩

/-! ## Levels -/

/-- The nodes of a level are placed in one without equal nodes. -/
structure FoldsLevel (places : Nat → Nat → Nat) (index : Nat) (m m' : Level W) : Prop where
  owner : m'.owner = m.owner
  folds : Folds places index m.nodes m'.nodes
  nodup : m'.nodes.toList.Nodup
  slots : m'.slots = m.slots.map (places index)

/-- The nodes of levels that are numbered from `index` on are placed in levels without equal
nodes. -/
inductive FoldsFrom (places : Nat → Nat → Nat) : Nat → List (Level W) → List (Level W) → Prop
  | nil {index : Nat} : FoldsFrom places index [] []
  | cons {index : Nat} {m m' : Level W} {ms ms' : List (Level W)}
      (level : FoldsLevel places index m m') (rest : FoldsFrom places (index + 1) ms ms') :
      FoldsFrom places index (m :: ms) (m' :: ms')

variable {m m' : Level W} {ms ms' : List (Level W)} {ls : List Layer} {expired expired' : Bool}

theorem FoldsLevel.congr (h : FoldsLevel places index m m')
    (hsame : ∀ k, index ≤ k → places' k = places k) : FoldsLevel places' index m m' where
  owner := h.owner
  folds := h.folds.congr hsame
  nodup := h.nodup
  slots := by rw [hsame index (Nat.le_refl _), h.slots]

theorem FoldsFrom.congr (h : FoldsFrom places index ms ms')
    (hsame : ∀ k, index ≤ k → places' k = places k) : FoldsFrom places' index ms ms' := by
  induction h with
  | nil => exact .nil
  | cons level rest ih =>
      exact .cons (level.congr hsame) (ih fun k hk => hsame k (Nat.le_of_succ_le hk))

theorem FoldsFrom.length_eq (h : FoldsFrom places index ms ms') : ms'.length = ms.length := by
  induction h with
  | nil => rfl
  | cons level rest ih => rw [List.length_cons, List.length_cons, ih]

theorem FoldsFrom.nodup (h : FoldsFrom places index ms ms') :
    ∀ m ∈ ms', m.nodes.toList.Nodup := by
  induction h with
  | nil => exact fun m hm => absurd hm List.not_mem_nil
  | cons level rest ih => exact List.forall_mem_cons.2 ⟨level.nodup, ih⟩

/-- The level with a given number. -/
theorem FoldsFrom.get (h : FoldsFrom places index ms ms') (hm : ms[k]? = some m) :
    ∃ m', ms'[k]? = some m' ∧ FoldsLevel places (index + k) m m' := by
  induction h generalizing k with
  | nil => simp at hm
  | @cons index m₀ m₀' _ _ level rest ih =>
      cases k with
      | zero =>
          obtain rfl := Option.some.inj hm
          exact ⟨m₀', rfl, level⟩
      | succ k =>
          obtain ⟨m', hm', hlevel⟩ := ih hm
          refine ⟨m', hm', ?_⟩
          rwa [Nat.add_right_comm] at hlevel

theorem FoldsFrom.append {ns ns' : List (Level W)} (h : FoldsFrom places index ms ms')
    (h' : FoldsFrom places (index + ms.length) ns ns') :
    FoldsFrom places index (ms ++ ns) (ms' ++ ns') := by
  induction h with
  | nil => exact h'
  | cons level rest ih =>
      refine .cons level (ih ?_)
      rwa [List.length_cons, ← Nat.add_assoc, Nat.add_right_comm] at h'

/-- The levels after a layer say where its edges lead. -/
theorem FoldsFrom.placed (h : FoldsFrom places (l.index + 1) below below')
    (hchildren : ∀ c ∈ l.children, l.index < c) (hterminal : l.index < p.tree.terminal)
    (hstay : ∀ i, places p.tree.terminal i = i) : Placed p l below below' places where
  terminal_lt := hterminal
  terminal := hstay
  target {context value c id id'} hc hid hid' := by
    change Multigraph.target (p.source false) l below' context value c = .ok id' at hid'
    unfold target at hid hid'
    split at hid
    · rename_i hlast
      rw [if_pos hlast] at hid'
      cases hid
      cases hid'
      refine ⟨hterminal, ?_⟩
      exact congrArg (NodeId.mk p.tree.terminal) (hstay 0).symm
    · rename_i hlast
      rw [if_neg hlast] at hid'
      obtain ⟨m, hm, hid⟩ := Outcome.bind_eq_ok_iff.1 hid
      obtain ⟨next, hnext, hid⟩ := Outcome.bind_eq_ok_iff.1 hid
      obtain ⟨i, hi, hid⟩ := Outcome.bind_eq_ok_iff.1 hid
      obtain ⟨m', hm', hid'⟩ := Outcome.bind_eq_ok_iff.1 hid'
      obtain ⟨next', hnext', hid'⟩ := Outcome.bind_eq_ok_iff.1 hid'
      obtain ⟨j, hj, hid'⟩ := Outcome.bind_eq_ok_iff.1 hid'
      cases hid
      cases hid'
      obtain rfl : next = next' := Except.ok.inj (hnext.symm.trans hnext')
      have hlt := hchildren c hc
      obtain ⟨m'', hm'', hlevel⟩ := h.get (Outcome.expect_eq_ok.1 hm)
      obtain rfl := Option.some.inj ((Outcome.expect_eq_ok.1 hm').symm.trans hm'')
      rw [show l.index + 1 + (c - (l.index + 1)) = c by omega] at hlevel
      have hslot := Outcome.expect_eq_ok.1 hj
      rw [hlevel.slots, Array.getElem?_map, Outcome.expect_eq_ok.1 hi] at hslot
      obtain rfl := Option.some.inj hslot
      exact ⟨hlt, rfl⟩

/-! ## Levels that are being filled -/

variable [DecidableEq W] [Hashable W] {f f' g g' : Filling W}

/-- A level that is filled with sharing follows one that is filled without. -/
structure Follows (places : Nat → Nat → Nat) (index : Nat) (f f' : Filling W) : Prop where
  folds : Folds places index f.nodes f'.nodes
  known : ∀ (n : Node W) (i : Nat), f'.known[n]? = some i ↔ f'.nodes[i]? = some n
  slots : f'.slots = f.slots.map (places index)
  slot : ∀ i ∈ f.slots, i = 0 ∨ i < f.nodes.size

theorem follows_start (h : ∀ i, places index i = i) :
    Follows places index (Filling.start l : Filling W) (Filling.start l) where
  folds := folds_empty h
  known n i := by simp [Filling.start]
  slots := by simp [Filling.start, h]
  slot i hi := Or.inl (Array.eq_of_mem_replicate hi)

/-- Equal nodes have one number. -/
theorem Follows.nodup (h : Follows places index f f') : f'.nodes.toList.Nodup := by
  refine List.nodup_iff_getElem?_ne_getElem?.2 fun i j hlt hj he => ?_
  rw [Array.length_toList] at hj
  have hget := Array.getElem?_eq_getElem hj
  rw [Array.getElem?_toList, Array.getElem?_toList, hget] at he
  have hknown := (h.known _ i).2 he
  rw [(h.known _ j).2 hget] at hknown
  exact Nat.ne_of_lt hlt (Option.some.inj hknown).symm

/-- Without sharing, a node is stored behind the others. -/
theorem add_plain (h : f.add false l n = .ok (i, g)) :
    i = f.nodes.size ∧ g = { f with nodes := f.nodes.push n } := by
  simp only [Filling.add, Bool.false_eq_true, if_false] at h
  split at h
  · cases h
  · cases h
    exact ⟨rfl, rfl⟩

/-- With sharing, a node is stored behind the others unless it is known. -/
theorem add_shared (h : f.add true l n = .ok (i, g)) : (f.known[n]? = some i ∧ g = f) ∨
    (f.known[n]? = none ∧ i = f.nodes.size ∧
      g = { f with nodes := f.nodes.push n, known := f.known.insert n f.nodes.size }) := by
  simp only [Filling.add, if_true] at h
  split at h
  · rename_i hknown
    cases h
    exact Or.inl ⟨hknown, rfl⟩
  · rename_i hknown
    split at h
    · cases h
    · cases h
      exact Or.inr ⟨hknown, rfl, rfl⟩

/-- Both levels get a node. -/
theorem Follows.add (h : Follows places index f f') (hn : Grounded index f.nodes.size n)
    (hdown : Downward index n) (hadd : f.add false l n = .ok (i, g))
    (hadd' : f'.add true l (n.place (within places)) = .ok (j, g')) :
    i = f.nodes.size ∧ g = { f with nodes := f.nodes.push n } ∧
      Follows (setPlace places index i j) index g g' := by
  obtain ⟨rfl, rfl⟩ := add_plain hadd
  refine ⟨rfl, rfl, ?_⟩
  have hfolds : g'.slots = f'.slots ∧
      Folds (setPlace places index f.nodes.size j) index (f.nodes.push n) g'.nodes ∧
      ∀ (n : Node W) (i : Nat), g'.known[n]? = some i ↔ g'.nodes[i]? = some n := by
    rcases add_shared hadd' with ⟨hknown, rfl⟩ | ⟨hnone, rfl, rfl⟩
    · exact ⟨rfl, h.folds.push hn hdown ((h.known _ j).1 hknown) (Or.inl rfl), h.known⟩
    · refine ⟨rfl, h.folds.push hn hdown Array.getElem?_push_size (Or.inr ⟨rfl, rfl⟩),
        fun n' i => ?_⟩
      rw [Std.HashMap.getElem?_insert, Array.getElem?_push]
      by_cases hi : i = f'.nodes.size
      · rw [if_pos hi]
        split
        · rename_i hsame
          simp [eq_of_beq hsame, hi]
        · rename_i hsame
          refine iff_of_false (fun hknown => ?_) fun he => hsame (beq_iff_eq.2 (Option.some.inj he))
          obtain ⟨hlt, -⟩ := Array.getElem?_eq_some_iff.1 ((h.known n' i).1 hknown)
          omega
      · rw [if_neg hi]
        split
        · rename_i hsame
          rw [← eq_of_beq hsame, ← h.known, hnone]
          simpa using Ne.symm hi
        · exact h.known n' i
  obtain ⟨hslots, hfolds, hknown⟩ := hfolds
  refine ⟨hfolds, hknown, ?_, fun i hi => (h.slot i hi).imp_right fun hlt => ?_⟩
  · rw [hslots, h.slots]
    refine Array.map_congr_left fun i hi => ?_
    rcases h.slot i hi with rfl | hlt
    · rw [hfolds.first, h.folds.first]
    · exact (keeps_setPlace index i (Or.inr hlt)).symm
  · rw [Array.size_push]
    omega

/-! ## The edges of a context -/

/-- The edge does not lead to layers before the one with the given number, and on this layer to the
first nodes only. -/
def Settled (index size : Nat) (e : Edge W) : Prop :=
  index ≤ e.target.layer ∧ (e.target.layer = index → e.target.index < size)

/-- The edges of a context, with the nodes that they need. -/
structure EdgesFollow (index : Nat) (places places' : Nat → Nat → Nat) (f g g' : Filling W)
    (es es' : List (Edge W)) : Prop where
  keeps : Keeps index f.nodes.size places places'
  follows : Follows places' index g g'
  edges : es' = es.map (Edge.place (within places'))
  size_le : f.nodes.size ≤ g.nodes.size
  settled : ∀ e ∈ es, Settled index g.nodes.size e

/-- One more edge to a node that is there. -/
theorem EdgesFollow.cons {f₁ : Filling W} {es es' : List (Edge W)} {e : Edge W}
    {places₁ places₂ : Nat → Nat → Nat} (h : EdgesFollow index places₁ places₂ f₁ g g' es es')
    (hkeeps : Keeps index f.nodes.size places places₁) (hsize : f.nodes.size ≤ f₁.nodes.size)
    (he : Settled index f₁.nodes.size e) :
    EdgesFollow index places places₂ f g g' (e :: es) (e.place (within places₁) :: es') where
  keeps := hkeeps.trans h.keeps hsize
  follows := h.follows
  edges := by
    rw [List.map_cons, ← h.edges, Edge.place, Edge.place, h.keeps.within he.2]
  size_le := hsize.trans h.size_le
  settled := List.forall_mem_cons.2
    ⟨⟨he.1, fun hl => Nat.lt_of_lt_of_le (he.2 hl) h.size_le⟩, h.settled⟩

variable {value : Nat} {values : List Nat} {label : W} {ids : List NodeId}
variable {es es' : List (Edge W)} {sharing : Bool}

/-- The edge for a value leads to the only target. -/
theorem edgesFor_single {only : NodeId}
    (hr : edgeLabel? p.labels p.encoding l context value = .ok (some label))
    (hids : l.children.mapM (target (p.source sharing) l below context value) = .ok [only])
    (h : edgesFor (p.source sharing) l below context (value :: values) f = .ok (es, g)) :
    ∃ rest, es = ⟨only, label⟩ :: rest ∧
      edgesFor (p.source sharing) l below context values f = .ok (rest, g) := by
  rw [edgesFor] at h
  obtain ⟨_, hr', h⟩ := Outcome.bind_eq_ok_iff.1 h
  obtain rfl := Except.ok.inj (hr.symm.trans hr')
  obtain ⟨_, hids', h⟩ := Outcome.bind_eq_ok_iff.1 h
  obtain rfl := Except.ok.inj (hids.symm.trans hids')
  obtain ⟨⟨rest, g₁⟩, hrest, h⟩ := Outcome.bind_eq_ok_iff.1 h
  cases h
  exact ⟨rest, rfl, hrest⟩

/-- The edge for a value leads to an and node over several targets. -/
theorem edgesFor_joint (hr : edgeLabel? p.labels p.encoding l context value = .ok (some label))
    (hids : l.children.mapM (target (p.source sharing) l below context value) = .ok ids)
    (hmany : ids.length ≠ 1)
    (h : edgesFor (p.source sharing) l below context (value :: values) f = .ok (es, g)) :
    ∃ i f₁ rest, f.add sharing l (joint p l ids) = .ok (i, f₁) ∧
      es = ⟨⟨l.index, i⟩, label⟩ :: rest ∧
      edgesFor (p.source sharing) l below context values f₁ = .ok (rest, g) := by
  rw [edgesFor] at h
  obtain ⟨_, hr', h⟩ := Outcome.bind_eq_ok_iff.1 h
  obtain rfl := Except.ok.inj (hr.symm.trans hr')
  obtain ⟨_, hids', h⟩ := Outcome.bind_eq_ok_iff.1 h
  obtain rfl := Except.ok.inj (hids.symm.trans hids')
  split at h
  · exact absurd rfl hmany
  · obtain ⟨⟨i, f₁⟩, hadd, h⟩ := Outcome.bind_eq_ok_iff.1 h
    obtain ⟨⟨rest, g₁⟩, hrest, h⟩ := Outcome.bind_eq_ok_iff.1 h
    cases h
    exact ⟨i, f₁, rest, hadd, rfl, hrest⟩

/-- The edge for a value with the weight zero leads to the terminal. -/
theorem edgesFor_none (hr : edgeLabel? p.labels p.encoding l context value = .ok none)
    (h : edgesFor (p.source sharing) l below context (value :: values) f = .ok (es, g)) :
    ∃ rest, es = ⟨terminalOf p.tree, p.labels.zero⟩ :: rest ∧
      edgesFor (p.source sharing) l below context values f = .ok (rest, g) := by
  rw [edgesFor] at h
  obtain ⟨_, hr', h⟩ := Outcome.bind_eq_ok_iff.1 h
  obtain rfl := Except.ok.inj (hr.symm.trans hr')
  obtain ⟨⟨rest, g₁⟩, hrest, h⟩ := Outcome.bind_eq_ok_iff.1 h
  cases h
  exact ⟨rest, rfl, hrest⟩

theorem edgeLabel?_of_ok (h : edgesFor (p.source sharing) l below context (value :: values) f =
    .ok (es, g)) : ∃ r, edgeLabel? p.labels p.encoding l context value = .ok r ∧
      (r ≠ none → ∃ ids,
        l.children.mapM (target (p.source sharing) l below context value) = .ok ids) := by
  rw [edgesFor] at h
  obtain ⟨r, hr, h⟩ := Outcome.bind_eq_ok_iff.1 h
  refine ⟨r, hr, fun hne => ?_⟩
  cases r with
  | none => exact absurd rfl hne
  | some label =>
      obtain ⟨ids, hids, -⟩ := Outcome.bind_eq_ok_iff.1 h
      exact ⟨ids, hids⟩

/-- The edges of a context with sharing are those without, at their places. -/
theorem edgesFor_follows : ∀ {values places f f' es es' g g'}, Placed p l below below' places →
    Follows places l.index f f' →
    edgesFor (p.source false) l below context values f = .ok (es, g) →
    edgesFor (p.source true) l below' context values f' = .ok (es', g') →
    ∃ places', EdgesFollow l.index places places' f g g' es es'
  | [], places, f, f', es, es', g, g', _, h, hes, hes' => by
      cases hes
      cases hes'
      exact ⟨places, .refl, h, rfl, Nat.le_refl _, by simp⟩
  | value :: values, places, f, f', es, es', g, g', hplaced, h, hes, hes' => by
      obtain ⟨r, hr, htargets⟩ := edgeLabel?_of_ok hes
      obtain ⟨r', hr', htargets'⟩ := edgeLabel?_of_ok hes'
      obtain rfl : r = r' := Except.ok.inj (hr.symm.trans hr')
      have hlt := hplaced.terminal_lt
      cases r with
      | none =>
          obtain ⟨rest, rfl, hrest⟩ := edgesFor_none hr hes
          obtain ⟨rest', rfl, hrest'⟩ := edgesFor_none hr hes'
          obtain ⟨places', E⟩ := edgesFor_follows hplaced h hrest hrest'
          have hstay : within places (terminalOf p.tree) = terminalOf p.tree := by
            rw [within, terminalOf, hplaced.terminal 0]
          have E := E.cons .refl (Nat.le_refl _) (e := ⟨terminalOf p.tree, p.labels.zero⟩)
            ⟨Nat.le_of_lt hlt, fun hl => absurd hl (Nat.ne_of_gt hlt)⟩
          rw [Edge.place, hstay] at E
          exact ⟨places', E⟩
      | some label =>
          obtain ⟨ids, hids⟩ := htargets (Option.some_ne_none label)
          obtain ⟨ids', hids'⟩ := htargets' (Option.some_ne_none label)
          obtain ⟨hbelow, rfl⟩ := hplaced.targets (fun c hc => hc) hids hids'
          by_cases hone : ids.length = 1
          · obtain ⟨only, rfl⟩ := List.length_eq_one_iff.1 hone
            obtain ⟨rest, rfl, hrest⟩ := edgesFor_single hr hids hes
            obtain ⟨rest', rfl, hrest'⟩ := edgesFor_single hr hids' hes'
            obtain ⟨places', E⟩ := edgesFor_follows hplaced h hrest hrest'
            have hlt := hbelow only (List.mem_singleton_self _)
            exact ⟨places', E.cons .refl (Nat.le_refl _) (e := ⟨only, label⟩)
              ⟨Nat.le_of_lt hlt, fun hl => absurd hl (Nat.ne_of_gt hlt)⟩⟩
          · obtain ⟨i, f₁, rest, hadd, rfl, hrest⟩ := edgesFor_joint hr hids hone hes
            obtain ⟨j, f₁', rest', hadd', rfl, hrest'⟩ :=
              edgesFor_joint hr hids' (by rwa [List.length_map]) hes'
            rw [← place_joint] at hadd'
            have hedge : ∀ e ∈ (joint p l ids).edges, l.index < e.target.layer := by
              intro e he
              obtain ⟨id, hid, rfl⟩ := List.mem_map.1 he
              exact hbelow id hid
            obtain ⟨rfl, rfl, h₁⟩ := h.add
              (fun e he hl => absurd hl (Nat.ne_of_gt (hedge e he)))
              (fun e he => Nat.le_of_lt (hedge e he)) hadd hadd'
            have hkeeps : Keeps l.index f.nodes.size places
                (setPlace places l.index f.nodes.size j) := keeps_setPlace
            obtain ⟨places', E⟩ := edgesFor_follows
              (hplaced.keeps (hkeeps.mono (Nat.zero_le _))) h₁ hrest hrest'
            have hsize : (f.nodes.push (joint p l ids)).size = f.nodes.size + 1 := Array.size_push _
            have E := E.cons hkeeps (f := f) (e := ⟨⟨l.index, f.nodes.size⟩, label⟩)
              (by rw [hsize]; exact Nat.le_succ _)
              ⟨Nat.le_refl _, fun _ => by rw [hsize]; exact Nat.lt_succ_self _⟩
            rw [Edge.place, within, setPlace_self] at E
            exact ⟨places', E⟩

/-! ## The contexts of a layer -/

/-- The node of a context with sharing is the one without, at its place. -/
theorem fillContext_follows {c : Counter} (hplaced : Placed p l below below' places)
    (h : Follows places l.index f f')
    (hf : fillContext (p.source false) l below f c = .ok g)
    (hf' : fillContext (p.source true) l below' f' c = .ok g') :
    ∃ places', Keeps l.index 0 places places' ∧ Follows places' l.index g g' := by
  obtain ⟨⟨es, f₁⟩, hes, hf⟩ := Outcome.bind_eq_ok_iff.1 hf
  obtain ⟨⟨i, f₂⟩, hadd, hf⟩ := Outcome.bind_eq_ok_iff.1 hf
  obtain ⟨⟨es', f₁'⟩, hes', hf'⟩ := Outcome.bind_eq_ok_iff.1 hf'
  obtain ⟨⟨j, f₂'⟩, hadd', hf'⟩ := Outcome.bind_eq_ok_iff.1 hf'
  cases hf
  cases hf'
  obtain ⟨places₁, E⟩ := edgesFor_follows hplaced h hes hes'
  obtain rfl := E.edges
  obtain ⟨rfl, rfl, h₂⟩ := E.follows.add (fun e he => (E.settled e he).2)
    (fun e he => (E.settled e he).1) hadd hadd'
  have hlast : f₁.nodes.size < (f₁.nodes.push ⟨l.label, .or, es⟩).size := by
    rw [Array.size_push]
    exact Nat.lt_succ_self _
  refine ⟨setPlace places₁ l.index f₁.nodes.size j, ?_, h₂.folds, h₂.known, ?_, fun k hk => ?_⟩
  · have hkeeps : Keeps l.index f₁.nodes.size places₁ (setPlace places₁ l.index f₁.nodes.size j) :=
      keeps_setPlace
    exact (E.keeps.trans hkeeps E.size_le).mono (Nat.zero_le _)
  · have hslots : f₂'.slots = f₁.slots.map (setPlace places₁ l.index f₁.nodes.size j l.index) :=
      h₂.slots
    rw [hslots]
    refine Array.ext_getElem? fun k => ?_
    simp only [Array.getElem?_map, Array.getElem?_setIfInBounds, Array.size_map]
    split
    · split
      · rw [Option.map_some, setPlace_self]
      · rfl
    · rfl
  · rcases Array.mem_or_eq_of_mem_setIfInBounds hk with hk | rfl
    · exact h₂.slot k hk
    · exact Or.inr hlast

/-- The contexts are walked through in lock step. -/
theorem foldlM_follows (hplaced : Placed p l below below' places) :
    ∀ {cs : List Counter} {f f' g g' : Filling W} {places₁ : Nat → Nat → Nat},
      Keeps l.index 0 places places₁ → Follows places₁ l.index f f' →
      cs.foldlM (fillContext (p.source false) l below) f = .ok g →
      cs.foldlM (fillContext (p.source true) l below') f' = .ok g' →
      ∃ places', Keeps l.index 0 places places' ∧ Follows places' l.index g g'
  | [], f, f', g, g', places₁, hkeeps, h, hg, hg' => by
      cases hg
      cases hg'
      exact ⟨places₁, hkeeps, h⟩
  | c :: cs, f, f', g, g', places₁, hkeeps, h, hg, hg' => by
      rw [List.foldlM_cons] at hg hg'
      obtain ⟨f₁, hf₁, hg⟩ := Outcome.bind_eq_ok_iff.1 hg
      obtain ⟨f₁', hf₁', hg'⟩ := Outcome.bind_eq_ok_iff.1 hg'
      obtain ⟨places₂, hkeeps₂, h₂⟩ := fillContext_follows (hplaced.keeps hkeeps) h hf₁ hf₁'
      exact foldlM_follows hplaced (hkeeps.trans hkeeps₂ (Nat.le_refl _)) h₂ hg hg'

/-! ## The levels of a tree -/

theorem compileLayer_ok {s : Source W} (h : compileLayer s expired l below = .ok m) : ∃ f,
    l.counter.walk.foldlM (fillContext s l below) (.start l) = .ok f ∧
      m = ⟨l.label, f.nodes, f.slots⟩ := by
  cases expired with
  | true => cases h
  | false =>
      obtain ⟨f, hf, h⟩ := Outcome.bind_eq_ok_iff.1
        (show l.counter.walk.foldlM (fillContext s l below) (.start l) >>= _ = _ from h)
      cases h
      exact ⟨f, hf, rfl⟩

theorem compileLayer_folds (hplaced : Placed p l below below' places)
    (hstay : ∀ i, places l.index i = i)
    (hm : compileLayer (p.source false) expired l below = .ok m)
    (hm' : compileLayer (p.source true) expired' l below' = .ok m') :
    ∃ places', Keeps l.index 0 places places' ∧ FoldsLevel places' l.index m m' := by
  obtain ⟨g, hg, rfl⟩ := compileLayer_ok hm
  obtain ⟨g', hg', rfl⟩ := compileLayer_ok hm'
  obtain ⟨places', hkeeps, h⟩ := foldlM_follows hplaced .refl (follows_start hstay) hg hg'
  exact ⟨places', hkeeps, ⟨rfl, h.folds, h.nodup, h.slots⟩⟩

/-- The nodes of the layers before `index` and from `stop` on stay where they are. -/
def Stays (index stop : Nat) (places : Nat → Nat → Nat) : Prop :=
  ∀ k, k < index ∨ stop ≤ k → ∀ i, places k i = i

theorem length_compileLayers {s : Source W} : ∀ {ls : List Layer} {ms : List (Level W)},
    compileLayers s expired ls = .ok ms → ms.length = ls.length
  | [], ms, h => by
      cases h
      rfl
  | l :: ls, ms, h => by
      rw [compileLayers] at h
      obtain ⟨below, hbelow, h⟩ := Outcome.bind_eq_ok_iff.1 h
      obtain ⟨m, hm, h⟩ := Outcome.bind_eq_ok_iff.1 h
      cases h
      rw [List.length_cons, List.length_cons, length_compileLayers hbelow]

/-- Layers are compiled with and without sharing in lock step. -/
theorem compileLayers_folds : ∀ {ls : List Layer} {index : Nat} {ms ms' : List (Level W)},
    SpanningTree.Ordered index ls → index + ls.length ≤ p.tree.terminal →
    compileLayers (p.source false) expired ls = .ok ms →
    compileLayers (p.source true) expired' ls = .ok ms' →
    ∃ places, Stays index (index + ls.length) places ∧ FoldsFrom places index ms ms'
  | [], index, ms, ms', _, _, hms, hms' => by
      cases hms
      cases hms'
      exact ⟨fun _ i => i, fun _ _ _ => rfl, .nil⟩
  | l :: ls, index, ms, ms', hordered, hterminal, hms, hms' => by
      rw [compileLayers] at hms hms'
      obtain ⟨below, hbelow, hms⟩ := Outcome.bind_eq_ok_iff.1 hms
      obtain ⟨m, hm, hms⟩ := Outcome.bind_eq_ok_iff.1 hms
      obtain ⟨below', hbelow', hms'⟩ := Outcome.bind_eq_ok_iff.1 hms'
      obtain ⟨m', hm', hms'⟩ := Outcome.bind_eq_ok_iff.1 hms'
      cases hms
      cases hms'
      rw [List.length_cons] at hterminal
      obtain ⟨hfirst, hrest⟩ := hordered.head_tail
      obtain ⟨places, hstays, hfolds⟩ := compileLayers_folds hrest (by omega) hbelow hbelow'
      obtain ⟨rfl, hchildren⟩ := hfirst
      have hplaced := hfolds.placed (p := p) hchildren (by omega)
        (hstays _ (Or.inr (by omega)))
      obtain ⟨places', hkeeps, hlevel⟩ :=
        compileLayer_folds hplaced (hstays _ (Or.inl (Nat.lt_succ_self _))) hm hm'
      refine ⟨places', fun k hk i => ?_, .cons hlevel (hfolds.congr fun k hk => ?_)⟩
      · rw [List.length_cons] at hk
        rw [hkeeps k i (Or.inl (by omega))]
        exact hstays k (by omega) i
      · exact funext fun i => hkeeps k i (Or.inl (by omega))

end BayesCircuit.Multigraph
