import BayesCircuit.Proofs.Composition.Contexts
import BayesCircuit.Proofs.PseudoTree.Induced
import Mathlib.Logic.Relation

/-!
# The tree of a composition

`number` gives the nodes of a join and of those below it consecutive numbers (`Laid`), so the numbers
of a tree are those of a preorder walk, and what is below the node of a join are the nodes of the
joins below it. With what is known of the contexts of joins, this says what the tree of every
ordering looks like (`build_composes`): a node has the variables that are mentioned both in its
subtree and outside it, and the nodes that have a variable are connected through the node of the
partition that is joined last of those that mention it.
-/

namespace BayesCircuit.Composition

open Collection Collection.Ascending
open PseudoTree (coinsInCircle closed_coinsInCircle)
open scoped List

variable {nodes : Array Node} {n : Node} {i k id parent : Nat} {children : List Nat}
variable {j a b : Join} {js : List Join} {front back : List Node} {p q : Nat} {v : Variable}

/-! ## Numbered trees -/

/-- Node `k` is a child of node `i`. -/
def Child (nodes : Array Node) (i k : Nat) : Prop := ∃ n, nodes[i]? = some n ∧ k ∈ n.children

/-- A partition has a node in the subtree of node `i`. -/
def Covers (nodes : Array Node) (i p : Nat) : Prop :=
  ∃ k n, Relation.ReflTransGen (Child nodes) i k ∧ nodes[k]? = some n ∧ n.partition = some p

/-- A walk to some nodes and all below them, to each node before its children. -/
inductive Visits (nodes : Array Node) : List Nat → List Nat → Prop
  | nil : Visits nodes [] []
  | cons {i : Nat} {n : Node} {is below rest : List Nat} : nodes[i]? = some n →
      Visits nodes n.children below → Visits nodes is rest →
      Visits nodes (i :: is) (i :: (below ++ rest))

mutual

/-- A join stands in an array of nodes from a number on. -/
inductive Laid (nodes : Array Node) : Nat → Nat → Join → Prop
  | mk {id parent p : Nat} {context : List Variable} {js : List Join} {children : List Nat} :
      nodes[id]? = some ⟨id, some p, some parent, context, children⟩ →
      LaidAll nodes (id + 1) id js children → Laid nodes id parent (.mk p context js)

/-- Joins with a common parent stand in an array of nodes, one behind the other. -/
inductive LaidAll (nodes : Array Node) : Nat → Nat → List Join → List Nat → Prop
  | nil {id parent : Nat} : LaidAll nodes id parent [] []
  | cons {id parent : Nat} {j : Join} {js : List Join} {children : List Nat} :
      Laid nodes id parent j → LaidAll nodes (id + j.members.length) parent js children →
      LaidAll nodes id parent (j :: js) (id :: children)

end

theorem membersAll_cons : membersAll (j :: js) = j.members ++ membersAll js := by
  rw [membersAll, subjoinsAll, List.map_append]
  rfl

mutual

theorem map_partition_number : ∀ {id parent : Nat} {j : Join},
    (number id parent j).map Node.partition = j.members.map some
  | id, parent, .mk p context js => by
      rw [number, Join.members_eq, List.map_cons, List.map_cons, map_partition_numberAll]
      rfl

theorem map_partition_numberAll : ∀ {id parent : Nat} {js : List Join},
    (numberAll id parent js).2.map Node.partition = (membersAll js).map some
  | id, parent, [] => by
      rw [numberAll]
      rfl
  | id, parent, j :: js => by
      rw [numberAll, membersAll_cons, List.map_append, List.map_append, map_partition_number,
        map_partition_numberAll]

end

theorem length_number : (number id parent j).length = j.members.length := by
  rw [← List.length_map (f := Node.partition), map_partition_number, List.length_map]

theorem length_numberAll : (numberAll id parent js).2.length = (membersAll js).length := by
  rw [← List.length_map (f := Node.partition), map_partition_numberAll, List.length_map]

mutual

theorem laid_number : ∀ {id parent : Nat} {j : Join} {front back : List Node},
    front.length = id → nodes.toList = front ++ (number id parent j ++ back) →
    Laid nodes id parent j
  | id, parent, .mk p context js, front, back, hid, hnodes => by
      let node : Node :=
        ⟨id, some p, some parent, context, (numberAll (id + 1) id js).1⟩
      have hsplit : nodes.toList = front ++ node :: ((numberAll (id + 1) id js).2 ++ back) := hnodes
      have hget : nodes[id]? = some node := by
        rw [← Array.getElem?_toList, hsplit, List.getElem?_append_right (Nat.le_of_eq hid), hid,
          Nat.sub_self, List.getElem?_cons_zero]
      have hlength : (front ++ [node]).length = id + 1 := by rw [List.length_append, hid]; rfl
      have hrest : nodes.toList = (front ++ [node]) ++ ((numberAll (id + 1) id js).2 ++ back) := by
        rw [hsplit, List.append_assoc, List.singleton_append]
      exact .mk hget (laidAll_numberAll hlength hrest)

theorem laidAll_numberAll : ∀ {id parent : Nat} {js : List Join} {front back : List Node},
    front.length = id → nodes.toList = front ++ ((numberAll id parent js).2 ++ back) →
    LaidAll nodes id parent js (numberAll id parent js).1
  | id, parent, [], front, back, _, _ => by
      rw [numberAll]
      exact .nil
  | id, parent, j :: js, front, back, hid, hnodes => by
      rw [numberAll] at hnodes ⊢
      simp only [List.append_assoc] at hnodes
      have hlength : (front ++ number id parent j).length = id + j.members.length := by
        rw [List.length_append, hid, length_number]
      have hfirst := laid_number hid hnodes
      rw [length_number, ← List.append_assoc] at hnodes
      rw [length_number]
      exact .cons hfirst (laidAll_numberAll hlength hnodes)

end

/-! ## What stands below a node -/

theorem Laid.node (h : Laid nodes id parent j) : ∃ children,
    nodes[id]? = some ⟨id, some j.partition, some parent, j.context, children⟩ ∧
      LaidAll nodes (id + 1) id j.operands children := by
  cases h with
  | mk hnode hjs => exact ⟨_, hnode, hjs⟩

/-- Every child is a join that has its own parent. -/
theorem LaidAll.child : ∀ {id : Nat} {js : List Join} {children : List Nat},
    LaidAll nodes id parent js children → k ∈ children →
    ∃ j ∈ js, Laid nodes k parent j ∧ id ≤ k
  | _, _, _, .nil, hk => absurd hk List.not_mem_nil
  | id, _, _, .cons hj hjs, hk => by
      rcases List.mem_cons.1 hk with rfl | hk
      · exact ⟨_, List.mem_cons_self .., hj, Nat.le_refl _⟩
      · obtain ⟨b, hb, hlaid, hle⟩ := LaidAll.child hjs hk
        exact ⟨b, List.mem_cons_of_mem _ hb, hlaid, by omega⟩

theorem Laid.child (h : Laid nodes i parent j) (hk : Child nodes i k) :
    i < k ∧ ∃ b ∈ j.operands, Laid nodes k i b := by
  obtain ⟨children, hn, hjs⟩ := h.node
  obtain ⟨n, hn', hmem⟩ := hk
  obtain rfl := Option.some.inj (hn.symm.trans hn')
  obtain ⟨b, hb, hlaid, hle⟩ := hjs.child hmem
  exact ⟨hle, b, hb, hlaid⟩

/-- Below a join are the joins that it is on top of, directly or not. -/
theorem Laid.subjoin (h : Laid nodes i parent j) (hk : Relation.ReflTransGen (Child nodes) i k) :
    ∃ a ∈ j.subjoins, ∃ parent', Laid nodes k parent' a := by
  induction hk with
  | refl => exact ⟨j, j.mem_subjoins, parent, h⟩
  | @tail l k _ hstep ih =>
      obtain ⟨a, ha, _, hlaid⟩ := ih
      obtain ⟨_, b, hb, hlaid⟩ := hlaid.child hstep
      exact ⟨b, Join.subjoins_trans ha (Join.operands_subset hb), l, hlaid⟩

mutual

theorem Laid.exists_below : ∀ {id parent : Nat} {j : Join}, Laid nodes id parent j →
    a ∈ j.subjoins →
    ∃ k parent', Relation.ReflTransGen (Child nodes) id k ∧ Laid nodes k parent' a
  | id, parent, .mk p context js, h, ha => by
      rw [Join.subjoins, List.mem_cons] at ha
      rcases ha with rfl | ha
      · exact ⟨id, parent, .refl, h⟩
      · obtain ⟨children, hn, hjs⟩ := h.node
        obtain ⟨c, hc, k, parent', hpath, hlaid⟩ := LaidAll.exists_below hjs ha
        exact ⟨k, parent', .head ⟨_, hn, hc⟩ hpath, hlaid⟩

theorem LaidAll.exists_below : ∀ {id parent : Nat} {js : List Join} {children : List Nat},
    LaidAll nodes id parent js children → a ∈ subjoinsAll js →
    ∃ c ∈ children, ∃ k parent', Relation.ReflTransGen (Child nodes) c k ∧
      Laid nodes k parent' a
  | id, parent, [], _, _, ha => absurd ha List.not_mem_nil
  | id, parent, j :: js, _, .cons hj hjs, ha => by
      rw [subjoinsAll, List.mem_append] at ha
      rcases ha with ha | ha
      · exact ⟨id, List.mem_cons_self .., Laid.exists_below hj ha⟩
      · obtain ⟨c, hc, hbelow⟩ := LaidAll.exists_below hjs ha
        exact ⟨c, List.mem_cons_of_mem _ hc, hbelow⟩

end

/-- The partitions of a subtree are those of the join. -/
theorem Laid.covers_iff (h : Laid nodes i parent j) : Covers nodes i p ↔ p ∈ j.members := by
  rw [Join.members, List.mem_map]
  constructor
  · rintro ⟨k, n, hpath, hn, hp⟩
    obtain ⟨a, ha, _, hlaid⟩ := h.subjoin hpath
    obtain ⟨children, hn', _⟩ := hlaid.node
    obtain rfl := Option.some.inj (hn.symm.trans hn')
    exact ⟨a, ha, Option.some.inj hp⟩
  · rintro ⟨a, ha, rfl⟩
    obtain ⟨k, _, hpath, hlaid⟩ := h.exists_below ha
    obtain ⟨children, hn, _⟩ := hlaid.node
    exact ⟨k, _, hpath, hn, rfl⟩

/-! ## Where a number belongs -/

/-- The join of a number: one of those that come first, or one right below another join. -/
inductive Placed (nodes : Array Node) (parent : Nat) (js : List Join) (children : List Nat)
    (k : Nat) : Prop
  | top {j : Join} : j ∈ js → k ∈ children → Laid nodes k parent j →
      Placed nodes parent js children k
  | below {i parent' : Nat} {a b : Join} : a ∈ subjoinsAll js → b ∈ a.operands →
      Laid nodes i parent' a → Child nodes i k → Laid nodes k i b →
      Placed nodes parent js children k

mutual

theorem Laid.placed : ∀ {id parent : Nat} {j : Join}, Laid nodes id parent j → id < k →
    k < id + j.members.length →
    ∃ i parent' a b, a ∈ j.subjoins ∧ b ∈ a.operands ∧ Laid nodes i parent' a ∧
      Child nodes i k ∧ Laid nodes k i b
  | id, parent, .mk p context js, h, hlow, hhigh => by
      obtain ⟨children, hn, hjs⟩ := h.node
      rw [Join.members_eq, List.length_cons] at hhigh
      rw [Join.subjoins]
      cases LaidAll.placed hjs hlow (by simp only [Join.operands] at hhigh ⊢; omega) with
      | top hb hk hlaid =>
          exact ⟨id, parent, _, _, List.mem_cons_self .., hb, h, ⟨_, hn, hk⟩, hlaid⟩
      | below ha hb hlaid hk hlaid' =>
          exact ⟨_, _, _, _, List.mem_cons_of_mem _ ha, hb, hlaid, hk, hlaid'⟩

theorem LaidAll.placed : ∀ {id parent : Nat} {js : List Join} {children : List Nat},
    LaidAll nodes id parent js children → id ≤ k → k < id + (membersAll js).length →
    Placed nodes parent js children k
  | id, parent, [], _, _, hlow, hhigh => by
      simp only [membersAll, subjoinsAll, List.map_nil, List.length_nil] at hhigh
      omega
  | id, parent, j :: js, _, .cons hj hjs, hlow, hhigh => by
      rw [membersAll_cons, List.length_append] at hhigh
      by_cases hfirst : k < id + j.members.length
      · rcases Nat.lt_or_eq_of_le hlow with hlt | rfl
        · obtain ⟨i, parent', a, b, ha, hb, hlaid, hk, hlaid'⟩ := Laid.placed hj hlt hfirst
          refine .below ?_ hb hlaid hk hlaid'
          rw [subjoinsAll]
          exact List.mem_append_left _ ha
        · exact .top (List.mem_cons_self ..) (List.mem_cons_self ..) hj
      · cases LaidAll.placed hjs (Nat.not_lt.1 hfirst) (by omega) with
        | top hb hk hlaid =>
            exact .top (List.mem_cons_of_mem _ hb) (List.mem_cons_of_mem _ hk) hlaid
        | below ha hb hlaid hk hlaid' =>
            refine .below ?_ hb hlaid hk hlaid'
            rw [subjoinsAll]
            exact List.mem_append_right _ ha

end

/-! ## Preorder -/

mutual

theorem Laid.visits : ∀ {id parent : Nat} {j : Join}, Laid nodes id parent j →
    ∃ n, nodes[id]? = some n ∧
      Visits nodes n.children (List.range' (id + 1) (membersAll j.operands).length)
  | _, _, .mk _ _ _, .mk hnode hjs => ⟨_, hnode, LaidAll.visits hjs⟩

theorem LaidAll.visits : ∀ {id parent : Nat} {js : List Join} {children : List Nat},
    LaidAll nodes id parent js children →
    Visits nodes children (List.range' id (membersAll js).length)
  | _, _, [], _, .nil => .nil
  | id, parent, j :: js, _, .cons hj hjs => by
      obtain ⟨n, hn, hbelow⟩ := Laid.visits hj
      have hrest := LaidAll.visits hjs
      have hsplit : List.range' id (membersAll (j :: js)).length =
          id :: (List.range' (id + 1) (membersAll j.operands).length ++
            List.range' (id + j.members.length) (membersAll js).length) := by
        rw [membersAll_cons, j.members_eq, List.length_append, List.length_cons,
          ← List.range'_append_1, List.range'_succ, List.cons_append]
      rw [hsplit]
      exact .cons hn hbelow hrest

end

/-! ## The tree of an ordering -/

section Tree

variable {t : Tree}

theorem Tree.size_nodes : t.nodes.size = (membersAll t.roots).length + 1 := by
  rw [← @length_numberAll 1 0 t.roots]
  rfl

theorem Tree.root : ∃ children, t.nodes[0]? = some ⟨0, none, none, [], children⟩ ∧
    LaidAll t.nodes 1 0 t.roots children := by
  let node : Node := ⟨0, none, none, [], (numberAll 1 0 t.roots).1⟩
  have hnodes : t.nodes.toList = [node] ++ ((numberAll 1 0 t.roots).2 ++ []) := by
    rw [List.append_nil]
    rfl
  exact ⟨_, rfl, laidAll_numberAll rfl hnodes⟩

theorem Tree.placed {children : List Nat} (hroots : LaidAll t.nodes 1 0 t.roots children)
    (hn : t.nodes[k]? = some n) (hk : k ≠ 0) : Placed t.nodes 0 t.roots children k := by
  have hsize : k < t.nodes.size := (Array.getElem?_eq_some_iff.1 hn).1
  rw [t.size_nodes] at hsize
  exact hroots.placed (Nat.one_le_iff_ne_zero.2 hk) (by omega)

/-- Every node but the root is that of a join. -/
theorem Tree.laid (hn : t.nodes[k]? = some n) (hk : k ≠ 0) :
    ∃ j ∈ subjoinsAll t.roots, ∃ parent, Laid t.nodes k parent j := by
  obtain ⟨children, _, hroots⟩ := t.root
  cases t.placed hroots hn hk with
  | top hj _ hlaid => exact ⟨_, subset_subjoinsAll hj, _, hlaid⟩
  | below ha hb _ _ hlaid => exact ⟨_, subjoinsAll_trans ha (Join.operands_subset hb), _, hlaid⟩

theorem Tree.partition_mem (hn : t.nodes[k]? = some n) (hk : k ≠ 0) :
    ∃ p ∈ membersAll t.roots, n.partition = some p := by
  obtain ⟨j, hj, _, hlaid⟩ := t.laid hn hk
  obtain ⟨_, hn', _⟩ := hlaid.node
  obtain rfl := Option.some.inj (hn.symm.trans hn')
  exact ⟨j.partition, List.mem_map_of_mem hj, rfl⟩

theorem Tree.strict_context (h : ∀ context ∈ contextsAll t.roots, Strict context)
    (hn : t.nodes[k]? = some n) : Strict n.context := by
  by_cases hk : k = 0
  · obtain ⟨children, hroot, _⟩ := t.root
    subst hk
    obtain rfl := Option.some.inj (hn.symm.trans hroot)
    exact .nil
  · obtain ⟨j, hj, _, hlaid⟩ := t.laid hn hk
    obtain ⟨_, hn', _⟩ := hlaid.node
    obtain rfl := Option.some.inj (hn.symm.trans hn')
    apply h
    rw [contextsAll_eq]
    exact List.mem_map_of_mem hj

theorem Tree.id_eq (hn : t.nodes[k]? = some n) : n.id = k := by
  by_cases hk : k = 0
  · obtain ⟨children, hroot, _⟩ := t.root
    subst hk
    obtain rfl := Option.some.inj (hn.symm.trans hroot)
    rfl
  · obtain ⟨j, _, parent, hlaid⟩ := t.laid hn hk
    obtain ⟨children, hn', _⟩ := hlaid.node
    obtain rfl := Option.some.inj (hn.symm.trans hn')
    rfl

theorem Tree.visits : Visits t.nodes [0] (List.range t.nodes.size) := by
  obtain ⟨children, hroot, hroots⟩ := t.root
  have hrange : List.range t.nodes.size = 0 :: (List.range' 1 (membersAll t.roots).length ++ []) := by
    rw [t.size_nodes, List.range_eq_range', List.range'_succ, List.append_nil]
  rw [hrange]
  exact .cons hroot hroots.visits .nil

/-- Links to children and to the parent are inverse to each other. -/
theorem Tree.child_iff : Child t.nodes i k ↔ ∃ n, t.nodes[k]? = some n ∧ n.parent = some i := by
  obtain ⟨children, hroot, hroots⟩ := t.root
  constructor
  · intro hchild
    have hlaid : ∃ j, Laid t.nodes k i j := by
      obtain ⟨n, hn, hk⟩ := hchild
      by_cases hi : i = 0
      · subst hi
        obtain rfl := Option.some.inj (hn.symm.trans hroot)
        obtain ⟨j, _, hlaid, _⟩ := hroots.child hk
        exact ⟨j, hlaid⟩
      · obtain ⟨j, _, parent, hlaid⟩ := t.laid hn hi
        obtain ⟨_, b, _, hlaid⟩ := hlaid.child ⟨n, hn, hk⟩
        exact ⟨b, hlaid⟩
    obtain ⟨j, hlaid⟩ := hlaid
    obtain ⟨_, hn, _⟩ := hlaid.node
    exact ⟨_, hn, rfl⟩
  · rintro ⟨n, hn, hparent⟩
    have hk : k ≠ 0 := by
      rintro rfl
      obtain rfl := Option.some.inj (hn.symm.trans hroot)
      cases hparent
    cases t.placed hroots hn hk with
    | top _ hmem hlaid =>
        obtain ⟨_, hn', _⟩ := hlaid.node
        obtain rfl := Option.some.inj (hn.symm.trans hn')
        obtain rfl : 0 = i := Option.some.inj hparent
        exact ⟨_, hroot, hmem⟩
    | below _ _ _ hchild hlaid =>
        obtain ⟨_, hn', _⟩ := hlaid.node
        obtain rfl := Option.some.inj (hn.symm.trans hn')
        exact Option.some.inj hparent ▸ hchild

theorem Tree.map_partition : t.nodes.toList.map Node.partition =
    none :: (membersAll t.roots).map some := by
  rw [← @map_partition_numberAll 1 0 t.roots]
  rfl

/-- Every partition has one node. -/
theorem Tree.existsUnique_node (hnodup : (membersAll t.roots).Nodup)
    (hp : p ∈ membersAll t.roots) : ∃! i : Nat, ∃ n : Node, t.nodes[i]? = some n ∧ n.partition = some p := by
  have hmem : some p ∈ t.nodes.toList.map Node.partition := by
    rw [t.map_partition]
    exact List.mem_cons_of_mem _ (List.mem_map_of_mem hp)
  have hinj : (t.nodes.toList.map Node.partition).Nodup := by
    rw [t.map_partition, List.nodup_cons]
    exact ⟨by simp, hnodup.map (Option.some_injective _)⟩
  obtain ⟨i, hi⟩ := List.mem_iff_getElem?.1 hmem
  have hnode : ∀ {k : Nat}, (∃ n : Node, t.nodes[k]? = some n ∧ n.partition = some p) ↔
      (t.nodes.toList.map Node.partition)[k]? = some (some p) := by
    intro k
    simp [List.getElem?_map, Option.map_eq_some_iff]
  refine ⟨i, hnode.2 hi, fun k hk => ?_⟩
  have hi' : i < (t.nodes.toList.map Node.partition).length :=
    (List.getElem?_eq_some_iff.1 hi).1
  exact ((List.getElem?_inj hi' hinj).1 (hi.trans (hnode.1 hk).symm)).symm

theorem Tree.nodeOf_ok (hp : ∃ (i : Nat) (n : Node), t.nodes[i]? = some n ∧ n.partition = some p) :
    ∃ n, t.nodeOf p = .ok n ∧ n.partition = some p ∧ t.nodes[n.id]? = some n := by
  obtain ⟨i, n, hn, hpart⟩ := hp
  cases hfind : t.nodes.find? (·.partition == some p) with
  | none =>
      have hne := Array.find?_eq_none.1 hfind n (Array.mem_of_getElem? hn)
      simp [hpart] at hne
  | some m =>
      have hm : m.partition = some p := by simpa using Array.find?_some hfind
      obtain ⟨k, hk⟩ := Array.mem_iff_getElem?.1 (Array.mem_of_find?_eq_some hfind)
      refine ⟨m, ?_, hm, ?_⟩
      · rw [nodeOf, hfind]
        rfl
      · rw [t.id_eq hk]
        exact hk

end Tree

/-! ## Composition trees -/

/-- Node `i` has a variable in its context or is the node of the partition. -/
def Carries (nodes : Array Node) (v : Variable) (last i : Nat) : Prop :=
  ∃ n, nodes[i]? = some n ∧ (v ∈ n.context ∨ n.partition = some last)

/-- Two nodes that carry a variable, one of them right below the other. -/
def Linked (nodes : Array Node) (v : Variable) (last i k : Nat) : Prop :=
  Carries nodes v last i ∧ Carries nodes v last k ∧ (Child nodes i k ∨ Child nodes k i)

/-- The tree that composes partitions in an ordering. -/
structure Tree.Composes (t : Tree) (ps : Partitions) (ordering : List Nat) : Prop where
  ordering_eq : t.ordering = ordering
  size : t.nodes.size = ps.size + 1
  root : ∃ children, t.nodes[0]? = some ⟨0, none, none, [], children⟩
  id : ∀ {i : Nat} {n : Node}, t.nodes[i]? = some n → n.id = i
  preorder : Visits t.nodes [0] (List.range t.nodes.size)
  link : ∀ {i k : Nat}, Child t.nodes i k ↔ ∃ n, t.nodes[k]? = some n ∧ n.parent = some i
  partition : ∀ {i : Nat} {n : Node}, t.nodes[i]? = some n → i ≠ 0 →
    ∃ p < ps.size, n.partition = some p
  node : ∀ {p : Nat}, p < ps.size →
    ∃! i : Nat, ∃ n : Node, t.nodes[i]? = some n ∧ n.partition = some p
  nodeOf : ∀ {p : Nat}, p < ps.size →
    ∃ n, t.nodeOf p = .ok n ∧ n.partition = some p ∧ t.nodes[n.id]? = some n
  strict : ∀ {i : Nat} {n : Node}, t.nodes[i]? = some n → Strict n.context
  /-- The context is what is mentioned both in the subtree and outside it. -/
  mem_context : ∀ {i : Nat} {n : Node} {v : Variable}, t.nodes[i]? = some n → i ≠ 0 →
    (v ∈ n.context ↔ (∃ p < ps.size, ps.mentions p v ∧ Covers t.nodes i p) ∧
      ∃ p < ps.size, ps.mentions p v ∧ ¬ Covers t.nodes i p)
  /-- The nodes of a variable are connected. -/
  connected : ∀ {v : Variable} {last : Nat}, ordering.find? (ps.mentions · v) = some last →
    ∀ {i k : Nat}, Carries t.nodes v last i → Carries t.nodes v last k →
      Relation.ReflTransGen (Linked t.nodes v last) i k

section Composed

variable {c : Composition} {mentions : Nat → Variable → Bool} {last : Nat}
variable {order ordering : List Nat} {open' : Array Nat} {t : Tree}

instance : Std.Symm (Linked nodes v last) := ⟨fun _ _ h => ⟨h.2.1, h.1, h.2.2.symm⟩⟩

variable (h : Joined c mentions order order [] open' t.roots)

include h in
theorem Joined.mem_context_node (hn : t.nodes[i]? = some n) (hi : i ≠ 0) :
    v ∈ n.context ↔ (∃ p ∈ order, mentions p v ∧ Covers t.nodes i p) ∧
      ∃ p ∈ order, mentions p v ∧ ¬ Covers t.nodes i p := by
  obtain ⟨j, hj, parent, hlaid⟩ := t.laid hn hi
  obtain ⟨children, hn', _⟩ := hlaid.node
  obtain rfl := Option.some.inj (hn.symm.trans hn')
  have hmembers : ∀ q ∈ j.members, q ∈ order := by
    intro q hq
    obtain ⟨a, ha, rfl⟩ := List.mem_map.1 hq
    exact h.members.mem_iff.1 (List.mem_map_of_mem (subjoinsAll_trans hj ha))
  simp only [hlaid.covers_iff]
  refine ((h.sound j hj).mem_context v).trans (and_congr ?_ ?_)
  · constructor
    · rintro ⟨q, hq, hqv⟩
      exact ⟨q, hmembers q hq, hqv, hq⟩
    · rintro ⟨q, _, hqv, hq⟩
      exact ⟨q, hq, hqv⟩
  · constructor
    · rintro ⟨q, hq, hout, hqv⟩
      exact ⟨q, hq, hqv, hout⟩
    · rintro ⟨q, hq, hqv, hout⟩
      exact ⟨q, hq, hout, hqv⟩

include h in
/-- Above a node that has a variable in its context, the variable is carried on. -/
theorem Joined.exists_parent (hn : t.nodes[i]? = some n) (hv : v ∈ n.context)
    (hlast : last ∈ order) (hlastv : mentions last v)
    (hmax : ∀ q ∈ order, mentions q v → order.idxOf q ≤ order.idxOf last) :
    ∃ m < i, Child t.nodes m i ∧ Carries t.nodes v last m := by
  obtain ⟨children, hroot, hroots⟩ := t.root
  have hi : i ≠ 0 := by
    rintro rfl
    obtain rfl := Option.some.inj (hn.symm.trans hroot)
    exact List.not_mem_nil hv
  cases t.placed hroots hn hi with
  | top hj _ hlaid =>
      obtain ⟨_, hn', _⟩ := hlaid.node
      obtain rfl := Option.some.inj (hn.symm.trans hn')
      exact absurd hv (h.notMem_context_root hj)
  | @below m _ a b ha hb hlaid hchild hlaid' =>
      obtain ⟨_, hn', _⟩ := hlaid'.node
      obtain rfl := Option.some.inj (hn.symm.trans hn')
      obtain ⟨_, hm, _⟩ := hlaid.node
      refine ⟨m, (hlaid.child hchild).1, hchild, _, hm, ?_⟩
      by_cases hpart : a.partition = last
      · exact .inr (congrArg some hpart)
      · exact .inl ((h.sound a ha).mem_context_of_operand
          (h.sound b (subjoinsAll_trans ha (Join.operands_subset hb))) hb hv hlast hlastv hmax hpart)

include h in
/-- Every node that carries a variable is linked to that of the last partition. -/
theorem Joined.linked_last (hlast : last ∈ order) (hlastv : mentions last v)
    (hmax : ∀ q ∈ order, mentions q v → order.idxOf q ≤ order.idxOf last)
    (hi : Carries t.nodes v last i) :
    ∃ m n, t.nodes[m]? = some n ∧ n.partition = some last ∧
      Relation.ReflTransGen (Linked t.nodes v last) i m := by
  induction i using Nat.strongRecOn with
  | ind i ih =>
      obtain ⟨n, hn, hv | hpart⟩ := hi
      · obtain ⟨m, hlt, hchild, hm⟩ := h.exists_parent hn hv hlast hlastv hmax
        obtain ⟨k, n', hn', hpart, hpath⟩ := ih m hlt hm
        exact ⟨k, n', hn', hpart, .head ⟨⟨n, hn, .inl hv⟩, hm, .inr hchild⟩ hpath⟩
      · exact ⟨i, n, hn, hpart, .refl⟩

include h in
theorem Joined.connected (hlast : last ∈ order) (hlastv : mentions last v)
    (hmax : ∀ q ∈ order, mentions q v → order.idxOf q ≤ order.idxOf last)
    (hnode : ∃! i : Nat, ∃ n : Node, t.nodes[i]? = some n ∧ n.partition = some last)
    (hi : Carries t.nodes v last i) (hk : Carries t.nodes v last k) :
    Relation.ReflTransGen (Linked t.nodes v last) i k := by
  obtain ⟨m, n, hm, hpart, hpath⟩ := h.linked_last hlast hlastv hmax hi
  obtain ⟨m', n', hm', hpart', hpath'⟩ := h.linked_last hlast hlastv hmax hk
  obtain rfl : m = m' := hnode.unique ⟨n, hm, hpart⟩ ⟨n', hm', hpart'⟩
  exact hpath.trans (Relation.ReflTransGen.stdSymm.symm _ _ hpath')

/-- The first in an ordering of those that mention a variable is joined last. -/
theorem idxOf_le_of_find? (hnodup : ordering.Nodup)
    (hfind : ordering.find? (mentions · v) = some last) (hq : q ∈ ordering.reverse)
    (hqv : mentions q v) : ordering.reverse.idxOf q ≤ ordering.reverse.idxOf last := by
  obtain ⟨_, before, after, rfl, hbefore⟩ := List.find?_eq_some_iff_append.1 hfind
  have hreverse : (before ++ last :: after).reverse = after.reverse ++ last :: before.reverse := by
    rw [List.reverse_append, List.reverse_cons, List.append_assoc, List.singleton_append]
  have hlast : last ∉ after.reverse := by
    rw [List.mem_reverse]
    exact (List.nodup_cons.1 (List.nodup_append.1 hnodup).2.1).1
  have hindex : (after.reverse ++ last :: before.reverse).idxOf last = after.reverse.length := by
    rw [List.idxOf_append_of_notMem hlast, List.idxOf_cons_self, Nat.add_zero]
  rw [hreverse, List.mem_append, List.mem_cons, @List.mem_reverse _ _ before] at hq
  rw [hreverse, hindex]
  rcases hq with hq | rfl | hq
  · rw [List.idxOf_append_of_mem hq]
    exact Nat.le_of_lt (List.idxOf_lt_length_of_mem hq)
  · exact Nat.le_of_eq hindex
  · have hnot := hbefore q hq
    simp [hqv] at hnot

end Composed

/-- The tree of every ordering of the partitions: its nodes are numbered in preorder, and the
context of a node is what is mentioned both in its subtree and outside it. -/
theorem build_composes {net : Network} {sets : List (List Variable)} {ps : Partitions}
    {ordering : List Nat} (hnet : net.Closed) (hps : Partitions.ofSets net sets = .ok ps)
    (hordering : ordering ~ List.range ps.size) (chain : Bool) :
    ∃ t, (ofPartitions net.dims ps).build ordering chain = .ok t ∧ t.Composes ps ordering := by
  have hsize : (ofPartitions net.dims ps).size = ps.size := Partitions.size_ofPartitions
  have hperm : ordering ~ List.range (ofPartitions net.dims ps).size := by rwa [hsize]
  have horder : ordering.reverse ~ List.range (ofPartitions net.dims ps).size :=
    (List.reverse_perm _).trans hperm
  have hshares := Partitions.shares_ofPartitions hnet hps
  let t : Tree := ⟨ordering, joinFrom (ofPartitions net.dims ps) chain ordering.reverse
    (ofPartitions net.dims ps).occurrences []⟩
  obtain ⟨open₁, hroots⟩ : ∃ open₁, Joined (ofPartitions net.dims ps) ps.mentions
      ordering.reverse ordering.reverse [] open₁ t.roots :=
    Joined.run hshares horder (joined_nil hshares horder)
  have hmembers : ∀ {p}, p ∈ membersAll t.roots ↔ p < ps.size := by
    intro p
    rw [hroots.members.mem_iff, horder.mem_iff, hsize, List.mem_range]
  have hmem : ∀ {p}, p ∈ ordering.reverse ↔ p < ps.size := by
    intro p
    rw [← hroots.members.mem_iff, hmembers]
  have hnodup : (membersAll t.roots).Nodup :=
    hroots.members.nodup_iff.2 (horder.nodup_iff.2 List.nodup_range)
  have hcontexts : ∀ context ∈ contextsAll t.roots,
      (ofPartitions net.dims ps).IsContext context :=
    isContext_joinFrom fun _ hnil => absurd hnil List.not_mem_nil
  have hnode : ∀ {p}, p < ps.size →
      ∃! i : Nat, ∃ n : Node, t.nodes[i]? = some n ∧ n.partition = some p :=
    fun hp => t.existsUnique_node hnodup (hmembers.2 hp)
  refine ⟨t, build_perm hperm chain, ?_⟩
  constructor
  case ordering_eq => rfl
  case size =>
    rw [t.size_nodes, hroots.members.length_eq, horder.length_eq, List.length_range, hsize]
  case root =>
    obtain ⟨children, hroot, _⟩ := t.root
    exact ⟨children, hroot⟩
  case id => exact t.id_eq
  case preorder => exact t.visits
  case link => exact t.child_iff
  case partition =>
    intro i n hn hi
    obtain ⟨p, hp, hpart⟩ := t.partition_mem hn hi
    exact ⟨p, hmembers.1 hp, hpart⟩
  case node => exact hnode
  case nodeOf => exact fun hp => t.nodeOf_ok (hnode hp).exists
  case strict => exact t.strict_context fun context hmem => (hcontexts context hmem).strict
  case mem_context =>
    intro i n v hn hi
    simpa only [hmem] using hroots.mem_context_node hn hi
  case connected =>
    intro v last hfind i k hi hk
    have hlast : last ∈ ordering.reverse :=
      List.mem_reverse.2 (List.mem_of_find?_eq_some hfind)
    have hnodup := hperm.nodup_iff.2 List.nodup_range
    exact hroots.connected hlast (List.find?_some (p := (ps.mentions · v)) hfind)
      (fun q => idxOf_le_of_find? hnodup hfind) (hnode (hmem.1 hlast)) hi hk

/-- Three coins in a circle, each in a partition of its own. -/
theorem build_composes_coinsInCircle : ∃ ps t,
    Partitions.ofSets coinsInCircle [[2, 3], [0], [1]] = .ok ps ∧ ps.size = 3 ∧
      (ofPartitions coinsInCircle.dims ps).build [1, 2, 0] false = .ok t ∧
      t.Composes ps [1, 2, 0] := by
  let ps : Partitions := ⟨#[⟨[2, 3], [1]⟩, ⟨[0], [2]⟩, ⟨[1], [0]⟩]⟩
  have hps : Partitions.ofSets coinsInCircle [[2, 3], [0], [1]] = .ok ps := by decide +kernel
  have hordering : [1, 2, 0] ~ List.range ps.size := by decide
  obtain ⟨t, ht, hcomposes⟩ := build_composes closed_coinsInCircle hps hordering false
  exact ⟨ps, t, hps, rfl, ht, hcomposes⟩

end BayesCircuit.Composition
