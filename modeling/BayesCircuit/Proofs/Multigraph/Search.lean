import BayesCircuit.Multigraph.Basic
import Mathlib.Algebra.BigOperators.Group.List.Basic
import Mathlib.Algebra.GroupWithZero.Nat
import Mathlib.Algebra.Order.BigOperators.Group.List
import Mathlib.Algebra.Order.Group.Nat
import Mathlib.Data.List.Nodup

/-!
# The nodes below the root

The nodes below the root of a multigraph are found by following edges with a stack. Each of them is
found once (`descendants_spec`): what has been found is reached, and where an edge leads to has been
found or is on the stack (`Search`). With every step the stack and the edges of the nodes not found
yet become one less, so as many steps as the multigraph has edges, and one for the root, are enough.

`Preorder` is depth-first search as a recursion on what is below a node, without a stack: after a
node come the nodes that are below it and have not been met before, edge by edge, and only then what
is beside it. The order is determined (`Preorder.unique`).

A search with a stack may push a node several times before it is visited, and passes over it
afterwards. It finds the nodes in preorder all the same, since what it does with a stack it does
with the top of the stack first and with the rest afterwards (`Preorder.split`). So the nodes below
the root of a multigraph are found in preorder (`preorder_descendants`).
-/

namespace BayesCircuit.Multigraph

variable {W : Type} {g : Multigraph W} {id root : NodeId} {stack seen : List NodeId}
variable {marks : Array (Array Bool)}

/-- Whether a node is stored above the terminal. -/
def Inner (g : Multigraph W) (id : NodeId) : Prop :=
  id.layer ≠ g.terminal.layer ∧ (g.node? id).isSome = true

/-- The nodes that the edges of the root and of the nodes below it lead to, without the terminal. -/
inductive Reached (g : Multigraph W) : NodeId → Prop
  | root {id : NodeId} (root : g.root = some id) (inner : g.Inner id) : Reached g id
  | edge {id : NodeId} {e : Edge W} (source : Reached g id) (edge : e ∈ g.edgesOf id)
      (inner : g.Inner e.target) : Reached g e.target

theorem Reached.inner (h : g.Reached id) : g.Inner id := by
  cases h with
  | root _ hinner => exact hinner
  | edge _ _ hinner => exact hinner

/-! ## Marks -/

/-- Whether a node is not marked. -/
def free (marks : Array (Array Bool)) (id : NodeId) : Bool :=
  !(marks.getD id.layer #[]).getD id.index true

theorem free_iff : free marks id = true ↔
    ∃ row, marks[id.layer]? = some row ∧ row[id.index]? = some false := by
  rw [free, Array.getD_eq_getD_getElem?, Array.getD_eq_getD_getElem?]
  cases marks[id.layer]? with
  | none => simp
  | some row => cases hrow : row[id.index]? <;> simp [hrow]

/-- A node is free after another one is marked if it is free before. -/
theorem free_mark {a : NodeId} :
    free (marks.modify a.layer (·.setIfInBounds a.index true)) id = true ↔
      free marks id = true ∧ id ≠ a := by
  rw [free_iff, free_iff, Array.getElem?_modify]
  by_cases hlayer : a.layer = id.layer
  · rw [if_pos hlayer]
    have hne : id ≠ a ↔ a.index ≠ id.index := by
      constructor
      · exact fun h hi => h (by cases id; cases a; simp_all)
      · rintro h rfl
        exact h rfl
    simp only [Option.map_eq_some_iff, hne]
    constructor
    · rintro ⟨_, ⟨row, hrow, rfl⟩, hmark⟩
      rw [Array.getElem?_setIfInBounds] at hmark
      split at hmark
      · split at hmark <;> simp at hmark
      · exact ⟨⟨row, hrow, hmark⟩, ‹_›⟩
    · rintro ⟨⟨row, hrow, hmark⟩, hindex⟩
      exact ⟨_, ⟨row, hrow, rfl⟩, by rwa [Array.getElem?_setIfInBounds_ne hindex]⟩
  · rw [if_neg hlayer]
    have hne : id ≠ a := fun h => hlayer (congrArg NodeId.layer h).symm
    simp [hne]

/-- The marks with which a search starts: only the terminal is marked. -/
def startMarks (g : Multigraph W) : Array (Array Bool) :=
  (g.levels.map fun l => Array.replicate l.nodes.size false).modify g.terminal.layer
    (·.map fun _ => true)

theorem free_startMarks : free g.startMarks id = true ↔ g.Inner id := by
  rw [free_iff, startMarks, Array.getElem?_modify, Array.getElem?_map, Inner, node?]
  cases hlevel : g.levels[id.layer]? with
  | none => simp
  | some l =>
      by_cases hterminal : g.terminal.layer = id.layer
      · simp [hterminal, Array.getElem?_replicate]
      · have hne := Ne.symm hterminal
        simp [hterminal, hne, Array.getElem?_replicate]

/-! ## Edges that are not followed yet -/

/-- The nodes of levels that are numbered from zero on. -/
def ids (ls : List (Level W)) : List NodeId :=
  ls.zipIdx.flatMap fun (l, i) => (List.range l.nodes.size).map (NodeId.mk i)

theorem mem_ids {ls : List (Level W)} :
    id ∈ ids ls ↔ ∃ l, ls[id.layer]? = some l ∧ id.index < l.nodes.size := by
  simp only [ids, List.mem_flatMap, List.mem_map, List.mem_range, Prod.exists,
    List.mem_zipIdx_iff_getElem?]
  constructor
  · rintro ⟨l, i, hl, k, hk, rfl⟩
    exact ⟨l, hl, hk⟩
  · rintro ⟨l, hl, hk⟩
    exact ⟨l, id.layer, hl, id.index, hk, rfl⟩

theorem isSome_node? : (g.node? id).isSome = true ↔
    ∃ l, g.levels.toList[id.layer]? = some l ∧ id.index < l.nodes.size := by
  rw [node?, Array.getElem?_toList]
  cases g.levels[id.layer]? <;> simp

theorem nodup_ids {ls : List (Level W)} : (ids ls).Nodup := by
  refine List.nodup_flatMap.2 ⟨fun q _ => List.nodup_range.map fun a b h => ?_, ?_⟩
  · exact congrArg NodeId.index h
  · have hnumbers : (ls.zipIdx.map Prod.snd).Nodup := by simp [List.nodup_range']
    refine (List.pairwise_map.1 hnumbers).imp fun {a b} hne id ha hb => hne ?_
    obtain ⟨_, _, rfl⟩ := List.mem_map.1 ha
    obtain ⟨_, _, h⟩ := List.mem_map.1 hb
    exact (congrArg NodeId.layer h).symm

/-- The number of edges of some nodes. -/
def edgesIn (g : Multigraph W) (us : List NodeId) : Nat :=
  (us.map fun id => (g.edgesOf id).length).sum

theorem edgesIn_ids : g.edgesIn (ids g.levels.toList) = g.edgeCount := by
  have hlevel : ∀ q ∈ g.levels.toList.zipIdx, (((List.range q.1.nodes.size).map
      (NodeId.mk q.2)).map fun id => (g.edgesOf id).length).sum =
        (q.1.nodes.toList.map (·.edges.length)).sum := by
    rintro ⟨l, i⟩ hq
    have hl : g.levels[i]? = some l := by
      rw [← Array.getElem?_toList]
      exact List.mem_zipIdx_iff_getElem?.1 hq
    refine congrArg List.sum (List.ext_getElem (by simp) fun k hk hk' => ?_)
    have hlt : k < l.nodes.size := by simpa using hk
    simp [edgesOf, node?, hl, hlt]
  rw [edgesIn, ids, List.map_flatMap, List.flatMap_def, List.sum_flatten, List.map_map]
  refine congrArg List.sum ((List.map_congr_left fun q hq => hlevel q hq).trans ?_)
  rw [show (fun q : Level W × Nat => (q.1.nodes.toList.map (·.edges.length)).sum) =
    (fun l : Level W => (l.nodes.toList.map (·.edges.length)).sum) ∘ Prod.fst from rfl,
    ← List.map_map, List.zipIdx_map_fst]
  rfl

/-- The number of edges of the nodes that are not marked. -/
def freeEdges (g : Multigraph W) (marks : Array (Array Bool)) : Nat :=
  g.edgesIn ((ids g.levels.toList).filter (free marks))

/-- When a free node is marked, its edges are followed. -/
theorem freeEdges_mark (hid : id ∈ ids g.levels.toList) (hfree : free marks id = true) :
    (g.edgesOf id).length +
      g.freeEdges (marks.modify id.layer (·.setIfInBounds id.index true)) = g.freeEdges marks := by
  have hrest : (ids g.levels.toList).filter
      (free (marks.modify id.layer (·.setIfInBounds id.index true))) =
        ((ids g.levels.toList).filter (free marks)).erase id := by
    rw [(nodup_ids.filter _).erase_eq_filter, List.filter_filter]
    refine List.filter_congr fun u _ => ?_
    rw [Bool.eq_iff_iff, free_mark]
    simp [and_comm]
  rw [freeEdges, freeEdges, hrest]
  exact List.sum_map_erase (fun id => (g.edgesOf id).length) (List.mem_filter.2 ⟨hid, hfree⟩)

/-! ## Searching -/

/-- A node that counts has been found or is on the stack. -/
def Held (g : Multigraph W) (stack seen : List NodeId) (id : NodeId) : Prop :=
  g.Inner id → id ∈ seen ∨ id ∈ stack

/-- Where a search stands: the marked nodes have been found, and the root and whatever the edges of
these nodes lead to have been found or are on the stack. -/
structure Search (g : Multigraph W) (stack : List NodeId) (marks : Array (Array Bool))
    (seen : List NodeId) : Prop where
  nodup : seen.Nodup
  free_iff : ∀ id, free marks id = true ↔ g.Inner id ∧ id ∉ seen
  reached : ∀ id ∈ seen, g.Reached id
  stacked : ∀ id ∈ stack, g.Inner id → g.Reached id
  root : ∀ id, g.root = some id → g.Held stack seen id
  closed : ∀ id ∈ seen, ∀ e ∈ g.edgesOf id, g.Held stack seen e.target

namespace Search

theorem start (hroot : g.root = some root) : Search g [root] g.startMarks [] where
  nodup := List.nodup_nil
  free_iff id := by rw [free_startMarks]; simp
  reached := by simp
  stacked id hid := by
    obtain rfl := List.mem_singleton.1 hid
    exact .root hroot
  root id hid _ := by
    obtain rfl := Option.some.inj (hroot.symm.trans hid)
    exact Or.inr (List.mem_singleton_self _)
  closed := by simp

/-- A marked node is taken from the stack. -/
theorem skip (S : Search g (id :: stack) marks seen) (hmark : ¬ free marks id = true) :
    Search g stack marks seen := by
  have hheld : ∀ u, g.Held (id :: stack) seen u → g.Held stack seen u := by
    intro u hu hinner
    rcases hu hinner with hseen | hstack
    · exact Or.inl hseen
    · rcases List.mem_cons.1 hstack with rfl | hstack
      · refine Or.inl (Classical.byContradiction fun hnot => hmark ?_)
        exact (S.free_iff u).2 ⟨hinner, hnot⟩
      · exact Or.inr hstack
  exact ⟨S.nodup, S.free_iff, S.reached, fun u hu => S.stacked u (List.mem_cons_of_mem _ hu),
    fun u hu => hheld u (S.root u hu), fun u hu e he => hheld _ (S.closed u hu e he)⟩

/-- A free node is found, and its edges are followed. -/
theorem visit (S : Search g (id :: stack) marks seen) (hfree : free marks id = true) :
    Search g ((g.edgesOf id).map (·.target) ++ stack)
      (marks.modify id.layer (·.setIfInBounds id.index true)) (id :: seen) := by
  obtain ⟨hinner, hnew⟩ := (S.free_iff id).1 hfree
  have hreached := S.stacked id (List.mem_cons_self ..) hinner
  have hheld : ∀ u, g.Held (id :: stack) seen u →
      g.Held ((g.edgesOf id).map (·.target) ++ stack) (id :: seen) u := by
    intro u hu hinner
    rcases hu hinner with hseen | hstack
    · exact Or.inl (List.mem_cons_of_mem _ hseen)
    · rcases List.mem_cons.1 hstack with rfl | hstack
      · exact Or.inl (List.mem_cons_self ..)
      · exact Or.inr (List.mem_append_right _ hstack)
  refine ⟨List.nodup_cons.2 ⟨hnew, S.nodup⟩, fun u => ?_,
    List.forall_mem_cons.2 ⟨hreached, S.reached⟩, fun u hu hinner => ?_,
    fun u hu => hheld u (S.root u hu), List.forall_mem_cons.2 ⟨fun e he _ => ?_, ?_⟩⟩
  · rw [free_mark, S.free_iff, List.mem_cons, not_or]
    tauto
  · rcases List.mem_append.1 hu with hu | hu
    · obtain ⟨e, he, rfl⟩ := List.mem_map.1 hu
      exact .edge hreached he hinner
    · exact S.stacked u (List.mem_cons_of_mem _ hu) hinner
  · exact Or.inr (List.mem_append_left _ (List.mem_map_of_mem he))
  · exact fun u hu e he => hheld _ (S.closed u hu e he)

/-- Once the stack is empty, everything that is reached has been found. -/
theorem mem_seen (S : Search g [] marks seen) (h : g.Reached id) : id ∈ seen := by
  induction h with
  | root hroot hinner => exact (S.root _ hroot hinner).resolve_right List.not_mem_nil
  | edge _ hedge hinner ih => exact (S.closed _ ih _ hedge hinner).resolve_right List.not_mem_nil

theorem done (S : Search g [] marks seen) :
    seen.reverse.Nodup ∧ ∀ id, id ∈ seen.reverse ↔ g.Reached id :=
  ⟨List.nodup_reverse.2 S.nodup, fun id => List.mem_reverse.trans ⟨S.reached id, S.mem_seen⟩⟩

end Search

/-- With enough steps, a search finds each node that is reached once. -/
theorem visitFrom_spec : ∀ {fuel stack marks seen}, Search g stack marks seen →
    stack.length + g.freeEdges marks ≤ fuel →
    (g.visitFrom fuel stack marks seen).Nodup ∧
      ∀ id, id ∈ g.visitFrom fuel stack marks seen ↔ g.Reached id
  | 0, stack, marks, seen, S, hfuel => by
      obtain rfl : stack = [] := List.length_eq_zero_iff.1 (by omega)
      exact S.done
  | fuel + 1, [], marks, seen, S, _ => S.done
  | fuel + 1, id :: stack, marks, seen, S, hfuel => by
      rw [List.length_cons] at hfuel
      rw [visitFrom]
      split
      · rename_i hmark
        have hnot : ¬ free marks id = true := by rw [free, hmark]; simp
        exact visitFrom_spec (S.skip hnot) (by omega)
      · rename_i hmark
        have hfree : free marks id = true := by rw [free]; simpa using hmark
        have hedges := freeEdges_mark (mem_ids.2 (isSome_node?.1 ((S.free_iff id).1 hfree).1.2)) hfree
        refine visitFrom_spec (S.visit hfree) ?_
        rw [List.length_append, List.length_map]
        omega

/-- As many steps as there are edges, and one for the root, are enough. -/
theorem startSteps_le : [root].length + g.freeEdges g.startMarks ≤ g.edgeCount + 1 := by
  have hle : g.freeEdges g.startMarks ≤ g.edgesIn (ids g.levels.toList) :=
    (List.filter_sublist.map _).sum_le_sum fun _ _ => Nat.zero_le _
  rw [edgesIn_ids] at hle
  rw [List.length_singleton, Nat.add_comm]
  exact Nat.add_le_add_right hle 1

/-- The nodes below the root are the ones that are reached, each once. -/
theorem descendants_spec : g.descendants.Nodup ∧ ∀ id, id ∈ g.descendants ↔ g.Reached id := by
  unfold descendants
  cases hroot : g.root with
  | none =>
      refine ⟨List.nodup_nil, fun id => iff_of_false List.not_mem_nil fun h => ?_⟩
      induction h with
      | root h _ => exact absurd (hroot.symm.trans h) (by simp)
      | edge _ _ _ ih => exact ih
  | some root =>
      exact visitFrom_spec (Search.start hroot) startSteps_le

/-! ## Counting nodes -/

/-- Counting two nodes does not depend on their order. -/
theorem size_add_comm (weightCount : W → Nat) (s : Size) (a b : Node W) :
    Size.add weightCount (Size.add weightCount s a) b =
      Size.add weightCount (Size.add weightCount s b) a := by
  obtain ⟨_, kind, edges⟩ := a
  obtain ⟨_, kind', edges'⟩ := b
  cases kind <;> cases kind' <;> simp only [Size.add, Size.mk.injEq, true_and] <;>
    omega

/-! ## Preorder -/

variable {order : List NodeId}

/-- The order in which a depth-first search meets nodes for the first time. It starts from the nodes
of a list, one after the other, and `seen` are the nodes that have been met before. -/
inductive Preorder (g : Multigraph W) : List NodeId → List NodeId → List NodeId → Prop
  | nil {seen : List NodeId} : Preorder g seen [] []
  | skip {seen : List NodeId} {id : NodeId} {todo order : List NodeId}
      (old : g.Inner id → id ∈ seen) (rest : Preorder g seen todo order) :
      Preorder g seen (id :: todo) order
  | visit {seen : List NodeId} {id : NodeId} {todo below beside : List NodeId}
      (inner : g.Inner id) (new : id ∉ seen)
      (first : Preorder g (id :: seen) ((g.edgesOf id).map (·.target)) below)
      (rest : Preorder g (below.reverse ++ id :: seen) todo beside) :
      Preorder g seen (id :: todo) (id :: below ++ beside)

namespace Preorder

variable {xs ys : List NodeId}

/-- There is only one preorder. -/
theorem unique (h : Preorder g seen xs order) : ∀ {order'}, Preorder g seen xs order' →
    order = order' := by
  induction h with
  | nil =>
      intro order' h'
      cases h'
      rfl
  | skip old _ ih =>
      intro order' h'
      cases h' with
      | skip _ rest' => exact ih rest'
      | visit inner' new' _ _ => exact absurd (old inner') new'
  | visit inner new _ _ ihfirst ihrest =>
      intro order' h'
      cases h' with
      | skip old' _ => exact absurd (old' inner) new
      | visit _ _ first' rest' =>
          obtain rfl := ihfirst first'
          rw [ihrest rest']

/-- A search from some nodes and others after them searches from the former and then from the
latter. -/
theorem split : ∀ {xs seen order}, Preorder g seen (xs ++ ys) order → ∃ first last,
    order = first ++ last ∧ Preorder g seen xs first ∧ Preorder g (first.reverse ++ seen) ys last
  | [], _, order, h => ⟨[], order, rfl, .nil, h⟩
  | x :: xs, seen, order, h => by
      cases h with
      | skip old rest =>
          obtain ⟨first, last, rfl, hfirst, hlast⟩ := rest.split
          exact ⟨first, last, rfl, .skip old hfirst, hlast⟩
      | @visit _ _ _ below beside inner new first rest =>
          obtain ⟨more, last, rfl, hmore, hlast⟩ := rest.split
          refine ⟨x :: below ++ more, last, by simp, .visit inner new first hmore, ?_⟩
          simpa using hlast

/-- A search from one node finds this node first. -/
theorem head (h : Preorder g [] [id] order) (hinner : g.Inner id) :
    ∃ below, order = id :: below := by
  cases h with
  | skip old _ => exact absurd (old hinner) List.not_mem_nil
  | @visit _ _ _ below beside _ _ _ _ => exact ⟨below ++ beside, rfl⟩

end Preorder

/-- With enough steps, a search with a stack finds nodes in preorder. -/
theorem preorder_visitFrom : ∀ {fuel stack marks seen}, Search g stack marks seen →
    stack.length + g.freeEdges marks ≤ fuel → ∃ order,
      g.visitFrom fuel stack marks seen = seen.reverse ++ order ∧ Preorder g seen stack order
  | 0, stack, marks, seen, S, hfuel => by
      obtain rfl : stack = [] := List.length_eq_zero_iff.1 (by omega)
      exact ⟨[], (List.append_nil _).symm, .nil⟩
  | fuel + 1, [], marks, seen, S, _ => ⟨[], (List.append_nil _).symm, .nil⟩
  | fuel + 1, id :: stack, marks, seen, S, hfuel => by
      rw [List.length_cons] at hfuel
      rw [visitFrom]
      split
      · rename_i hmark
        have hnot : ¬ free marks id = true := by rw [free, hmark]; simp
        have hsteps : stack.length + g.freeEdges marks ≤ fuel := by omega
        obtain ⟨order, horder, hpre⟩ := preorder_visitFrom (S.skip hnot) hsteps
        refine ⟨order, horder, .skip (fun hinner => ?_) hpre⟩
        exact Classical.byContradiction fun hnew => hnot ((S.free_iff id).2 ⟨hinner, hnew⟩)
      · rename_i hmark
        have hfree : free marks id = true := by rw [free]; simpa using hmark
        obtain ⟨hinner, hnew⟩ := (S.free_iff id).1 hfree
        have hedges := freeEdges_mark (mem_ids.2 (isSome_node?.1 hinner.2)) hfree
        have hsteps : ((g.edgesOf id).map (·.target) ++ stack).length +
            g.freeEdges (marks.modify id.layer (·.setIfInBounds id.index true)) ≤ fuel := by
          rw [List.length_append, List.length_map]
          omega
        obtain ⟨order, horder, hpre⟩ := preorder_visitFrom (S.visit hfree) hsteps
        -- what the stack held before is searched after what is below the node
        obtain ⟨below, beside, rfl, hbelow, hbeside⟩ := hpre.split
        refine ⟨id :: below ++ beside, ?_, .visit hinner hnew hbelow hbeside⟩
        rw [horder, List.reverse_cons, List.append_assoc]
        rfl

/-- The nodes below the root are found in preorder. -/
theorem preorder_descendants : Preorder g [] g.root.toList g.descendants := by
  unfold descendants
  cases hroot : g.root with
  | none => exact .nil
  | some root =>
      obtain ⟨order, horder, hpre⟩ := preorder_visitFrom (Search.start hroot) startSteps_le
      obtain rfl : g.visitFrom (g.edgeCount + 1) [root] g.startMarks [] = order := horder
      exact hpre

end BayesCircuit.Multigraph
