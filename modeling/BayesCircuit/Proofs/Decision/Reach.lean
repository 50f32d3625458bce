import BayesCircuit.Decision.Measure
import BayesCircuit.Proofs.References.Graph

/-!
# The nodes below a root

The nodes of a diagram are found with a stack, high before low. `Preorder` is this search as a
recursion on the two edges of a node, without a stack: after a node come those below its high edge
and then those below its low edge that have not been met before. The order is determined
(`Preorder.unique`), and the nodes in it are those below the root, each once (`Preorder.nodup`,
`Preorder.mem_iff`).

What the stack holds is searched from the top to the bottom (`StackOrder`). A node is visited once
and puts two nodes on the stack, so twice as many steps as there are nodes are enough, and one more
for the root. So the nodes below the root are found in preorder (`reach_eq_ok`), whatever edges
there are; they may even form a cycle.
-/

namespace BayesCircuit.Decision

open Collection

variable {f : Handle → Option Node.Key} {m : Manager} {root g h c : Handle} {k : Node.Key}
variable {stack seen order : List Handle} {marks : Array Bool}

/-! ## Preorder -/

/-- The nodes that are met for the first time when a diagram is searched from a node, high before
low; `seen` are the nodes that have been met before, the last one first. -/
inductive Preorder (f : Handle → Option Node.Key) : List Handle → Handle → List Handle → Prop
  | old {seen : List Handle} {h : Handle} (old : h ∈ seen) : Preorder f seen h []
  | terminal {seen : List Handle} {h : Handle} (terminal : h.isTerminal = true) (new : h ∉ seen) :
      Preorder f seen h [h]
  | node {seen highs lows : List Handle} {h : Handle} {k : Node.Key} (inner : h.isTerminal = false)
      (new : h ∉ seen) (key : f h = some k) (high : Preorder f (h :: seen) k.high highs)
      (low : Preorder f (highs.reverse ++ h :: seen) k.low lows) :
      Preorder f seen h (h :: highs ++ lows)

namespace Preorder

/-- There is only one preorder. -/
theorem unique (P : Preorder f seen h order) : ∀ {order'}, Preorder f seen h order' →
    order = order' := by
  induction P with
  | old old =>
      intro order' P'
      cases P' with
      | old => rfl
      | terminal _ new => exact absurd old new
      | node _ new => exact absurd old new
  | terminal ht new =>
      intro order' P'
      cases P' with
      | old old => exact absurd old new
      | terminal => rfl
      | node ht' => simp [ht] at ht'
  | node ht new key _ _ ihhigh ihlow =>
      intro order' P'
      cases P' with
      | old old => exact absurd old new
      | terminal ht' => simp [ht] at ht'
      | node _ _ key' high' low' =>
          obtain rfl := Option.some.inj (key.symm.trans key')
          obtain rfl := ihhigh high'
          rw [ihlow low']

/-- Where a search stands behind a node: the last node that was met comes first. -/
theorem reverse_append (h : Handle) (highs lows seen : List Handle) :
    (h :: highs ++ lows).reverse ++ seen = lows.reverse ++ (highs.reverse ++ h :: seen) := by
  simp

/-- No node is met twice. -/
theorem nodup (P : Preorder f seen h order) (hseen : seen.Nodup) :
    (order.reverse ++ seen).Nodup := by
  induction P with
  | old => exact hseen
  | terminal _ new => exact List.nodup_cons.2 ⟨new, hseen⟩
  | node _ new _ _ _ ihhigh ihlow =>
      rw [reverse_append]
      exact ihlow (ihhigh (List.nodup_cons.2 ⟨new, hseen⟩))

theorem nodup_of_root (P : Preorder f [] root order) : order.Nodup := by
  have hnodup := P.nodup List.nodup_nil
  rwa [List.append_nil, List.nodup_reverse] at hnodup

/-- The nodes that are met are below the one from which the search starts. -/
theorem below_of_mem (P : Preorder f seen h order) : ∀ g ∈ order, Below f h g := by
  induction P with
  | old => exact fun g hg => absurd hg List.not_mem_nil
  | terminal =>
      intro g hg
      obtain rfl := List.mem_singleton.1 hg
      exact .refl
  | @node seen highs lows h k ht new key _ _ ihhigh ihlow =>
      rw [List.cons_append, List.forall_mem_cons, List.forall_mem_append]
      refine ⟨.refl, fun g hg => ?_, fun g hg => ?_⟩
      · exact .head ⟨ht, k, key, Or.inl rfl⟩ (ihhigh g hg)
      · exact .head ⟨ht, k, key, Or.inr rfl⟩ (ihlow g hg)

/-- The node from which a search starts has been met after it. -/
theorem met (P : Preorder f seen h order) : h ∈ order.reverse ++ seen := by
  cases P with
  | old old => exact old
  | terminal => exact List.mem_cons_self ..
  | node => simp

/-- Where the edges of the nodes that are met lead to has been met after the search. -/
theorem closed (P : Preorder f seen h order) :
    ∀ g ∈ order, ∀ c, Edge f g c → c ∈ order.reverse ++ seen := by
  induction P with
  | old => exact fun g hg => absurd hg List.not_mem_nil
  | terminal ht =>
      intro g hg c he
      obtain rfl := List.mem_singleton.1 hg
      exact absurd (ht.symm.trans he.1) (by decide)
  | @node seen highs lows h k ht new key high low ihhigh ihlow =>
      rw [List.cons_append, List.forall_mem_cons, List.forall_mem_append]
      rw [← List.cons_append, reverse_append]
      have hhigh : ∀ c, c ∈ highs.reverse ++ h :: seen →
          c ∈ lows.reverse ++ (highs.reverse ++ h :: seen) := fun c => List.mem_append_right _
      refine ⟨fun c he => ?_, fun g hg c he => hhigh c (ihhigh g hg c he), ihlow⟩
      obtain ⟨-, k', hk', hc⟩ := he
      obtain rfl := Option.some.inj (key.symm.trans hk')
      rcases hc with rfl | rfl
      · exact hhigh _ high.met
      · exact low.met

/-- A search from the root meets what is below it. -/
theorem mem_iff (P : Preorder f [] root order) : g ∈ order ↔ Below f root g := by
  have hreverse : ∀ {c}, c ∈ order.reverse ++ [] ↔ c ∈ order := by simp
  refine ⟨P.below_of_mem g, fun hb => ?_⟩
  induction hb with
  | refl => exact hreverse.1 P.met
  | tail _ he ih => exact hreverse.1 (P.closed _ ih _ he)

end Preorder

/-- A search from the nodes of a stack, one after the other. -/
inductive StackOrder (f : Handle → Option Node.Key) : List Handle → List Handle → List Handle → Prop
  | nil {seen : List Handle} : StackOrder f seen [] []
  | cons {seen stack first rest : List Handle} {h : Handle} (head : Preorder f seen h first)
      (tail : StackOrder f (first.reverse ++ seen) stack rest) :
      StackOrder f seen (h :: stack) (first ++ rest)

namespace StackOrder

theorem terminal (ht : h.isTerminal = true) (hnew : h ∉ seen)
    (hs : StackOrder f (h :: seen) stack order) : StackOrder f seen (h :: stack) (h :: order) :=
  .cons (.terminal ht hnew) hs

/-- What the stack held before is searched after what is below the node. -/
theorem node (ht : h.isTerminal = false) (hnew : h ∉ seen) (hk : f h = some k)
    (hs : StackOrder f (h :: seen) (k.high :: k.low :: stack) order) :
    StackOrder f seen (h :: stack) (h :: order) := by
  cases hs with
  | @cons _ _ highs _ _ high hs =>
      cases hs with
      | @cons _ _ lows rest _ low hrest =>
          rw [← Preorder.reverse_append] at hrest
          rw [← List.append_assoc, ← List.cons_append]
          exact .cons (.node ht hnew hk high low) hrest

/-- With one node on the stack, there is one preorder. -/
theorem preorder (hs : StackOrder f seen [h] order) : Preorder f seen h order := by
  cases hs with
  | cons head tail =>
      cases tail
      rwa [List.append_nil]

end StackOrder

/-! ## Searching with a stack -/

/-- What is below a root is stored. -/
structure Stored (m : Manager) (root : Handle) : Prop where
  valid : m.arena.Valid
  key : ∀ h, Below m.key? root h → ∃ k, m.key? h = some k

/-- Where a search stands: the marked nodes are those that have been met, and what is on the stack
is below the root. -/
structure Search (m : Manager) (root : Handle) (stack : List Handle) (marks : Array Bool)
    (seen : List Handle) : Prop where
  nodup : seen.Nodup
  size_marks : marks.size = m.arena.size
  marked_iff : ∀ h, marks.getD h false = true ↔ h ∈ seen
  met : ∀ h ∈ seen, Below m.key? root h
  stacked : ∀ h ∈ stack, Below m.key? root h

namespace Stored

theorem get? (S : Stored m root) (hb : Below m.key? root h) : ∃ n, m.arena.get? h = some n := by
  obtain ⟨k, hk⟩ := S.key h hb
  obtain ⟨n, hn, -⟩ := key?_eq_some_iff.1 hk
  exact ⟨n, hn⟩

theorem lt_size (S : Stored m root) (hb : Below m.key? root h) : h < m.arena.size := by
  obtain ⟨n, hn⟩ := S.get? hb
  exact Arena.lt_size_of_get? hn

theorem length_le (S : Stored m root) (T : Search m root stack marks seen) :
    seen.length ≤ m.arena.used :=
  S.valid.length_le_used T.nodup fun h hh => Option.isSome_iff_exists.2 (S.get? (T.met h hh))

end Stored

namespace Search

theorem start (m : Manager) (root : Handle) :
    Search m root [root] (Array.replicate m.arena.size false) [] where
  nodup := List.nodup_nil
  size_marks := Array.size_replicate
  marked_iff h := by
    rw [Array.getD_eq_getD_getElem?, Array.getElem?_replicate]
    split <;> simp
  met := fun h hh => absurd hh List.not_mem_nil
  stacked := List.forall_mem_singleton.2 .refl

/-- A marked node is taken from the stack. -/
theorem skip (T : Search m root (h :: stack) marks seen) : Search m root stack marks seen :=
  ⟨T.nodup, T.size_marks, T.marked_iff, T.met, fun g hg => T.stacked g (List.mem_cons_of_mem _ hg)⟩

/-- A node is met, and what its edges lead to is put on the stack. -/
theorem visit (S : Stored m root) (T : Search m root (h :: stack) marks seen) (hnew : h ∉ seen)
    {next : List Handle} (hnext : ∀ c ∈ next, Edge m.key? h c) :
    Search m root (next ++ stack) (marks.setIfInBounds h true) (h :: seen) := by
  have hb : Below m.key? root h := T.stacked h (List.mem_cons_self ..)
  have hlt : h < marks.size := T.size_marks ▸ S.lt_size hb
  refine ⟨List.nodup_cons.2 ⟨hnew, T.nodup⟩, by rw [Array.size_setIfInBounds, T.size_marks],
    fun g => ?_, List.forall_mem_cons.2 ⟨hb, T.met⟩, List.forall_mem_append.2 ⟨fun c hc => ?_, ?_⟩⟩
  · by_cases hg : g = h
    · subst hg
      simp [Array.getD_eq_getD_getElem?, Array.getElem?_setIfInBounds_self_of_lt hlt]
    · rw [Array.getD_eq_getD_getElem?, Array.getElem?_setIfInBounds_ne (Ne.symm hg),
        ← Array.getD_eq_getD_getElem?, T.marked_iff, List.mem_cons]
      exact (or_iff_right hg).symm
  · exact hb.tail (hnext c hc)
  · exact fun g hg => T.stacked g (List.mem_cons_of_mem _ hg)

end Search

/-- With two steps for each node that has not been met, and one for each node of the stack, a search
with a stack is made of preorders. -/
theorem reachFrom_eq_ok (S : Stored m root) : ∀ {fuel stack marks seen},
    Search m root stack marks seen → stack.length + 2 * m.arena.used ≤ fuel + 2 * seen.length →
    ∃ order, m.reachFrom fuel stack marks seen = .ok (seen.reverse ++ order) ∧
      StackOrder m.key? seen stack order
  | 0, stack, marks, seen, T, hfuel => by
      have hlen := S.length_le T
      obtain rfl : stack = [] := List.length_eq_zero_iff.1 (by omega)
      exact ⟨[], by rw [List.append_nil]; rfl, .nil⟩
  | fuel + 1, [], marks, seen, T, _ => ⟨[], by rw [List.append_nil]; rfl, .nil⟩
  | fuel + 1, h :: stack, marks, seen, T, hfuel => by
      rw [List.length_cons] at hfuel
      have hmarked := T.marked_iff h
      have hreverse : ∀ order, (h :: seen).reverse ++ order = seen.reverse ++ h :: order := by simp
      rw [Manager.reachFrom]
      split
      · rename_i hmark
        have hsteps : stack.length + 2 * m.arena.used ≤ fuel + 2 * seen.length := by omega
        obtain ⟨order, hrun, horder⟩ := reachFrom_eq_ok S T.skip hsteps
        exact ⟨order, hrun, .cons (.old (hmarked.1 hmark)) horder⟩
      · rename_i hmark
        have hnew : h ∉ seen := mt hmarked.2 hmark
        dsimp only
        split
        · rename_i ht
          have T' := T.visit S hnew (List.forall_mem_nil (Edge m.key? h))
          have hsteps : ([] ++ stack).length + 2 * m.arena.used ≤
              fuel + 2 * (h :: seen).length := by
            rw [List.nil_append, List.length_cons]
            omega
          obtain ⟨order, hrun, horder⟩ := reachFrom_eq_ok S T' hsteps
          exact ⟨h :: order, hreverse order ▸ hrun, horder.terminal ht hnew⟩
        · rename_i ht
          have ht : h.isTerminal = false := by simpa using ht
          obtain ⟨n, hn⟩ := S.get? (T.stacked h (List.mem_cons_self ..))
          have hk := key?_of_get? hn
          have hnode : m.node h = .ok n := Arena.get_eq_ok hn
          have hedges : ∀ c ∈ [n.high, n.low], Edge m.key? h c := by
            refine List.forall_mem_cons.2 ⟨?_, List.forall_mem_singleton.2 ?_⟩
            · exact ⟨ht, _, hk, Or.inl rfl⟩
            · exact ⟨ht, _, hk, Or.inr rfl⟩
          have T' := T.visit S hnew hedges
          have hsteps : ([n.high, n.low] ++ stack).length + 2 * m.arena.used ≤
              fuel + 2 * (h :: seen).length := by
            simp only [List.length_append, List.length_cons, List.length_nil]
            omega
          obtain ⟨order, hrun, horder⟩ := reachFrom_eq_ok S T' hsteps
          exact ⟨h :: order, by rw [hnode, ← hreverse]; exact hrun, horder.node ht hnew hk⟩

/-- The nodes below the root are found in preorder. -/
theorem reach_eq_ok (S : Stored m root) :
    ∃ order, m.reach root = .ok order ∧ Preorder m.key? [] root order := by
  have hsteps : [root].length + 2 * m.arena.used ≤
      2 * m.arena.used + 1 + 2 * ([] : List Handle).length := by
    simp only [List.length_singleton, List.length_nil]
    omega
  obtain ⟨order, hrun, horder⟩ := reachFrom_eq_ok S (Search.start m root) hsteps
  exact ⟨order, hrun, horder.preorder⟩

end BayesCircuit.Decision
