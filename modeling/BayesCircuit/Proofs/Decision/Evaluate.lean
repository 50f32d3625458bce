import BayesCircuit.Decision.Measure
import BayesCircuit.Proofs.Decision.Chain
import Mathlib.Data.Multiset.Sort

/-!
# Evaluation is the value of the tree

`evaluate` walks over the nodes of a manager, literal by literal. On a regular diagram it ends
with the value of the tree (`evaluate_eq`): the weights that `Diagram.value` collects, ascending.

A walk stays where it is at the literals that its node does not test, as long as it cannot jump to
the high child of the node that it left last (`walk_idle`). Inside a block it moves as a `Stand`
does (`walk_chain`).
-/

namespace BayesCircuit.Decision

open Collection Manager

variable {m : Manager} {collapsed : Bool} {e : Exit} {x : Literal → Bool} {same : Int → Int → Bool}
variable {h : Handle} {D : Diagram} {w : Walk} {l : Literal} {ls rest : List Literal}
variable {b : Block} {bs : List Block} {s : Stand} {v : Value}

/-- The literals that count as one variable for an evaluation. -/
def jumps (m : Manager) (collapsed : Bool) (a b : Int) : Bool := collapsed && m.sameVariable a b

/-- The walk has an end, and its weights are those of a value. -/
def Arrives (r : Outcome Walk) (start : Weights) (v : Value) : Prop :=
  ∃ w, r = .ok w ∧ match v with
    | some ws => w.current = Handle.true' ∧ (w.weights : Multiset Weight) = start + ws
    | none => w.current ≠ Handle.true'

/-! ## One step -/

theorem node_eq_ok {n : Node} (hn : m.arena.get? h = some n) : m.node h = .ok n :=
  Arena.get_eq_ok hn

theorem walk_cons_of_true (hw : w.current = Handle.true') :
    m.walk (fun l => .ok (x l)) collapsed (l :: ls) w = .ok w := by
  simp [walk, hw, pure, Except.pure]

theorem walk_of_true (hw : w.current = Handle.true') :
    m.walk (fun l => .ok (x l)) collapsed ls w = .ok w := by
  cases ls with
  | nil => rfl
  | cons l ls => exact walk_cons_of_true hw

theorem walk_cons {w' : Walk} (hw : w.current ≠ Handle.true')
    (hstep : m.walkOn collapsed l (x l) w = .ok w') :
    m.walk (fun l => .ok (x l)) collapsed (l :: ls) w =
      m.walk (fun l => .ok (x l)) collapsed ls w' := by
  simp [walk, hw, hstep, bind, Except.bind]

/-- A literal that the node tests. -/
theorem walkOn_tested {n : Node} (collapsed : Bool) (ht : w.current.isTerminal = false)
    (hn : m.arena.get? w.current = some n) (hl : n.literal = l.value) (holds : Bool) :
    m.walkOn collapsed l holds w = .ok (if holds then takeHigh w n
      else { w with current := n.low, left := some w.current }) := by
  cases holds <;>
    simp [walkOn, ht, node_eq_ok hn, hl, bind, Except.bind, pure, Except.pure]

/-- At a literal that the node does not test, only the node that was left last counts. -/
theorem walkOn_missed (hD : Denotes m.key? w.current D) (hl : D.literal? ≠ some l.value)
    (holds : Bool) :
    m.walkOn collapsed l holds w = match w.left with
      | none => .ok w
      | some p =>
          if holds && collapsed then do
            let n ← m.node p
            if m.sameVariable n.literal l.value then .ok (takeHigh w n) else .ok w
          else .ok w := by
  unfold walkOn
  cases ht : w.current.isTerminal with
  | true => cases w.left <;> rfl
  | false =>
      obtain ⟨k, H, L, hk, _, _, rfl⟩ := hD.cases_node ht
      obtain ⟨n, hn, rfl⟩ := key?_eq_some_iff.1 hk
      have hne : n.literal ≠ l.value := by simpa [Diagram.literal?, Node.key] using hl
      have hbeq : (n.literal == l.value) = false := by simpa using hne
      simp only [Bool.false_eq_true, if_false, node_eq_ok hn, bind, Except.bind, hbeq]
      cases w.left <;> rfl

/-- A literal that the node does not test and at which the walk cannot jump. -/
theorem walkOn_untested (hD : Denotes m.key? w.current D) (hl : D.literal? ≠ some l.value)
    (hleft : ∀ p, w.left = some p → ∃ n, m.arena.get? p = some n ∧
      jumps m collapsed n.literal l.value = false) (holds : Bool) :
    m.walkOn collapsed l holds w = .ok w := by
  rw [walkOn_missed hD hl]
  cases hp : w.left with
  | none => rfl
  | some p =>
      obtain ⟨n, hn, hj⟩ := hleft p hp
      cases holds with
      | false => rfl
      | true =>
          cases collapsed with
          | false => rfl
          | true =>
              have hs : m.sameVariable n.literal l.value = false := by simpa [jumps] using hj
              simp [node_eq_ok hn, hs, bind, Except.bind]

/-- A literal that the node does not test and at which the walk can jump. -/
theorem walkOn_jump {p : Handle} {n : Node} (hD : Denotes m.key? w.current D)
    (hl : D.literal? ≠ some l.value) (hp : w.left = some p) (hn : m.arena.get? p = some n)
    (hj : jumps m collapsed n.literal l.value = true) (holds : Bool) :
    m.walkOn collapsed l holds w = .ok (if holds then takeHigh w n else w) := by
  simp only [jumps, Bool.and_eq_true] at hj
  rw [walkOn_missed hD hl]
  cases holds <;> simp [hp, hj.1, hj.2, node_eq_ok hn, bind, Except.bind]

/-! ## Staying -/

/-- At none of the literals can the walk jump. -/
def Idle (m : Manager) (collapsed : Bool) (ls : List Literal) (left : Option Handle) : Prop :=
  ∀ p, left = some p → ∃ n, m.arena.get? p = some n ∧
    ∀ l ∈ ls, jumps m collapsed n.literal l.value = false

theorem idle_none : Idle m collapsed ls none := by
  rintro p ⟨⟩

theorem Idle.subset {ls' : List Literal} {left : Option Handle}
    (hi : Idle m collapsed ls left) (hs : ls' ⊆ ls) : Idle m collapsed ls' left := by
  intro p hp
  obtain ⟨n, hn, hj⟩ := hi p hp
  exact ⟨n, hn, fun l hl => hj l (hs hl)⟩

theorem walk_idle (hD : Denotes m.key? w.current D) (hu : Untested ls D)
    (hi : Idle m collapsed ls w.left) :
    m.walk (fun l => .ok (x l)) collapsed (ls ++ rest) w =
      m.walk (fun l => .ok (x l)) collapsed rest w := by
  by_cases ht : w.current = Handle.true'
  · rw [walk_of_true ht, walk_of_true ht]
  · induction ls with
    | nil => rfl
    | cons l ls ih =>
        rw [List.cons_append, walk_cons ht (walkOn_untested hD (hu l (List.mem_cons_self ..)) ?_ _),
          ih hu.tail (hi.subset (List.subset_cons_self l ls))]
        intro p hp
        obtain ⟨n, hn, hj⟩ := hi p hp
        exact ⟨n, hn, hj l (List.mem_cons_self ..)⟩

/-! ## Walking through a chain -/

/-- The walk has left a node of the current block through its low edge. -/
structure Stands (m : Manager) (collapsed : Bool) (ls rest : List Literal) (w : Walk)
    (D : Diagram) (n : Int) (ws : Weights) (H : Diagram) : Prop where
  node : Denotes m.key? w.current D
  left : ∃ p a, w.left = some p ∧ m.arena.get? p = some a ∧ a.literal = n ∧ a.weights = ws ∧
    Denotes m.key? a.high H
  within : ∀ l ∈ ls, jumps m collapsed n l.value = true
  across : ∀ l ∈ rest, jumps m collapsed n l.value = false

/-- Every walk through later blocks arrives. -/
def Later (m : Manager) (e : Exit) (collapsed : Bool) (x : Literal → Bool) (bs : List Block) : Prop :=
  ∀ {w D}, Denotes m.key? w.current D → Regular e bs D →
    Idle m collapsed (flatten bs) w.left →
    Arrives (m.walk (fun l => .ok (x l)) collapsed (flatten bs) w) w.weights (D.value x bs)

theorem Arrives.collect {start ws : Weights} {r : Outcome Walk}
    (h : Arrives r (start ++ ws) v) : Arrives r start (collect ws v) := by
  obtain ⟨w, hr, hw⟩ := h
  refine ⟨w, hr, ?_⟩
  cases v with
  | none => exact hw
  | some W =>
      refine ⟨hw.1, ?_⟩
      rw [hw.2, ← Multiset.coe_add, add_assoc]

theorem Arrives.of_true (hw : w.current = Handle.true') :
    Arrives (m.walk (fun l => .ok (x l)) collapsed ls w) w.weights (some 0) :=
  ⟨w, walk_of_true hw, hw, by simp⟩

/-- After a high edge, the rest of the block does not matter. -/
theorem Later.takeHigh {n : Node} {H : Diagram} (hK : Later m e collapsed x bs)
    (hH : Denotes m.key? n.high H) (hR : Regular e bs H) (hu : Untested ls H) :
    Arrives (m.walk (fun l => .ok (x l)) collapsed (ls ++ flatten bs) (Manager.takeHigh w n))
      w.weights (Decision.collect n.weights (H.value x bs)) := by
  have hwalk : m.walk (fun l => .ok (x l)) collapsed (ls ++ flatten bs) (Manager.takeHigh w n) =
      m.walk (fun l => .ok (x l)) collapsed (flatten bs) (Manager.takeHigh w n) :=
    walk_idle hH hu idle_none
  rw [hwalk]
  exact Arrives.collect (hK (w := Manager.takeHigh w n) hH hR idle_none)

theorem Chain.not_tested {K : Diagram → Prop} (hC : Chain e K (l :: ls) D)
    (hl : D.literal? ≠ some l.value) : Chain e K ls D := by
  cases D with
  | leaf c => exact chain_leaf
  | branch n ws high low =>
      have hn : n ≠ l.value := by simpa [Diagram.literal?] using hl
      simp only [Chain, hn, if_false] at hC
      exact hC.2

/-- A walk through a chain moves as its stand does. -/
theorem walk_chain (hK : Later m e collapsed x bs) :
    ∀ {ls w D n ws H}, Stands m collapsed ls (flatten bs) w D n ws H →
      Chain e (Regular e bs) ls D → Regular e bs H →
      (∀ E, Regular e bs E → Untested ls E) →
      (ls.Pairwise fun l l' => jumps m collapsed l.value l'.value = true) →
      (∀ l ∈ ls, ∀ l' ∈ flatten bs, jumps m collapsed l.value l'.value = false) →
      Arrives (m.walk (fun l => .ok (x l)) collapsed (ls ++ flatten bs) w) w.weights
        (chainValue (Diagram.value x bs) x ls ⟨D, some (n, ws, H)⟩)
  | [], w, D, n, ws, H, S, hC, _, _, _, _ => by
      obtain ⟨p, a, hp, ha, hlit, -, -⟩ := S.left
      have hR : Regular e bs D := by
        cases D with
        | leaf c => exact regular_leaf
        | branch => exact hC.2
      refine hK S.node hR ?_
      intro q hq
      rw [hp] at hq
      cases hq
      exact ⟨a, ha, fun l hl => hlit ▸ S.across l hl⟩
  | l :: ls, w, D, n, ws, H, S, hC, hH, hU, hpair, hacross => by
      obtain ⟨p, a, hp, ha, hlit, hweights, hhigh⟩ := S.left
      have hpair' := List.pairwise_cons.1 hpair
      have hU' : ∀ E, Regular e bs E → Untested ls E := fun E hE => (hU E hE).tail
      have hacross' : ∀ l ∈ ls, ∀ l' ∈ flatten bs, jumps m collapsed l.value l'.value = false :=
        fun l hl => hacross l (List.mem_cons_of_mem _ hl)
      by_cases htrue : w.current = Handle.true'
      · obtain rfl := S.node.eq_true_iff.1 htrue
        rw [chainValue_true rfl, value_true]
        exact Arrives.of_true htrue
      rw [List.cons_append]
      by_cases hD : D.literal? = some l.value
      · -- the node tests the literal
        cases D with
        | leaf c => cases hD
        | branch n' ws' high low =>
            obtain rfl : n' = l.value := by simpa [Diagram.literal?] using hD
            simp only [Chain, if_true] at hC
            obtain ⟨ht, k, hk, hkl, hkw, hkh, hklow⟩ := S.node.cases_branch
            obtain ⟨c, hc, rfl⟩ := key?_eq_some_iff.1 hk
            have hlc : c.literal = l.value := hkl
            have hwc : c.weights = ws' := hkw
            rw [walk_cons htrue (walkOn_tested _ ht hc hlc (x l))]
            unfold chainValue
            cases hx : x l with
            | true =>
                simp only [if_true, Stand.fire]
                rw [← hwc]
                exact hK.takeHigh hkh hC.1 (hU' _ hC.1)
            | false =>
                simp only [Bool.false_eq_true, if_false, Stand.descend, if_true]
                refine walk_chain hK (w := { w with current := c.low, left := some w.current })
                  ⟨hklow, ⟨w.current, c, rfl, hc, hlc, hwc, hkh⟩, hpair'.1, ?_⟩ hC.2 hC.1 hU'
                  hpair'.2 hacross'
                exact hacross l (List.mem_cons_self ..)
      · -- the walk can jump
        have hj : jumps m collapsed a.literal l.value = true :=
          hlit ▸ S.within l (List.mem_cons_self ..)
        rw [walk_cons htrue (walkOn_jump S.node hD hp ha hj (x l))]
        unfold chainValue
        cases hx : x l with
        | true =>
            have hfire : Stand.fire l ⟨D, some (n, ws, H)⟩ = some (ws, H) := by
              cases D with
              | leaf c =>
                  cases c with
                  | false => rfl
                  | true => exact absurd (S.node.eq_true_iff.2 rfl) htrue
              | branch n' ws' high low =>
                  have hn : n' ≠ l.value := by simpa [Diagram.literal?] using hD
                  simp [Stand.fire, hn]
            simp only [if_true, hfire]
            rw [← hweights]
            exact hK.takeHigh hhigh hH (hU' _ hH)
        | false =>
            simp only [Bool.false_eq_true, if_false, descend_of_untested hD]
            exact walk_chain hK ⟨S.node, ⟨p, a, hp, ha, hlit, hweights, hhigh⟩,
              fun l' hl' => S.within l' (List.mem_cons_of_mem _ hl'), S.across⟩
              (hC.not_tested hD) hH hU' hpair'.2 hacross'

/-! ## Walking through blocks -/

theorem Layout.within_head (hL : Layout same (b :: bs)) {l : Literal} (hl : l ∈ b.tail) :
    same b.head.value l.value = true :=
  (List.pairwise_cons.1 (hL.within b (List.mem_cons_self ..))).1 l hl

theorem Layout.across_block (hL : Layout same (b :: bs)) {l l' : Literal} (hl : l ∈ b.literals)
    (hl' : l' ∈ flatten bs) : same l.value l'.value = false := by
  obtain ⟨b', hb', hl'⟩ := List.mem_flatMap.1 hl'
  exact (List.pairwise_cons.1 hL.across).1 b' hb' l hl l' hl'

/-- A walk through the blocks of an ordering arrives at the value of the tree. -/
theorem walk_blocks :
    ∀ {bs}, Layout (jumps m collapsed) bs → Later m e collapsed x bs
  | [], _, w, D, hD, hR, _ => by
      cases D with
      | branch => exact hR.elim
      | leaf c =>
          refine ⟨w, rfl, ?_⟩
          cases c with
          | true => exact ⟨hD.eq_true_iff.2 rfl, by simp⟩
          | false =>
              intro hw
              exact absurd (hD.eq_true_iff.1 hw) (by simp)
  | b :: bs, hL, w, D, hD, hR, hi => by
      have hK : Later m e collapsed x bs := walk_blocks hL.tail
      have hflat : flatten (b :: bs) = b.literals ++ flatten bs := rfl
      by_cases hhead : D.literal? = some b.head.value
      · cases D with
        | leaf c => cases hhead
        | branch n ws high low =>
            obtain rfl : n = b.head.value := by simpa [Diagram.literal?] using hhead
            simp only [Regular, if_true] at hR
            obtain ⟨ht, k, hk, hkl, hkw, hkh, hklow⟩ := hD.cases_branch
            obtain ⟨c, hc, rfl⟩ := key?_eq_some_iff.1 hk
            have hlc : c.literal = b.head.value := hkl
            have hwc : c.weights = ws := hkw
            have htrue : w.current ≠ Handle.true' := by
              intro he
              rw [he] at ht
              cases ht
            have hU : ∀ E, Regular e bs E → Untested b.tail E :=
              fun E hE => (hE.untested hL).tail
            rw [hflat, Block.literals, List.cons_append, Diagram.value, Block.literals,
              walk_cons htrue (walkOn_tested _ ht hc hlc (x b.head))]
            unfold chainValue
            cases hx : x b.head with
            | true =>
                simp only [if_true, Stand.fire]
                rw [← hwc]
                exact hK.takeHigh hkh hR.1 (hU _ hR.1)
            | false =>
                simp only [Bool.false_eq_true, if_false, Stand.descend, if_true]
                refine walk_chain hK (w := { w with current := c.low, left := some w.current })
                  ⟨hklow, ⟨w.current, c, rfl, hc, hlc, hwc, hkh⟩,
                    fun l hl => hL.within_head hl, ?_⟩ hR.2 hR.1 hU ?_ ?_
                · exact fun l hl => hL.across_block (List.mem_cons_self ..) hl
                · exact (List.pairwise_cons.1 (hL.within b (List.mem_cons_self ..))).2
                · exact fun l hl l' hl' => hL.across_block (List.mem_cons_of_mem _ hl) hl'
      · -- the block does not touch the diagram
        have hR' : Regular e bs D := by
          cases D with
          | leaf c => exact regular_leaf
          | branch n ws high low =>
              have hn : n ≠ b.head.value := by simpa [Diagram.literal?] using hhead
              simpa [Regular, hn] using hR
        have hu := hR'.untested hL
        rw [value_of_untested hu, hflat,
          walk_idle hD hu (hi.subset (List.subset_append_left _ _))]
        exact hK hD hR' (hi.subset (List.subset_append_right _ _))

/-- The result of an evaluation. -/
def Value.sorted (v : Value) : Option Weights := v.map (Multiset.sort · (· ≤ ·))

theorem mergeSort_eq_sort (ws : Weights) :
    ws.mergeSort = (ws : Multiset Weight).sort (· ≤ ·) := by
  rw [Multiset.coe_sort]

/-- Evaluating a regular diagram gives the value of its tree. -/
theorem evaluate_eq (collapsed : Bool) (hL : Layout (jumps m collapsed) bs) (hD : Denotes m.key? h D)
    (hR : Regular e bs D) :
    m.evaluate h (flatten bs) (fun l => .ok (x l)) collapsed = .ok (D.value x bs).sorted := by
  obtain ⟨w, hw, hv⟩ := walk_blocks hL (w := ⟨h, [], none⟩) (x := x) hD hR idle_none
  unfold evaluate
  rw [hw]
  cases hval : D.value x bs with
  | none =>
      rw [hval] at hv
      simp only [bind, Except.bind, pure, Except.pure, beq_iff_eq]
      rw [if_neg hv]
      rfl
  | some W =>
      rw [hval] at hv
      simp only [bind, Except.bind, pure, Except.pure, hv.1, BEq.rfl, if_true]
      have hW : (w.weights : Multiset Weight) = W := by simpa using hv.2
      rw [mergeSort_eq_sort, hW]
      rfl

end BayesCircuit.Decision
