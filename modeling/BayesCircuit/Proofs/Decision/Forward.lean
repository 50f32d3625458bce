import BayesCircuit.Proofs.Decision.Apart
import BayesCircuit.Proofs.Decision.Conjoin
import BayesCircuit.Proofs.Decision.Evaluate
import BayesCircuit.Proofs.Decision.Reduce
import Mathlib

/-!
# Conjunction and the pointwise product

`Manager.Forward` says that the literals of a diagram move strictly forward in an ordering along
every edge. Without collapsing, such diagrams are the regular ones whose literals are variables of
their own. The conjunction of two of them is one again, and it evaluates to the product of the two
for every assignment (`conjoin_pointwise`). With collapsing it need not (`conjoin_collapsed_iff`).
-/

namespace BayesCircuit.Decision

open Collection Action

variable {m m' : Manager} {ordering ls : List Literal} {a b c h : Handle} {D : Diagram}
variable {l : Literal} {x : Literal → Bool}

/-- The literals below a node move strictly forward in an ordering along every edge. -/
inductive Manager.Forward (m : Manager) : List Literal → Handle → Prop
  | terminal {ordering : List Literal} {h : Handle} : h.isTerminal = true → Forward m ordering h
  | node (skipped : List Literal) {rest : List Literal} {l : Literal} {h : Handle} {n : Node} :
      h.isTerminal = false → m.arena.get? h = some n → n.literal = l.value →
      Forward m rest n.high → Forward m rest n.low → Forward m (skipped ++ l :: rest) h

/-! ## Orderings of single literals -/

theorem values_nodup (hn : ordering.Nodup) : (ordering.map (·.value)).Nodup := by
  refine hn.map fun l l' h => ?_
  obtain ⟨v, hv⟩ := l
  obtain ⟨v', hv'⟩ := l'
  obtain rfl : v = v' := h
  rfl

theorem layout_singles (hn : ordering.Nodup) : Layout (fun _ _ => false) (singles ordering) where
  nodup := by
    rw [flatten_singles]
    exact values_nodup hn
  within b hb := by
    obtain ⟨l, _, rfl⟩ := List.mem_map.1 hb
    simp [Block.literals]
  across := List.pairwise_of_forall fun _ _ _ _ _ _ => rfl

/-- In front of single literals, the literals that are not tested may be left out. -/
theorem regular_append {skipped : List Literal} (hn : (skipped ++ ls).Nodup)
    (hD : Regular .atEnd (singles ls) D) : Regular .atEnd (singles (skipped ++ ls)) D := by
  induction skipped with
  | nil => exact hD
  | cons l skipped ih =>
      have hn' := (List.nodup_cons.1 hn).2
      exact (ih hn').later (layout_singles hn)

theorem regular_branch {ws : Weights} {H L : Diagram} (hH : Regular .atEnd (singles ls) H)
    (hL : Regular .atEnd (singles ls) L) :
    Regular .atEnd (singles (l :: ls)) (.branch l.value ws H L) := by
  have hchain : Chain .atEnd (Regular .atEnd (singles ls)) [] L := by
    cases L with
    | leaf c => exact chain_leaf
    | branch => exact ⟨by decide, hL⟩
  rw [show singles (l :: ls) = ⟨l, []⟩ :: singles ls from rfl, Regular, if_pos rfl]
  exact ⟨hH, hchain⟩

/-- A diagram that moves forward is a regular tree. -/
theorem Manager.Forward.denotes (hF : m.Forward ordering h) (hn : ordering.Nodup) :
    ∃ D, Denotes m.key? h D ∧ Regular .atEnd (singles ordering) D := by
  induction hF with
  | terminal ht =>
      rcases isTerminal_iff.1 ht with rfl | rfl
      · exact ⟨_, .false', regular_leaf⟩
      · exact ⟨_, .true', regular_leaf⟩
  | @node skipped rest l h n ht hget hl _ _ ihH ihL =>
      have hn' := (List.nodup_append.1 hn).2.1
      obtain ⟨H, hH, hRH⟩ := ihH (List.nodup_cons.1 hn').2
      obtain ⟨L, hL, hRL⟩ := ihL (List.nodup_cons.1 hn').2
      refine ⟨_, .node ht (key?_of_get? hget) hH hL, regular_append hn ?_⟩
      rw [Node.key, hl]
      exact regular_branch hRH hRL

theorem Manager.Forward.exists_tree (hF : m.Forward ordering h) : ∃ D, Denotes m.key? h D := by
  induction hF with
  | terminal ht =>
      rcases isTerminal_iff.1 ht with rfl | rfl
      · exact ⟨_, .false'⟩
      · exact ⟨_, .true'⟩
  | node _ ht hget _ _ _ ihH ihL =>
      obtain ⟨H, hH⟩ := ihH
      obtain ⟨L, hL⟩ := ihL
      exact ⟨_, .node ht (key?_of_get? hget) hH hL⟩

theorem Manager.Forward.cons (hF : m.Forward ls h) : m.Forward (l :: ls) h := by
  cases hF with
  | terminal ht => exact .terminal ht
  | @node skipped _ _ _ _ ht hget hl hH hL =>
      exact .node (l :: skipped) ht hget hl hH hL

/-- A regular tree moves forward. -/
theorem Manager.Forward.of_denotes : ∀ {ordering h D}, Denotes m.key? h D →
    Regular .atEnd (singles ordering) D → m.Forward ordering h
  | ordering, h, .leaf _, hD, _ => .terminal hD.isTerminal_eq
  | [], h, .branch .., _, hR => hR.elim
  | l :: ls, h, .branch n ws H L, hD, hR => by
      obtain ⟨ht, k, hk, rfl, _, hH, hL⟩ := hD.cases_branch
      obtain ⟨n, hn, rfl⟩ := key?_eq_some_iff.1 hk
      rw [show singles (l :: ls) = ⟨l, []⟩ :: singles ls from rfl, Regular] at hR
      split at hR
      · rename_i hl
        refine .node [] ht hn hl (Forward.of_denotes hH hR.1)
          (Forward.of_denotes hL ?_)
        cases L with
        | leaf c => exact regular_leaf
        | branch => exact hR.2.2
      · exact (Forward.of_denotes hD hR).cons

/-! ## Plain conjunction -/

theorem jumps_false : jumps m false = fun _ _ => false := rfl

/-- A diagram that moves forward evaluates to the value of its tree. -/
theorem evaluate_forward (hn : ordering.Nodup) (hD : Denotes m.key? h D)
    (hR : Regular .atEnd (singles ordering) D) :
    m.evaluate h ordering (fun l => .ok (x l)) false =
      .ok (D.value x (singles ordering)).sorted := by
  have := evaluate_eq false (x := x) (by rw [jumps_false]; exact layout_singles hn) hD hR
  rwa [flatten_singles] at this

theorem sorted_product (u v : Value) :
    (u.product v).sorted = Option.map₂ (fun U U' => (U ++ U').mergeSort) u.sorted v.sorted := by
  cases u with
  | none => cases v <;> rfl
  | some U =>
      cases v with
      | none => rfl
      | some U' =>
          have hsum : ((U.sort (· ≤ ·) ++ U'.sort (· ≤ ·) : Weights) : Multiset Weight) = U + U' := by
            rw [← Multiset.coe_add, Multiset.sort_eq, Multiset.sort_eq]
          simp only [Value.product, Value.sorted, Option.map₂_some_some, Option.map_some,
            mergeSort_eq_sort]
          rw [hsum]

/-- The plain conjunction of two diagrams that move forward in an ordering has a value. It moves
forward, changes no node that was there, and evaluates to the weights of both diagrams, or to
nothing if one of them does. -/
theorem conjoin_pointwise (V : m.Valid) (hn : ordering.Nodup) (ha : m.Forward ordering a)
    (hb : m.Forward ordering b) :
    ∃ c m', (conjoin a b ordering false false).run m = .ok c m' ∧ m'.Valid ∧
      m'.Forward ordering c ∧
      (∀ h n, m.arena.get? h = some n → m'.arena.get? h = some n) ∧
      ∀ x : Literal → Bool, ∃ u v,
        m.evaluate a ordering (fun l => .ok (x l)) false = .ok u ∧
        m.evaluate b ordering (fun l => .ok (x l)) false = .ok v ∧
        m'.evaluate a ordering (fun l => .ok (x l)) false = .ok u ∧
        m'.evaluate b ordering (fun l => .ok (x l)) false = .ok v ∧
        m'.evaluate c ordering (fun l => .ok (x l)) false =
          .ok (Option.map₂ (fun U U' => (U ++ U').mergeSort) u v) := by
  obtain ⟨A, hA, hRA⟩ := ha.denotes hn
  obtain ⟨B, hB, hRB⟩ := hb.denotes hn
  have hL := layout_singles hn
  have hsame : sameIf false m.sameVariable = fun _ _ => false := rfl
  obtain ⟨T, hT⟩ := Placed.exists_planned (Placed.between hL hRA) (Placed.between hL hRB)
  have hspec := conjoin_spec false V hL hA hB hRA hRB hT
  rw [flatten_singles] at hspec
  obtain ⟨c, m', hrun, D, hred, hR⟩ := hspec
  obtain rfl : D = T := hred.reduces.eq_of_false
  have hRD : Regular .atEnd (singles ordering) D :=
    plan_regular hL hRA hRB (fun _ => apart_singles) hT
  have hkept : ∀ h n, m.arena.get? h = some n → m'.arena.get? h = some n :=
    fun h n hn => hR.heap.kept hn
  have hgrow : ∀ {h E}, Denotes m.key? h E → Denotes m'.key? h E :=
    fun hE => hR.heap.denotes_of_frozen hE
  refine ⟨c, m', hrun, hR.valid V, .of_denotes hR.denotes hRD, hkept, fun x => ?_⟩
  refine ⟨_, _, evaluate_forward hn hA hRA, evaluate_forward hn hB hRB,
    evaluate_forward hn (hgrow hA) hRA, evaluate_forward hn (hgrow hB) hRB, ?_⟩
  rw [evaluate_forward hn hR.denotes hRD, plan_value hL hRA hRB hT, apart_singles.joint_eq_product,
    sorted_product]

/-- A manager with a diagram of the literal 1 at the handle 2 and one of the literal 2 at the
handle 3. -/
def Manager.twoTests : Manager :=
  let m := Manager.start #[] 4
  let m := { m with arena := (m.arena.alloc ⟨1, Handle.true', Handle.false', [7], 0⟩).2 }
  { m with arena := (m.arena.alloc ⟨2, Handle.true', Handle.true', [5], 0⟩).2 }

theorem conjoin_pointwise_twoTests : ∃ c m',
    (conjoin 2 3 [⟨1, by decide⟩, ⟨2, by decide⟩] false false).run Manager.twoTests = .ok c m' ∧
    m'.evaluate c [⟨1, by decide⟩, ⟨2, by decide⟩] (fun _ => .ok true) false =
      .ok (some [5, 7]) := by
  have V : Manager.twoTests.Valid :=
    ((Manager.valid_start (by decide)).alloc (by decide) rfl).alloc (by decide) rfl
  have ha : Manager.twoTests.Forward [⟨1, by decide⟩, ⟨2, by decide⟩] 2 :=
    .node [] rfl rfl rfl (.terminal rfl) (.terminal rfl)
  have hb : Manager.twoTests.Forward [⟨1, by decide⟩, ⟨2, by decide⟩] 3 :=
    .node [⟨1, by decide⟩] rfl rfl rfl (.terminal rfl) (.terminal rfl)
  obtain ⟨c, m', hrun, _, _, _, heval⟩ := conjoin_pointwise V (by decide) ha hb
  obtain ⟨u, v, hu, hv, _, _, hc⟩ := heval fun _ => true
  have hu' : Manager.twoTests.evaluate 2 [⟨1, by decide⟩, ⟨2, by decide⟩] (fun _ => .ok true)
      false = .ok (some [7]) := by cbv
  have hv' : Manager.twoTests.evaluate 3 [⟨1, by decide⟩, ⟨2, by decide⟩] (fun _ => .ok true)
      false = .ok (some [5]) := by cbv
  obtain rfl : some [7] = u := Except.ok.inj (hu'.symm.trans hu)
  obtain rfl : some [5] = v := Except.ok.inj (hv'.symm.trans hv)
  have hsorted : ([7] ++ [5] : Weights).mergeSort = [5, 7] := by cbv
  refine ⟨c, m', hrun, ?_⟩
  rw [hc, Option.map₂_some_some, hsorted]

end BayesCircuit.Decision

/-!
## Collapsing conjunction

With collapsing, the conjunction of two regular diagrams evaluates to the product of their values
for an assignment exactly if one of them has no value or the two are `Harmless`: wherever a literal
takes the high edge of a chain that one side has left for `true'`, that edge collects nothing
(`conjoin_collapsed_iff`).
-/

namespace BayesCircuit.Decision

open Collection Action

variable {m : Manager} {a b : Handle} {A B : Diagram} {bs : List Block}

theorem jumps_true : jumps m true = m.sameVariable := by
  funext a b
  simp [jumps]

theorem sorted_eq_iff {u v : Value} : u.sorted = v.sorted ↔ u = v := by
  refine ⟨fun h => ?_, fun h => h ▸ rfl⟩
  refine Option.map_injective (fun U U' hs => ?_) h
  have hs : U.sort (· ≤ ·) = U'.sort (· ≤ ·) := hs
  rw [← Multiset.sort_eq U (· ≤ ·), ← Multiset.sort_eq U' (· ≤ ·), hs]

theorem sorted_eq_none {u : Value} : u.sorted = none ↔ u = none := by
  simp [Value.sorted]

/-- The collapsing conjunction of two regular diagrams has a value. It evaluates to the weights of
both, or to nothing if one of them does, exactly if the two are harmless where both have a value. -/
theorem conjoin_collapsed_iff (V : m.Valid) (hL : Layout m.sameVariable bs)
    (hA : Denotes m.key? a A) (hB : Denotes m.key? b B) (hRA : Regular .atEnd bs A)
    (hRB : Regular .atEnd bs B) :
    ∃ c m', (conjoin a b (flatten bs) true false).run m = .ok c m' ∧ m'.Valid ∧
      ∀ x : Literal → Bool, ∃ u v w,
        m.evaluate a (flatten bs) (fun l => .ok (x l)) true = .ok u ∧
        m.evaluate b (flatten bs) (fun l => .ok (x l)) true = .ok v ∧
        m'.evaluate c (flatten bs) (fun l => .ok (x l)) true = .ok w ∧
        (w = Option.map₂ (fun U U' => (U ++ U').mergeSort) u v ↔
          u = none ∨ v = none ∨ Harmless x bs A B) := by
  have hL' : Layout (sameIf true m.sameVariable) bs := by
    rw [sameIf_true]
    exact hL
  obtain ⟨T, hT⟩ := Placed.exists_planned (Placed.between hL' hRA) (Placed.between hL' hRB)
  obtain ⟨c, m', hrun, D, ⟨hred, -⟩, hR⟩ := conjoin_spec true V hL' hA hB hRA hRB hT
  have hRT : Regular .anywhere bs T := plan_regular hL' hRA hRB (fun h => absurd rfl h) hT
  have hRD : Regular .anywhere bs D := hred.regular (by decide) hL' hRT
  have hlayout : ∀ {m' : Manager}, m'.literalVariables = m.literalVariables →
      Layout (jumps m' true) bs := by
    intro m' hv
    rw [jumps_true, sameVariable_congr hv]
    exact hL
  refine ⟨c, m', hrun, hR.valid V, fun x => ?_⟩
  refine ⟨_, _, _, evaluate_eq true (hlayout rfl) hA hRA, evaluate_eq true (hlayout rfl) hB hRB,
    evaluate_eq true (hlayout hR.literalVariables) hR.denotes hRD, ?_⟩
  rw [← sorted_product, hred.value_eq (by decide) hL' hRT, plan_value hL' hRA hRB hT,
    sorted_eq_iff, joint_eq_product_iff, sorted_eq_none, sorted_eq_none, ← or_assoc]
  simp only [Value.product, Option.map₂_eq_none_iff]

end BayesCircuit.Decision
