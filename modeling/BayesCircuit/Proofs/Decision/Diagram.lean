import BayesCircuit.Proofs.Decision.Primitive
import Mathlib.Data.Finset.Card
import Mathlib.Order.Interval.Finset.Nat

/-!
# Diagrams as trees

`Denotes f h D` says that the nodes of `f` below the handle `h` unfold to the finite tree `D`. A
handle has at most one tree (`Denotes.unique`); nodes that are added leave it alone
(`Denotes.mono`), and so does a change of a node to which no edge leads
(`Denotes.update_of_not_pointed`). A tree is no deeper than the arena is large
(`Denotes.depth_le_size`), because equal handles have equal trees: this is why walks down from a
node need no more fuel.
-/

namespace BayesCircuit.Decision

/-- A decision diagram as a tree. -/
inductive Diagram where
  | leaf (holds : Bool)
  | branch (literal : Int) (weights : Weights) (high low : Diagram)
  deriving DecidableEq

namespace Diagram

/-- The number of nodes on the longest path. -/
def depth : Diagram → Nat
  | leaf _ => 0
  | branch _ _ high low => max high.depth low.depth + 1

/-- The literal that the root tests. -/
def literal? : Diagram → Option Int
  | leaf _ => none
  | branch l _ _ _ => some l

end Diagram

variable {m m' : Manager} {frozen : Handle → Option Node} {ext : Handle → Nat}
variable {h g c : Handle} {k : Node.Key} {f f' : Handle → Option Node.Key} {D E : Diagram}

/-- The nodes below a handle unfold to a tree. -/
inductive Denotes (f : Handle → Option Node.Key) : Handle → Diagram → Prop
  | false' : Denotes f Handle.false' (.leaf false)
  | true' : Denotes f Handle.true' (.leaf true)
  | node {h k high low} : h.isTerminal = false → f h = some k → Denotes f k.high high →
      Denotes f k.low low → Denotes f h (.branch k.literal k.weights high low)

theorem isTerminal_iff : h.isTerminal = true ↔ h = Handle.false' ∨ h = Handle.true' := by
  simp only [Handle.isTerminal, decide_eq_true_eq, Handle.false', Handle.true']
  exact Nat.le_one_iff_eq_zero_or_eq_one

theorem Denotes.unique (hD : Denotes f h D) (hE : Denotes f h E) : D = E := by
  induction hD generalizing E with
  | false' =>
      cases hE with
      | false' => rfl
      | node ht _ _ _ => cases ht
  | true' =>
      cases hE with
      | true' => rfl
      | node ht _ _ _ => cases ht
  | node ht hk _ _ ihH ihL =>
      cases hE with
      | false' => cases ht
      | true' => cases ht
      | node _ hk' hH hL =>
          rw [hk] at hk'
          cases hk'
          rw [ihH hH, ihL hL]

theorem Denotes.mono (hD : Denotes f h D) (hf : ∀ h k, f h = some k → f' h = some k) :
    Denotes f' h D := by
  induction hD with
  | false' => exact .false'
  | true' => exact .true'
  | node ht hk _ _ ihH ihL => exact .node ht (hf _ _ hk) ihH ihL

/-- A tree stays where it is if all nodes below its handle stay. -/
theorem Denotes.transfer {P : Handle → Prop} (hD : Denotes f h D) (hh : P h)
    (hstep : ∀ {g k}, P g → g.isTerminal = false → f g = some k →
      f' g = some k ∧ P k.high ∧ P k.low) : Denotes f' h D := by
  induction hD with
  | false' => exact .false'
  | true' => exact .true'
  | node ht hk _ _ ihH ihL =>
      obtain ⟨hk', hhigh, hlow⟩ := hstep hh ht hk
      exact .node ht hk' (ihH hhigh) (ihL hlow)

theorem Denotes.leaf_iff {b : Bool} :
    Denotes f h (.leaf b) ↔ h = if b then Handle.true' else Handle.false' := by
  constructor
  · rintro ⟨⟩ <;> rfl
  · rintro rfl
    cases b
    · exact .false'
    · exact .true'

theorem Denotes.eq_true_iff (hD : Denotes f h D) : h = Handle.true' ↔ D = .leaf true := by
  constructor
  · rintro rfl
    exact hD.unique .true'
  · rintro rfl
    simpa using Denotes.leaf_iff.1 hD

theorem Denotes.eq_false_iff (hD : Denotes f h D) : h = Handle.false' ↔ D = .leaf false := by
  constructor
  · rintro rfl
    exact hD.unique .false'
  · rintro rfl
    simpa using Denotes.leaf_iff.1 hD

/-- A handle is a terminal, or a node whose tree is a branch. -/
theorem Denotes.cases_node (hD : Denotes f h D) (ht : h.isTerminal = false) :
    ∃ k high low, f h = some k ∧ Denotes f k.high high ∧ Denotes f k.low low ∧
      D = .branch k.literal k.weights high low := by
  cases hD with
  | false' => cases ht
  | true' => cases ht
  | node _ hk hH hL => exact ⟨_, _, _, hk, hH, hL, rfl⟩

/-- A handle with a branch is a node. -/
theorem Denotes.cases_branch {l : Int} {ws : Weights} {high low : Diagram}
    (hD : Denotes f h (.branch l ws high low)) :
    h.isTerminal = false ∧ ∃ k, f h = some k ∧ k.literal = l ∧ k.weights = ws ∧
      Denotes f k.high high ∧ Denotes f k.low low := by
  cases hD with
  | node ht hk hH hL => exact ⟨ht, _, hk, rfl, rfl, hH, hL⟩

/-- Among nodes of which no two are equal, a tree has one node only. -/
theorem Denotes.eq_of_distinct {P : Handle → Prop} (hD : Denotes f g D) (hE : Denotes f h D)
    (hg : P g) (hh : P h)
    (hchild : ∀ {i k}, P i → i.isTerminal = false → f i = some k → P k.high ∧ P k.low)
    (hone : ∀ {i j k}, P i → P j → i.isTerminal = false → j.isTerminal = false → f i = some k →
      f j = some k → i = j) : g = h := by
  induction hD generalizing h with
  | false' => exact (hE.eq_false_iff.2 rfl).symm
  | true' => exact (hE.eq_true_iff.2 rfl).symm
  | @node g k H L ht hk _ _ ihH ihL =>
      obtain ⟨hth, k', hk', hlit, hws, hH, hL⟩ := hE.cases_branch
      have hhigh := ihH hH (hchild hg ht hk).1 (hchild hh hth hk').1
      have hlow := ihL hL (hchild hg ht hk).2 (hchild hh hth hk').2
      have hkey : k' = k := by
        cases k'
        cases k
        simp only [Node.Key.mk.injEq]
        exact ⟨hlit, hhigh.symm, hlow.symm, hws⟩
      exact hone hg hh ht hth hk (hkey ▸ hk')

theorem Denotes.isTerminal_eq (hD : Denotes f h D) :
    h.isTerminal = match D with
      | .leaf _ => true
      | .branch .. => false := by
  cases hD with
  | false' => rfl
  | true' => rfl
  | node ht _ _ _ => exact ht

/-! ## Depth -/

/-- Below a node there is one of every smaller depth. -/
theorem Denotes.exists_depth (hD : Denotes f h D) {d : Nat} (hd : d < D.depth) :
    ∃ g E, Denotes f g E ∧ E.depth = d + 1 ∧ (f g).isSome := by
  induction hD with
  | false' => cases hd
  | true' => cases hd
  | @node h k H L ht hk hH hL ihH ihL =>
      simp only [Diagram.depth] at hd
      by_cases hdH : d < H.depth
      · exact ihH hdH
      by_cases hdL : d < L.depth
      · exact ihL hdL
      refine ⟨h, _, .node ht hk hH hL, ?_, by simp [hk]⟩
      simp only [Diagram.depth]
      omega

theorem Denotes.depth_le {size : Nat} (hD : Denotes f h D)
    (hf : ∀ i, (f i).isSome → i < size) : D.depth ≤ size := by
  -- one node of each depth: different depths belong to different handles
  choose! node tree hnode using fun d (hd : d < D.depth) => hD.exists_depth hd
  have hcard := Finset.card_le_card_of_injOn (s := Finset.range D.depth)
    (t := Finset.range size) node (fun d hd => by
      have hd : d < D.depth := by simpa using hd
      simpa using hf _ (hnode d hd).2.2) (by
      intro d hd e he hde
      have hd : d < D.depth := by simpa using hd
      have he : e < D.depth := by simpa using he
      obtain ⟨hDd, hdepth, -⟩ := hnode d hd
      obtain ⟨hDe, hdepth', -⟩ := hnode e he
      rw [hde] at hDd
      rw [hDd.unique hDe] at hdepth
      omega)
  simpa using hcard

theorem Denotes.depth_le_size (hD : Denotes m.key? h D) : D.depth ≤ m.arena.size := by
  refine hD.depth_le fun i hi => ?_
  by_contra hge
  rw [key?_eq_none_of_size_le (Nat.le_of_not_lt hge)] at hi
  cases hi

theorem Denotes.ne_of_depth_lt (hD : Denotes f h D) (hE : Denotes f g E) (hlt : D.depth < E.depth) :
    h ≠ g := by
  rintro rfl
  rw [hD.unique hE] at hlt
  exact Nat.lt_irrefl _ hlt

/-! ## Changes elsewhere -/

/-- The edges of young nodes lead to young nodes and terminals. -/
def Closed (frozen : Handle → Option Node) (f : Handle → Option Node.Key) : Prop :=
  ∀ i k, frozen i = none → f i = some k →
    (k.high.isTerminal = true ∨ frozen k.high = none) ∧
      (k.low.isTerminal = true ∨ frozen k.low = none)

theorem Heap.closed (H : Heap frozen ext m) : Closed frozen m.key? := by
  intro i k hi hk
  obtain ⟨n, hn, rfl⟩ := key?_eq_some_iff.1 hk
  refine ⟨(H.sound_high hn hi).imp_right And.left, (H.sound_low hn hi).imp_right And.left⟩

/-- Changing or freeing a young node to which no young node leads changes no other diagram of
young nodes. -/
theorem Denotes.update_of_not_pointed {k? : Option Node.Key} (hD : Denotes f h D)
    (hclosed : Closed frozen f) (hg : ¬ Pointed frozen f g)
    (hh : h.isTerminal = true ∨ frozen h = none) (hne : h ≠ g) :
    Denotes (Function.update f g k?) h D := by
  induction hD with
  | false' => exact .false'
  | true' => exact .true'
  | @node h k H L ht hk hH hL ihH ihL =>
      have hfrozen : frozen h = none := by
        rcases hh with hh | hh
        · rw [ht] at hh
          cases hh
        · exact hh
      obtain ⟨hhigh, hlow⟩ := hclosed h k hfrozen hk
      refine .node ht (by rw [Function.update_of_ne hne, hk]) (ihH hhigh ?_) (ihL hlow ?_)
      · rintro rfl
        exact hg ⟨h, k, hfrozen, hk, Or.inl rfl⟩
      · rintro rfl
        exact hg ⟨h, k, hfrozen, hk, Or.inr rfl⟩

/-- The diagrams of the frozen nodes. -/
def frozenKey (frozen : Handle → Option Node) (h : Handle) : Option Node.Key :=
  (frozen h).map Node.key

theorem Heap.denotes_of_frozen (H : Heap frozen ext m) (hD : Denotes (frozenKey frozen) h D) :
    Denotes m.key? h D := by
  refine hD.mono fun i k hk => ?_
  obtain ⟨n, hn, rfl⟩ := Option.map_eq_some_iff.1 hk
  exact key?_of_get? (H.kept hn)

end BayesCircuit.Decision
