import BayesCircuit.Multigraph.Compile
import BayesCircuit.Multigraph.Evaluate
import Mathlib.Algebra.BigOperators.Group.List.Basic
import Mathlib.Algebra.Ring.Defs

/-!
# The values of the nodes of a level

In a commutative semiring, an and node has the product and an or node the sum of what its edges
lead to. The values of the nodes of a level are found in the order of the nodes. A node is
*grounded* if the edges that stay on its level lead to earlier nodes; its value is then the same
whichever nodes follow it (`Setting.values_get`).
-/

namespace BayesCircuit.Multigraph

/-- The operations of a semiring, without rounding. -/
def SumProduct.exact (α : Type) [CommSemiring α] : SumProduct α := ⟨0, 1, (· + ·), (· * ·)⟩

/-- What the values of the nodes of a level depend on. -/
structure Setting (W α : Type) where
  weigh : W → α
  /-- The value of the variable of the level, if it is fixed. -/
  observed : Option Nat
  terminal : Nat
  /-- The number of the level. -/
  index : Nat
  /-- The values of the nodes of the levels after it. -/
  below : List (Array α)

variable {W α : Type} [CommSemiring α]

namespace Setting

/-- The value of the node that an edge leads to; `own` are the values of the nodes of the level. -/
def reading (s : Setting W α) (own : Array α) (id : NodeId) : α :=
  if id.layer == s.terminal then 1
  else if id.layer == s.index then own.getD id.index 0
  else (s.below.getD (id.layer - (s.index + 1)) #[]).getD id.index 0

/-- The value of a node. -/
def value (s : Setting W α) (own : Array α) (n : Node W) : α :=
  nodeValue (.exact α) s.weigh s.observed (s.reading own) n

/-- The values of the nodes that come after those with the values `own`. -/
def values (s : Setting W α) (own : Array α) (nodes : List (Node W)) : Array α :=
  nodes.foldl (fun own n => own.push (s.value own n)) own

end Setting

variable {s : Setting W α} {weigh : W → α} {observed : Option Nat} {terminal index : Nat}
variable {below : List (Array α)} {own own' : Array α} {n : Node W} {ns ms : List (Node W)}
variable {id : NodeId} {j k : Nat}

theorem levelValues_eq {evidence : Evidence} {l : Level W} :
    levelValues (.exact α) weigh terminal index evidence l below =
      Setting.values ⟨weigh, (evidence[l.owner]?).join, terminal, index, below⟩ #[] l.nodes.toList := by
  unfold levelValues Setting.values
  rw [← Array.foldl_toList]
  rfl

theorem nodeValue_and {valueAt : NodeId → α} (hn : n.kind = .and) :
    nodeValue (.exact α) weigh observed valueAt n = (n.edges.map fun e => valueAt e.target).prod := by
  rw [nodeValue, hn, List.prod_eq_foldl, List.foldl_map]
  rfl

theorem nodeValue_or {valueAt : NodeId → α} (hn : n.kind = .or) :
    nodeValue (.exact α) weigh observed valueAt n =
      ((n.edges.zipIdx.filter fun p => admits observed p.2).map fun p =>
        weigh p.1.label * valueAt p.1.target).sum := by
  rw [nodeValue, hn, List.sum_eq_foldl, List.foldl_map]
  rfl

/-! ## Grounded nodes -/

/-- The edges that stay on the level lead to the first `k` nodes. -/
def Grounded (index k : Nat) (n : Node W) : Prop :=
  ∀ e ∈ n.edges, e.target.layer = index → e.target.index < k

theorem getElem?_push_cases {β : Type} {xs : Array β} {x y : β} {i : Nat} (h : (xs.push x)[i]? = some y) :
    i = xs.size ∧ y = x ∨ xs[i]? = some y := by
  rw [Array.getElem?_push] at h
  split at h
  · exact Or.inl ⟨‹_›, (Option.some.inj h).symm⟩
  · exact Or.inr h

/-- A node that is added may lead to all that are there. -/
theorem grounded_push {index i : Nat} {nodes : Array (Node W)} {n n' : Node W}
    (h : ∀ {i n}, nodes[i]? = some n → Grounded index i n) (hn : Grounded index nodes.size n)
    (hi : (nodes.push n)[i]? = some n') : Grounded index i n' := by
  rcases getElem?_push_cases hi with ⟨rfl, rfl⟩ | hi
  · exact hn
  · exact h hi

/-- The first `k` values are the same. -/
def Agree (k : Nat) (own own' : Array α) : Prop := ∀ j, j < k → own.getD j 0 = own'.getD j 0

namespace Setting

theorem reading_terminal (own : Array α) (id : NodeId) (h : id.layer = s.terminal) :
    s.reading own id = 1 := by
  simp [reading, h]

theorem reading_own (h : s.index ≠ s.terminal) (own : Array α) (i : Nat) :
    s.reading own ⟨s.index, i⟩ = own.getD i 0 := by
  simp [reading, h]

theorem reading_congr (h : Agree k own own') (hid : id.layer = s.index → id.index < k) :
    s.reading own id = s.reading own' id := by
  unfold reading
  split
  · rfl
  · split
    · rename_i hl
      exact h _ (hid (by simpa using hl))
    · rfl

theorem value_congr (h : Agree k own own') (hn : Grounded s.index k n) :
    s.value own n = s.value own' n := by
  have hread : ∀ e ∈ n.edges, s.reading own e.target = s.reading own' e.target :=
    fun e he => reading_congr h (hn e he)
  unfold value
  cases hk : n.kind with
  | and =>
      rw [nodeValue_and hk, nodeValue_and hk]
      exact congrArg List.prod (List.map_congr_left hread)
  | or =>
      rw [nodeValue_or hk, nodeValue_or hk]
      refine congrArg List.sum (List.map_congr_left fun p hp => ?_)
      have hp : p.1 ∈ n.edges := List.fst_mem_of_mem_zipIdx (List.mem_filter.1 hp).1
      rw [hread p.1 hp]

/-! ## The values of a level -/

theorem values_append : s.values own (ns ++ ms) = s.values (s.values own ns) ms :=
  List.foldl_append ..

theorem values_cons : s.values own (n :: ns) = s.values (own.push (s.value own n)) ns := rfl

theorem size_values : (s.values own ns).size = own.size + ns.length := by
  induction ns generalizing own with
  | nil => rfl
  | cons n ns ih =>
      rw [values_cons, ih, Array.size_push, List.length_cons]
      omega

theorem getD_push (own : Array α) (x : α) : (own.push x).getD own.size 0 = x := by
  rw [Array.getD_eq_getD_getElem?, Array.getElem?_push_size, Option.getD_some]

/-- Nodes that follow do not change the values. -/
theorem agree_values : Agree own.size (s.values own ns) own := by
  induction ns generalizing own with
  | nil => exact fun _ _ => rfl
  | cons n ns ih =>
      intro j hj
      rw [values_cons, ih j (by rw [Array.size_push]; omega), Array.getD_eq_getD_getElem?,
        Array.getD_eq_getD_getElem?, Array.getElem?_push_lt hj, Array.getElem?_eq_getElem hj]

theorem agree_append (own : Array α) (ns ms : List (Node W)) :
    Agree (own.size + ns.length) (s.values own (ns ++ ms)) (s.values own ns) := by
  rw [values_append, ← size_values]
  exact agree_values

/-- The value of a grounded node. -/
theorem values_get (hn : ns[j]? = some n) (hg : Grounded s.index j n) :
    (s.values #[] ns).getD j 0 = s.value (s.values #[] ns) n := by
  obtain ⟨hj, hget⟩ := List.getElem?_eq_some_iff.1 hn
  have hlen : (ns.take j).length = j := by
    rw [List.length_take, Nat.min_eq_left (Nat.le_of_lt hj)]
  have hsize : (s.values #[] (ns.take j)).size = j := by
    rw [size_values, hlen]
    exact Nat.zero_add j
  have hprefix : Agree j (s.values #[] ns) (s.values #[] (ns.take j)) := by
    have := agree_append (s := s) #[] (ns.take j) (ns.drop j)
    rwa [List.take_append_drop, hlen, show (#[] : Array α).size + j = j from Nat.zero_add j] at this
  have hnext : Agree (j + 1) (s.values #[] ns) (s.values #[] (ns.take (j + 1))) := by
    have := agree_append (s := s) #[] (ns.take (j + 1)) (ns.drop (j + 1))
    rwa [List.take_append_drop, List.length_take, Nat.min_eq_left hj,
      show (#[] : Array α).size + (j + 1) = j + 1 from Nat.zero_add _] at this
  rw [hnext j (Nat.lt_succ_self j), List.take_succ_eq_append_getElem hj, hget, values_append,
    value_congr hprefix hg]
  have hlast := getD_push (s.values #[] (ns.take j)) (s.value (s.values #[] (ns.take j)) n)
  rwa [hsize] at hlast

end Setting
end BayesCircuit.Multigraph
