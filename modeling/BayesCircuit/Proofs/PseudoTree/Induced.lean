import BayesCircuit.Proofs.PseudoTree.Build
import Mathlib.Logic.Relation

/-!
# The tree that an ordering induces

Elimination only connects variables that are connected already, so a variable is connected with its
parent and with all variables of its tree. Variables of one table lie on one way from a root to a
leaf, so a tree holds whatever is connected with one of its variables. So the trees below the root
are the components of the interaction graph (`sameTree_iff_connected`). It does not matter whether
the network has cycles, or lists a parent twice (`ofOrdering_induced`).
-/

namespace BayesCircuit

open PseudoTree Node

variable {g : InteractionGraph} {u v w : Variable} {as vs : List Variable}

namespace InteractionGraph

/-- One variable can be reached from another one along edges. -/
def Connected (g : InteractionGraph) : Variable → Variable → Prop :=
  Relation.ReflTransGen fun a b => b ∈ g.adjacent a

theorem Spans.connected_symm (h : g.Spans vs) (huv : g.Connected u v) : g.Connected v u := by
  induction huv with
  | refl => exact .refl
  | tail _ hedge ih => exact .head (h.symm hedge) ih

/-- The neighbours that elimination connects were connected by the eliminated variable. -/
theorem Spans.connected_of_eliminate (h : g.Spans (w :: vs)) (huv : v ∈ (g.eliminate w).adjacent u) :
    g.Connected u v := by
  obtain ⟨-, -, hedge | ⟨huw, hvw, -⟩⟩ := (adjacent_eliminate h).1 huv
  · exact .single hedge
  · exact .tail (.single (h.symm huw)) hvw

theorem Spans.connected_of_eliminateAll : ∀ {as : List Variable} {g : InteractionGraph},
    g.Spans (as ++ vs) → v ∈ (eliminateAll g as).adjacent u → g.Connected u v
  | [], _, _, huv => .single huv
  | _ :: as, _, h, huv => by
      have hrest := Spans.connected_of_eliminateAll h.eliminate huv
      exact Relation.ReflTransGen.trans_induction_on hrest (fun _ => .refl)
        (fun hedge => h.connected_of_eliminate hedge) fun _ _ => .trans

end InteractionGraph

namespace PseudoTree

variable {net : Network} {p : Partition} {ordering owned : List Variable} {n m : Node}
variable {ns : List Node} {shape : Shape}

/-- A list of which another one is the rest tells where the others stand. -/
theorem idxOf_lt_idxOf {bs : List Variable} (hsplit : ordering.reverse = as ++ v :: bs)
    (hnodup : ordering.Nodup) (hu : u ∈ bs) : ordering.idxOf u < ordering.idxOf v := by
  have hordering : ordering = bs.reverse ++ v :: as.reverse := by
    rw [← List.reverse_reverse ordering, hsplit]
    simp
  have hnodup' := List.nodup_reverse.2 hnodup
  rw [hsplit] at hnodup'
  have hv : v ∉ bs.reverse := fun hmem => (nodup_split hnodup').2 (List.mem_reverse.1 hmem)
  have hu' : u ∈ bs.reverse := List.mem_reverse.2 hu
  rw [hordering, List.idxOf_append_of_mem hu', List.idxOf_append_of_notMem hv,
    List.idxOf_cons_self]
  exact List.idxOf_lt_length_of_mem hu'

/-! ## Parents -/

mutual

theorem Hung.parent_eq {parent : Variable → Option Variable} : ∀ {n : Node}, Hung parent n →
    ∀ m ∈ n.subtrees, ∀ k ∈ m.children, parent k.label = some m.label
  | .mk v ns, h, m, hm, k, hk => by
      rcases List.mem_cons.1 hm with rfl | hm
      · exact h.1 k hk
      · exact HungAll.parent_eq h.2 m hm k hk

theorem HungAll.parent_eq {parent : Variable → Option Variable} : ∀ {ns : List Node},
    HungAll parent ns → ∀ m ∈ subtreesAll ns, ∀ k ∈ m.children, parent k.label = some m.label
  | n :: ns, h, m, hm, k, hk => by
      rcases List.mem_append.1 hm with hm | hm
      · exact Hung.parent_eq h.1 m hm k hk
      · exact HungAll.parent_eq h.2 m hm k hk

end

/-- The parent of a variable is connected with it. -/
theorem connected_parent (hnet : net.Closed) (hp : p.Proper net) (h : ordering.Perm p.scope)
    (hv : v ∈ ordering) (hu : parentOf (parentsFor net p ordering .tree) v = some u) :
    (InteractionGraph.ofPartition net p).Connected v u := by
  have hspans := spans_ofPartition hnet hp h
  have hnodup := List.nodup_reverse.2 (h.nodup_iff.2 hp.strict_scope.nodup)
  obtain ⟨as, bs, hsplit⟩ := List.append_of_mem (List.mem_reverse.2 hv)
  rw [hsplit] at hnodup hspans
  rw [parentsFor, parentOf_eliminated hsplit (nodup_split hnodup).1, latest?] at hu
  have hfound := List.find?_some hu
  exact hspans.connected_of_eliminateAll (by simpa using hfound)

mutual

/-- The root of a tree is connected with all its variables, if each is connected with its parent. -/
theorem Hung.connected {parent : Variable → Option Variable} : ∀ {n : Node}, Hung parent n →
    (∀ v ∈ n.preorder, ∀ u, parent v = some u → g.Connected u v) →
    ∀ v ∈ n.preorder, g.Connected n.label v
  | .mk root ns, h, hparent, v, hv => by
      rcases List.mem_cons.1 hv with rfl | hv
      · exact .refl
      · have hroots : ∀ n ∈ ns, g.Connected root n.label := fun n hn =>
          hparent n.label (preorder_children_subset
            (mem_preorderAll.2 ⟨n, hn, label_mem_preorder⟩)) root (h.1 n hn)
        exact HungAll.connected h.2 (fun v hv => hparent v (preorder_children_subset hv))
          root hroots v hv

theorem HungAll.connected {parent : Variable → Option Variable} : ∀ {ns : List Node},
    HungAll parent ns → (∀ v ∈ preorderAll ns, ∀ u, parent v = some u → g.Connected u v) →
    ∀ root, (∀ n ∈ ns, g.Connected root n.label) → ∀ v ∈ preorderAll ns, g.Connected root v
  | n :: ns, h, hparent, root, hroots, v, hv => by
      obtain ⟨hroot, hroots'⟩ := List.forall_mem_cons.1 hroots
      rcases List.mem_append.1 hv with hv | hv
      · exact hroot.trans (Hung.connected h.1
          (fun v hv => hparent v (List.mem_append_left _ hv)) v hv)
      · exact HungAll.connected h.2 (fun v hv => hparent v (List.mem_append_right _ hv))
          root hroots' v hv

end

/-! ## Components -/

/-- Two variables are in one of some trees. -/
def SameTree (ns : List Node) (u v : Variable) : Prop := ∃ n ∈ ns, u ∈ n.preorder ∧ v ∈ n.preorder

/-- Trees without common variables share none. -/
theorem eq_of_mem_preorder (hnodup : (preorderAll ns).Nodup) (hn : n ∈ ns) (hm : m ∈ ns)
    (hvn : v ∈ n.preorder) (hvm : v ∈ m.preorder) : n = m := by
  induction ns with
  | nil => exact absurd hn List.not_mem_nil
  | cons k ns ih =>
      obtain ⟨-, hnodup', hdisjoint⟩ := List.nodup_append.1 hnodup
      rcases List.mem_cons.1 hn with hnk | hn' <;> rcases List.mem_cons.1 hm with hmk | hm'
      · exact hnk.trans hmk.symm
      · exact absurd rfl (hdisjoint v (hnk ▸ hvn) v (mem_preorderAll.2 ⟨m, hm', hvm⟩))
      · exact absurd rfl (hdisjoint v (hmk ▸ hvm) v (mem_preorderAll.2 ⟨n, hn', hvn⟩))
      · exact ih hnodup' hn' hm'

theorem SameTree.trans (hnodup : (preorderAll ns).Nodup) (huv : SameTree ns u v)
    (hvw : SameTree ns v w) : SameTree ns u w := by
  obtain ⟨n, hn, hun, hvn⟩ := huv
  obtain ⟨m, hm, hvm, hwm⟩ := hvw
  obtain rfl := eq_of_mem_preorder hnodup hn hm hvn hvm
  exact ⟨n, hn, hun, hwm⟩

theorem sameTree_of_branch {branch : List Variable} (h : branch ∈ branchesAll ns) (hu : u ∈ branch)
    (hv : v ∈ branch) : SameTree ns u v := by
  obtain ⟨n, hn, hbranch⟩ := mem_branchesAll.1 h
  have hsub := preorder_of_mem_branches hbranch
  exact ⟨n, hn, hsub hu, hsub hv⟩

/-- The tables of a partition lie on ways from a root to a leaf. -/
theorem exists_branch_family (hnet : net.Closed) (hp : p.Proper net) (h : ordering.Perm p.scope)
    (shape : Shape) (hw : w ∈ p.owned) :
    ∃ branch ∈ branchesAll (rootsFor net p ordering shape),
      InteractionGraph.family net w ⊆ branch := by
  obtain ⟨-, -, hperm⟩ := hung_rootsFor hnet hp h shape
  have hlegal : LegalAll (Bound.ofPartition net p).scope [] (rootsFor net p ordering shape) :=
    legal_rootsFor hnet hp h shape (fun _ _ => List.not_mem_nil) List.nodup_nil
  have hself : w ∈ (Bound.ofPartition net p).scope w :=
    (Bound.mem_scope hp).2 ⟨hw, self_mem_family⟩
  have hmem : w ∈ preorderAll (rootsFor net p ordering shape) :=
    (hperm.trans h).mem_iff.2 (hp.mem_scope.2 ⟨w, hw, self_mem_family⟩)
  obtain ⟨branch, hbranch, hscope⟩ := hlegal.exists_branch ⟨w, hmem, hself⟩
  exact ⟨branch, hbranch, fun u hu =>
    (hscope u ((Bound.mem_scope hp).2 ⟨hw, hu⟩)).resolve_left List.not_mem_nil⟩

/-- The trees below the root are the components of the interaction graph. -/
theorem sameTree_iff_connected (hnet : net.Closed) (hp : p.Proper net)
    (h : ordering.Perm p.scope) (hu : u ∈ p.scope) :
    SameTree (rootsFor net p ordering .tree) u v ↔
      (InteractionGraph.ofPartition net p).Connected u v := by
  obtain ⟨hhung, -, hperm⟩ := hung_rootsFor hnet hp h .tree
  have hspans := spans_ofPartition hnet hp h
  have hnodup := (hperm.trans h).nodup_iff.2 hp.strict_scope.nodup
  constructor
  · rintro ⟨n, hn, hun, hvn⟩
    have hconnected := Hung.connected (hungAll_iff.1 hhung n hn) fun x hx y hy =>
      hspans.connected_symm (connected_parent hnet hp h
        (hperm.mem_iff.1 (mem_preorderAll.2 ⟨n, hn, hx⟩)) hy)
    exact (hspans.connected_symm (hconnected u hun)).trans (hconnected v hvn)
  · intro hconnected
    induction hconnected with
    | refl =>
        obtain ⟨n, hn, hun⟩ := mem_preorderAll.1 ((hperm.trans h).mem_iff.2 hu)
        exact ⟨n, hn, hun, hun⟩
    | @tail x y _ hedge ih =>
        obtain ⟨-, w, hw, hx, hy⟩ := (InteractionGraph.adjacent_ofPartition fun w hw b hb =>
          hnet.family_lt (hp.owned_lt w hw) hb).1 hedge
        obtain ⟨branch, hbranch, hfamily⟩ := exists_branch_family hnet hp h .tree hw
        exact ih.trans hnodup (sameTree_of_branch hbranch (hfamily hx) (hfamily hy))

/-- An ordering of a partition induces a tree below the joining root. It lists the variables, each
after the one it hangs below; the variables of every table lie on one way from a root to a leaf, so
one of two is above the other; and the trees are the components of the interaction graph. -/
theorem ofOrdering_induced (hnet : net.Closed) (hp : Partition.ofOwned net owned = .ok p)
    (h : ordering.Perm p.scope) :
    ∃ t, ofOrdering net p ordering = .ok t ∧ t.root.label = joiner ∧
      t.preorder = preorderAll t.root.children ∧ t.preorder.Perm ordering ∧
      (∀ n ∈ subtreesAll t.root.children, ∀ m ∈ n.children,
        ordering.idxOf n.label < ordering.idxOf m.label) ∧
      (∀ w ∈ p.owned, ∃ branch ∈ branchesAll t.root.children,
        InteractionGraph.family net w ⊆ branch) ∧
      (∀ w ∈ p.owned, ∀ u ∈ InteractionGraph.family net w, ∀ v ∈ InteractionGraph.family net w,
        u ≠ v → Above t.root.children u v ∨ Above t.root.children v u) ∧
      ∀ u ∈ p.scope, ∀ v ∈ p.scope, SameTree t.root.children u v ↔
        (InteractionGraph.ofPartition net p).Connected u v := by
  have hproper := Partition.proper_ofOwned hp
  obtain ⟨hhung, -, hperm⟩ := hung_rootsFor hnet hproper h .tree
  have hnodup := h.nodup_iff.2 hproper.strict_scope.nodup
  refine ⟨_, (build_ok_iff hproper).2 ⟨h, rfl⟩, rfl, rfl, hperm, fun n hn m hm => ?_, fun w hw =>
    exists_branch_family hnet hproper h .tree hw, fun w hw u hu v hv hne => ?_,
    fun u hu v _ => sameTree_iff_connected hnet hproper h hu⟩
  · have hparent := hhung.parent_eq n hn m hm
    have hlisted : m.label ∈ ordering.reverse := List.mem_reverse.2 (hperm.mem_iff.1
      (preorder_subset_of_mem_subtreesAll hn
        (preorder_children_subset (mem_preorderAll.2 ⟨m, hm, label_mem_preorder⟩))))
    obtain ⟨as, bs, hsplit⟩ := List.append_of_mem hlisted
    have hlater := ((upward_parentsFor hnet hproper h .tree).parent as _ bs _ hsplit hparent).1
    exact idxOf_lt_idxOf hsplit hnodup hlater
  · obtain ⟨branch, hbranch, hfamily⟩ := exists_branch_family hnet hproper h .tree hw
    exact above_of_mem_branchesAll hbranch u (hfamily hu) v (hfamily hv) hne

/-- Three coins that depend on each other in a circle, and one that lists itself twice. -/
def coinsInCircle : Network where
  nodes := #[⟨"A", #["h", "t"], [2], Array.replicate 4 .zero⟩,
    ⟨"B", #["h", "t"], [0], Array.replicate 4 .zero⟩,
    ⟨"C", #["h", "t"], [1], Array.replicate 4 .zero⟩,
    ⟨"D", #["h", "t"], [3, 3], Array.replicate 8 .zero⟩]

theorem closed_coinsInCircle : coinsInCircle.Closed := by
  have hall : ∀ v, (hv : v < coinsInCircle.size) →
      ∀ p ∈ coinsInCircle.nodes[v].parents, p < coinsInCircle.size := by
    decide
  intro v n hn
  obtain ⟨hv, rfl⟩ := Array.getElem?_eq_some_iff.1 hn
  exact hall v hv

/-- Without the table of `C`, the circle is a chain through `A`. -/
theorem ofOrdering_coinsInCircle : ∃ p t, Partition.ofOwned coinsInCircle [0, 1, 3] = .ok p ∧
    ofOrdering coinsInCircle p [3, 0, 2, 1] = .ok t ∧ t.preorder.Perm [3, 0, 2, 1] ∧
    (Above t.root.children 2 0 ∨ Above t.root.children 0 2) ∧ SameTree t.root.children 2 1 ∧
    ¬ SameTree t.root.children 3 0 := by
  let p : Partition := ⟨[0, 1, 3], [2]⟩
  have hp : Partition.ofOwned coinsInCircle [0, 1, 3] = .ok p := by decide +kernel
  have hordering : [3, 0, 2, 1].Perm p.scope := by decide
  obtain ⟨t, ht, -, -, hperm, -, -, habove, hsame⟩ :=
    ofOrdering_induced closed_coinsInCircle hp hordering
  refine ⟨p, t, hp, ht, hperm, habove 0 (by decide) 2 (by decide) 0 (by decide) (by decide),
    (hsame 2 (by decide) 1 (by decide)).2 ?_, fun htree => ?_⟩
  · have hleft : 0 ∈ (InteractionGraph.ofPartition coinsInCircle p).adjacent 2 := by decide
    have hright : 1 ∈ (InteractionGraph.ofPartition coinsInCircle p).adjacent 0 := by decide
    exact .head hleft (.single hright)
  · have halone : (InteractionGraph.ofPartition coinsInCircle p).adjacent 3 = [] := by decide
    rcases ((hsame 3 (by decide) 0 (by decide)).1 htree).cases_head with heq | ⟨v, hv, -⟩
    · exact absurd heq (by decide)
    · exact absurd (halone ▸ hv) List.not_mem_nil

end PseudoTree
end BayesCircuit
