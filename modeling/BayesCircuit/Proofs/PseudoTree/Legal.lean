import BayesCircuit.PseudoTree.Basic

/-!
# Legal pseudo-trees

A tree is legal for the scopes of some tables if two variables of one table are never beside each
other: whichever variable of a table is looked at, the others are above or below it. Then the
variables of a table lie on one way from the root to a leaf (`LegalAll.exists_branch`). A tree is
*ranked* by what its variables depend on above them if a variable below `v` depends on nothing
above `v` that `v` does not depend on. A ranked tree is legal if of two variables of a table one
depends on the other (`Ranked.legal`).
-/

namespace BayesCircuit.PseudoTree.Node

mutual

/-- A tree and the trees within it, each before those below it. -/
def subtrees : Node → List Node
  | mk v ns => mk v ns :: subtreesAll ns

/-- The trees within trees, from left to right. -/
def subtreesAll : List Node → List Node
  | [] => []
  | n :: ns => subtrees n ++ subtreesAll ns

end

/-- One variable of trees is above another one. -/
def Above (ns : List Node) (u v : Variable) : Prop :=
  ∃ n ∈ subtreesAll ns, n.label = u ∧ v ∈ preorderAll n.children

mutual

/-- The variables on each way from the root to a leaf. -/
def branches : Node → List (List Variable)
  | mk v ns => if ns.isEmpty then [[v]] else (branchesAll ns).map (v :: ·)

/-- The ways through trees, from left to right. -/
def branchesAll : List Node → List (List Variable)
  | [] => []
  | n :: ns => branches n ++ branchesAll ns

end

mutual

/-- Every table that mentions a variable of a tree mentions besides it only variables above and
below it. -/
def Legal (scope : Nat → List Variable) (path : List Variable) : Node → Prop
  | mk v ns => (∀ c, v ∈ scope c → ∀ u ∈ scope c, u ∈ v :: path ∨ u ∈ preorderAll ns) ∧
      LegalAll scope (v :: path) ns

def LegalAll (scope : Nat → List Variable) (path : List Variable) : List Node → Prop
  | [] => True
  | n :: ns => Legal scope path n ∧ LegalAll scope path ns

end

mutual

/-- Below a variable, nothing above it is depended on that it does not depend on itself. -/
def Ranked (above : Variable → List Variable) : Node → Prop
  | mk v ns => (∀ n ∈ ns, above n.label ⊆ v :: above v) ∧ RankedAll above ns

def RankedAll (above : Variable → List Variable) : List Node → Prop
  | [] => True
  | n :: ns => Ranked above n ∧ RankedAll above ns

end

variable {above : Variable → List Variable} {scope : Nat → List Variable}
variable {n : Node} {ns : List Node}

theorem mem_preorderAll {v : Variable} : v ∈ preorderAll ns ↔ ∃ n ∈ ns, v ∈ n.preorder := by
  induction ns with
  | nil => simp [preorderAll]
  | cons n ns ih => simp [preorderAll, ih]

theorem label_mem_preorder : ∀ {n : Node}, n.label ∈ n.preorder
  | mk _ _ => List.mem_cons_self ..

/-! ## Above and below -/

variable {u v w : Variable} {branch : List Variable} {c : Nat}

theorem mem_subtreesAll {m : Node} : m ∈ subtreesAll ns ↔ ∃ n ∈ ns, m ∈ n.subtrees := by
  induction ns with
  | nil => simp [subtreesAll]
  | cons n ns ih => simp [subtreesAll, ih]

theorem mem_branchesAll : branch ∈ branchesAll ns ↔ ∃ n ∈ ns, branch ∈ n.branches := by
  induction ns with
  | nil => simp [branchesAll]
  | cons n ns ih => simp [branchesAll, ih]

theorem above_cons {ms : List Node} : Above (mk w ms :: ns) u v ↔
    (u = w ∧ v ∈ preorderAll ms) ∨ Above ms u v ∨ Above ns u v := by
  simp only [Above, subtreesAll, subtrees, List.cons_append, List.mem_cons, List.mem_append,
    or_and_right, exists_or, exists_eq_left]
  exact or_congr_left (and_congr_left fun _ => eq_comm)

mutual

theorem preorder_subset_of_mem_subtrees : ∀ {n m : Node}, m ∈ n.subtrees →
    m.preorder ⊆ n.preorder
  | mk v ns, m, h => by
      rcases List.mem_cons.1 h with rfl | h
      · exact List.Subset.refl _
      · exact List.Subset.trans (preorder_subset_of_mem_subtreesAll h) (List.subset_cons_self v _)

theorem preorder_subset_of_mem_subtreesAll : ∀ {ns : List Node} {m : Node}, m ∈ subtreesAll ns →
    m.preorder ⊆ preorderAll ns
  | n :: ns, m, h => by
      rw [preorderAll]
      rcases List.mem_append.1 h with h | h
      · exact List.Subset.trans (preorder_subset_of_mem_subtrees h) (List.subset_append_left _ _)
      · exact List.Subset.trans (preorder_subset_of_mem_subtreesAll h)
          (List.subset_append_right _ _)

end

theorem preorder_children_subset : ∀ {n : Node}, preorderAll n.children ⊆ n.preorder
  | mk v ns => List.subset_cons_self v (preorderAll ns)

theorem mem_branches {ns : List Node} : branch ∈ (mk v ns).branches ↔
    ∃ rest, branch = v :: rest ∧ (ns = [] ∧ rest = [] ∨ rest ∈ branchesAll ns) := by
  cases ns with
  | nil => simp [branches, branchesAll]
  | cons n ns => simp [branches, eq_comm, and_comm]

/-- Every tree has a leaf. -/
theorem exists_mem_branches : ∀ n : Node, ∃ branch, branch ∈ n.branches
  | mk v [] => ⟨[v], mem_branches.2 ⟨[], rfl, Or.inl ⟨rfl, rfl⟩⟩⟩
  | mk v (n :: ns) => by
      obtain ⟨rest, hrest⟩ := exists_mem_branches n
      exact ⟨v :: rest, mem_branches.2
        ⟨rest, rfl, Or.inr (mem_branchesAll.2 ⟨n, List.mem_cons_self .., hrest⟩)⟩⟩

mutual

theorem preorder_of_mem_branches : ∀ {n : Node} {branch}, branch ∈ n.branches →
    branch ⊆ n.preorder
  | mk v ns, branch, h => by
      obtain ⟨rest, rfl, ⟨-, rfl⟩ | hrest⟩ := mem_branches.1 h
      · exact List.cons_subset_cons v (List.nil_subset _)
      · exact List.cons_subset_cons v (preorder_of_mem_branchesAll hrest)

theorem preorder_of_mem_branchesAll : ∀ {ns : List Node} {branch}, branch ∈ branchesAll ns →
    branch ⊆ preorderAll ns
  | n :: ns, branch, h => by
      rw [preorderAll]
      rcases List.mem_append.1 h with h | h
      · exact List.Subset.trans (preorder_of_mem_branches h) (List.subset_append_left _ _)
      · exact List.Subset.trans (preorder_of_mem_branchesAll h) (List.subset_append_right _ _)

end

mutual

theorem above_of_mem_branches : ∀ {n : Node} {branch}, branch ∈ n.branches →
    ∀ u ∈ branch, ∀ v ∈ branch, u ≠ v → Above [n] u v ∨ Above [n] v u
  | mk w ns, branch, h, u, hu, v, hv, hne => by
      obtain ⟨rest, rfl, ⟨-, rfl⟩ | hrest⟩ := mem_branches.1 h
      · exact absurd ((List.mem_singleton.1 hu).trans (List.mem_singleton.1 hv).symm) hne
      · have hbelow := preorder_of_mem_branchesAll hrest
        simp only [above_cons]
        rcases List.mem_cons.1 hu with rfl | hu'
        · exact Or.inl (Or.inl ⟨rfl, hbelow ((List.mem_cons.1 hv).resolve_left (Ne.symm hne))⟩)
        · rcases List.mem_cons.1 hv with rfl | hv'
          · exact Or.inr (Or.inl ⟨rfl, hbelow hu'⟩)
          · exact (above_of_mem_branchesAll hrest u hu' v hv' hne).imp
              (fun h => Or.inr (Or.inl h)) fun h => Or.inr (Or.inl h)

/-- Of two variables on one way from a root to a leaf, one is above the other. -/
theorem above_of_mem_branchesAll : ∀ {ns : List Node} {branch}, branch ∈ branchesAll ns →
    ∀ u ∈ branch, ∀ v ∈ branch, u ≠ v → Above ns u v ∨ Above ns v u
  | n :: ns, branch, h, u, hu, v, hv, hne => by
      have hmono : ∀ {ms : List Node} {x y : Variable}, ms ⊆ n :: ns → Above ms x y →
          Above (n :: ns) x y := by
        rintro ms x y hsub ⟨m, hm, hmxy⟩
        obtain ⟨k, hk, hmk⟩ := mem_subtreesAll.1 hm
        exact ⟨m, mem_subtreesAll.2 ⟨k, hsub hk, hmk⟩, hmxy⟩
      rcases List.mem_append.1 h with h | h
      · have hsub : [n] ⊆ n :: ns := List.cons_subset_cons n (List.nil_subset ns)
        exact (above_of_mem_branches h u hu v hv hne).imp (hmono hsub) (hmono hsub)
      · have hsub := List.subset_cons_self n ns
        exact (above_of_mem_branchesAll h u hu v hv hne).imp (hmono hsub) (hmono hsub)

end

mutual

theorem Legal.exists_branch : ∀ {n : Node} {path}, Legal scope path n →
    (∃ x ∈ n.preorder, x ∈ scope c) →
    ∃ branch ∈ n.branches, ∀ u ∈ scope c, u ∈ path ∨ u ∈ branch
  | mk v ns, path, h, hmeets => by
      by_cases hbelow : ∃ x ∈ preorderAll ns, x ∈ scope c
      · obtain ⟨rest, hrest, hscope⟩ := LegalAll.exists_branch h.2 hbelow
        refine ⟨v :: rest, mem_branches.2 ⟨rest, rfl, Or.inr hrest⟩, fun u hu => ?_⟩
        rcases hscope u hu with hu | hu
        · rcases List.mem_cons.1 hu with rfl | hu
          · exact Or.inr (List.mem_cons_self ..)
          · exact Or.inl hu
        · exact Or.inr (List.mem_cons_of_mem _ hu)
      · obtain ⟨branch, hbranch⟩ := exists_mem_branches (mk v ns)
        obtain ⟨rest, rfl, -⟩ := mem_branches.1 hbranch
        obtain ⟨x, hx, hxc⟩ := hmeets
        obtain rfl : x = v :=
          (List.mem_cons.1 hx).resolve_right fun hx => hbelow ⟨x, hx, hxc⟩
        refine ⟨x :: rest, hbranch, fun u hu => ?_⟩
        rcases h.1 c hxc u hu with hu' | hu'
        · rcases List.mem_cons.1 hu' with rfl | hu'
          · exact Or.inr (List.mem_cons_self ..)
          · exact Or.inl hu'
        · exact absurd ⟨u, hu', hu⟩ hbelow

/-- The variables of a table in legal trees lie on one way from the root to a leaf. -/
theorem LegalAll.exists_branch : ∀ {ns : List Node} {path}, LegalAll scope path ns →
    (∃ x ∈ preorderAll ns, x ∈ scope c) →
    ∃ branch ∈ branchesAll ns, ∀ u ∈ scope c, u ∈ path ∨ u ∈ branch
  | [], _, _, hmeets => by
      obtain ⟨x, hx, -⟩ := hmeets
      exact absurd hx List.not_mem_nil
  | n :: ns, path, h, hmeets => by
      obtain ⟨x, hx, hxc⟩ := hmeets
      rcases List.mem_append.1 hx with hx | hx
      · obtain ⟨branch, hbranch, hscope⟩ := Legal.exists_branch h.1 ⟨x, hx, hxc⟩
        exact ⟨branch, List.mem_append_left _ hbranch, hscope⟩
      · obtain ⟨branch, hbranch, hscope⟩ := LegalAll.exists_branch h.2 ⟨x, hx, hxc⟩
        exact ⟨branch, List.mem_append_right _ hbranch, hscope⟩

end

theorem label_mem_preorderAll (h : n ∈ subtreesAll ns) : n.label ∈ preorderAll ns :=
  preorder_subset_of_mem_subtreesAll h label_mem_preorder

theorem Above.mem_preorderAll (h : Above ns u v) : v ∈ preorderAll ns := by
  obtain ⟨n, hn, -, hv⟩ := h
  exact preorder_subset_of_mem_subtreesAll hn (preorder_children_subset hv)

/-- A tree within legal trees is legal below the variables that are above it. -/
theorem LegalAll.exists_path : ∀ {ns : List Node} {path}, LegalAll scope path ns →
    (preorderAll ns ++ path).Nodup → n ∈ subtreesAll ns →
    ∃ path', Legal scope path' n ∧ (n.preorder ++ path').Nodup ∧
      ∀ u, u ∈ path' ↔ u ∈ path ∨ Above ns u n.label
  | mk v ks :: ms, path, h, hnodup, hn => by
      rw [preorderAll, preorder, List.append_assoc, List.cons_append] at hnodup
      obtain ⟨hv, hall⟩ := List.nodup_cons.1 hnodup
      obtain ⟨hks, hrest, hdisjoint⟩ := List.nodup_append.1 hall
      simp only [List.mem_append, not_or] at hv
      have hbeside : ∀ {x}, x ∈ preorderAll ks → x ∉ preorderAll ms := fun hk hm =>
        hdisjoint _ hk _ (List.mem_append_left _ hm) rfl
      have hpath : (preorderAll ks ++ v :: path).Nodup := by
        refine List.perm_middle.nodup_iff.2 (hnodup.sublist (List.Sublist.cons_cons v ?_))
        exact (List.Sublist.refl _).append (List.sublist_append_right _ _)
      rcases List.mem_cons.1 hn with rfl | hn
      · refine ⟨path, h.1, List.perm_middle.nodup_iff.1 hpath, fun u => ?_⟩
        rw [above_cons]
        refine (or_iff_left ?_).symm
        rintro (⟨-, hmem⟩ | habove | habove)
        · exact hv.1 hmem
        · exact hv.1 habove.mem_preorderAll
        · exact hv.2.1 habove.mem_preorderAll
      rcases List.mem_append.1 hn with hn | hn
      · obtain ⟨path', hlegal, hnodup', hiff⟩ := LegalAll.exists_path h.1.2 hpath hn
        have hlabel := label_mem_preorderAll hn
        have hother : ∀ u, ¬ Above ms u n.label := fun u habove =>
          hbeside hlabel habove.mem_preorderAll
        refine ⟨path', hlegal, hnodup', fun u => ?_⟩
        rw [hiff, above_cons, List.mem_cons]
        simp only [hlabel, hother, and_true, or_false]
        exact or_assoc.trans or_left_comm
      · obtain ⟨path', hlegal, hnodup', hiff⟩ := LegalAll.exists_path h.2 hrest hn
        have hlabel := label_mem_preorderAll hn
        have hother : ∀ u, ¬ Above ks u n.label := fun u habove =>
          hbeside habove.mem_preorderAll hlabel
        have hks' : n.label ∉ preorderAll ks := fun hk => hbeside hk hlabel
        refine ⟨path', hlegal, hnodup', fun u => ?_⟩
        rw [hiff, above_cons]
        simp only [hks', hother, and_false, false_or]

/-! ## Ranked trees -/

mutual

/-- The variables of a ranked tree depend on variables of the tree and above it. -/
theorem Ranked.above_subset : ∀ {n : Node} {path}, Ranked above n → above n.label ⊆ path →
    ∀ u ∈ n.preorder, ∀ x ∈ above u, x ∈ n.preorder ∨ x ∈ path
  | mk v ns, path, h, hpath, u, hu, x, hx => by
      rw [preorder, List.mem_cons] at hu
      rcases hu with rfl | hu
      · exact Or.inr (hpath hx)
      · have hbelow : ∀ n ∈ ns, above n.label ⊆ v :: path := fun n hn =>
          List.Subset.trans (h.1 n hn) (List.cons_subset_cons v hpath)
        rw [preorder, List.mem_cons]
        rcases RankedAll.above_subset h.2 hbelow u hu x hx with hx | hx
        · exact Or.inl (Or.inr hx)
        · rcases List.mem_cons.1 hx with rfl | hx
          · exact Or.inl (Or.inl rfl)
          · exact Or.inr hx

theorem RankedAll.above_subset : ∀ {ns : List Node} {path}, RankedAll above ns →
    (∀ n ∈ ns, above n.label ⊆ path) →
    ∀ u ∈ preorderAll ns, ∀ x ∈ above u, x ∈ preorderAll ns ∨ x ∈ path
  | [], _, _, _, u, hu, _, _ => absurd hu List.not_mem_nil
  | n :: ns, path, h, hpath, u, hu, x, hx => by
      rw [preorderAll, List.mem_append] at hu ⊢
      rcases hu with hu | hu
      · exact (Ranked.above_subset h.1 (hpath n (List.mem_cons_self ..)) u hu x hx).imp_left Or.inl
      · exact (RankedAll.above_subset h.2 (fun n' hn' => hpath n' (List.mem_cons_of_mem _ hn'))
          u hu x hx).imp_left Or.inr

end

/-- Of two variables of a table one depends on the other. -/
def Related (scope : Nat → List Variable) (above : Variable → List Variable) : Prop :=
  ∀ c, ∀ u ∈ scope c, ∀ v ∈ scope c, u = v ∨ u ∈ above v ∨ v ∈ above u

/-- What depends on some variables is among them. -/
def Closed (scope : Nat → List Variable) (above : Variable → List Variable)
    (vs : List Variable) : Prop :=
  ∀ v ∈ vs, ∀ c, ∀ u ∈ scope c, v ∈ above u → u ∈ vs

mutual

theorem Ranked.legal (hrel : Related scope above) : ∀ {n : Node} {path}, Ranked above n →
    above n.label ⊆ path → (n.preorder ++ path).Nodup → Closed scope above n.preorder →
    Legal scope path n
  | mk v ns, path, h, hpath, hnodup, hclosed => by
      rw [preorder, List.cons_append, List.nodup_cons, List.mem_append, not_or] at hnodup
      have hnodup' : (preorderAll ns ++ v :: path).Nodup := by
        rw [List.perm_middle.nodup_iff, List.nodup_cons, List.mem_append, not_or]
        exact hnodup
      refine ⟨fun c hv u hu => ?_, RankedAll.legal hrel h.2 (fun n hn => ?_) hnodup' ?_⟩
      · rcases hrel c u hu v hv with rfl | hu' | hv'
        · exact Or.inl (List.mem_cons_self ..)
        · exact Or.inl (List.mem_cons_of_mem _ (hpath hu'))
        · rcases List.mem_cons.1 (hclosed v (List.mem_cons_self ..) c u hu hv') with rfl | hbelow
          · exact Or.inl (List.mem_cons_self ..)
          · exact Or.inr hbelow
      · exact List.Subset.trans (h.1 n hn) (List.cons_subset_cons v hpath)
      · intro x hx c u hu hxu
        rcases List.mem_cons.1 (hclosed x (List.mem_cons_of_mem _ hx) c u hu hxu) with rfl | hbelow
        · exact absurd rfl ((List.nodup_append.1 hnodup.2).2.2 x hx x (hpath hxu))
        · exact hbelow

theorem RankedAll.legal (hrel : Related scope above) : ∀ {ns : List Node} {path},
    RankedAll above ns → (∀ n ∈ ns, above n.label ⊆ path) → (preorderAll ns ++ path).Nodup →
    Closed scope above (preorderAll ns) → LegalAll scope path ns
  | [], _, _, _, _, _ => trivial
  | n :: ns, path, h, hpath, hnodup, hclosed => by
      rw [preorderAll, List.append_assoc] at hnodup
      obtain ⟨hn, hrest, hdisjoint⟩ := List.nodup_append.1 hnodup
      have hpath' : ∀ n ∈ ns, above n.label ⊆ path :=
        fun n' hn' => hpath n' (List.mem_cons_of_mem _ hn')
      have hlabel := hpath n (List.mem_cons_self ..)
      refine ⟨Ranked.legal hrel h.1 hlabel ?_ ?_, RankedAll.legal hrel h.2 hpath' hrest ?_⟩
      · refine List.nodup_append.2 ⟨hn, (List.nodup_append.1 hrest).2.1, fun u hu p hp => ?_⟩
        exact hdisjoint u hu p (List.mem_append_right _ hp)
      -- a variable of another tree depends on nothing in this one
      · intro x hx c u hu hxu
        have hmem := hclosed x (List.mem_append_left _ hx) c u hu hxu
        rcases List.mem_append.1 hmem with hu' | hu'
        · exact hu'
        · rcases RankedAll.above_subset h.2 hpath' u hu' x hxu with hx' | hx'
          · exact absurd rfl (hdisjoint x hx x (List.mem_append_left _ hx'))
          · exact absurd rfl (hdisjoint x hx x (List.mem_append_right _ hx'))
      · intro x hx c u hu hxu
        have hmem := hclosed x (List.mem_append_right _ hx) c u hu hxu
        rcases List.mem_append.1 hmem with hu' | hu'
        · rcases Ranked.above_subset h.1 hlabel u hu' x hxu with hx' | hx'
          · exact absurd rfl (hdisjoint x hx' x (List.mem_append_left _ hx))
          · exact absurd rfl ((List.nodup_append.1 hrest).2.2 x hx x hx')
        · exact hu'

end

end BayesCircuit.PseudoTree.Node
