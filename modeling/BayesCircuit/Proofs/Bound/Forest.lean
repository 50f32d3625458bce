import BayesCircuit.Proofs.Bound.Frontier
import BayesCircuit.Proofs.Bound.Tally
import BayesCircuit.Proofs.PseudoTree.Build
import BayesCircuit.Proofs.SpanningTree.Layers

/-!
# Growing the forest of an ordering

Walking backwards along an ordering, three things happen side by side: variables are eliminated from
the interaction graph, they are put on top of the trees that are finished below them, and their
costs are added up. Two variables that are left are connected in the graph if a constraint mentions
both or if both are in the frontier of one finished tree (`Growing`). So the neighbours of the next
variable are the frontier of its tree, the trees below it are those whose frontier it is in, and both
ways of growing the forest choose the same ones (`Growing.step`).
-/

namespace BayesCircuit.Bound

open Collection Collection.Ascending PseudoTree Node

variable {b : Bound} {g : InteractionGraph} {u v x : Variable} {vs as : List Variable} {c : Nat}
variable {done : List (Option Variable × Node)} {q r : Option Variable × Node} {n : Node}

/-! ## Finished trees -/

/-- A finished tree as it is counted. -/
def treeOf (b : Bound) (n : Node) : Tree Nat := ⟨b.treeNodeCount n, b.frontier n.preorder⟩

/-- The trees that are finished when the variables `vs` are left, and the graph of these. -/
structure Growing (b : Bound) (vs : List Variable) (done : List (Option Variable × Node))
    (g : InteractionGraph) : Prop where
  parent : ∀ q ∈ done, q.1 = vs.find? (b.frontier q.2.preorder).contains
  fresh : ∀ q ∈ done, ∀ x ∈ q.2.preorder, x ∉ vs
  /-- No constraint mentions variables of two trees. -/
  apart : ∀ q ∈ done, ∀ r ∈ done, ∀ c, b.meets q.2.preorder c = true →
    b.meets r.2.preorder c = true → q = r
  cover : ∀ c, ∀ u ∈ b.scope c, u ∈ vs ∨ ∃ q ∈ done, u ∈ q.2.preorder
  graph : ∀ a ∈ vs, ∀ u, u ∈ g.adjacent a ↔ u ∈ vs ∧ u ≠ a ∧
    ((∃ c, a ∈ b.scope c ∧ u ∈ b.scope c) ∨
      ∃ q ∈ done, a ∈ b.frontier q.2.preorder ∧ u ∈ b.frontier q.2.preorder)

namespace Growing

/-- The frontier of a finished tree is left. -/
theorem frontier_subset (B : b.Regular) (G : Growing b vs done g) (hq : q ∈ done) :
    b.frontier q.2.preorder ⊆ vs := by
  intro u hu
  obtain ⟨hout, c, hmeets, huc⟩ := (mem_frontier B.toIndexed).1 hu
  refine (G.cover c u huc).resolve_right ?_
  rintro ⟨r, hr, hur⟩
  obtain rfl := G.apart q hq r hr c hmeets (meets_iff.2 ⟨u, hur, huc⟩)
  exact hout hur

/-- A constraint that mentions a variable that is left and one of a finished tree puts the former
into the frontier of the latter. -/
theorem mem_frontier_of_meets (B : b.Regular) (G : Growing b vs done g) (hq : q ∈ done)
    (hu : u ∈ vs) (huc : u ∈ b.scope c) (hmeets : b.meets q.2.preorder c = true) :
    u ∈ b.frontier q.2.preorder :=
  (mem_frontier B.toIndexed).2 ⟨fun hmem => G.fresh q hq u hmem hu, c, hmeets, huc⟩

/-- The trees below the next variable. -/
theorem parent_iff (G : Growing b (v :: vs) done g) (hv : v ∉ vs) (hq : q ∈ done) :
    q.1 = some v ↔ v ∈ b.frontier q.2.preorder := by
  rw [G.parent q hq, List.find?_cons]
  split
  · rename_i h
    simpa using h
  · rename_i h
    have hnot : v ∉ b.frontier q.2.preorder := by simpa using h
    refine iff_of_false (fun hfind => hv (List.mem_of_find?_eq_some hfind)) hnot

/-- The trees that a variable is put on top of. -/
def below (done : List (Option Variable × Node)) (v : Variable) : List (Option Variable × Node) :=
  done.filter (·.1 == some v)

/-- The other trees. -/
def others (done : List (Option Variable × Node)) (v : Variable) :
    List (Option Variable × Node) :=
  done.filter (·.1 != some v)

/-- A variable on top of the trees below it. -/
def top (done : List (Option Variable × Node)) (v : Variable) : Node :=
  .mk v ((below done v).map (·.2))

theorem mem_below : q ∈ below done v ↔ q ∈ done ∧ q.1 = some v := by simp [below]

theorem mem_others : q ∈ others done v ↔ q ∈ done ∧ q.1 ≠ some v := by simp [others]

theorem mem_top : u ∈ (top done v).preorder ↔ u = v ∨ ∃ q ∈ below done v, u ∈ q.2.preorder := by
  rw [top, Node.preorder, List.mem_cons, mem_preorderAll]
  simp only [List.mem_map, exists_exists_and_eq_and]

theorem meets_top : b.meets (top done v).preorder c = true ↔
    v ∈ b.scope c ∨ ∃ q ∈ below done v, b.meets q.2.preorder c = true := by
  simp only [meets_iff, mem_top]
  constructor
  · rintro ⟨x, rfl | ⟨q, hq, hx⟩, hxc⟩
    · exact Or.inl hxc
    · exact Or.inr ⟨q, hq, x, hx, hxc⟩
  · rintro (hvc | ⟨q, hq, x, hx, hxc⟩)
    · exact ⟨v, Or.inl rfl, hvc⟩
    · exact ⟨x, Or.inr ⟨q, hq, hx⟩, hxc⟩

/-- The neighbours of the next variable are the frontier of its tree. -/
theorem adjacent_iff (B : b.Regular) (G : Growing b (v :: vs) done g) (hv : v ∉ vs) :
    u ∈ g.adjacent v ↔ u ∈ b.frontier (top done v).preorder := by
  have hleft := List.mem_cons_self (a := v) (l := vs)
  rw [G.graph v hleft, mem_frontier B.toIndexed]
  constructor
  · rintro ⟨hu, huv, h⟩
    have hout : u ∉ (top done v).preorder := by
      rw [mem_top]
      rintro (rfl | ⟨q, hq, hmem⟩)
      · exact huv rfl
      · exact G.fresh q (mem_below.1 hq).1 u hmem hu
    rcases h with ⟨c, hvc, huc⟩ | ⟨q, hq, hvq, huq⟩
    · exact ⟨hout, c, meets_top.2 (Or.inl hvc), huc⟩
    · obtain ⟨_, c, hmeets, huc⟩ := (mem_frontier B.toIndexed).1 huq
      exact ⟨hout, c,
        meets_top.2 (Or.inr ⟨q, mem_below.2 ⟨hq, (G.parent_iff hv hq).2 hvq⟩, hmeets⟩), huc⟩
  · rintro ⟨hout, c, hmeets, huc⟩
    rw [mem_top, not_or] at hout
    obtain ⟨huv, hout⟩ := hout
    rcases meets_top.1 hmeets with hvc | ⟨q, hq, hmeets⟩
    · refine ⟨(G.cover c u huc).resolve_right ?_, huv, Or.inl ⟨c, hvc, huc⟩⟩
      rintro ⟨q, hq, hmem⟩
      have hvq := G.mem_frontier_of_meets B hq hleft hvc (meets_iff.2 ⟨u, hmem, huc⟩)
      exact hout ⟨q, mem_below.2 ⟨hq, (G.parent_iff hv hq).2 hvq⟩, hmem⟩
    · obtain ⟨hdone, hparent⟩ := mem_below.1 hq
      have huq : u ∈ b.frontier q.2.preorder :=
        (mem_frontier B.toIndexed).2 ⟨fun hmem => hout ⟨q, hq, hmem⟩, c, hmeets, huc⟩
      exact ⟨G.frontier_subset B hdone huq, huv,
        Or.inr ⟨q, hdone, (G.parent_iff hv hdone).1 hparent, huq⟩⟩

/-- Trees that are left beside the next variable are apart from its tree. -/
theorem not_meets_top (B : b.Regular) (G : Growing b (v :: vs) done g) (hv : v ∉ vs)
    (hq : q ∈ others done v) (hmeets : b.meets q.2.preorder c = true) :
    ¬ b.meets (top done v).preorder c = true := by
  obtain ⟨hdone, hparent⟩ := mem_others.1 hq
  rw [meets_top]
  rintro (hvc | ⟨r, hr, hmeets'⟩)
  · have hvq := G.mem_frontier_of_meets B hdone (List.mem_cons_self ..) hvc hmeets
    exact hparent ((G.parent_iff hv hdone).2 hvq)
  · obtain ⟨hr, hr'⟩ := mem_below.1 hr
    obtain rfl := G.apart q hdone r hr c hmeets hmeets'
    exact hparent hr'

/-- The next variable is eliminated and put on top of its trees. -/
theorem step (B : b.Regular) (G : Growing b (v :: vs) done g) (hv : v ∉ vs)
    (hspans : g.Spans (v :: vs)) {parent : Option Variable}
    (hparent : parent = vs.find? (g.adjacent v).contains) :
    Growing b vs ((parent, top done v) :: others done v) (g.eliminate v) := by
  have hadj : ∀ u, u ∈ g.adjacent v ↔ u ∈ b.frontier (top done v).preorder := fun u =>
    G.adjacent_iff B hv
  refine ⟨?_, ?_, ?_, ?_, ?_⟩
  · refine List.forall_mem_cons.2 ⟨?_, fun q hq => ?_⟩
    · rw [hparent]
      refine congrArg (vs.find? ·) (funext fun u => ?_)
      rw [Bool.eq_iff_iff]
      simpa using hadj u
    · obtain ⟨hdone, hne⟩ := mem_others.1 hq
      rw [G.parent q hdone, List.find?_cons] at hne ⊢
      split
      · rename_i h
        rw [h] at hne
        exact absurd rfl hne
      · rfl
  · refine List.forall_mem_cons.2 ⟨fun x hx => ?_, fun q hq x hx hmem => ?_⟩
    · rcases mem_top.1 hx with rfl | ⟨q, hq, hx⟩
      · exact hv
      · exact fun hmem => G.fresh q (mem_below.1 hq).1 x hx (List.mem_cons_of_mem _ hmem)
    · exact G.fresh q (mem_others.1 hq).1 x hx (List.mem_cons_of_mem _ hmem)
  · refine List.forall_mem_cons.2 ⟨List.forall_mem_cons.2 ⟨fun _ _ _ => rfl, fun r hr c hc hrc => ?_⟩,
      fun q hq => List.forall_mem_cons.2 ⟨fun c hqc hc => ?_, fun r hr => ?_⟩⟩
    · exact absurd hc (G.not_meets_top B hv hr hrc)
    · exact absurd hc (G.not_meets_top B hv hq hqc)
    · exact G.apart q (mem_others.1 hq).1 r (mem_others.1 hr).1
  · intro c u hu
    rcases G.cover c u hu with hleft | ⟨q, hq, hmem⟩
    · rcases List.mem_cons.1 hleft with rfl | hleft
      · exact Or.inr ⟨_, List.mem_cons_self .., mem_top.2 (Or.inl rfl)⟩
      · exact Or.inl hleft
    · by_cases hqv : q.1 = some v
      · exact Or.inr ⟨_, List.mem_cons_self .., mem_top.2 (Or.inr ⟨q, mem_below.2 ⟨hq, hqv⟩, hmem⟩)⟩
      · exact Or.inr ⟨q, List.mem_cons_of_mem _ (mem_others.2 ⟨hq, hqv⟩), hmem⟩
  -- an edge to a tree below goes to the top now, and its neighbours are connected
  · intro a ha u
    have hav : a ≠ v := fun he => hv (he ▸ ha)
    have hself : a ∈ v :: vs := List.mem_cons_of_mem _ ha
    have hmoved : ∀ q ∈ below done v, ∀ x ∈ b.frontier q.2.preorder, x ≠ v →
        x ∈ b.frontier (top done v).preorder := by
      intro q hq x hx hxv
      obtain ⟨hdone, hqv⟩ := mem_below.1 hq
      rw [← hadj, G.graph v (List.mem_cons_self ..)]
      exact ⟨G.frontier_subset B hdone hx, hxv,
        Or.inr ⟨q, hdone, (G.parent_iff hv hdone).1 hqv, hx⟩⟩
    rw [InteractionGraph.adjacent_eliminate hspans, G.graph a hself, hadj, hadj]
    simp only [List.mem_cons, exists_eq_or_imp]
    constructor
    · rintro ⟨-, huv, ⟨hu, hua, hconstraint | ⟨q, hq, haq, huq⟩⟩ | ⟨ha', hu', hau⟩⟩
      · exact ⟨hu.resolve_left huv, hua, Or.inl hconstraint⟩
      · refine ⟨hu.resolve_left huv, hua, Or.inr ?_⟩
        by_cases hqv : q.1 = some v
        · have hq' := mem_below.2 ⟨hq, hqv⟩
          exact Or.inl ⟨hmoved q hq' a haq hav, hmoved q hq' u huq huv⟩
        · exact Or.inr ⟨q, mem_others.2 ⟨hq, hqv⟩, haq, huq⟩
      · have hleft := ((G.graph v (List.mem_cons_self ..) u).1 ((hadj u).2 hu')).1
        exact ⟨(List.mem_cons.1 hleft).resolve_left huv, Ne.symm hau, Or.inr (Or.inl ⟨ha', hu'⟩)⟩
    · rintro ⟨hu, hua, hconstraint | ⟨ha', hu'⟩ | ⟨q, hq, haq, huq⟩⟩
      · exact ⟨hav, fun he => hv (he ▸ hu), Or.inl ⟨Or.inr hu, hua, Or.inl hconstraint⟩⟩
      · exact ⟨hav, fun he => hv (he ▸ hu), Or.inr ⟨ha', hu', Ne.symm hua⟩⟩
      · exact ⟨hav, fun he => hv (he ▸ hu),
          Or.inl ⟨Or.inr hu, hua, Or.inr ⟨q, (mem_others.1 hq).1, haq, huq⟩⟩⟩

end Growing

/-! ## Adding up costs -/

variable {arith : LevelArithmetic Nat} {fits : Nat → Prop} {forest : List (Tree Nat)}
variable {waiting : Array Bool}

open SpanningTree (Waits waits_set)

/-- The variables of the constraints that still wait are added, and these wait no more. -/
theorem takeConstraints_spec : ∀ (cs : List Nat) {us : List Variable} (waiting : Array Bool),
    Strict us → Strict (b.takeConstraints cs us waiting).1 ∧
      (∀ u, u ∈ (b.takeConstraints cs us waiting).1 ↔
        u ∈ us ∨ ∃ c ∈ cs, Waits waiting c ∧ u ∈ b.scope c) ∧
      ∀ c, Waits (b.takeConstraints cs us waiting).2 c ↔ Waits waiting c ∧ c ∉ cs
  | [], _, waiting, h => by simp [takeConstraints, h]
  | d :: cs, us, waiting, h => by
      rw [takeConstraints]
      split
      · rename_i hd
        obtain ⟨hstrict, hmem, hwaits⟩ := takeConstraints_spec cs
          (waiting.setIfInBounds d false) (show Strict (union us (b.scope d)) from strict_union h)
        refine ⟨hstrict, fun u => ?_, fun c => ?_⟩
        · rw [show b.scopes.getD d [] = b.scope d from rfl, hmem, mem_union]
          simp only [waits_set, List.mem_cons, exists_eq_or_imp]
          constructor
          · rintro ((hu | hu) | ⟨c, hc, ⟨hw, _⟩, hu⟩)
            · exact Or.inl hu
            · exact Or.inr (Or.inl ⟨hd, hu⟩)
            · exact Or.inr (Or.inr ⟨c, hc, hw, hu⟩)
          · rintro (hu | ⟨_, hu⟩ | ⟨c, hc, hw, hu⟩)
            · exact Or.inl (Or.inl hu)
            · exact Or.inl (Or.inr hu)
            · by_cases hcd : c = d
              · exact Or.inl (Or.inr (hcd ▸ hu))
              · exact Or.inr ⟨c, hc, ⟨hw, hcd⟩, hu⟩
        · rw [show b.scopes.getD d [] = b.scope d from rfl, hwaits, waits_set, List.mem_cons, not_or,
            and_assoc]
      · rename_i hd
        obtain ⟨hstrict, hmem, hwaits⟩ := takeConstraints_spec cs waiting h
        have hne : ∀ c, Waits waiting c → c ≠ d := fun c hc he => hd (he ▸ hc)
        refine ⟨hstrict, fun u => ?_, fun c => ?_⟩
        · rw [hmem]
          simp only [List.mem_cons, exists_eq_or_imp]
          exact or_congr_right ⟨fun h => Or.inr h, fun h => h.resolve_left fun h => hd h.1⟩
        · rw [hwaits, List.mem_cons, not_or]
          exact ⟨fun h => ⟨h.1, hne c h.1, h.2⟩, fun h => ⟨h.1, h.2.2⟩⟩

/-- The sum of the costs of trees, if it fits. -/
theorem foldlM_cost (C : arith.Counts fits) : ∀ (ts : List (Tree Nat)) (k : Nat),
    fits (k + (ts.map Tree.cost).sum) →
    ts.foldlM (fun acc t => arith.add? acc t.cost) k = some (k + (ts.map Tree.cost).sum)
  | [], k, _ => rfl
  | t :: ts, k, h => by
      rw [List.map_cons, List.sum_cons, ← Nat.add_assoc] at h ⊢
      rw [List.foldlM_cons, C.add (C.mono (Nat.le_add_right _ _) h)]
      exact foldlM_cost C ts (k + t.cost) h

/-- The constraints that mention no variable of a finished tree wait. -/
def Waiting (b : Bound) (done : List (Option Variable × Node)) (waiting : Array Bool) : Prop :=
  ∀ c, b.scope c ≠ [] →
    (Waits waiting c ↔ ∀ q ∈ done, b.meets q.2.preorder c = false)

namespace Growing

/-- The trees whose spanning variables include the next variable are those below it. -/
theorem partition_forest (G : Growing b (v :: vs) done g) (hv : v ∉ vs)
    (hforest : forest.Perm (done.map fun q => b.treeOf q.2)) :
    (forest.partition (·.spanning.contains v)).1.Perm ((below done v).map fun q => b.treeOf q.2) ∧
      (forest.partition (·.spanning.contains v)).2.Perm
        ((others done v).map fun q => b.treeOf q.2) := by
  have hsame : ∀ q ∈ done, (b.treeOf q.2).spanning.contains v = (q.1 == some v) := by
    intro q hq
    rw [Bool.eq_iff_iff, beq_iff_eq, G.parent_iff hv hq]
    simp [treeOf]
  rw [List.partition_eq_filter_filter]
  constructor
  · refine (hforest.filter _).trans (.of_eq ?_)
    rw [List.filter_map, below]
    exact congrArg _ (List.filter_congr hsame)
  · refine (hforest.filter _).trans (.of_eq ?_)
    rw [List.filter_map, others]
    refine congrArg _ (List.filter_congr fun q hq => ?_)
    simp only [Function.comp, hsame q hq, bne]

/-- The spanning variables that a tree inherits or takes over are its frontier. -/
theorem spanning_eq (B : b.Regular) (G : Growing b (v :: vs) done g) (hv : v ∉ vs)
    (hwaiting : Waiting b done waiting) {ts : List (Tree Nat)}
    (hts : ts.Perm ((below done v).map fun q => b.treeOf q.2)) :
    Ascending.erase v (b.takeConstraints (b.mentioning v)
      (ts.foldl (fun us t => Ascending.union us t.spanning) []) waiting).1 =
      b.frontier (top done v).preorder := by
  have hinherited : Strict (ts.foldl (fun us t => Ascending.union us t.spanning) []) :=
    SpanningTree.strict_foldl_union List.Pairwise.nil
  obtain ⟨hstrict, hmem, _⟩ := takeConstraints_spec (b := b) (b.mentioning v) waiting hinherited
  refine (strict_erase hstrict).eq_of_mem strict_frontier fun u => ?_
  have hts' : (∃ t ∈ ts, u ∈ t.spanning) ↔ ∃ q ∈ below done v, u ∈ b.frontier q.2.preorder := by
    simp only [hts.mem_iff, List.mem_map, exists_exists_and_eq_and]
    exact Iff.rfl
  rw [← G.adjacent_iff B hv, G.graph v (List.mem_cons_self ..), mem_erase, hmem,
    SpanningTree.mem_foldl_union, hts']
  simp only [List.not_mem_nil, false_or, B.mem_mentioning]
  constructor
  · rintro ⟨⟨q, hq, huq⟩ | ⟨c, hvc, hwait, huc⟩, huv⟩
    · obtain ⟨hdone, hqv⟩ := mem_below.1 hq
      exact ⟨G.frontier_subset B hdone huq, huv,
        Or.inr ⟨q, hdone, (G.parent_iff hv hdone).1 hqv, huq⟩⟩
    · refine ⟨(G.cover c u huc).resolve_right ?_, huv, Or.inl ⟨c, hvc, huc⟩⟩
      rintro ⟨q, hq, hmem⟩
      have hnone := (hwaiting c (List.ne_nil_of_mem huc)).1 hwait q hq
      rw [meets_iff.2 ⟨u, hmem, huc⟩] at hnone
      cases hnone
  · rintro ⟨hu, huv, ⟨c, hvc, huc⟩ | ⟨q, hq, hvq, huq⟩⟩
    · refine ⟨?_, huv⟩
      by_cases hwait : Waits waiting c
      · exact Or.inr ⟨c, hvc, hwait, huc⟩
      · rw [hwaiting c (List.ne_nil_of_mem huc)] at hwait
        push Not at hwait
        obtain ⟨q, hq, hmeets⟩ := hwait
        rw [ne_eq, Bool.not_eq_false] at hmeets
        have hvq := G.mem_frontier_of_meets B hq (List.mem_cons_self ..) hvc hmeets
        exact Or.inl ⟨q, mem_below.2 ⟨hq, (G.parent_iff hv hq).2 hvq⟩,
          G.mem_frontier_of_meets B hq hu huc hmeets⟩
    · exact ⟨Or.inl ⟨q, mem_below.2 ⟨hq, (G.parent_iff hv hq).2 hvq⟩, huq⟩, huv⟩

/-- The next variable is put on top of its trees, and the cost of the new tree is found. -/
theorem graft_spec (B : b.Regular) (C : arith.Counts fits) (G : Growing b (v :: vs) done g)
    (hv : v ∉ vs) (hwaiting : Waiting b done waiting)
    (hforest : forest.Perm (done.map fun q => b.treeOf q.2))
    (hfits : fits (b.treeNodeCount (top done v))) (parent : Option Variable) :
    ∃ forest' waiting', graft arith b v waiting forest = some (forest', waiting') ∧
      forest'.Perm (((parent, top done v) :: others done v).map fun q => b.treeOf q.2) ∧
      Waiting b ((parent, top done v) :: others done v) waiting' := by
  obtain ⟨hbelow, hothers⟩ := G.partition_forest hv hforest
  have hspanning := G.spanning_eq B hv hwaiting hbelow
  have hcosts : ((forest.partition (·.spanning.contains v)).1.map Tree.cost).sum =
      b.treeNodeCountAll ((below done v).map (·.2)) := by
    rw [(hbelow.map Tree.cost).sum_eq, treeNodeCountAll_eq, List.map_map, List.map_map]
    rfl
  have hlength : (forest.partition (·.spanning.contains v)).1.length =
      ((below done v).map (·.2)).length := by
    rw [hbelow.length_eq, List.length_map, List.length_map]
  have hwidth : ((b.frontier (top done v).preorder).map b.dim).prod =
      b.widthAt (v :: preorderAll ((below done v).map (·.2))) := by
    rw [top, Node.preorder, widthAt]
  have hpos : ∀ d ∈ (b.frontier (top done v).preorder).map b.dim, 0 < d :=
    List.forall_mem_map.2 fun _ hu => frontier_pos B hu
  rw [top, treeNodeCount, ← hwidth] at hfits
  have hcount : b.treeNodeCount (top done v) = b.treeNodeCountAll ((below done v).map (·.2)) +
      if 1 < ((below done v).map (·.2)).length then
        ((b.frontier (top done v).preorder).map b.dim).prod * b.dim v +
          ((b.frontier (top done v).preorder).map b.dim).prod
      else ((b.frontier (top done v).preorder).map b.dim).prod := by
    rw [top, treeNodeCount, ← hwidth, top]
  generalize hcost : b.treeNodeCountAll ((below done v).map (·.2)) = cost at hfits hcosts hcount
  generalize hw : ((b.frontier (top done v).preorder).map b.dim).prod = width at hfits hcount
  have hcostrun : (forest.partition (·.spanning.contains v)).1.foldlM
      (fun acc t => arith.add? acc t.cost) arith.zero = some cost := by
    have hrun := foldlM_cost C (forest.partition (·.spanning.contains v)).1 0
      (by rw [hcosts, Nat.zero_add]; exact C.mono (Nat.le_add_right _ _) hfits)
    rwa [hcosts, Nat.zero_add, ← C.zero] at hrun
  have hwidthrun : arith.width? ((b.frontier (top done v).preorder).map b.dim) = some width := by
    rw [← hw]
    refine C.width hpos (C.mono ?_ hfits)
    rw [hw]
    split <;> omega
  have hmentioning : b.constraintsOf.getD v [] = b.mentioning v := rfl
  refine ⟨(forest.partition (·.spanning.contains v)).2 ++ [b.treeOf (top done v)],
    (b.takeConstraints (b.mentioning v) ((forest.partition (·.spanning.contains v)).1.foldl
      (fun us t => Ascending.union us t.spanning) []) waiting).2, ?_, ?_, fun c hc => ?_⟩
  · simp only [graft, hmentioning, hspanning, hcostrun, hwidthrun, hlength, treeOf, hcount, bind,
      Option.bind, pure]
    by_cases hmany : 1 < ((below done v).map (·.2)).length
    · rw [if_pos hmany] at hfits
      simp only [if_pos hmany, C.branch (C.mono (Nat.le_add_left _ _) hfits), C.add hfits]
    · rw [if_neg hmany] at hfits
      simp only [if_neg hmany, C.add hfits]
  · refine (hothers.append_right _).trans ?_
    rw [List.map_cons]
    exact List.perm_append_comm
  · have hinherited : Strict ((forest.partition (·.spanning.contains v)).1.foldl
        (fun us t => Ascending.union us t.spanning) []) :=
      SpanningTree.strict_foldl_union List.Pairwise.nil
    have hwaits := (takeConstraints_spec (b := b) (b.mentioning v) waiting hinherited).2.2 c
    rw [hwaits, hwaiting c hc, B.mem_mentioning, List.forall_mem_cons, ← Bool.not_eq_true,
      meets_top]
    constructor
    · rintro ⟨hnone, hvc⟩
      refine ⟨?_, fun q hq => hnone q (mem_others.1 hq).1⟩
      rintro (h | ⟨q, hq, hmeets⟩)
      · exact hvc h
      · rw [hnone q (mem_below.1 hq).1] at hmeets
        cases hmeets
    · rintro ⟨hnone, hothers⟩
      rw [not_or] at hnone
      refine ⟨fun q hq => ?_, hnone.1⟩
      by_cases hqv : q.1 = some v
      · exact Bool.eq_false_iff.2 fun hmeets => hnone.2 ⟨q, mem_below.2 ⟨hq, hqv⟩, hmeets⟩
      · exact hothers q (mem_others.2 ⟨hq, hqv⟩)

end Growing

/-! ## The whole forest -/

variable {parents : List (Variable × Option Variable)} {ordering : List Variable}

theorem perm_below_others (v : Variable) :
    (Growing.below done v ++ Growing.others done v).Perm done :=
  List.filter_append_perm _ done

/-- Putting variables on top of trees does not lower the costs. -/
theorem treeNodeCountAll_collect : ∀ (vs : List Variable) (done : List (Option Variable × Node)),
    b.treeNodeCountAll (done.map (·.2)) ≤
      b.treeNodeCountAll ((collect parents vs done).map (·.2))
  | [], done => le_rfl
  | v :: vs, done => by
      have hrest := treeNodeCountAll_collect vs
        (((parents.lookup v).join, Growing.top done v) :: Growing.others done v)
      have hsplit : b.treeNodeCountAll (done.map (·.2)) =
          b.treeNodeCountAll ((Growing.below done v).map (·.2)) +
            b.treeNodeCountAll ((Growing.others done v).map (·.2)) := by
        simp only [treeNodeCountAll_eq]
        rw [← (((perm_below_others v).map (·.2)).map b.treeNodeCount).sum_eq, List.map_append,
          List.map_append, List.sum_append]
      rw [List.map_cons, treeNodeCountAll, Growing.top, treeNodeCount] at hrest
      rw [hsplit]
      exact Nat.le_trans (by omega) hrest

/-- The trees of an ordering are collected and counted in the same way. -/
theorem graftAll_spec (B : b.Regular) (C : arith.Counts fits) (hnodup : ordering.Nodup) :
    ∀ (as : List Variable) {vs : List Variable} {done : List (Option Variable × Node)}
      {waiting : Array Bool} {forest : List (Tree Nat)}, ordering.reverse = as ++ vs →
      (eliminateAll g as).Spans vs → (eliminateAll g as).Ascends →
      Growing b vs done (eliminateAll g as) → Waiting b done waiting →
      forest.Perm (done.map fun q => b.treeOf q.2) →
      parents = ((eliminated g ordering.reverse).map fun (v, ns) => (v, latest? ordering ns)) →
      fits (b.treeNodeCountAll ((collect parents vs done).map (·.2))) →
      ∃ forest', graftAll arith b vs waiting forest = some forest' ∧
        forest'.Perm ((collect parents vs done).map fun q => b.treeOf q.2) ∧
        (b.frontierSizesAll ((collect parents vs done).map (·.2))).Perm
          ((eliminated (eliminateAll g as) vs).map (·.2.length) ++
            b.frontierSizesAll (done.map (·.2)))
  | as, [], done, waiting, forest, _, _, _, _, _, hforest, _, _ => ⟨forest, rfl, hforest, .refl _⟩
  | as, v :: vs, done, waiting, forest, hsplit, hspans, hascends, G, hwaiting, hforest, hparents,
      hfits => by
      have hnodup' := List.nodup_reverse.2 hnodup
      rw [hsplit] at hnodup'
      obtain ⟨hvas, hv⟩ := nodup_split hnodup'
      have hneighbours : ∀ u ∈ (eliminateAll g as).adjacent v, u ∈ vs := by
        intro u hu
        obtain ⟨_, hu, hne⟩ := hspans.mem hu
        exact (List.mem_cons.1 hu).resolve_left (Ne.symm hne)
      have hparent : (parents.lookup v).join =
          vs.find? ((eliminateAll g as).adjacent v).contains := by
        rw [hparents, ← latest?_eq hsplit hnodup' hneighbours]
        exact parentOf_eliminated hsplit hvas
      have hnext : eliminateAll g (as ++ [v]) = (eliminateAll g as).eliminate v := by
        simp only [eliminateAll, List.foldl_append, List.foldl_cons, List.foldl_nil]
      have hcost : b.treeNodeCount (Growing.top done v) ≤ b.treeNodeCountAll
          ((collect parents (v :: vs) done).map (·.2)) := by
        refine Nat.le_trans (Nat.le_add_right _ _) (treeNodeCountAll_collect vs
          (((parents.lookup v).join, Growing.top done v) :: Growing.others done v))
      obtain ⟨forest₁, waiting₁, hgraft, hforest₁, hwaiting₁⟩ :=
        G.graft_spec B C hv hwaiting hforest (C.mono hcost hfits) (parents.lookup v).join
      have G₁ := G.step B hv hspans hparent
      rw [← hnext] at G₁
      obtain ⟨forest₂, hrun, hforest₂, hsizes⟩ := graftAll_spec B C hnodup (as ++ [v])
        (by rw [hsplit, List.append_assoc]; rfl) (hnext ▸ hspans.eliminate)
        (hnext ▸ hascends.eliminate) G₁ hwaiting₁ hforest₁ hparents hfits
      refine ⟨forest₂, ?_, hforest₂, hsizes.trans ?_⟩
      · rw [graftAll, hgraft]
        exact hrun
      · have hadjacent : ((eliminateAll g as).adjacent v).length =
            (b.frontier (v :: preorderAll ((Growing.below done v).map (·.2)))).length := by
          have hpreorder : (Growing.top done v).preorder =
              v :: preorderAll ((Growing.below done v).map (·.2)) := by
            rw [Growing.top, Node.preorder]
          rw [← hpreorder]
          exact congrArg List.length
            ((hascends v).eq_of_mem strict_frontier fun u => G.adjacent_iff B hv)
        have hdone : (b.frontierSizesAll ((Growing.below done v).map (·.2)) ++
            b.frontierSizesAll ((Growing.others done v).map (·.2))).Perm
              (b.frontierSizesAll (done.map (·.2))) := by
          simp only [frontierSizesAll_eq]
          rw [← List.flatMap_append, ← List.map_append]
          exact ((perm_below_others v).map _).flatMap_right _
        rw [List.map_cons, frontierSizesAll, Growing.top, frontierSizes, eliminated, List.map_cons,
          hadjacent, hnext, List.cons_append, List.cons_append]
        exact List.perm_middle.trans ((hdone.append_left _).cons _)

/-! ## The forest of a partition -/

variable {net : Network} {p : Partition}

/-- No tree is finished when all variables are left. -/
theorem growing_nil (hnet : net.WellFormed) (hp : p.Proper net) (h : ordering.Perm p.scope) :
    Growing (ofPartition net p) ordering.reverse [] (.ofPartition net p) where
  parent := by simp
  fresh := by simp
  apart := by simp
  cover c u hu := by
    refine Or.inl (List.mem_reverse.2 (h.mem_iff.2 (hp.mem_scope.2 ⟨c, (mem_scope hp).1 hu⟩)))
  graph a _ u := by
    have hfamily : ∀ w ∈ p.owned, ∀ x ∈ InteractionGraph.family net w, x < net.size :=
      fun w hw x hx => hnet.family_lt (hp.owned_lt w hw) hx
    rw [InteractionGraph.adjacent_ofPartition hfamily]
    simp only [mem_scope hp, List.not_mem_nil, false_and, exists_false, or_false]
    constructor
    · rintro ⟨hau, w, hw, ha, hu⟩
      exact ⟨List.mem_reverse.2 (h.mem_iff.2 (hp.mem_scope.2 ⟨w, hw, hu⟩)), Ne.symm hau, w,
        ⟨hw, ha⟩, hw, hu⟩
    · rintro ⟨_, hua, w, ⟨hw, ha⟩, _, hu⟩
      exact ⟨Ne.symm hua, w, hw, ha, hu⟩

/-- The bound along the branches counts the nodes of the trees of the ordering, if that fits, and the
width is the size of the largest frontier. -/
theorem treeSum?_partition (hnet : net.WellFormed) (hp : p.Proper net)
    (h : ordering.Perm p.scope) (C : arith.Counts fits)
    (hfits : fits ((ofPartition net p).treeNodeCountAll (rootsFor net p ordering .tree))) :
    (ofPartition net p).treeSum? arith ordering =
        some ((ofPartition net p).treeNodeCountAll (rootsFor net p ordering .tree)) ∧
      widthOf net p ordering =
        ((ofPartition net p).frontierSizesAll (rootsFor net p ordering .tree)).foldl max 0 := by
  have B := regular_ofPartition hnet.linked (fun _ => hnet.dim_pos) hp
  have hwaiting : Waiting (ofPartition net p) [] (ofPartition net p).enabled := fun c hc =>
    iff_of_true (B.enabled c hc) (by simp)
  obtain ⟨forest, hrun, hforest, hsizes⟩ := graftAll_spec (g := .ofPartition net p) B C
    (h.nodup_iff.2 hp.strict_scope.nodup) [] (List.nil_append ordering.reverse).symm
    (spans_ofPartition hnet.linked.closed hp h) InteractionGraph.ascends_ofPartition (growing_nil hnet hp h)
    hwaiting (.refl _) (show parentsFor net p ordering .tree = _ from rfl) hfits
  rw [List.map_nil] at hrun
  constructor
  · have hcosts : (forest.map Tree.cost).sum =
        (ofPartition net p).treeNodeCountAll (rootsFor net p ordering .tree) := by
      rw [(hforest.map Tree.cost).sum_eq, treeNodeCountAll_eq, rootsFor, List.map_map, List.map_map]
      rfl
    have hsum := foldlM_cost C forest 0 (by rwa [hcosts, Nat.zero_add])
    rw [hcosts, Nat.zero_add, ← C.zero] at hsum
    rw [treeSum?, hrun]
    exact hsum
  · rw [List.map_nil, frontierSizesAll, List.append_nil] at hsizes
    exact (hsizes.foldl_eq 0).symm

end BayesCircuit.Bound
