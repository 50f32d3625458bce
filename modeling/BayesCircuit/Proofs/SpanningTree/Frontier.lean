import BayesCircuit.Proofs.Bound.Frontier
import BayesCircuit.Proofs.SpanningTree.Partition

/-!
# What the layers of a tree hold

In a legal tree, the spanning variables of a layer are the frontier of the variables of its subtree,
and its messages are the tables that end with its variable; the layers below it take their contexts
from it (`shows_layersOf`). So the layers hold as many contexts and nodes as the tree needs
(`Shows.nodes`), and those of a chain cost what its variables cost below each other
(`ShowsAll.cost`).
-/

namespace BayesCircuit.SpanningTree

open Collection.Ascending PseudoTree Node

variable {s : Source} {b : Bound} {u v : Variable} {vs path above : List Variable} {c index : Nat}
variable {n : Node} {ns : List Node} {l : Layer} {ls : List Layer} {below : List (List Layer)}
variable {waiting waiting' : Array Bool}

/-- A layer over trees with the variables `vs`. -/
structure Holds (s : Source) (v : Variable) (vs : List Variable) (l : Layer) : Prop where
  label : l.label = v
  dim : l.dim = s.bound.dim v
  spanning : l.spanning = s.bound.frontier (v :: vs)
  contexts : l.contexts = s.bound.widthAt (v :: vs)
  owners : (l.messages.map Message.owner).Perm (s.bound.ending v vs)
  message : ∀ m ∈ l.messages, messageAt s.encoding v l.spanning m.owner = .ok m

mutual

/-- The layers of a tree, numbered from `index` on, hold what its variables need. -/
inductive Shows (s : Source) : Nat → Node → List Layer → Prop
  | mk {index : Nat} {v : Variable} {ns : List Node} {l : Layer} {below : List (List Layer)}
      (holds : Holds s v (preorderAll ns) l) (number : l.index = index)
      (children : l.children = s.childrenOf index below)
      (branches : l.branches = decide (1 < ns.length))
      (rest : ShowsAll s v l.spanning (index + 1) ns below) :
      Shows s index (.mk v ns) (l :: below.flatten)

/-- The layers of the trees below the layer of `v`, numbered from `index` on. -/
inductive ShowsAll (s : Source) :
    Variable → List Variable → Nat → List Node → List (List Layer) → Prop
  | nil {v : Variable} {above : List Variable} {index : Nat} : ShowsAll s v above index [] []
  | cons {v : Variable} {above : List Variable} {index : Nat} {n : Node} {ns : List Node}
      {l : Layer} {ls : List Layer} {below : List (List Layer)} (first : Shows s index n (l :: ls))
      (address : l.address = addressBelow s.bound v above l.spanning)
      (above_of : l.spanning ⊆ v :: above)
      (rest : ShowsAll s v above (index + (l :: ls).length) ns below) :
      ShowsAll s v above index (n :: ns) ((l :: ls) :: below)

end

theorem Shows.spanningOf (h : Shows s index n ls) : spanningOf ls = s.bound.frontier n.preorder := by
  cases h with
  | mk H _ _ _ _ => exact H.spanning

theorem ShowsAll.spanningOf : ∀ {ns v above index below}, ShowsAll s v above index ns below →
    ((∃ ls ∈ below, u ∈ spanningOf ls) ↔ ∃ n ∈ ns, u ∈ s.bound.frontier n.preorder)
  | [], _, _, _, _, .nil =>
      iff_of_false (fun ⟨_, hls, _⟩ => absurd hls List.not_mem_nil)
        fun ⟨_, hn, _⟩ => absurd hn List.not_mem_nil
  | n :: ns, _, _, _, _, .cons hfirst _ _ hrest => by
      rw [List.exists_mem_cons_iff, List.exists_mem_cons_iff, hrest.spanningOf, hfirst.spanningOf]

theorem ShowsAll.length_eq : ∀ {ns v above index below}, ShowsAll s v above index ns below →
    below.length = ns.length
  | [], _, _, _, _, .nil => rfl
  | _ :: _, _, _, _, _, .cons _ _ _ hrest => congrArg (· + 1) hrest.length_eq

/-- The address of its first layer does not matter to a tree. -/
theorem Shows.readdress {a : Address} (h : Shows s index n (l :: ls)) :
    Shows s index n ({ l with address := a } :: ls) := by
  cases h with
  | mk H hnumber hchildren hbranches hrest =>
      exact .mk ⟨H.label, H.dim, H.spanning, H.contexts, H.owners, H.message⟩ hnumber hchildren
        hbranches hrest

theorem spanningOf_connect : spanningOf (connect b v above ls) = spanningOf ls := by
  cases ls with
  | nil => rfl
  | cons l ls => rfl

theorem mem_spanningOf_connect : (∃ ls ∈ below.map (connect s.bound v above), u ∈ spanningOf ls) ↔
    ∃ ls ∈ below, u ∈ spanningOf ls := by
  simp [spanningOf_connect]

/-- The tables of a layer, and what it knows of each. -/
theorem owners_of_mapM {e : Encoding} {spanning : List Variable} {cs : List Nat} {ms : List Message}
    (h : cs.mapM (messageAt e v spanning) = .ok ms) :
    ms.map Message.owner = cs ∧ ∀ m ∈ ms, messageAt e v spanning m.owner = .ok m := by
  have howner : ∀ {c m}, messageAt e v spanning c = .ok m → m.owner = c := by
    intro c m hm
    obtain ⟨f, -, hm⟩ := Outcome.bind_eq_ok_iff.1 hm
    cases hm
    rfl
  have hall := Outcome.mapM_eq_ok_iff.1 h
  clear h
  induction hall with
  | nil => exact ⟨rfl, fun m hm => absurd hm List.not_mem_nil⟩
  | cons hm _ ih =>
      obtain ⟨howners, hmessages⟩ := ih
      rw [List.map_cons, howner hm, howners]
      exact ⟨rfl, List.forall_mem_cons.2 ⟨by rw [howner hm, hm], hmessages⟩⟩

/-! ## Legal trees -/

mutual

/-- A table that mentions a variable of a legal tree mentions besides the tree only variables
above it. -/
theorem Legal.scope_subset : ∀ {n : Node} {path}, Legal s.scope path n →
    s.bound.meets n.preorder c = true → ∀ u ∈ s.scope c, u ∈ path ∨ u ∈ n.preorder
  | .mk v ns, path, h, hmeets, u, hu => by
      rw [Bound.meets_iff, Node.preorder] at hmeets
      rw [Node.preorder, List.mem_cons]
      obtain ⟨x, hx, hxc⟩ := hmeets
      rcases List.mem_cons.1 hx with rfl | hx
      · rcases h.1 c hxc u hu with hu | hu
        · rcases List.mem_cons.1 hu with rfl | hu
          · exact Or.inr (Or.inl rfl)
          · exact Or.inl hu
        · exact Or.inr (Or.inr hu)
      · obtain ⟨n, hn, hx⟩ := mem_preorderAll.1 hx
        rcases LegalAll.scope_subset h.2 n hn (Bound.meets_iff.2 ⟨x, hx, hxc⟩) u hu with hu | hu
        · rcases List.mem_cons.1 hu with rfl | hu
          · exact Or.inr (Or.inl rfl)
          · exact Or.inl hu
        · exact Or.inr (Or.inr (mem_preorderAll.2 ⟨n, hn, hu⟩))

theorem LegalAll.scope_subset : ∀ {ns : List Node} {path}, LegalAll s.scope path ns →
    ∀ n ∈ ns, s.bound.meets n.preorder c = true → ∀ u ∈ s.scope c, u ∈ path ∨ u ∈ n.preorder
  | [], _, _, n, hn, _, _, _ => absurd hn List.not_mem_nil
  | n' :: ns, path, h, n, hn, hmeets, u, hu => by
      rcases List.mem_cons.1 hn with he | hn
      · rw [he] at hmeets ⊢
        exact Legal.scope_subset h.1 hmeets u hu
      · exact LegalAll.scope_subset h.2 n hn hmeets u hu

end

theorem meets_preorderAll : b.meets (preorderAll ns) c = true ↔
    ∃ n ∈ ns, b.meets n.preorder c = true := by
  simp only [Bound.meets_iff, mem_preorderAll]
  constructor
  · rintro ⟨x, ⟨n, hn, hx⟩, hc⟩
    exact ⟨n, hn, x, hx, hc⟩
  · rintro ⟨n, hn, x, hx, hc⟩
    exact ⟨x, ⟨n, hn, hx⟩, hc⟩

/-- The spanning variables of a layer over trees are the frontier of all their variables. -/
theorem spanningOver_eq (B : s.bound.Regular) {cs : List Nat}
    (hlegal : LegalAll s.scope (v :: path) ns) (hnodup : (preorderAll ns ++ v :: path).Nodup)
    (hbelow : ∀ u, (∃ ls ∈ below, u ∈ spanningOf ls) ↔ ∃ n ∈ ns, u ∈ s.bound.frontier n.preorder)
    (hcs : ∀ c, c ∈ cs ↔ v ∈ s.scope c ∧ s.bound.meets (preorderAll ns) c = false) :
    spanningOver s v cs below = s.bound.frontier (v :: preorderAll ns) := by
  refine Bound.eq_frontier B.toIndexed strict_spanningOver fun u => ?_
  have hscope : ∀ c, s.scope c = s.bound.scope c := fun _ => rfl
  rw [mem_spanningOver, hbelow, List.mem_cons, not_or, and_assoc]
  refine and_congr_right fun huv => ?_
  constructor
  · rintro (⟨n, hn, hu⟩ | ⟨c, hc, hu⟩)
    · obtain ⟨hun, c, hmeets, huc⟩ := (Bound.mem_frontier B.toIndexed).1 hu
      have habove := (LegalAll.scope_subset hlegal n hn hmeets u huc).resolve_right hun
      have hall := meets_preorderAll.2 ⟨n, hn, hmeets⟩
      refine ⟨fun hmem => (List.nodup_append.1 hnodup).2.2 u hmem u habove rfl, c, ?_, huc⟩
      obtain ⟨x, hx, hxc⟩ := Bound.meets_iff.1 hall
      exact Bound.meets_iff.2 ⟨x, List.mem_cons_of_mem _ hx, hxc⟩
    · obtain ⟨hvc, hnone⟩ := (hcs c).1 hc
      refine ⟨fun hmem => ?_, c, Bound.meets_iff.2 ⟨v, List.mem_cons_self .., hvc⟩, hu⟩
      rw [← Bool.not_eq_true, Bound.meets_iff] at hnone
      exact hnone ⟨u, hmem, hu⟩
  · rintro ⟨hu, c, hmeets, huc⟩
    by_cases hall : s.bound.meets (preorderAll ns) c = true
    · obtain ⟨n, hn, hmeets⟩ := meets_preorderAll.1 hall
      refine Or.inl ⟨n, hn, (Bound.mem_frontier B.toIndexed).2 ⟨fun hmem => ?_, c, hmeets, huc⟩⟩
      exact hu (mem_preorderAll.2 ⟨n, hn, hmem⟩)
    · obtain ⟨x, hx, hxc⟩ := Bound.meets_iff.1 hmeets
      rcases List.mem_cons.1 hx with rfl | hx
      · exact Or.inr ⟨c, (hcs c).2 ⟨hxc, Bool.eq_false_iff.2 hall⟩, huc⟩
      · exact absurd (Bound.meets_iff.2 ⟨x, hx, hxc⟩) hall

theorem Taken.waits_iff {cs : List Nat} (T : Taken s waiting vs cs waiting') :
    Waits waiting' c ↔ Waits waiting c ∧ s.bound.meets vs c = false := by
  rw [T.waits, T.mem_iff, ← Bool.not_eq_true, Bound.meets_iff]
  exact and_congr_right fun hc => ⟨fun h hm => h ⟨hc, hm⟩, fun h hm => h hm.2⟩

mutual

/-- The layers of a legal tree, all tables of which still wait. -/
theorem shows_layersOf (S : s.Sound) (B : s.bound.Regular) :
    ∀ {n : Node} {index waiting waiting' ls path}, Legal s.scope path n → joiner ∉ n.preorder →
    (n.preorder ++ path).Nodup → (∀ c, s.bound.meets n.preorder c = true → Waits waiting c) →
    layersOf s index waiting n = .ok (ls, waiting') → Shows s index n ls
  | .mk v ns, index, waiting, waiting', ls, path, hlegal, hjoiner, hnodup, hwaits, hrun => by
      rw [Node.preorder, List.mem_cons, not_or] at hjoiner
      rw [layersOf] at hrun
      obtain ⟨⟨below, waiting₁⟩, hbelow, hrun⟩ := Outcome.bind_eq_ok_iff.1 hrun
      have hnodup' : (preorderAll ns ++ v :: path).Nodup := by
        rw [Node.preorder, List.cons_append] at hnodup
        exact List.perm_middle.nodup_iff.2 hnodup
      have hwaits' : ∀ c, s.bound.meets (preorderAll ns) c = true → Waits waiting c := by
        intro c hc
        obtain ⟨x, hx, hxc⟩ := Bound.meets_iff.1 hc
        exact hwaits c (Bound.meets_iff.2 ⟨x, List.mem_cons_of_mem _ hx, hxc⟩)
      obtain ⟨ws, L⟩ := layersOfAll_spec S hlegal.2 hjoiner.2 hbelow
      have hshows := shows_layersOfAll S B hlegal.2 hjoiner.2 hnodup' hwaits' hbelow
      obtain ⟨l, rfl, O, _⟩ := layersOver_ok hrun
      have hbelow' := hshows v l.spanning O.inherits
      have T : Taken s waiting₁ [v] _ _ := Taken.completed S (Ne.symm hjoiner.1)
      have hcs : ∀ c, c ∈ (completed s.bound v waiting₁).1 ↔
          v ∈ s.scope c ∧ s.bound.meets (preorderAll ns) c = false := by
        intro c
        rw [T.mem_iff, L.taken.waits_iff]
        constructor
        · rintro ⟨⟨_, hnone⟩, x, hx, hxc⟩
          obtain rfl := List.mem_singleton.1 hx
          exact ⟨hxc, hnone⟩
        · rintro ⟨hvc, hnone⟩
          have hmeets : s.bound.meets (v :: preorderAll ns) c = true :=
            Bound.meets_iff.2 ⟨v, List.mem_cons_self .., hvc⟩
          exact ⟨⟨hwaits c hmeets, hnone⟩, v, List.mem_singleton_self v, hvc⟩
      have hspanning : l.spanning = s.bound.frontier (v :: preorderAll ns) :=
        O.spanning.trans (spanningOver_eq B hlegal.2 hnodup'
          (fun _ => mem_spanningOf_connect.symm.trans hbelow'.spanningOf) hcs)
      obtain ⟨howners, hmessages⟩ := owners_of_mapM O.messages
      refine .mk ⟨O.label, O.dim, hspanning, ?_, ?_, hmessages⟩ O.number
        (O.children.trans childrenOf_connect.symm) ?_ hbelow'
      · rw [contextCount_eq (Ne.symm hjoiner.1) O.contexts, hspanning, Bound.widthAt]
      · rw [howners]
        exact (List.perm_ext_iff_of_nodup T.nodup (Bound.nodup_ending B.toIndexed)).2 fun c =>
          (hcs c).trans (Bound.mem_ending B.toIndexed).symm
      · rw [Layer.branches, O.children, Source.childrenOf, ← hbelow'.length_eq, List.length_map]
        cases below with
        | nil => rfl
        | cons ls below => simp [length_firstIndices]

theorem shows_layersOfAll (S : s.Sound) (B : s.bound.Regular) :
    ∀ {ns : List Node} {index waiting waiting' below path}, LegalAll s.scope path ns →
    joiner ∉ preorderAll ns → (preorderAll ns ++ path).Nodup →
    (∀ c, s.bound.meets (preorderAll ns) c = true → Waits waiting c) →
    layersOfAll s index waiting ns = .ok (below, waiting') →
    ∀ v above, (∀ ls ∈ below, spanningOf ls ⊆ v :: above) →
      ShowsAll s v above index ns (below.map (connect s.bound v above))
  | [], _, _, _, _, _, _, _, _, _, hrun, _, _, _ => by
      cases hrun
      exact .nil
  | n :: ns, index, waiting, waiting', below, path, hlegal, hjoiner, hnodup, hwaits, hrun, v,
      above, habove => by
      rw [preorderAll, List.mem_append, not_or] at hjoiner
      rw [preorderAll, List.append_assoc] at hnodup
      obtain ⟨hnodup₁, hnodup₂, hdisjoint⟩ := List.nodup_append.1 hnodup
      rw [layersOfAll] at hrun
      obtain ⟨⟨ls, waiting₁⟩, hfirst, hrun⟩ := Outcome.bind_eq_ok_iff.1 hrun
      obtain ⟨⟨rest, waiting₂⟩, hrest, hrun⟩ := Outcome.bind_eq_ok_iff.1 hrun
      cases hrun
      have hnodup' : (n.preorder ++ path).Nodup := by
        refine List.nodup_append.2 ⟨hnodup₁, (List.nodup_append.1 hnodup₂).2.1, fun u hu x hx => ?_⟩
        exact hdisjoint u hu x (List.mem_append_right _ hx)
      obtain ⟨w, L⟩ := layersOf_spec S hlegal.1 hjoiner.1 hfirst
      have hshows := shows_layersOf S B hlegal.1 hjoiner.1 hnodup'
        (fun c hc => hwaits c (meets_preorderAll.2 ⟨n, List.mem_cons_self .., hc⟩)) hfirst
      have hwaits' : ∀ c, s.bound.meets (preorderAll ns) c = true → Waits waiting₁ c := by
        -- no table mentions variables of two trees beside each other
        intro c hc
        obtain ⟨n', hn', hmeets⟩ := meets_preorderAll.1 hc
        refine L.taken.waits_iff.2
          ⟨hwaits c (meets_preorderAll.2 ⟨n', List.mem_cons_of_mem _ hn', hmeets⟩), ?_⟩
        rw [← Bool.not_eq_true, Bound.meets_iff]
        rintro ⟨x, hx, hxc⟩
        rcases LegalAll.scope_subset hlegal.2 n' hn' hmeets x hxc with hpath | hother
        · exact hdisjoint x hx x (List.mem_append_right _ hpath) rfl
        · exact hdisjoint x hx x
            (List.mem_append_left _ (mem_preorderAll.2 ⟨n', hn', hother⟩)) rfl
      have hrest' := shows_layersOfAll S B hlegal.2 hjoiner.2 hnodup₂ hwaits' hrest v above
        fun ls' hls' => habove ls' (List.mem_cons_of_mem _ hls')
      have hspanning := habove ls (List.mem_cons_self ..)
      cases ls with
      | nil => cases hshows
      | cons l ls => exact .cons hshows.readdress rfl hspanning hrest'

end

/-! ## Totals -/

theorem Holds.messages (h : Holds s v vs l) :
    l.messages.length = (s.bound.ending v vs).length := by
  rw [← h.owners.length_eq, List.length_map]

theorem Holds.nodes (h : Holds s v vs l) : l.nodes =
    if l.branches then s.bound.widthAt (v :: vs) * s.bound.dim v + s.bound.widthAt (v :: vs)
    else s.bound.widthAt (v :: vs) := by
  rw [Layer.nodes, Layer.orNodes, Layer.andNodes, h.contexts, h.dim]
  split
  · exact Nat.add_comm _ _
  · rfl

mutual

/-- The layers of a tree have room for the nodes that it needs. -/
theorem Shows.nodes : ∀ {n index ls}, Shows s index n ls →
    (ls.map Layer.nodes).sum = s.bound.treeNodeCount n
  | .mk v ns, _, _, .mk H _ _ hbranches hrest => by
      rw [List.map_cons, List.sum_cons, ShowsAll.nodes hrest, H.nodes, hbranches, Bound.treeNodeCount,
        Nat.add_comm]
      simp only [decide_eq_true_eq]

theorem ShowsAll.nodes : ∀ {ns v above index below}, ShowsAll s v above index ns below →
    (below.flatten.map Layer.nodes).sum = s.bound.treeNodeCountAll ns
  | [], _, _, _, _, .nil => rfl
  | n :: ns, _, _, _, _, .cons hfirst _ _ hrest => by
      rw [List.flatten_cons, List.map_append, List.sum_append, Shows.nodes hfirst,
        ShowsAll.nodes hrest, Bound.treeNodeCountAll]

end

mutual

/-- The spanning variables of the layers of a tree are its frontiers. -/
theorem Shows.spanningSizes : ∀ {n index ls}, Shows s index n ls →
    ls.map (·.spanning.length) = s.bound.frontierSizes n
  | .mk v ns, _, _, .mk H _ _ _ hrest => by
      rw [List.map_cons, H.spanning, ShowsAll.spanningSizes hrest, Bound.frontierSizes]

theorem ShowsAll.spanningSizes : ∀ {ns v above index below}, ShowsAll s v above index ns below →
    below.flatten.map (·.spanning.length) = s.bound.frontierSizesAll ns
  | [], _, _, _, _, .nil => rfl
  | n :: ns, _, _, _, _, .cons hfirst _ _ hrest => by
      rw [List.flatten_cons, List.map_append, Shows.spanningSizes hfirst,
        ShowsAll.spanningSizes hrest, Bound.frontierSizesAll]

end

/-- What a layer costs. -/
def layerCost (measure : Measure) (l : Layer) : Nat :=
  Bound.cost measure l.contexts l.dim l.messages.length

/-- The layers of variables below each other cost what these do. -/
theorem ShowsAll.cost (measure : Measure) : ∀ {vs v above index below},
    ShowsAll s v above index (PseudoTree.path vs) below →
    (below.flatten.map (layerCost measure)).sum = s.bound.pathCost measure vs ∧
      ∀ l ∈ below.flatten, l.branches = false
  | [], _, _, _, _, .nil => by simp [Bound.pathCost]
  | v :: vs, _, _, _, _, h => by
      rw [PseudoTree.path] at h
      cases h with
      | cons hfirst _ _ hrest =>
          cases hrest
          cases hfirst with
          | mk H _ _ hbranches hbelow =>
              obtain ⟨hcost, hplain⟩ := ShowsAll.cost measure hbelow
              rw [preorderAll_path] at H
              have hone : (PseudoTree.path vs).length ≤ 1 := by
                cases vs <;> simp [PseudoTree.path]
              rw [List.flatten_cons, List.flatten_nil, List.append_nil]
              refine ⟨?_, List.forall_mem_cons.2 ⟨?_, hplain⟩⟩
              · rw [List.map_cons, List.sum_cons, hcost, layerCost, H.contexts, H.dim, H.messages,
                  Bound.pathCost]
              · rw [hbranches]
                simpa using hone

/-! ## The layers of a partition -/

variable {net : Network} {p : Partition} {ordering : List Variable} {shape : Shape}
variable {t : PseudoTree} {e : Encoding} {st : SpanningTree}

/-- The layer of the joining root. -/
structure Joins (s : Source) (below : List (List Layer)) (l : Layer) : Prop where
  label : l.label = joiner
  contexts : l.contexts = 0
  spanning : l.spanning = []
  messages : l.messages = []
  children : l.children = s.childrenOf 0 below

/-- The layers of a chain or a tree of a partition, below the one of the joining root. -/
theorem shows_ofPseudoTree (hnet : net.Valued) (hp : p.Proper net)
    (ht : PseudoTree.build net p ordering shape = .ok t)
    (hst : ofPseudoTree (.ofPartition net p) t e = .ok st) :
    ∃ top below, st.layers.toList =
        top :: (below.flatten ++ [terminalLayer t.root.preorder.length]) ∧
      Joins (sourceOf net p e t) below top ∧
      ShowsAll (sourceOf net p e t) joiner top.spanning 1 (rootsFor net p ordering shape) below ∧
      st.totals = .ofLayers (top :: below.flatten) := by
  obtain ⟨hordering, rfl⟩ := (build_ok_iff hp).1 ht
  obtain ⟨hlegal, hjoiner, hperm⟩ := build_spec hnet hp hordering shape
  have S := sound_sourceOf (e := e) (t := ofRoot (.mk joiner (rootsFor net p ordering shape))
    ordering (widthOf net p ordering)) hnet hp
  have B := Bound.regular_ofPartition hnet.linked (fun _ => hnet.dim_pos) hp
  obtain ⟨_, _, hst⟩ := Outcome.bind_eq_ok_iff.1 hst
  obtain ⟨⟨ls, waiting⟩, hrun, hst⟩ := Outcome.bind_eq_ok_iff.1 hst
  cases hst
  have hroot : (ofRoot (.mk joiner (rootsFor net p ordering shape)) ordering
    (widthOf net p ordering)).root = .mk joiner (rootsFor net p ordering shape) := rfl
  rw [hroot, layersOf, Nat.zero_add] at hrun
  obtain ⟨⟨below, waiting₁⟩, hbelow, hrun⟩ := Outcome.bind_eq_ok_iff.1 hrun
  have hnodup : (preorderAll (rootsFor net p ordering shape) ++ [joiner]).Nodup := by
    have hscope := (hperm.trans hordering).nodup_iff.2 hp.strict_scope.nodup
    refine List.nodup_append.2 ⟨hscope, List.nodup_singleton _, fun a ha b hb he => ?_⟩
    obtain rfl := List.mem_singleton.1 hb
    exact hjoiner (he ▸ ha)
  have hwaits : ∀ c, (Bound.ofPartition net p).meets (preorderAll (rootsFor net p ordering shape)) c
      = true → Waits (Bound.ofPartition net p).enabled c := by
    intro c hc
    obtain ⟨x, _, hxc⟩ := Bound.meets_iff.1 hc
    exact B.enabled c (List.ne_nil_of_mem hxc)
  have hshows := shows_layersOfAll S B hlegal hjoiner hnodup hwaits hbelow
  obtain ⟨ws, L⟩ := layersOfAll_spec S hlegal hjoiner hbelow
  obtain ⟨l, rfl, O, _⟩ := layersOver_ok hrun
  have hnone : ∀ waiting, (completed (Bound.ofPartition net p) joiner waiting).1 = [] := by
    intro waiting
    rw [completed, if_pos (beq_self_eq_true joiner)]
  have hcontexts : l.contexts = 0 := by
    have hcount := O.contexts
    rw [contextCount, if_pos (beq_self_eq_true joiner)] at hcount
    exact (Except.ok.inj hcount).symm
  have hspanning : l.spanning = [] := by
    refine List.eq_nil_iff_forall_not_mem.2 fun u hu => ?_
    rw [O.spanning, mem_spanningOver] at hu
    obtain ⟨hne, ⟨ls, hls, hu⟩ | ⟨c, hc, _⟩⟩ := hu
    · exact hne (List.mem_singleton.1 (L.above ls hls hu))
    · rw [hnone] at hc
      exact List.not_mem_nil hc
  have hmessages : l.messages = [] := by
    have howners := (owners_of_mapM O.messages).1
    rw [hnone] at howners
    exact List.map_eq_nil_iff.1 howners
  have htop : { l with contexts := 0 } = l := by rw [← hcontexts]
  refine ⟨l, _, ?_, ⟨O.label, hcontexts, hspanning, hmessages,
    O.children.trans childrenOf_connect.symm⟩, hshows joiner l.spanning O.inherits, rfl⟩
  simp [Array.modify, Array.modifyM, htop]

end BayesCircuit.SpanningTree
