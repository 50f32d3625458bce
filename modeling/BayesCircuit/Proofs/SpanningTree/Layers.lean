import BayesCircuit.Proofs.PseudoTree.Legal
import BayesCircuit.Proofs.SpanningTree.Arrangement

/-!
# The layers of a legal pseudo-tree

`layersOf` lays out a tree whose places for the tables fit: every table is completed at the lowest
of its variables, where all its other variables lie above (`layersOf_spec`). A table stops waiting
when its layer takes it, so none is taken twice.
-/

namespace BayesCircuit.SpanningTree

open Arrangement Collection Collection.Ascending PseudoTree

/-- Whether a table waits for its layer. -/
def Waits (waiting : Array Bool) (c : Nat) : Prop := waiting.getD c false = true

variable {s : Source} {waiting waiting' : Array Bool} {cs taken : List Nat} {c d index : Nat}
variable {u v : Variable} {l : Layer} {ls : List Layer} {below : List (List Layer)}
variable {above path spanning : List Variable} {w : Arrangement} {ws : List Arrangement}
variable {contexts : Nat} {init : List Nat}

/-! ## Tables that wait -/

theorem waits_set : Waits (waiting.setIfInBounds c false) d ↔ Waits waiting d ∧ d ≠ c := by
  unfold Waits
  rw [Array.getD_eq_getD_getElem?, Array.getElem?_setIfInBounds, Array.getD_eq_getD_getElem?]
  split
  · rename_i he
    subst he
    split
    · simp
    · rename_i hlt
      simp [Array.getElem?_eq_none (Nat.le_of_not_lt hlt)]
  · rename_i hne
    simp [Ne.symm hne]

/-- What is taken has been waiting, and does not wait any more. -/
theorem collect_spec : ∀ (cs waiting), (collect cs waiting).1.Nodup ∧
    (∀ c, c ∈ (collect cs waiting).1 ↔ c ∈ cs ∧ Waits waiting c) ∧
    ∀ c, Waits (collect cs waiting).2 c ↔ Waits waiting c ∧ c ∉ cs
  | [], waiting => by simp [collect]
  | c :: cs, waiting => by
      unfold collect
      split
      · rename_i hc
        obtain ⟨hnodup, htaken, hwaits⟩ :=
          collect_spec cs (waiting.setIfInBounds c false)
        refine ⟨List.nodup_cons.2 ⟨fun h => ?_, hnodup⟩, fun d => ?_, fun d => ?_⟩
        · have := ((htaken c).1 h).2
          exact (waits_set.1 this).2 rfl
        · rw [List.mem_cons, List.mem_cons, htaken, waits_set]
          by_cases hd : d = c
          · subst hd
            simp only [true_or, true_and, true_iff]
            exact hc
          · simp [hd]
        · rw [hwaits, waits_set, List.mem_cons, not_or, and_assoc]
      · rename_i hc
        obtain ⟨hnodup, htaken, hwaits⟩ := collect_spec cs waiting
        have hne : ∀ d, Waits waiting d → d ≠ c := fun d hd he => hc (he ▸ hd)
        refine ⟨hnodup, fun d => ?_, fun d => ?_⟩
        · rw [htaken, List.mem_cons]
          constructor
          · exact fun h => ⟨Or.inr h.1, h.2⟩
          · exact fun h => ⟨h.1.resolve_left (hne d h.2), h.2⟩
        · rw [hwaits, List.mem_cons, not_or]
          constructor
          · exact fun h => ⟨h.1, hne d h.1, h.2⟩
          · exact fun h => ⟨h.1, h.2.2⟩

/-! ## One layer -/

/-- The constraints of a source are found by their variables, each of which has values. -/
structure Source.Sound (s : Source) : Prop where
  constraints : ∀ v c, c ∈ s.bound.constraintsOf.getD v [] ↔ v ∈ s.scope c
  pos : ∀ c, ∀ u ∈ s.scope c, 0 < s.bound.dim u

theorem contextCount_eq (hv : v ≠ joiner) (h : contextCount s.bound v spanning = .ok contexts) :
    contexts = (spanning.map s.bound.dim).prod := by
  have hfold : ∀ (ns : List Nat) (k n : Nat), ns.foldlM Tally.word.mul? k = some n →
      n = k * ns.prod := by
    intro ns
    induction ns with
    | nil =>
        intro k n hn
        rw [List.prod_nil, Nat.mul_one]
        exact (Option.some.inj hn).symm
    | cons m ns ih =>
        intro k n hn
        rw [List.foldlM_cons] at hn
        obtain ⟨k', hk', hn⟩ := Option.bind_eq_some_iff.1 hn
        have hk' : k * m = k' := by
          unfold Tally.word Tally.word? at hk'
          simp only [] at hk'
          split at hk'
          · exact Option.some.inj hk'
          · cases hk'
        rw [ih k' n hn, List.prod_cons, ← hk', Nat.mul_assoc]
  have hne : (v == joiner) = false := by simpa using hv
  unfold contextCount at h
  rw [hne] at h
  simp only [Bool.false_eq_true, if_false] at h
  split at h
  · rename_i n hn
    split at h
    · rw [← Except.ok.inj h, hfold _ _ _ hn, Nat.one_mul]
    · cases h
  · cases h

theorem mem_foldl_union {β : Type} {f : β → List Nat} {xs : List β} :
    u ∈ xs.foldl (fun us x => union us (f x)) init ↔ u ∈ init ∨ ∃ x ∈ xs, u ∈ f x := by
  induction xs generalizing init with
  | nil => simp
  | cons x xs ih =>
      rw [List.foldl_cons, ih, mem_union]
      simp [or_assoc]

theorem strict_foldl_union {β : Type} {f : β → List Nat} {xs : List β} (h : Strict init) :
    Strict (xs.foldl (fun us x => union us (f x)) init) := by
  induction xs generalizing init with
  | nil => exact h
  | cons x xs ih => exact ih (strict_union h)

/-- The spanning variables of the first of a list of layers. -/
def spanningOf (ls : List Layer) : List Variable := ls.head?.elim [] Layer.spanning

/-- The spanning variables of the layer of `v` that completes tables over layers below. -/
def spanningOver (s : Source) (v : Variable) (cs : List Nat) (below : List (List Layer)) :
    List Variable :=
  erase v (cs.foldl (fun us c => union us (s.scope c))
    (below.foldl (fun us ls => union us (spanningOf ls)) []))

theorem mem_spanningOver : u ∈ spanningOver s v cs below ↔
    u ≠ v ∧ ((∃ ls ∈ below, u ∈ spanningOf ls) ∨ ∃ c ∈ cs, u ∈ s.scope c) := by
  rw [spanningOver, mem_erase, mem_foldl_union, mem_foldl_union, and_comm]
  simp

theorem strict_spanningOver : Strict (spanningOver s v cs below) :=
  strict_erase (strict_foldl_union (strict_foldl_union List.Pairwise.nil))

/-- A layer that is put over those below it. -/
structure Over (s : Source) (index : Nat) (v : Variable) (cs : List Nat)
    (below : List (List Layer)) (l : Layer) : Prop where
  label : l.label = v
  number : l.index = index
  dim : l.dim = s.bound.dim v
  spanning : l.spanning = spanningOver s v cs below
  contexts : contextCount s.bound v l.spanning = .ok l.contexts
  messages : cs.mapM (messageAt s.encoding v l.spanning) = .ok l.messages
  children : l.children = s.childrenOf index below

theorem layersOver_ok (h : layersOver s index v below waiting = .ok (ls, waiting')) :
    ∃ l, ls = l :: (below.map (connect s.bound v l.spanning)).flatten ∧
      Over s index v (completed s.bound v waiting).1 below l ∧
      waiting' = (completed s.bound v waiting).2 := by
  simp only [layersOver, bind, Except.bind, pure, Except.pure] at h
  split at h
  · cases h
  · rename_i contexts hcontexts
    split at h
    · cases h
    · rename_i messages hmessages
      simp only [Except.ok.injEq, Prod.mk.injEq] at h
      exact ⟨_, h.1.symm, ⟨rfl, rfl, rfl, rfl, hcontexts, hmessages, rfl⟩, h.2.symm⟩

theorem Over.carries (S : s.Sound) (h : Over s index v cs below l) (hv : v ≠ joiner)
    (hcs : ∀ c ∈ cs, v ∈ s.scope c)
    (hpos : ∀ ls ∈ below, ∀ u ∈ spanningOf ls, 0 < s.bound.dim u) : Carries s l v cs where
  label := h.label
  dim := h.dim
  contexts := contextCount_eq hv h.contexts
  strict := h.spanning ▸ strict_spanningOver
  notMem hmem := by
    rw [h.spanning, mem_spanningOver] at hmem
    exact hmem.1 rfl
  pos u hu := by
    rw [h.spanning, mem_spanningOver] at hu
    rcases hu.2 with ⟨ls, hls, hu⟩ | ⟨c, _, hu⟩
    · exact hpos ls hls u hu
    · exact S.pos c u hu
  messages := h.messages
  mentions c hc := by
    refine ⟨hcs c hc, fun u hu => ?_⟩
    rw [List.mem_cons, h.spanning, mem_spanningOver]
    by_cases huv : u = v
    · exact Or.inl huv
    · exact Or.inr ⟨huv, Or.inr ⟨c, hc, hu⟩⟩

theorem Over.inherits (h : Over s index v cs below l) :
    ∀ ls ∈ below, spanningOf ls ⊆ v :: l.spanning := by
  intro ls hls u hu
  rw [List.mem_cons, h.spanning, mem_spanningOver]
  by_cases huv : u = v
  · exact Or.inl huv
  · exact Or.inr ⟨huv, Or.inl ⟨ls, hls, hu⟩⟩

/-! ## Layers that are connected -/

theorem length_connect : (connect s.bound v above ls).length = ls.length := by
  cases ls with
  | nil => rfl
  | cons l ls => rfl

theorem firstIndices_connect :
    firstIndices index (below.map (connect s.bound v above)) = firstIndices index below := by
  induction below generalizing index with
  | nil => rfl
  | cons ls below ih => rw [List.map_cons, firstIndices, length_connect, ih, firstIndices]

theorem childrenOf_connect :
    s.childrenOf index (below.map (connect s.bound v above)) = s.childrenOf index below := by
  cases below with
  | nil => rfl
  | cons ls below => exact firstIndices_connect

/-- The address of its first layer does not matter to a tree. -/
theorem Laid.readdress {a : Address} (h : Laid s index w (l :: ls)) :
    Laid s index w ({ l with address := a } :: ls) := by
  cases h with
  | mk C hnumber hchildren hrest =>
      exact .mk ⟨C.label, C.dim, C.contexts, C.strict, C.notMem, C.pos, C.messages, C.mentions⟩
        hnumber hchildren hrest

/-! ## Tables that are taken -/

/-- The tables that mention some variables have been taken from those that wait. -/
structure Taken (s : Source) (waiting : Array Bool) (vs : List Variable) (cs : List Nat)
    (waiting' : Array Bool) : Prop where
  nodup : cs.Nodup
  mem_iff : ∀ c, c ∈ cs ↔ Waits waiting c ∧ ∃ v ∈ vs, v ∈ s.scope c
  waits : ∀ c, Waits waiting' c ↔ Waits waiting c ∧ c ∉ cs

theorem Taken.nil : Taken s waiting [] [] waiting :=
  ⟨List.nodup_nil, fun c => by simp, fun c => by simp⟩

theorem Taken.append {waiting'' : Array Bool} {vs us : List Variable} {ds : List Nat}
    (h : Taken s waiting vs cs waiting') (h' : Taken s waiting' us ds waiting'') :
    Taken s waiting (vs ++ us) (cs ++ ds) waiting'' where
  nodup := by
    refine List.nodup_append.2 ⟨h.nodup, h'.nodup, fun c hc d hd he => ?_⟩
    subst he
    exact ((h.waits c).1 ((h'.mem_iff c).1 hd).1).2 hc
  mem_iff c := by
    rw [List.mem_append, h'.mem_iff, h.waits]
    have hmem := h.mem_iff c
    constructor
    · rintro (hc | ⟨⟨hc, _⟩, v, hv, hs⟩)
      · obtain ⟨hw, v, hv, hs⟩ := hmem.1 hc
        exact ⟨hw, v, List.mem_append_left _ hv, hs⟩
      · exact ⟨hc, v, List.mem_append_right _ hv, hs⟩
    · rintro ⟨hw, v, hv, hs⟩
      rcases List.mem_append.1 hv with hv | hv
      · exact Or.inl (hmem.2 ⟨hw, v, hv, hs⟩)
      · by_cases hc : c ∈ cs
        · exact Or.inl hc
        · exact Or.inr ⟨⟨hw, hc⟩, v, hv, hs⟩
  waits c := by rw [h'.waits, h.waits, List.mem_append, not_or, and_assoc]

theorem Taken.perm {vs us : List Variable} {ds : List Nat} (h : Taken s waiting vs cs waiting')
    (hvs : vs.Perm us) (hcs : cs.Perm ds) : Taken s waiting us ds waiting' where
  nodup := hcs.nodup_iff.1 h.nodup
  mem_iff c := by
    rw [← hcs.mem_iff, h.mem_iff]
    simp only [hvs.mem_iff]
  waits c := by rw [h.waits, hcs.mem_iff]

theorem Taken.completed (S : s.Sound) (hv : v ≠ joiner) :
    Taken s waiting [v] (completed s.bound v waiting).1 (completed s.bound v waiting).2 := by
  have hne : (v == joiner) = false := by simpa using hv
  obtain ⟨hnodup, hmem, hwaits⟩ := collect_spec (s.bound.constraintsOf.getD v []) waiting
  simp only [SpanningTree.completed, hne, Bool.false_eq_true, if_false]
  refine ⟨hnodup, fun c => ?_, fun c => ?_⟩
  · rw [hmem, S.constraints, and_comm]
    simp
  · rw [hwaits, hmem]
    tauto

/-! ## Trees -/

/-- A tree with the variables `vs` is laid out as layers, numbered from `index` on. -/
structure Layered (s : Source) (path : List Variable) (index : Nat) (waiting : Array Bool)
    (vs : List Variable) (w : Arrangement) (ls : List Layer) (waiting' : Array Bool) : Prop where
  laid : Laid s index w ls
  preorder : w.preorder = vs
  fits : w.Fits s.scope path
  above : spanningOf ls ⊆ path
  pos : ∀ u ∈ spanningOf ls, 0 < s.bound.dim u
  taken : Taken s waiting vs w.tables waiting'

/-- Trees with the variables `vs` are laid out as layers that are not connected yet. -/
structure LayeredAll (s : Source) (path : List Variable) (index : Nat) (waiting : Array Bool)
    (vs : List Variable) (ws : List Arrangement) (below : List (List Layer))
    (waiting' : Array Bool) : Prop where
  laid : ∀ v above, (∀ ls ∈ below, spanningOf ls ⊆ v :: above) →
    LaidAll s v above index ws (below.map (connect s.bound v above))
  preorder : preorderAll ws = vs
  fits : FitsAll s.scope path ws
  above : ∀ ls ∈ below, spanningOf ls ⊆ path
  pos : ∀ ls ∈ below, ∀ u ∈ spanningOf ls, 0 < s.bound.dim u
  taken : Taken s waiting vs (tablesAll ws) waiting'

theorem LayeredAll.nil : LayeredAll s path index waiting [] [] [] waiting where
  laid _ _ _ := .nil
  preorder := rfl
  fits := trivial
  above _ hls := absurd hls List.not_mem_nil
  pos _ hls := absurd hls List.not_mem_nil
  taken := Taken.nil

theorem LayeredAll.cons {waiting'' : Array Bool} {vs us : List Variable}
    (h : Layered s path index waiting vs w ls waiting')
    (h' : LayeredAll s path (index + ls.length) waiting' us ws below waiting'') :
    LayeredAll s path index waiting (vs ++ us) (w :: ws) (ls :: below) waiting'' where
  laid v above habove := by
    have hrest := h'.laid v above fun ls' hls' => habove ls' (List.mem_cons_of_mem _ hls')
    have hfirst := h.laid
    have hspanning := habove ls (List.mem_cons_self ..)
    cases ls with
    | nil => cases hfirst
    | cons l ls => exact .cons hfirst.readdress rfl hspanning hrest
  preorder := by rw [preorderAll, h.preorder, h'.preorder]
  fits := ⟨h.fits, h'.fits⟩
  above ls' hls' := by
    rcases List.mem_cons.1 hls' with rfl | hls'
    · exact h.above
    · exact h'.above ls' hls'
  pos ls' hls' := by
    rcases List.mem_cons.1 hls' with rfl | hls'
    · exact h.pos
    · exact h'.pos ls' hls'
  taken := h.taken.append h'.taken

/-- A variable over trees that are laid out. A table that it completes mentions no variable below
it, because it would have been taken there. -/
theorem Layered.over {waiting'' : Array Bool} {vs : List Variable} (S : s.Sound) (hv : v ≠ joiner)
    (hlegal : ∀ c, v ∈ s.scope c → ∀ u ∈ s.scope c, u ∈ v :: path ∨ u ∈ vs)
    (h : LayeredAll s (v :: path) (index + 1) waiting vs ws below waiting')
    (hrun : layersOver s index v below waiting' = .ok (ls, waiting'')) :
    ∃ cs, Layered s path index waiting (v :: vs) (.mk v cs ws) ls waiting'' := by
  obtain ⟨l, rfl, O, rfl⟩ := layersOver_ok hrun
  have T : Taken s waiting' [v] (completed s.bound v waiting').1 (completed s.bound v waiting').2 :=
    Taken.completed S hv
  generalize (completed s.bound v waiting').1 = cs at O T
  have hcs : ∀ c ∈ cs, v ∈ s.scope c := by
    intro c hc
    obtain ⟨_, u, hu, hs⟩ := (T.mem_iff c).1 hc
    obtain rfl := List.mem_singleton.1 hu
    exact hs
  have hscope : ∀ c ∈ cs, s.scope c ⊆ v :: path := by
    intro c hc u hu
    rcases hlegal c (hcs c hc) u hu with hp | hbelow
    · exact hp
    · obtain ⟨hw, hfree⟩ := (h.taken.waits c).1 ((T.mem_iff c).1 hc).1
      exact absurd ((h.taken.mem_iff c).2 ⟨hw, u, hbelow, hu⟩) hfree
  have C := O.carries S hv hcs h.pos
  refine ⟨cs, ⟨?_, ?_, ⟨hscope, h.fits⟩, fun u hu => ?_, C.pos, ?_⟩⟩
  · refine .mk C O.number ?_ (h.laid v l.spanning O.inherits)
    rw [childrenOf_connect, O.children]
  · rw [Arrangement.preorder, h.preorder]
  · have hu : u ∈ spanningOver s v cs below := O.spanning ▸ hu
    obtain ⟨huv, hu⟩ := mem_spanningOver.1 hu
    refine (List.mem_cons.1 ?_).resolve_left huv
    rcases hu with ⟨ls, hls, hu⟩ | ⟨c, hc, hu⟩
    · exact h.above ls hls hu
    · exact hscope c hc hu
  · exact (h.taken.append T).perm List.perm_append_comm List.perm_append_comm

mutual

/-- The layers of a legal tree lay it out. -/
theorem layersOf_spec (S : s.Sound) : ∀ {n : PseudoTree.Node} {index waiting waiting' ls path},
    n.Legal s.scope path → joiner ∉ n.preorder →
    layersOf s index waiting n = .ok (ls, waiting') →
    ∃ w, Layered s path index waiting n.preorder w ls waiting'
  | .mk v ns, index, waiting, waiting', ls, path, hlegal, hjoiner, hrun => by
      rw [Node.preorder, List.mem_cons, not_or] at hjoiner
      rw [layersOf] at hrun
      cases hbelow : layersOfAll s (index + 1) waiting ns with
      | error e =>
          rw [hbelow] at hrun
          cases hrun
      | ok result =>
          obtain ⟨below, waiting₁⟩ := result
          rw [hbelow] at hrun
          obtain ⟨ws, h⟩ := layersOfAll_spec S hlegal.2 hjoiner.2 hbelow
          obtain ⟨cs, h'⟩ := Layered.over S (Ne.symm hjoiner.1) hlegal.1 h hrun
          exact ⟨_, h'⟩

theorem layersOfAll_spec (S : s.Sound) :
    ∀ {ns : List PseudoTree.Node} {index waiting waiting' below path},
    Node.LegalAll s.scope path ns → joiner ∉ Node.preorderAll ns →
    layersOfAll s index waiting ns = .ok (below, waiting') →
    ∃ ws, LayeredAll s path index waiting (Node.preorderAll ns) ws below waiting'
  | [], index, waiting, waiting', below, path, _, _, hrun => by
      cases hrun
      exact ⟨[], LayeredAll.nil⟩
  | n :: ns, index, waiting, waiting', below, path, hlegal, hjoiner, hrun => by
      rw [Node.preorderAll, List.mem_append, not_or] at hjoiner
      rw [layersOfAll] at hrun
      cases hfirst : layersOf s index waiting n with
      | error e =>
          rw [hfirst] at hrun
          cases hrun
      | ok result =>
          obtain ⟨ls, waiting₁⟩ := result
          rw [hfirst] at hrun
          simp only [bind, Except.bind] at hrun
          cases hrest : layersOfAll s (index + ls.length) waiting₁ ns with
          | error e =>
              rw [hrest] at hrun
              cases hrun
          | ok result =>
              obtain ⟨rest, waiting₂⟩ := result
              rw [hrest] at hrun
              cases hrun
              obtain ⟨w, h⟩ := layersOf_spec S hlegal.1 hjoiner.1 hfirst
              obtain ⟨ws, h'⟩ := layersOfAll_spec S hlegal.2 hjoiner.2 hrest
              exact ⟨w :: ws, .cons h h'⟩

end

/-! ## The whole tree -/

/-- The layers of a tree are the root, those of the trees below it, and the terminal one. -/
def Planned (s : Source) (ws : List Arrangement) (t : SpanningTree) : Prop :=
  ∃ top below, t.layers.toList = top :: (below.flatten ++ [terminalLayer s.terminal]) ∧
    top.label = joiner ∧ top.children = s.childrenOf 0 below ∧ LaidAll s joiner [] 1 ws below ∧
    s.terminal = below.flatten.length + 1

/-- The layers of a legal forest lay it out below the joining root. -/
theorem ofPseudoTree_spec {b : Bound} {e : Encoding} {t : PseudoTree} {st : SpanningTree}
    {ns : List PseudoTree.Node} (hs : s = ⟨b, e, t.root.preorder.length⟩) (S : s.Sound)
    (hroot : t.root = .mk joiner ns) (hlegal : Node.LegalAll s.scope [joiner] ns)
    (hjoiner : joiner ∉ Node.preorderAll ns) (h : ofPseudoTree b t e = .ok st) :
    ∃ ws waiting, Planned s ws st ∧ preorderAll ws = Node.preorderAll ns ∧
      FitsAll s.scope [joiner] ws ∧
      Taken s b.enabled (Node.preorderAll ns) (tablesAll ws) waiting := by
  simp only [ofPseudoTree, bind, Except.bind, pure, Except.pure] at h
  split at h
  · cases h
  · split at h
    · cases h
    · rename_i result hrun
      obtain ⟨ls, waiting'⟩ := result
      rw [← hs, hroot, layersOf] at hrun
      cases hbelow : layersOfAll s 1 b.enabled ns with
      | error e =>
          rw [Nat.zero_add, hbelow] at hrun
          cases hrun
      | ok result =>
          obtain ⟨below, waiting⟩ := result
          rw [Nat.zero_add, hbelow] at hrun
          simp only [bind, Except.bind] at hrun
          obtain ⟨ws, L⟩ := layersOfAll_spec S hlegal hjoiner hbelow
          obtain ⟨l, rfl, O, _⟩ := layersOver_ok hrun
          have hnone : (completed s.bound joiner waiting).1 = [] := by
            simp only [completed, beq_self_eq_true, if_true]
          rw [hnone] at O
          have hspanning : l.spanning = [] := by
            refine List.eq_nil_iff_forall_not_mem.2 fun u hu => ?_
            rw [O.spanning, mem_spanningOver] at hu
            obtain ⟨hne, ⟨ls, hls, hu⟩ | ⟨c, hc, _⟩⟩ := hu
            · exact hne (List.mem_singleton.1 (L.above ls hls hu))
            · exact absurd hc List.not_mem_nil
          rw [hspanning] at h
          have hlaid := L.laid joiner [] L.above
          refine ⟨ws, waiting, ⟨{ l with contexts := 0 }, _, ?_, O.label, ?_, hlaid, ?_⟩, L.preorder,
            L.fits, L.taken⟩
          · rw [← Except.ok.inj h, hs]
            simp [Array.modify, Array.modifyM, hroot]
          · rw [childrenOf_connect]
            exact O.children
          · rw [hlaid.length_eq, L.preorder, hs, hroot, Node.preorder, List.length_cons]

end BayesCircuit.SpanningTree
