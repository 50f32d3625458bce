import BayesCircuit.Proofs.Outcome
import BayesCircuit.Proofs.SpanningTree.Layers

/-!
# Layers below each other

Without branches, the layers of a tree follow each other, and each of them takes the values of its
spanning variables from the layer above (`Descending`). So every context of a layer comes from one
of the layer above it.

Whether or not they branch, layers are numbered one after the other and only those after a layer are
below it (`Ordered`). No assumption is made on where the tree comes from.
-/

namespace BayesCircuit.SpanningTree

variable {s : Source} {l : Layer} {below : List (List Layer)}

/-- Layers that complete tables below the layer of `v`, each below the one before it. -/
inductive Descending (s : Source) : Variable → List Variable → List Layer → Prop
  | nil {v : Variable} {above : List Variable} : Descending s v above []
  | cons {v : Variable} {above : List Variable} {l : Layer} {cs : List Nat} {ls : List Layer}
      (carries : Carries s l l.label cs)
      (address : l.address = addressBelow s.bound v above l.spanning)
      (above_of : l.spanning ⊆ v :: above) (rest : Descending s l.label l.spanning ls) :
      Descending s v above (l :: ls)

theorem length_below_le {index : Nat} (hchildren : l.children = s.childrenOf index below)
    (hplain : l.branches = false) : below.length ≤ 1 := by
  rw [Layer.branches, hchildren, Source.childrenOf] at hplain
  cases below with
  | nil => exact Nat.zero_le 1
  | cons ls below => simpa [length_firstIndices] using hplain

mutual

/-- The layers of a tree none of which branch. -/
theorem Laid.descending : ∀ {w : Arrangement} {index l ls v above}, Laid s index w (l :: ls) →
    (∀ l' ∈ l :: ls, l'.branches = false) → l.address = addressBelow s.bound v above l.spanning →
    l.spanning ⊆ v :: above → Descending s v above (l :: ls)
  | .mk u cs ws, index, l, _, v, above, .mk hcarries _ hchildren hrest, hplain, haddress,
      habove => by
      obtain ⟨hfirst, hplain'⟩ := List.forall_mem_cons.1 hplain
      have hbelow := LaidAll.descending hrest (length_below_le hchildren hfirst) hplain'
      rw [← hcarries.label] at hbelow
      exact .cons (hcarries.label ▸ hcarries) haddress habove hbelow

theorem LaidAll.descending : ∀ {ws : List Arrangement} {v above index below},
    LaidAll s v above index ws below → below.length ≤ 1 →
    (∀ l ∈ below.flatten, l.branches = false) → Descending s v above below.flatten
  | [], _, _, _, _, .nil, _, _ => .nil
  | w :: _, v, above, index, _, .cons hfirst haddress habove hrest, hlen, hplain => by
      have hnil := List.length_eq_zero_iff.1 (Nat.le_zero.1 (Nat.le_of_succ_le_succ hlen))
      rw [hnil, List.flatten_cons, List.flatten_nil, List.append_nil] at hplain ⊢
      exact Laid.descending hfirst hplain haddress habove

end

namespace Descending

variable {v : Variable} {above : List Variable} {l' : Layer} {ls : List Layer}

theorem head (h : Descending s v above (l :: ls)) :
    (∃ cs, Carries s l l.label cs) ∧ l.address = addressBelow s.bound v above l.spanning ∧
      l.spanning ⊆ v :: above := by
  cases h with
  | cons hcarries haddress habove _ => exact ⟨⟨_, hcarries⟩, haddress, habove⟩

/-- A layer and the one below it. -/
theorem step (h : Descending s v above ls) : ∀ i, ls[i]? = some l →
    (∃ cs, Carries s l l.label cs) ∧ l.address.dims = l.spanning.map s.bound.dim ∧
      ∀ l', ls[i + 1]? = some l' → l'.address = addressBelow s.bound l.label l.spanning l'.spanning ∧
        l'.spanning ⊆ l.label :: l.spanning := by
  induction h with
  | nil => exact fun i hl => absurd hl (by simp)
  | @cons v above l₀ cs ls hcarries haddress habove hrest ih =>
      rintro (_ | i) hl
      · obtain rfl := Option.some.inj hl
        refine ⟨⟨cs, hcarries⟩, by rw [haddress]; rfl, fun l' hl' => ?_⟩
        cases ls with
        | nil => cases hl'
        | cons l₁ ls =>
            obtain rfl := Option.some.inj hl'
            exact hrest.head.2
      · exact ih i hl

end Descending
/-! ## Layers in order -/

/-- The layers are numbered from `index` on, and only later ones are below each of them. -/
structure Ordered (index : Nat) (ls : List Layer) : Prop where
  numbered : NumberedFrom index ls
  below : ∀ l ∈ ls, ∀ c ∈ l.children, l.index < c

variable {index : Nat} {ls ls' : List Layer} {waiting waiting' : Array Bool}

theorem Ordered.nil : Ordered index [] := ⟨.nil, fun _ hl => absurd hl List.not_mem_nil⟩

theorem Ordered.append (h : Ordered index ls) (h' : Ordered (index + ls.length) ls') :
    Ordered index (ls ++ ls') :=
  ⟨h.numbered.append h'.numbered, List.forall_mem_append.2 ⟨h.below, h'.below⟩⟩

/-- The first layer, and those after it. -/
theorem Ordered.head_tail (h : Ordered index (l :: ls)) :
    (l.index = index ∧ ∀ c ∈ l.children, l.index < c) ∧ Ordered (index + 1) ls := by
  obtain ⟨hl, hls⟩ := List.forall_mem_cons.1 h.below
  refine ⟨⟨h.numbered 0 l rfl, hl⟩, fun i l' hl' => ?_, hls⟩
  rw [h.numbered (i + 1) l' hl']
  omega

/-- The address of its first layer does not matter to the order. -/
theorem Ordered.connect {v : Variable} {above : List Variable} (h : Ordered index ls) :
    Ordered index (connect s.bound v above ls) := by
  cases ls with
  | nil => exact h
  | cons l ls =>
      obtain ⟨hl, hls⟩ := List.forall_mem_cons.1 h.below
      refine ⟨?_, List.forall_mem_cons.2 ⟨hl, hls⟩⟩
      intro i l' hl'
      cases i with
      | zero =>
          obtain rfl := Option.some.inj hl'
          exact h.numbered 0 l rfl
      | succ i => exact h.numbered (i + 1) l' hl'

theorem le_firstIndices {below : List (List Layer)} : ∀ {index c : Nat},
    c ∈ firstIndices index below → index ≤ c := by
  induction below with
  | nil => exact fun hc => absurd hc List.not_mem_nil
  | cons ls below ih =>
      intro index c hc
      rcases List.mem_cons.1 hc with rfl | hc
      · exact Nat.le_refl _
      · have := ih hc
        omega

/-- The layers of trees that follow each other, each with its number. -/
inductive OrderedAll : Nat → List (List Layer) → Prop
  | nil {index : Nat} : OrderedAll index []
  | cons {index : Nat} {ls : List Layer} {below : List (List Layer)} (first : Ordered index ls)
      (rest : OrderedAll (index + ls.length) below) : OrderedAll index (ls :: below)

theorem OrderedAll.flatten {below : List (List Layer)} (h : OrderedAll index below) (s : Source)
    (v : Variable) (above : List Variable) :
    Ordered index (below.map (SpanningTree.connect s.bound v above)).flatten ∧
      (below.map (SpanningTree.connect s.bound v above)).flatten.length = below.flatten.length := by
  induction h with
  | nil => exact ⟨.nil, rfl⟩
  | cons first rest ih =>
      rw [List.map_cons, List.flatten_cons, List.flatten_cons, List.length_append,
        List.length_append, ih.2, length_connect]
      refine ⟨first.connect.append ?_, rfl⟩
      rw [length_connect]
      exact ih.1

mutual

/-- The layers of a tree are in order. -/
theorem ordered_layersOf : ∀ {n : PseudoTree.Node} {index waiting ls waiting'},
    layersOf s index waiting n = .ok (ls, waiting') → index + n.preorder.length ≤ s.terminal →
    ls.length = n.preorder.length ∧ Ordered index ls
  | .mk v ns, index, waiting, ls, waiting', h, hterminal => by
      rw [layersOf] at h
      obtain ⟨⟨below, waiting₁⟩, hbelow, h⟩ := Outcome.bind_eq_ok_iff.1 h
      obtain ⟨l, rfl, O, -⟩ := layersOver_ok h
      rw [PseudoTree.Node.preorder, List.length_cons] at hterminal
      obtain ⟨hlength, hordered⟩ := ordered_layersOfAll hbelow (by omega)
      obtain ⟨hrest, hsame⟩ := hordered.flatten s v l.spanning
      refine ⟨?_, .cons O.number hrest.numbered,
        List.forall_mem_cons.2 ⟨fun c hc => ?_, hrest.below⟩⟩
      · rw [List.length_cons, hsame, hlength, PseudoTree.Node.preorder, List.length_cons]
      · rw [O.children, Source.childrenOf] at hc
        rw [O.number]
        split at hc
        · obtain rfl := List.mem_singleton.1 hc
          omega
        · exact le_firstIndices hc

/-- The layers of trees that follow each other are in order. -/
theorem ordered_layersOfAll : ∀ {ns : List PseudoTree.Node} {index waiting below waiting'},
    layersOfAll s index waiting ns = .ok (below, waiting') →
    index + (PseudoTree.Node.preorderAll ns).length ≤ s.terminal →
    below.flatten.length = (PseudoTree.Node.preorderAll ns).length ∧ OrderedAll index below
  | [], _, _, _, _, h, _ => by
      cases h
      exact ⟨rfl, .nil⟩
  | n :: ns, index, waiting, below, waiting', h, hterminal => by
      rw [layersOfAll] at h
      obtain ⟨⟨ls, waiting₁⟩, hfirst, h⟩ := Outcome.bind_eq_ok_iff.1 h
      obtain ⟨⟨rest, waiting₂⟩, hrest, h⟩ := Outcome.bind_eq_ok_iff.1 h
      cases h
      rw [PseudoTree.Node.preorderAll, List.length_append] at hterminal ⊢
      obtain ⟨hlength, hordered⟩ := ordered_layersOf hfirst (by omega)
      obtain ⟨hlength', hordered'⟩ := ordered_layersOfAll hrest (by omega)
      exact ⟨by rw [List.flatten_cons, List.length_append, hlength, hlength'],
        .cons hordered hordered'⟩

end

/-- The layers of a spanning tree are in order, between the root and the terminal layer. -/
theorem ordered_ofPseudoTree {b : Bound} {p : PseudoTree} {e : Encoding} {t : SpanningTree}
    (h : ofPseudoTree b p e = .ok t) : ∃ top ls terminal,
      t.layers.toList = top :: (ls ++ [terminalLayer terminal]) ∧ Ordered 1 ls ∧
        ∀ c ∈ top.children, 0 < c := by
  obtain ⟨_, _, h⟩ := Outcome.bind_eq_ok_iff.1 h
  obtain ⟨⟨ls, waiting⟩, hrun, h⟩ := Outcome.bind_eq_ok_iff.1 h
  cases h
  obtain ⟨hlength, hordered⟩ := ordered_layersOf hrun (by rw [Nat.zero_add])
  cases ls with
  | nil =>
      cases hroot : p.root with
      | mk v ns => simp [hroot, PseudoTree.Node.preorder] at hlength
  | cons l ls =>
      obtain ⟨⟨-, hl⟩, hrest⟩ := hordered.head_tail
      refine ⟨{ l with contexts := 0 }, ls, p.root.preorder.length, ?_, hrest,
        fun c hc => Nat.zero_lt_of_lt (hl c hc)⟩
      simp [Array.modify, Array.modifyM]

end BayesCircuit.SpanningTree
