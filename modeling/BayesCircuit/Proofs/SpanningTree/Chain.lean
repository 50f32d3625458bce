import BayesCircuit.Multigraph.Compile
import BayesCircuit.Proofs.SpanningTree.Partition

/-!
# Chains of layers

In a spanning tree that does not branch, every layer of a variable has exactly the next layer below
it (`Linked`). Its contexts are numbered by the domain sizes of its address, unless it has none
(`Chain`). No assumption is made on where the tree comes from.
-/

namespace BayesCircuit.SpanningTree

open PseudoTree Multigraph

variable {s : Source} {index : Nat} {l l' : Layer} {ls ls' : List Layer}
variable {below : List (List Layer)} {waiting waiting' : Array Bool} {v : Variable}
variable {above : List Variable} {t : SpanningTree}

/-- The number of contexts is that of the values of the spanning variables, or zero. -/
def Counted (b : Bound) (l : Layer) : Prop :=
  l.contexts = 0 ∨ l.contexts = (l.spanning.map b.dim).prod

/-- Each layer has the next one below it, and the last one has the terminal one. -/
inductive Linked (s : Source) : Nat → List Layer → Prop
  | last {index : Nat} {l : Layer} (number : l.index = index) (children : l.children = [s.terminal])
      (counted : Counted s.bound l) : Linked s index [l]
  | cons {index : Nat} {l l' : Layer} {ls : List Layer} (number : l.index = index)
      (children : l.children = [index + 1]) (counted : Counted s.bound l)
      (address : l'.address.dims = l'.spanning.map s.bound.dim)
      (rest : Linked s (index + 1) (l' :: ls)) : Linked s index (l :: l' :: ls)

theorem Over.counted {cs : List Nat} (h : Over s index v cs below l) : Counted s.bound l := by
  by_cases hv : v = joiner
  · subst hv
    have hcontexts := h.contexts
    rw [contextCount, if_pos (beq_self_eq_true joiner)] at hcontexts
    exact Or.inl (Except.ok.inj hcontexts).symm
  · exact Or.inr (contextCount_eq hv h.contexts)

/-- The address of the first layer does not matter. -/
theorem Linked.connect (h : Linked s index ls) : Linked s index (connect s.bound v above ls) := by
  cases h with
  | last hnumber hchildren hcounted => exact .last hnumber hchildren hcounted
  | cons hnumber hchildren hcounted haddress hrest =>
      exact .cons hnumber hchildren hcounted haddress hrest

theorem branches_connect (h : ∀ l ∈ (connect s.bound v above ls), l.branches = false) :
    ∀ l ∈ ls, l.branches = false := by
  cases ls with
  | nil => exact h
  | cons l ls =>
      rw [SpanningTree.connect, List.forall_mem_cons] at h
      exact List.forall_mem_cons.2 h

theorem length_layersOfAll : ∀ {ns : List PseudoTree.Node} {index waiting below waiting'},
    layersOfAll s index waiting ns = .ok (below, waiting') → below.length = ns.length
  | [], _, _, _, _, h => by
      cases h
      rfl
  | n :: ns, index, waiting, below, waiting', h => by
      rw [layersOfAll] at h
      simp only [bind, Except.bind, pure, Except.pure] at h
      split at h
      · cases h
      · split at h
        · cases h
        · rename_i hrest
          cases h
          rw [List.length_cons, length_layersOfAll hrest, List.length_cons]

/-- The layers of a tree none of which branches are linked. -/
theorem linked_layersOf : ∀ {n : PseudoTree.Node} {index waiting ls waiting'},
    layersOf s index waiting n = .ok (ls, waiting') → (∀ l ∈ ls, l.branches = false) →
    Linked s index ls ∧ ls.length = n.preorder.length
  | .mk v ns, index, waiting, ls, waiting', h, hplain => by
      rw [layersOf] at h
      cases hbelow : layersOfAll s (index + 1) waiting ns with
      | error e =>
          rw [hbelow] at h
          cases h
      | ok result =>
          obtain ⟨below, waiting₁⟩ := result
          rw [hbelow] at h
          obtain ⟨l, rfl, O, _⟩ := layersOver_ok h
          have hlen := length_layersOfAll hbelow
          have hone : below.length ≤ 1 := by
            have hbranches := hplain l (List.mem_cons_self ..)
            rw [Layer.branches, O.children, Source.childrenOf] at hbranches
            cases below with
            | nil => exact Nat.zero_le 1
            | cons first rest => simpa [length_firstIndices] using hbranches
          cases ns with
          | nil =>
              obtain rfl := List.length_eq_zero_iff.1 hlen
              exact ⟨.last O.number O.children O.counted, rfl⟩
          | cons n rest =>
              obtain rfl : rest = [] := by
                rw [hlen, List.length_cons] at hone
                exact List.length_eq_zero_iff.1 (by omega)
              rw [layersOfAll] at hbelow
              simp only [bind, Except.bind, pure, Except.pure] at hbelow
              cases hfirst : layersOf s (index + 1) waiting n with
              | error e => simp [hfirst] at hbelow
              | ok result =>
                  obtain ⟨ls, waiting₂⟩ := result
                  rw [hfirst] at hbelow
                  cases hbelow
                  have hplain' := fun l' hl' => hplain l' (List.mem_cons_of_mem _ hl')
                  simp only [List.map_cons, List.map_nil, List.flatten_cons, List.flatten_nil,
                    List.append_nil] at hplain' ⊢
                  obtain ⟨hlinked, hlength⟩ := linked_layersOf hfirst (branches_connect hplain')
                  refine ⟨?_, ?_⟩
                  · have hconnected : Linked s (index + 1) (connect s.bound v l.spanning ls) :=
                      hlinked.connect
                    cases ls with
                    | nil => cases hlinked
                    | cons l' ls => exact .cons O.number O.children O.counted rfl hconnected
                  · rw [List.length_cons, length_connect, hlength, Node.preorder,
                      Node.preorderAll, Node.preorderAll, List.append_nil, List.length_cons]

/-! ## Chains -/

/-- Every layer of a variable has exactly the next layer below it. -/
structure Chain (t : SpanningTree) : Prop where
  terminal : t.terminal = (innerLayers t).length + 1
  layer : ∀ i l, (innerLayers t)[i]? = some l → t.layer (i + 1) = .ok l
  numbered : NumberedFrom 1 (innerLayers t)
  children : ∀ l ∈ innerLayers t, l.children = [l.index + 1]
  counted : ∀ l ∈ innerLayers t, l.contexts = 0 ∨ l.contexts = l.address.dims.prod

theorem Linked.spec (h : Linked s index ls) : NumberedFrom index ls ∧
    ((∀ l ∈ ls.head?, l.address.dims = l.spanning.map s.bound.dim) →
      ∀ l ∈ ls, l.contexts = 0 ∨ l.contexts = l.address.dims.prod) ∧
    (s.terminal = index + ls.length → ∀ l ∈ ls, l.children = [l.index + 1]) := by
  induction h with
  | last hnumber hchildren hcounted =>
      refine ⟨.cons hnumber .nil, fun haddress => ?_, fun hterminal => ?_⟩
      · refine List.forall_mem_singleton.2 ?_
        rw [haddress _ rfl]
        exact hcounted
      · refine List.forall_mem_singleton.2 ?_
        rw [hchildren, hterminal, hnumber, List.length_singleton]
  | cons hnumber hchildren hcounted haddress _ ih =>
      obtain ⟨hnumbered, hcounts, hbelow⟩ := ih
      refine ⟨.cons hnumber hnumbered, fun hfirst => ?_, fun hterminal => ?_⟩
      · refine List.forall_mem_cons.2 ⟨?_, hcounts fun l hl => ?_⟩
        · rw [hfirst _ rfl]
          exact hcounted
        · obtain rfl := Option.some.inj hl
          exact haddress
      · refine List.forall_mem_cons.2 ⟨by rw [hchildren, hnumber], hbelow ?_⟩
        rw [hterminal, List.length_cons]
        omega

theorem Linked.tail (h : Linked s index (l :: ls)) : ls = [] ∨ Linked s (index + 1) ls ∧
    ∀ l' ∈ ls.head?, l'.address.dims = l'.spanning.map s.bound.dim := by
  cases h with
  | last => exact Or.inl rfl
  | cons _ _ _ haddress hrest =>
      refine Or.inr ⟨hrest, fun l' hl' => ?_⟩
      obtain rfl := Option.some.inj hl'
      exact haddress

/-- Layers that are linked below a root make a chain. -/
theorem Linked.chain {top : Layer} (h : Linked s 0 (l :: ls))
    (hlayers : t.layers.toList = top :: (ls ++ [terminalLayer s.terminal]))
    (hterminal : s.terminal = ls.length + 1) : Chain t := by
  obtain ⟨hinner, hlast, _, hstored⟩ := layers_spec hlayers
  have hspec : NumberedFrom 1 ls ∧ (∀ l ∈ ls, l.contexts = 0 ∨ l.contexts = l.address.dims.prod) ∧
      ∀ l ∈ ls, l.children = [l.index + 1] := by
    rcases h.tail with rfl | ⟨hrest, haddress⟩
    · exact ⟨.nil, by simp, by simp⟩
    · obtain ⟨hnumbered, hcounted, hchildren⟩ := hrest.spec
      exact ⟨hnumbered, hcounted haddress, hchildren (by omega)⟩
  constructor
  · rwa [hinner]
  · rwa [hinner]
  · rw [hinner]
    exact hspec.1
  · rw [hinner]
    exact hspec.2.2
  · rw [hinner]
    exact hspec.2.1

/-- The layers of variables below each other do not branch. -/
theorem branches_layersOf_path : ∀ {vs : List Variable} {v index waiting ls waiting'},
    layersOf s index waiting (.mk v (path vs)) = .ok (ls, waiting') →
    ∀ l ∈ ls, l.branches = false
  | vs, v, index, waiting, ls, waiting', h => by
      rw [layersOf] at h
      obtain ⟨⟨below, waiting₁⟩, hbelow, h⟩ := Outcome.bind_eq_ok_iff.1 h
      obtain ⟨l, rfl, O, _⟩ := layersOver_ok h
      have hone : below.length ≤ 1 := by
        rw [length_layersOfAll hbelow]
        cases vs with
        | nil => exact Nat.zero_le 1
        | cons u us => exact le_rfl
      refine List.forall_mem_cons.2 ⟨?_, ?_⟩
      · rw [Layer.branches, O.children, Source.childrenOf]
        split
        · rfl
        · rw [length_firstIndices]
          simpa using hone
      · cases vs with
        | nil =>
            cases hbelow
            simp
        | cons u us =>
            rw [path, layersOfAll] at hbelow
            obtain ⟨⟨ls, waiting₂⟩, hls, hbelow⟩ := Outcome.bind_eq_ok_iff.1 hbelow
            cases hbelow
            have ih := branches_layersOf_path hls
            simp only [List.map_cons, List.map_nil, List.flatten_cons, List.flatten_nil,
              List.append_nil]
            cases ls with
            | nil => simp [SpanningTree.connect]
            | cons l' ls =>
                rw [SpanningTree.connect]
                exact List.forall_mem_cons.2 (List.forall_mem_cons.1 ih)

/-- The layers of a spanning tree branch if those of variables do. -/
theorem branches_layers {ls : List Layer} {terminal : Nat} :
    ((ls ++ [terminalLayer terminal]).toArray.modify 0 fun l => { l with contexts := 0 }).any
      Layer.branches = false ↔ ∀ l ∈ ls, l.branches = false := by
  have hhead : ∀ (l : Layer) (rest : List Layer),
      ((l :: rest).toArray.modify 0 fun l => { l with contexts := 0 }).toList =
        { l with contexts := 0 } :: rest := by
    intro l rest
    simp [Array.modify, Array.modifyM]
  rw [← Array.any_toList]
  cases ls with
  | nil =>
      rw [List.nil_append, hhead]
      simp [Layer.branches, terminalLayer]
  | cons l rest =>
      rw [List.cons_append, hhead]
      simp [Layer.branches, terminalLayer]

/-- A spanning tree that does not branch is a chain. -/
theorem chain_ofPseudoTree {b : Bound} {e : Encoding} {p : PseudoTree}
    (h : ofPseudoTree b p e = .ok t) (hplain : t.branches = false) : Chain t := by
  obtain ⟨_, _, h⟩ := Outcome.bind_eq_ok_iff.1 h
  obtain ⟨⟨ls, waiting⟩, hrun, h⟩ := Outcome.bind_eq_ok_iff.1 h
  cases h
  obtain ⟨hlinked, hlen⟩ := linked_layersOf hrun (branches_layers.1 hplain)
  cases ls with
  | nil => cases hlinked
  | cons l ls =>
      refine hlinked.chain (show _ = { l with contexts := 0 } :: (ls ++ _) from ?_) ?_
      · simp [Array.modify, Array.modifyM]
      · rw [List.length_cons] at hlen
        exact hlen.symm

/-- The spanning tree of a chain does not branch. -/
theorem branches_chain {net : Network} {p : Partition} {ordering : List Variable} {q : PseudoTree}
    {b : Bound} {e : Encoding} (hp : p.Proper net)
    (hq : build net p ordering .chain = .ok q) (h : ofPseudoTree b q e = .ok t) :
    t.branches = false := by
  obtain ⟨hperm, rfl⟩ := (build_ok_iff hp).1 hq
  rw [rootsFor_chain (hperm.nodup_iff.2 hp.strict_scope.nodup)] at h
  obtain ⟨_, _, h⟩ := Outcome.bind_eq_ok_iff.1 h
  obtain ⟨⟨ls, waiting⟩, hrun, h⟩ := Outcome.bind_eq_ok_iff.1 h
  cases h
  exact branches_layers.2 (branches_layersOf_path hrun)

end BayesCircuit.SpanningTree
