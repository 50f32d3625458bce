import BayesCircuit.Proofs.Decision.Conjoin
import BayesCircuit.Proofs.References.Graph
import Mathlib.Data.Set.Function

/-!
# Shared diagrams

A diagram is shared if nodes below its root that unfold to one tree are one node. A pass makes
shared diagrams, because its table knows every node that it has finished (`Rooted.shared`). What is
released elsewhere takes nodes away and leaves the others as they are (`release_spec`), so what was
shared stays shared. Shared diagrams with one tree are isomorphic (`Shared.isomorphic`).

A conjunction takes all nodes that it finds as frozen. `Heap.over` puts the heap that it leaves on
top of the one that it found.
-/

namespace BayesCircuit.Decision

open Collection Action

variable {m m' m'' : Manager} {frozen : Handle → Option Node} {ext ext' : Handle → Nat}
variable {f f' : Handle → Option Node.Key} {g h c : Handle} {k : Node.Key} {D : Diagram}

/-- Below a handle, nodes with one tree are one node. -/
def Shared (f : Handle → Option Node.Key) (c : Handle) : Prop :=
  ∀ {g h D}, Below f c g → Below f c h → Denotes f g D → Denotes f h D → g = h

theorem Edge.mono (hf : ∀ h k, f' h = some k → f h = some k) (he : Edge f' g h) : Edge f g h :=
  ⟨he.1, he.2.imp fun _ hk => ⟨hf _ _ hk.1, hk.2⟩⟩

theorem Below.mono (hf : ∀ h k, f' h = some k → f h = some k) (hb : Below f' c g) :
    Below f c g := by
  induction hb with
  | refl => exact .refl
  | tail _ he ih => exact .tail ih (he.mono hf)

/-- A shared diagram stays shared when nodes are taken away. -/
theorem Shared.mono (hf : ∀ h k, f' h = some k → f h = some k) (hs : Shared f c) : Shared f' c :=
  fun hg hh hD hE => hs (hg.mono hf) (hh.mono hf) (hD.mono hf) (hE.mono hf)

/-- What is below a young node is young or a terminal. -/
theorem Heap.young_of_below (H : Heap frozen ext m) (hc : c.isTerminal = true ∨ frozen c = none)
    (hb : Below m.key? c g) : g.isTerminal = true ∨ frozen g = none := by
  induction hb with
  | refl => exact hc
  | tail _ he ih =>
      obtain ⟨ht, k, hk, hkh⟩ := he
      have hclosed := H.closed _ k (ih.resolve_left (by simp [ht])) hk
      rcases hkh with rfl | rfl
      · exact hclosed.1
      · exact hclosed.2

/-- A diagram of young nodes is shared if no two young nodes are equal. -/
theorem Heap.shared (H : Heap frozen ext m) (hc : c.isTerminal = true ∨ frozen c = none)
    (hone : ∀ {g h k}, frozen g = none → frozen h = none → m.key? g = some k →
      m.key? h = some k → g = h) : Shared m.key? c := by
  intro g h D hg hh hD hE
  have hyoung : ∀ {j : Handle}, (j.isTerminal = true ∨ frozen j = none) →
      j.isTerminal = false → frozen j = none := fun hj ht => hj.resolve_left (by simp [ht])
  refine hD.eq_of_distinct hE (H.young_of_below hc hg) (H.young_of_below hc hh)
    (fun hj ht hk => H.closed _ _ (hyoung hj ht) hk) fun hi hj hti htj hki hkj => ?_
  exact hone (hyoung hi hti) (hyoung hj htj) hki hkj

theorem Rooted.shared (hR : Rooted m D c m') : Shared m'.key? c :=
  hR.heap.shared hR.young hR.canonical

/-! ## Taking nodes away -/

/-- Nodes have been taken away, and the others are as they were. -/
structure Thinned (m m' : Manager) : Prop where
  key : ∀ h k, m'.key? h = some k → m.key? h = some k
  literalVariables : m'.literalVariables = m.literalVariables
  tableBits : m'.tableBits = m.tableBits

theorem Thinned.refl (m : Manager) : Thinned m m := ⟨fun _ _ => id, rfl, rfl⟩

theorem Thinned.trans (h₁ : Thinned m m') (h₂ : Thinned m' m'') : Thinned m m'' :=
  ⟨fun h k hk => h₁.key h k (h₂.key h k hk), h₂.literalVariables.trans h₁.literalVariables,
    h₂.tableBits.trans h₁.tableBits⟩

theorem Rekeys.thinned (hr : Rekeys m m' m.key?) : Thinned m m' :=
  ⟨fun _ _ hk => by rwa [hr.key] at hk, hr.literalVariables, hr.tableBits⟩

theorem Rekeys.thinned_free (hr : Rekeys m m' (Function.update m.key? h none)) : Thinned m m' := by
  refine ⟨fun j k hk => ?_, hr.literalVariables, hr.tableBits⟩
  rw [hr.key] at hk
  by_cases hj : j = h
  · subst hj
    simp at hk
  · rwa [Function.update_of_ne hj] at hk

/-- A tree whose root is still there is there as a whole. -/
theorem Thinned.denotes (ht : Thinned m m') (H' : Heap frozen ext m') (hs : Sound frozen m' c)
    (hD : Denotes m.key? c D) : Denotes m'.key? c D := by
  refine hD.transfer hs fun {g k} hg hgt hk => ?_
  rcases hg with hg | ⟨hgf, hlive⟩
  · rw [hgt] at hg
    cases hg
  obtain ⟨k', hk'⟩ := Option.isSome_iff_exists.1 hlive
  obtain rfl := Option.some.inj ((ht.key g k' hk').symm.trans hk)
  exact ⟨hk', H'.sound_of_key hgf hk'⟩

/-- What somebody holds is there. -/
theorem Heap.sound_of_held (H : Heap frozen ext m) (hc : c.isTerminal = true ∨ frozen c = none)
    (he : 0 < ext c) : Sound frozen m c := by
  refine hc.imp_right fun hf => ⟨hf, ?_⟩
  rw [Option.isSome_iff_ne_none]
  intro hnone
  have := H.held (key?_eq_none_iff.1 hnone)
  omega

theorem destroyAll_spec : ∀ {fuel : Nat} {stack : List Handle} {m : Manager}, Heap frozen ext m →
    (∀ h ∈ stack, h.isTerminal = true ∨ frozen h = none) →
    Ends (destroyAll fuel stack) m fun _ m' => Heap frozen ext m' ∧ Thinned m m'
  | 0, _, m, H, _ => Ends.pure ⟨H, Thinned.refl m⟩
  | _ + 1, [], m, H, _ => Ends.pure ⟨H, Thinned.refl m⟩
  | fuel + 1, h :: stack, m, H, hstack => by
      obtain ⟨hh, hrest⟩ := List.forall_mem_cons.1 hstack
      unfold destroyAll
      refine Ends.get ?_
      split
      · exact destroyAll_spec H hrest
      rename_i hused
      simp only [Bool.or_eq_true, Bool.not_eq_true', not_or, Bool.not_eq_true,
        Bool.not_eq_false] at hused
      have hf := hh.resolve_left (by simp [hused.1])
      obtain ⟨n, hn⟩ := Arena.isUsed_iff.1 hused.2
      refine Ends.nodeAt hn ?_
      split
      · exact destroyAll_spec H hrest
      rename_i hrefs
      refine free_dereference_spec (fun n => destroyAll fuel (n.low :: n.high :: stack)) H hn hf
        (by omega) fun m₁ H₁ hr₁ => ?_
      have hclosed := H.closed h n.key hf (key?_of_get? hn)
      refine Ends.mono (destroyAll_spec H₁ ?_) fun _ m₂ h₂ =>
        ⟨h₂.1, hr₁.thinned_free.trans h₂.2⟩
      exact List.forall_mem_cons.2 ⟨hclosed.2, List.forall_mem_cons.2 ⟨hclosed.1, hrest⟩⟩

/-- A root that is released takes nodes with it and leaves the others alone. -/
theorem release_spec (H : Heap frozen (ext + Pi.single h 1) m) (hs : Sound frozen m h) :
    Ends (release h) m fun _ m' => Heap frozen ext m' ∧ Thinned m m' := by
  unfold release recursiveDestroy
  refine Ends.bind (dereference_spec H hs) ?_
  rintro _ m₁ ⟨H₁, hr₁⟩
  refine Ends.get (Ends.mono (destroyAll_spec H₁ ?_) fun _ m₂ h₂ =>
    ⟨h₂.1, hr₁.thinned.trans h₂.2⟩)
  rw [List.forall_mem_singleton]
  exact hs.imp_right And.left

/-! ## One heap on top of another -/

/-- The edges of a heap on top of another are those of both. -/
theorem edgesTo_over (H : Heap frozen ext m) (H' : Heap m.arena.get? ext' m') (h : Handle) :
    m'.edgesTo frozen h = m.edgesTo frozen h + m'.edgesTo m.arena.get? h := by
  unfold Manager.edgesTo
  have hle : m.arena.size ≤ max m.arena.size m'.arena.size := Nat.le_max_left ..
  have hle' : m'.arena.size ≤ max m.arena.size m'.arena.size := Nat.le_max_right ..
  rw [← edgesTo_of_le (fun j => young_key?_of_size_le) hle,
    ← edgesTo_of_le (fun j => young_key?_of_size_le) hle',
    ← edgesTo_of_le (f := young m.arena.get? m'.key?) (fun j => young_key?_of_size_le) hle']
  unfold edgesTo
  rw [← Finset.sum_add_distrib]
  refine Finset.sum_congr rfl fun i _ => ?_
  cases hi : m.arena.get? i with
  | some n =>
      have hkey : m'.key? i = m.key? i := by
        rw [key?_of_get? (H'.kept hi), key?_of_get? hi]
      simp [young, hi, hkey]
  | none =>
      have hfi : frozen i = none := by
        cases hf : frozen i with
        | none => rfl
        | some n =>
            rw [H.kept hf] at hi
            cases hi
      have hkey : m.key? i = none := key?_eq_none_iff.2 hi
      simp [young, hi, hfi, hkey]

/-- A heap on top of another, whose nodes are frozen and not held from above. -/
theorem Heap.over (H : Heap frozen ext m) (H' : Heap m.arena.get? ext' m')
    (hext : ∀ h, frozen h = none → (m.arena.get? h).isSome → ext' h = 0) :
    Heap frozen (ext + ext') m' := by
  have hfrozen : ∀ {h}, m.arena.get? h = none → frozen h = none := by
    intro h hh
    cases hf : frozen h with
    | none => rfl
    | some n =>
        rw [H.kept hf] at hh
        cases hh
  have hup : ∀ {c}, Sound frozen m c → Sound frozen m' c := by
    intro c hc
    refine hc.imp_right fun ⟨hf, hlive⟩ => ⟨hf, ?_⟩
    obtain ⟨n, hn⟩ := H.live (Or.inr ⟨hf, hlive⟩)
    rw [key?_of_get? (H'.kept hn)]
    rfl
  have hdown : ∀ {c}, Sound m.arena.get? m' c → Sound frozen m' c := fun hc =>
    hc.imp_right fun hc => ⟨hfrozen hc.1, hc.2⟩
  have hold : ∀ {h n n'}, m.arena.get? h = some n → m'.arena.get? h = some n' → n' = n :=
    fun hn hn' => Option.some.inj (hn'.symm.trans (H'.kept hn))
  refine ⟨H'.valid, H.terminal, fun hf => H'.kept (H.kept hf), ?_, ?_, ?_, ?_, ?_, ?_⟩
  · intro h n hn hf
    cases hm : m.arena.get? h with
    | some n' => exact hold hm hn ▸ H.literal_pos hm hf
    | none => exact H'.literal_pos hn hm
  · intro h n hn hf
    cases hm : m.arena.get? h with
    | some n' => exact hold hm hn ▸ H.ascends hm hf
    | none => exact H'.ascends hn hm
  · intro h n hn hf
    cases hm : m.arena.get? h with
    | some n' => exact hold hm hn ▸ hup (H.sound_high hm hf)
    | none => exact hdown (H'.sound_high hn hm)
  · intro h n hn hf
    cases hm : m.arena.get? h with
    | some n' => exact hold hm hn ▸ hup (H.sound_low hm hf)
    | none => exact hdown (H'.sound_low hn hm)
  · intro h n hn hf
    rw [edgesTo_over H H', Pi.add_apply]
    cases hm : m.arena.get? h with
    | some n' =>
        -- no node on top has an edge to it
        have hzero : m'.edgesTo m.arena.get? h = 0 := by
          rw [Manager.edgesTo_eq_zero_iff]
          intro hp
          rcases H'.sound_of_pointed hp with ht | ⟨hnone, -⟩
          · rw [H.not_terminal hf] at ht
            cases ht
          · rw [hm] at hnone
            cases hnone
        rw [hold hm hn, H.counted hm hf, hzero, hext h hf (by rw [hm]; rfl)]
        omega
    | none =>
        have hzero : m.edgesTo frozen h = 0 := Manager.edgesTo_eq_zero_iff.2 (H.not_pointed hm)
        rw [H'.counted hn hm, hzero, H.held hm]
        omega
  · intro h hh
    rw [Pi.add_apply, H'.held hh, Nat.add_zero]
    refine H.held ?_
    cases hm : m.arena.get? h with
    | none => rfl
    | some n =>
        rw [H'.kept hm] at hh
        cases hh

/-- What is built on top of a heap is held besides what was held. -/
theorem Rooted.over (hR : Rooted m D c m') (H : Heap frozen ext m) :
    Heap frozen (ext + Pi.single c 1) m' := by
  refine H.over hR.heap fun h hf hlive => ?_
  rw [Pi.single_apply, if_neg]
  rintro rfl
  rcases hR.young with ht | hnone
  · rw [H.not_terminal hf] at ht
    cases ht
  · rw [hnone] at hlive
    cases hlive

end BayesCircuit.Decision

/-!
## Isomorphic diagrams

Two diagrams are isomorphic if their nodes correspond one to one, the root to the root and each
terminal to itself, so that nodes that correspond test the same literal, carry the same weights and
have children that correspond. Shared diagrams with one tree are isomorphic (`Shared.isomorphic`):
a node of the one corresponds to the only node of the other that has its tree.
-/

namespace BayesCircuit.Decision

variable {f f' : Handle → Option Node.Key} {c c' g h : Handle} {D : Diagram}

/-- The nodes below `c` correspond to those below `c'`. -/
structure Isomorphism (f f' : Handle → Option Node.Key) (c c' : Handle) (φ : Handle → Handle) :
    Prop where
  root : φ c = c'
  bijective : Set.BijOn φ {g | Below f c g} {g | Below f' c' g}
  terminal : ∀ {g}, Below f c g → g.isTerminal = true → φ g = g
  node : ∀ {g}, Below f c g → g.isTerminal = false → (φ g).isTerminal = false ∧
    ∃ k, f g = some k ∧ f' (φ g) = some { k with high := φ k.high, low := φ k.low }

/-- The nodes below two roots correspond to each other. -/
def Isomorphic (f f' : Handle → Option Node.Key) (c c' : Handle) : Prop :=
  ∃ φ, Isomorphism f f' c c' φ

/-- Diagrams are isomorphic if their nodes are renamed and no two of them become one. -/
theorem Isomorphism.of_injOn {φ : Handle → Handle} (hinj : Set.InjOn φ {g | Below f c g})
    (hterminal : ∀ {g}, Below f c g → g.isTerminal = true → φ g = g)
    (hnode : ∀ {g}, Below f c g → g.isTerminal = false → (φ g).isTerminal = false ∧
      ∃ k, f g = some k ∧ f' (φ g) = some { k with high := φ k.high, low := φ k.low }) :
    Isomorphism f f' c (φ c) φ := by
  refine ⟨rfl, ⟨fun g hg => ?_, hinj, fun h hh => ?_⟩, hterminal, hnode⟩
  · show Below f' (φ c) (φ g)
    induction hg with
    | refl => exact .refl
    | tail hb he ih =>
        obtain ⟨ht, k, hk, hc⟩ := he
        obtain ⟨ht', k', hk', hφ⟩ := hnode hb ht
        obtain rfl := Option.some.inj (hk.symm.trans hk')
        refine ih.tail ⟨ht', _, hφ, ?_⟩
        rcases hc with rfl | rfl
        · exact Or.inl rfl
        · exact Or.inr rfl
  · induction hh with
    | refl => exact ⟨c, .refl, rfl⟩
    | tail _ he ih =>
        obtain ⟨g, hg, rfl⟩ := ih
        obtain ⟨ht', k', hk', hc⟩ := he
        have ht : g.isTerminal = false := by
          cases ht : g.isTerminal with
          | false => rfl
          | true => rw [hterminal hg ht, ht] at ht'; cases ht'
        obtain ⟨-, k, hk, hφ⟩ := hnode hg ht
        obtain rfl := Option.some.inj (hk'.symm.trans hφ)
        rcases hc with rfl | rfl
        · exact ⟨k.high, hg.tail ⟨ht, k, hk, Or.inl rfl⟩, rfl⟩
        · exact ⟨k.low, hg.tail ⟨ht, k, hk, Or.inr rfl⟩, rfl⟩

/-- A node of one diagram has its tree in the other as well. -/
theorem Below.exists_same_tree (hD : Denotes f c D) (hD' : Denotes f' c' D) (hb : Below f c g) :
    ∃ h E, Below f' c' h ∧ Denotes f g E ∧ Denotes f' h E := by
  induction hb with
  | refl => exact ⟨c', D, .refl, hD, hD'⟩
  | @tail g j _ he ih =>
      obtain ⟨h, E, hh, hE, hE'⟩ := ih
      obtain ⟨ht, k, hk, hkj⟩ := he
      obtain ⟨k₁, H, L, hk₁, hH, hL, rfl⟩ := hE.cases_node ht
      obtain rfl := Option.some.inj (hk₁.symm.trans hk)
      obtain ⟨ht', k', hk', -, -, hH', hL'⟩ := hE'.cases_branch
      rcases hkj with rfl | rfl
      · exact ⟨k'.high, H, hh.tail ⟨ht', k', hk', Or.inl rfl⟩, hH, hH'⟩
      · exact ⟨k'.low, L, hh.tail ⟨ht', k', hk', Or.inr rfl⟩, hL, hL'⟩

/-- Shared diagrams with one tree are isomorphic. -/
theorem Shared.isomorphic (hs : Shared f c) (hs' : Shared f' c') (hD : Denotes f c D)
    (hD' : Denotes f' c' D) : Isomorphic f f' c c' := by
  choose! φ tree hφ using fun g (hb : Below f c g) => hb.exists_same_tree hD hD'
  -- the node that has the tree of `g` is the node that corresponds to `g`
  have heq : ∀ {g h E}, Below f c g → Below f' c' h → Denotes f g E → Denotes f' h E → φ g = h := by
    intro g h E hg hh hE hE'
    obtain ⟨hb, hT, hT'⟩ := hφ g hg
    exact hs' hb hh (hT.unique hE ▸ hT') hE'
  have hroot : φ c = c' := heq .refl .refl hD hD'
  refine ⟨φ, hroot ▸ .of_injOn ?_ ?_ ?_⟩
  · intro g hg h hh he
    obtain ⟨-, hT, hT'⟩ := hφ g hg
    obtain ⟨-, hU, hU'⟩ := hφ h hh
    rw [he] at hT'
    exact hs hg hh hT (hT'.unique hU' ▸ hU)
  · intro g hg ht
    obtain ⟨-, hT, hT'⟩ := hφ g hg
    rcases isTerminal_iff.1 ht with rfl | rfl
    · exact hT'.eq_false_iff.2 (hT.eq_false_iff.1 rfl)
    · exact hT'.eq_true_iff.2 (hT.eq_true_iff.1 rfl)
  · intro g hg ht
    obtain ⟨hb, hT, hT'⟩ := hφ g hg
    obtain ⟨k, H, L, hk, hH, hL, he⟩ := hT.cases_node ht
    rw [he] at hT'
    obtain ⟨ht', k', hk', hlit, hws, hH', hL'⟩ := hT'.cases_branch
    have hhigh := heq (hg.tail ⟨ht, k, hk, Or.inl rfl⟩) (hb.tail ⟨ht', k', hk', Or.inl rfl⟩) hH hH'
    have hlow := heq (hg.tail ⟨ht, k, hk, Or.inr rfl⟩) (hb.tail ⟨ht', k', hk', Or.inr rfl⟩) hL hL'
    refine ⟨ht', k, hk, ?_⟩
    rw [hk', hhigh, hlow, ← hlit, ← hws]

end BayesCircuit.Decision

/-!
## Queues of diagrams

Several roots are held at a time, on top of what a manager has; each has a label that tells its
tree (`Held`). A diagram that is built joins the queue (`Held.push`). A conjunction replaces two
diagrams by one with the joined label, and what it releases leaves the other diagrams as they are
(`Held.release`). In the end one diagram is left (`conjoinAll_held`).
-/

namespace BayesCircuit.Decision

open Collection Decision.Action

variable {ι : Type} {m₀ m m' : Manager} {tree : ι → Diagram} {c g : Handle} {t : ι} {D : Diagram}
variable {queue rest : List (Handle × ι)} {x y : Handle × ι} {f f' : Handle → Option Node.Key}

/-! ### Diagrams of a queue -/

/-- What is below a diagram does not change when nodes are added. -/
theorem Below.of_extends (hf : ∀ h k, f h = some k → f' h = some k) (hD : Denotes f c D)
    (hb : Below f' c g) : Below f c g ∧ ∃ E, Denotes f g E := by
  induction hb with
  | refl => exact ⟨.refl, D, hD⟩
  | tail _ he ih =>
      obtain ⟨hb, E, hE⟩ := ih
      obtain ⟨ht, k, hk, hkh⟩ := he
      obtain ⟨k', H, L, hk', hH, hL, rfl⟩ := hE.cases_node ht
      rw [hf _ _ hk'] at hk
      cases hk
      refine ⟨.tail hb ⟨ht, _, hk', hkh⟩, ?_⟩
      rcases hkh with rfl | rfl
      · exact ⟨H, hH⟩
      · exact ⟨L, hL⟩

/-- A shared diagram stays shared when nodes are added. -/
theorem Shared.of_extends (hf : ∀ h k, f h = some k → f' h = some k) (hD : Denotes f c D)
    (hs : Shared f c) : Shared f' c := by
  intro g h E hg hh hE hE'
  obtain ⟨hg, G, hG⟩ := hg.of_extends hf hD
  obtain ⟨hh, G', hG'⟩ := hh.of_extends hf hD
  obtain rfl := hE.unique (hG.mono hf)
  obtain rfl := hE'.unique (hG'.mono hf)
  exact hs hg hh hG hG'

/-- The references that the roots of a queue have. -/
def holders (queue : List (Handle × ι)) : Handle → Nat := fun h => (queue.map (·.1)).count h

theorem holders_cons : holders (x :: queue) = holders queue + Pi.single x.1 1 := by
  funext h
  simp only [holders, List.map_cons, List.count_cons, Pi.add_apply, Pi.single_apply, beq_iff_eq,
    eq_comm (a := h)]

theorem holders_append_singleton : holders (queue ++ [x]) = holders queue + Pi.single x.1 1 := by
  funext h
  simp only [holders, List.map_append, List.count_append, List.map_cons, List.map_nil,
    List.count_singleton, Pi.add_apply, Pi.single_apply, beq_iff_eq, eq_comm (a := h)]

/-- The roots of a queue, on top of the nodes of a manager, are held and have the trees of their
labels. -/
structure Held (m₀ : Manager) (tree : ι → Diagram) (queue : List (Handle × ι)) (m : Manager) :
    Prop where
  heap : Heap m₀.arena.get? (holders queue) m
  denotes : ∀ x ∈ queue, Denotes m.key? x.1 (tree x.2)
  young : ∀ x ∈ queue, x.1.isTerminal = true ∨ m₀.arena.get? x.1 = none
  shared : ∀ x ∈ queue, Shared m.key? x.1
  literalVariables : m.literalVariables = m₀.literalVariables
  tableBits : m.tableBits = m₀.tableBits

theorem Held.start (V : m₀.Valid) : Held m₀ tree [] m₀ where
  heap := V.heap
  denotes := fun _ hx => absurd hx List.not_mem_nil
  young := fun _ hx => absurd hx List.not_mem_nil
  shared := fun _ hx => absurd hx List.not_mem_nil
  literalVariables := rfl
  tableBits := rfl

theorem Held.valid (H : Held m₀ tree queue m) (V : m₀.Valid) : m.Valid :=
  H.heap.valid_manager V H.tableBits

/-- A diagram that is built joins the queue. -/
theorem Held.push (H : Held m₀ tree queue m)
    (hR : Rooted m (tree t) c m') :
    Held m₀ tree (queue ++ [(c, t)]) m' := by
  have hgrow : ∀ h k, m.key? h = some k → m'.key? h = some k := by
    intro h k hk
    obtain ⟨n, hn, rfl⟩ := key?_eq_some_iff.1 hk
    exact key?_of_get? (hR.heap.kept hn)
  have hcases : ∀ {P : Handle × ι → Prop}, (∀ x ∈ queue, P x) → P (c, t) →
      ∀ x ∈ queue ++ [(c, t)], P x := by
    intro P hP hc x hx
    rcases List.mem_append.1 hx with hx | hx
    · exact hP x hx
    · rw [List.mem_singleton] at hx
      exact hx ▸ hc
  refine ⟨?_, hcases (fun x hx => (H.denotes x hx).mono hgrow) hR.denotes,
    hcases H.young ?_, hcases (fun x hx => Shared.of_extends hgrow (H.denotes x hx) (H.shared x hx))
      hR.shared, hR.literalVariables.trans H.literalVariables, hR.tableBits.trans H.tableBits⟩
  · rw [holders_append_singleton]
    exact hR.over H.heap
  · refine hR.young.imp_right fun hnone => ?_
    cases hc : m₀.arena.get? c with
    | none => rfl
    | some n =>
        rw [H.heap.kept hc] at hnone
        cases hnone

/-- The first diagram of a queue is released. -/
theorem Held.release (H : Held m₀ tree (x :: queue) m) :
    Ends (release x.1) m fun _ m' => Held m₀ tree queue m' := by
  have hheap := H.heap
  rw [holders_cons] at hheap
  have hsound := sound_of_denotes (H.young x (List.mem_cons_self ..))
    (H.denotes x (List.mem_cons_self ..))
  refine Ends.mono (release_spec hheap hsound) ?_
  rintro _ m' ⟨H', hthin⟩
  have hmem : ∀ y ∈ queue, y ∈ x :: queue := fun y hy => List.mem_cons_of_mem x hy
  refine ⟨H', fun y hy => ?_, fun y hy => H.young y (hmem y hy),
    fun y hy => Shared.mono hthin.key (H.shared y (hmem y hy)),
    hthin.literalVariables.trans H.literalVariables, hthin.tableBits.trans H.tableBits⟩
  refine hthin.denotes H' (H'.sound_of_held (H.young y (hmem y hy)) ?_) (H.denotes y (hmem y hy))
  exact List.count_pos_iff.2 (List.mem_map_of_mem hy)

/-- A root gets another label with the same tree. -/
theorem Held.relabel {t' : ι} (H : Held m₀ tree [(c, t)] m) (ht : tree t = tree t') :
    Held m₀ tree [(c, t')] m where
  heap := H.heap
  denotes := List.forall_mem_singleton.2 (ht ▸ H.denotes (c, t) (List.mem_singleton_self _))
  young := List.forall_mem_singleton.2 (H.young (c, t) (List.mem_singleton_self _))
  shared := List.forall_mem_singleton.2 (H.shared (c, t) (List.mem_singleton_self _))
  literalVariables := H.literalVariables
  tableBits := H.tableBits

/-- The order of a queue does not matter. -/
theorem Held.perm {queue' : List (Handle × ι)} (H : Held m₀ tree queue m)
    (hp : queue'.Perm queue) : Held m₀ tree queue' m where
  heap := by
    have hholders : holders queue' = holders queue := by
      funext h
      exact (hp.map _).count_eq h
    rw [hholders]
    exact H.heap
  denotes x hx := H.denotes x (hp.mem_iff.1 hx)
  young x hx := H.young x (hp.mem_iff.1 hx)
  shared x hx := H.shared x (hp.mem_iff.1 hx)
  literalVariables := H.literalVariables
  tableBits := H.tableBits

/-- Diagrams that are built one after the other join the queue. -/
theorem Held.mapM {α : Type} {act : α → Action Handle} (V : m₀.Valid) {xs : List α} {ts : List ι}
    (hact : List.Forall₂ (fun x t => ∀ m : Manager, m.Valid →
      m.literalVariables = m₀.literalVariables → Ends (act x) m (Rooted m (tree t))) xs ts)
    (H : Held m₀ tree queue m) : Ends (xs.mapM act) m fun hs m' =>
      hs.length = ts.length ∧ Held m₀ tree (queue ++ hs.zip ts) m' := by
  induction hact generalizing queue m with
  | nil => exact Ends.pure ⟨rfl, by simpa using H⟩
  | @cons x t xs ts hx _ ih =>
      rw [List.mapM_cons]
      refine Ends.bind (hx m (H.valid V) H.literalVariables) fun c m₁ hR => ?_
      refine Ends.bind (ih (H.push hR)) ?_
      rintro hs m₂ ⟨hlength, H₂⟩
      refine Ends.pure ⟨congrArg (· + 1) hlength, ?_⟩
      rwa [List.append_assoc] at H₂

/-! ### Conjoining a queue -/

/-- Two labels are joined behind the others, and their diagrams can be conjoined. -/
structure Joins (m₀ : Manager) (tree : ι → Diagram) (join : ι → ι → ι) (ordering : List Literal)
    (collapse : Bool) (P : List ι → Prop) : Prop where
  joined : ∀ {t t' ts}, P (t :: t' :: ts) → P (ts ++ [join t t'])
  conjoined : ∀ {t t' ts a b m}, P (t :: t' :: ts) → m.Valid →
    m.literalVariables = m₀.literalVariables → Denotes m.key? a (tree t) →
    Denotes m.key? b (tree t') → Ends (conjoin a b ordering collapse false) m fun c m' =>
      Rooted m (tree (join t t')) c m'

variable {join : ι → ι → ι} {ordering : List Literal} {collapse : Bool} {P : List ι → Prop}

/-- A queue is conjoined until one diagram is left. -/
theorem conjoinFrom_held (V : m₀.Valid) (J : Joins m₀ tree join ordering collapse P) :
    ∀ {fuel : Nat} {queue : List (Handle × ι)} {m : Manager}, queue ≠ [] →
      queue.length ≤ fuel + 1 → P (queue.map (·.2)) → Held m₀ tree queue m →
      Ends (conjoinFrom ordering collapse false fuel (queue.map (·.1))) m fun c m' =>
        ∃ t, P [t] ∧ Held m₀ tree [(c, t)] m'
  | _, [x], m, _, _, hP, H => by
      rw [conjoinFrom]
      · exact Ends.pure ⟨x.2, hP, H⟩
      · simp
  | 0, x :: y :: rest, m, _, hfuel, _, _ => by simp at hfuel
  | fuel + 1, x :: y :: rest, m, _, hfuel, hP, H => by
      have hconjoin := J.conjoined hP (H.valid V) H.literalVariables
        (H.denotes x (List.mem_cons_self ..))
        (H.denotes y (List.mem_cons_of_mem _ (List.mem_cons_self ..)))
      rw [List.map_cons, List.map_cons, conjoinFrom]
      refine Ends.bind (Ends.tryCatch hconjoin) ?_
      intro c m₁ hR
      have H₁ := H.push hR
      refine Ends.bind H₁.release fun _ m₂ H₂ => Ends.bind H₂.release fun _ m₃ H₃ => ?_
      have hlength : (rest ++ [(c, join x.2 y.2)]).length ≤ fuel + 1 := by simpa using hfuel
      have hnext := conjoinFrom_held V J (by simp) hlength (by simpa using J.joined hP) H₃
      simpa using hnext

theorem conjoinAll_held (V : m₀.Valid) (J : Joins m₀ tree join ordering collapse P)
    (hne : queue ≠ []) (hP : P (queue.map (·.2))) (H : Held m₀ tree queue m) :
    Ends (conjoinAll (queue.map (·.1)) ordering collapse false) m fun c m' =>
      ∃ t, P [t] ∧ Held m₀ tree [(c, t)] m' :=
  conjoinFrom_held V J hne (by simp) hP H

end BayesCircuit.Decision
