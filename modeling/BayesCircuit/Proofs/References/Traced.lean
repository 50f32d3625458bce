import BayesCircuit.Proofs.References.Balanced
import BayesCircuit.Proofs.References.Graph

/-!
# Nodes that can be traced to a holder

`Traced frozen ext s m` adds to the counts of a heap that the graph of the nodes has no cycle and
that a node to which no edge leads has a holder or belongs to the set `s`. Such a heap leaks
nothing: without holders and with an empty set no decision node is left (`Traced.live_eq_zero`).

The set holds the nodes that somebody still has to attach or to free. Each rule of this file says
which nodes an operation puts there and which it takes away. The operations that free nodes are the
delicate ones, because the children of a freed node may lose their last edge.
-/

namespace BayesCircuit.Decision

open Collection Action

variable {α : Type} {m m' : Manager} {frozen : Handle → Option Node} {ext : Handle → Nat}
variable {s t : Set Handle} {h g c : Handle} {k : Node.Key}

/-- The graph of the nodes has no cycle, and every node is attached, held or in the set. -/
structure Traced (frozen : Handle → Option Node) (ext : Handle → Nat) (s : Set Handle)
    (m : Manager) : Prop where
  heap : Heap frozen ext m
  unfolds : Unfolds m.key?
  attached : Attached frozen (s ∪ {h | 0 < ext h}) m.key?

namespace Traced

theorem mono (T : Traced frozen ext s m) (hst : s ⊆ t) : Traced frozen ext t m :=
  ⟨T.heap, T.unfolds, T.attached.mono (Set.union_subset_union_left _ hst)⟩

/-- Only the nodes of the arena matter, not the products. -/
theorem congr (T : Traced frozen ext s m) (ha : m'.arena = m.arena) : Traced frozen ext s m' := by
  have hkey : m'.key? = m.key? := key?_congr ha
  exact ⟨T.heap.congr ha, hkey ▸ T.unfolds, hkey ▸ T.attached⟩

theorem of_rekeys {f : Handle → Option Node.Key} (H : Heap frozen ext m') (hr : Rekeys m m' f)
    (hU : Unfolds f) (hA : Attached frozen (s ∪ {h | 0 < ext h}) f) : Traced frozen ext s m' :=
  ⟨H, hr.key ▸ hU, hr.key ▸ hA⟩

/-- A handle leaves the set unless the set is the only trace of its node. -/
theorem drop (T : Traced frozen ext (insert h s) m)
    (hh : h.isTerminal = true ∨ h ∈ s ∨ Pointed frozen m.key? h ∨ 0 < ext h ∨ m.key? h = none) :
    Traced frozen ext s m := by
  refine ⟨T.heap, T.unfolds, fun g k hg hk => ?_⟩
  rcases T.attached g k hg hk with hs | hp
  · rw [Set.insert_union] at hs
    rcases Set.mem_insert_iff.1 hs with rfl | hs
    · rcases hh with ht | hs | hp | he | hnone
      · rw [T.heap.not_terminal hg] at ht
        cases ht
      · exact Or.inl (Or.inl hs)
      · exact Or.inr hp
      · exact Or.inl (Or.inr he)
      · rw [hnone] at hk
        cases hk
    · exact Or.inl hs
  · exact Or.inr hp

theorem drop_terminal (T : Traced frozen ext (insert h s) m) (hh : h.isTerminal = true) :
    Traced frozen ext s m :=
  T.drop (Or.inl hh)

theorem drop_pointed (T : Traced frozen ext (insert h s) m) (hh : Pointed frozen m.key? h) :
    Traced frozen ext s m :=
  T.drop (Or.inr (Or.inr (Or.inl hh)))

theorem denotes (T : Traced frozen ext s m) (hc : Sound frozen m c) : ∃ D, Denotes m.key? c D := by
  rcases hc with ht | ⟨_, hlive⟩
  · rcases isTerminal_iff.1 ht with rfl | rfl
    · exact ⟨_, .false'⟩
    · exact ⟨_, .true'⟩
  · exact T.unfolds c hlive

/-- Nothing leads to a node to which no edge leads. -/
theorem not_below (hb : Bare frozen) (hp : ¬ Pointed frozen m.key? h) (hc : c ≠ h) :
    ¬ Below m.key? c h :=
  not_below_of_not_edge (fun _ he => hp (he.pointed hb)) hc

/-- A node is not below its children. -/
theorem not_below_child (T : Traced frozen ext s m) (hh : h.isTerminal = false)
    (hk : m.key? h = some k) : ¬ Below m.key? k.high h ∧ ¬ Below m.key? k.low h := by
  obtain ⟨D, hD⟩ := T.unfolds h (by rw [hk]; rfl)
  exact ⟨hD.not_below ⟨hh, k, hk, Or.inl rfl⟩, hD.not_below ⟨hh, k, hk, Or.inr rfl⟩⟩

/-- Every decision node is below one that is held or in the set: the trees above a node are deeper,
so there is no infinite way up. -/
theorem exists_holder (T : Traced frozen ext s m) (hb : Bare frozen) (hh : h.isTerminal = false)
    (hlive : (m.key? h).isSome) :
    ∃ g : Handle, g.isTerminal = false ∧ (g ∈ s ∨ 0 < ext g) ∧ Below m.key? g h := by
  obtain ⟨D, hD⟩ := T.unfolds h hlive
  induction hd : m.arena.size - D.depth using Nat.strong_induction_on generalizing h D with
  | h d ih =>
      obtain ⟨k, -, -, hk, -, -, -⟩ := hD.cases_node hh
      rcases T.attached h k (hb h hh) hk with hs | hp
      · exact ⟨h, hh, hs, .refl⟩
      · obtain ⟨g, hgh⟩ := hp.edge T.heap
        have ⟨hg, kg, hkg, _⟩ := hgh
        have hglive : (m.key? g).isSome := by rw [hkg]; rfl
        obtain ⟨E, hE⟩ := T.unfolds g hglive
        obtain ⟨D', hD', hlt⟩ := hE.of_edge hgh
        obtain rfl := hD.unique hD'
        have hle := hE.depth_le_size
        obtain ⟨r, hr, hholds, hbelow⟩ := ih (m.arena.size - E.depth) (by omega) hg hglive E hE rfl
        exact ⟨r, hr, hholds, hbelow.tail hgh⟩

/-- Without holders there is no decision node. -/
theorem key?_eq_none (T : Traced frozen ext ∅ m) (hb : Bare frozen)
    (hext : ∀ h : Handle, h.isTerminal = false → ext h = 0) (hh : h.isTerminal = false) :
    m.key? h = none := by
  by_contra hlive
  obtain ⟨g, hg, hs | hheld, -⟩ := T.exists_holder hb hh (Option.isSome_iff_ne_none.2 hlive)
  · exact absurd hs (Set.notMem_empty g)
  · have := hext g hg
    omega

end Traced

/-- An arena in which only the terminals are left has no decision node. -/
theorem Heap.live_eq_zero (H : Heap frozen ext m)
    (hnone : ∀ h : Handle, h.isTerminal = false → m.key? h = none) : m.live = 0 := by
  have hmem : ∀ i, i ∈ m.arena.vacant ↔ i < m.arena.size ∧ 1 < i := by
    intro i
    rw [H.valid.mem_vacant]
    refine and_congr_right fun _ => ?_
    cases ht : Handle.isTerminal i with
    | true =>
        obtain ⟨n, hn⟩ := Option.isSome_iff_exists.1 (H.terminal i ht)
        have hle : i ≤ 1 := by simpa [Handle.isTerminal] using ht
        simp only [H.kept hn, reduceCtorEq, false_iff]
        omega
    | false =>
        have hlt : 1 < i := by simpa [Handle.isTerminal] using ht
        simp [key?_eq_none_iff.1 (hnone i ht), hlt]
  have hvacant : m.arena.vacant.toFinset = Finset.Ico 2 m.arena.size := by
    ext i
    rw [List.mem_toFinset, hmem, Finset.mem_Ico]
    omega
  have hcard := congrArg Finset.card hvacant
  rw [List.toFinset_card_of_nodup H.valid.nodup, Nat.card_Ico] at hcard
  have := H.valid.used_add
  unfold Manager.live
  omega

/-- Without holders nothing is left. -/
theorem Traced.live_eq_zero (T : Traced frozen ext ∅ m) (hb : Bare frozen)
    (hext : ∀ h : Handle, h.isTerminal = false → ext h = 0) : m.live = 0 :=
  T.heap.live_eq_zero fun _ => T.key?_eq_none hb hext

/-! ## References and edges -/

/-- The caller trades a place in the set for a reference. -/
theorem traced_reference (hb : Bare frozen) (T : Traced frozen ext (insert c s) m) :
    Gives (reference c) m fun _ m' =>
      Traced frozen (ext + Pi.single c 1) s m' ∧ Rekeys m m' m.key? := by
  refine Gives.mono (gives_reference hb T.heap) ?_
  rintro _ m' ⟨-, H', hr⟩
  refine ⟨.of_rekeys H' hr T.unfolds (T.attached.mono ?_), hr⟩
  rintro g (hg | hg)
  · rcases Set.mem_insert_iff.1 hg with rfl | hg
    · exact Or.inr (by simp)
    · exact Or.inl hg
  · refine Or.inr ?_
    simp only [Set.mem_ofPred_eq, Pi.add_apply] at hg ⊢
    omega

theorem traced_dereference (hb : Bare frozen) (T : Traced frozen (ext + Pi.single c 1) s m) :
    Gives (dereference c) m fun _ m' =>
      Traced frozen ext (insert c s) m' ∧ Rekeys m m' m.key? := by
  refine Gives.mono (gives_dereference hb T.heap) ?_
  rintro _ m' ⟨H', hr⟩
  refine ⟨.of_rekeys H' hr T.unfolds (T.attached.mono ?_), hr⟩
  rintro g (hg | hg)
  · exact Or.inl (Set.mem_insert_of_mem _ hg)
  · by_cases hgc : g = c
    · exact Or.inl (hgc ▸ Set.mem_insert _ _)
    · refine Or.inr ?_
      simpa [hgc] using hg

/-- An edge of a node is turned from `g` to `c`. What it led to goes to the set. -/
theorem Traced.turn {k' : Node.Key} (T : Traced frozen ext (insert c s) m) (hb : Bare frozen)
    (hh : h.isTerminal = false) (hk : m.key? h = some k) (H' : Heap frozen ext m')
    (hr : Rekeys m m' (Function.update m.key? h (some k')))
    (hchild : ∀ {j}, k'.high = j ∨ k'.low = j → Sound frozen m j ∧ ¬ Below m.key? j h)
    (hc : k'.high = c ∨ k'.low = c)
    (hold : ∀ j, k.high = j ∨ k.low = j → (k'.high = j ∨ k'.low = j) ∨ j = g) :
    Traced frozen ext (insert g s) m' := by
  obtain ⟨hhigh, hnotHigh⟩ := hchild (Or.inl rfl)
  obtain ⟨hlow, hnotLow⟩ := hchild (Or.inr rfl)
  refine .of_rekeys H' hr
    (T.unfolds.change hh (T.denotes hhigh) (T.denotes hlow) hnotHigh hnotLow) ?_
  rw [Set.insert_union]
  refine Attached.change (c := c) ?_ (hb h hh) hk hc fun j _ hj => (hold j hj).imp_right ?_
  · refine T.attached.mono ?_
    rw [Set.insert_union]
    exact Set.insert_subset_insert (Set.subset_insert _ _)
  · rintro rfl
    exact Set.mem_insert _ _

theorem traced_setHigh (hb : Bare frozen) (T : Traced frozen ext (insert c s) m)
    (hh : h.isTerminal = false) (hc : ¬ Below m.key? c h) :
    Gives (setHigh h c) m fun _ m' => ∃ k, m.key? h = some k ∧ Sound frozen m c ∧
      Traced frozen ext (insert k.high s) m' ∧
      Rekeys m m' (Function.update m.key? h (some { k with high := c })) := by
  refine Gives.mono (gives_setHigh hb T.heap hh) ?_
  rintro _ m' ⟨k, hk, hs, H', hr⟩
  refine ⟨k, hk, hs, T.turn hb hh hk H' hr ?_ (Or.inl rfl) ?_, hr⟩
  · rintro j (rfl | rfl)
    · exact ⟨hs, hc⟩
    · exact ⟨(T.heap.sound_of_key (hb h hh) hk).2, (T.not_below_child hh hk).2⟩
  · rintro j (rfl | rfl)
    · exact Or.inr rfl
    · exact Or.inl (Or.inr rfl)

theorem traced_setLow (hb : Bare frozen) (T : Traced frozen ext (insert c s) m)
    (hh : h.isTerminal = false) (hc : ¬ Below m.key? c h) :
    Gives (setLow h c) m fun _ m' => ∃ k, m.key? h = some k ∧ Sound frozen m c ∧
      Traced frozen ext (insert k.low s) m' ∧
      Rekeys m m' (Function.update m.key? h (some { k with low := c })) := by
  refine Gives.mono (gives_setLow hb T.heap hh) ?_
  rintro _ m' ⟨k, hk, hs, H', hr⟩
  refine ⟨k, hk, hs, T.turn hb hh hk H' hr ?_ (Or.inr rfl) ?_, hr⟩
  · rintro j (rfl | rfl)
    · exact ⟨(T.heap.sound_of_key (hb h hh) hk).1, (T.not_below_child hh hk).1⟩
    · exact ⟨hs, hc⟩
  · rintro j (rfl | rfl)
    · exact Or.inl (Or.inl rfl)
    · exact Or.inr rfl

/-! ## Making nodes -/

theorem traced_create {l : Literal} {ws : Weights} (T : Traced frozen ext s m) :
    Gives (create l ws) m fun h m' => m.key? h = none ∧ h.isTerminal = false ∧
      Traced frozen ext (insert h s) m' ∧ Rekeys m m' (Function.update m.key? h
        (some ⟨l.value, Handle.false', Handle.false', ws⟩)) := by
  refine Gives.mono (gives_create T.heap) ?_
  rintro h m' ⟨hnone, hh, H', hr⟩
  refine ⟨hnone, hh, .of_rekeys H' hr ?_ ?_, hr⟩
  · exact T.unfolds.add hnone hh ⟨_, .false'⟩ ⟨_, .false'⟩
  · rw [Set.insert_union]
    exact T.attached.add hnone

/-- No edge leads to a node that has just been made. -/
theorem Traced.not_pointed_of_create (T : Traced frozen ext s m) (hnone : m.key? h = none)
    (hhigh : Sound frozen m k.high) (hlow : Sound frozen m k.low) :
    ¬ Pointed frozen (Function.update m.key? h (some k)) h := by
  intro hp
  rcases hp.of_update_some with hp | he | he
  · exact T.heap.not_pointed (key?_eq_none_iff.1 hnone) hp
  · exact T.heap.ne_of_dead hnone hhigh he
  · exact T.heap.ne_of_dead hnone hlow he

theorem traced_makeNode {l : Literal} {high low : Handle} {ws : Weights} (hb : Bare frozen)
    (T : Traced frozen ext (insert high (insert low s)) m)
    (hhigh : high.isTerminal = true ∨ (m.key? high).isSome)
    (hlow : low.isTerminal = true ∨ (m.key? low).isSome) :
    Gives (makeNode l high low ws) m fun h m' => m.key? h = none ∧ h.isTerminal = false ∧
      Traced frozen ext (insert h s) m' ∧
      Rekeys m m' (Function.update m.key? h (some ⟨l.value, high, low, ws⟩)) := by
  have hsound : ∀ {c : Handle}, c.isTerminal = true ∨ (m.key? c).isSome → Sound frozen m c := by
    rintro c (ht | hlive)
    · exact Or.inl ht
    · exact hb.sound hlive
  have hterm : Sound frozen m Handle.false' := Or.inl rfl
  unfold makeNode
  refine Gives.bind (traced_create T) ?_
  rintro h m₁ ⟨hnone, hh, T₁, hr₁⟩
  have hnot₁ : ¬ Pointed frozen m₁.key? h := by
    rw [hr₁.key]
    exact T.not_pointed_of_create hnone hterm hterm
  have hne : ∀ {c : Handle}, Sound frozen m c → c ≠ h := fun hs => T.heap.ne_of_dead hnone hs
  rw [Set.insert_comm] at T₁
  refine Gives.bind (traced_setHigh hb T₁ hh (Traced.not_below hb hnot₁ (hne (hsound hhigh)))) ?_
  rintro _ m₂ ⟨k, hk, -, T₂, hr₂⟩
  have hkey : k = ⟨l.value, Handle.false', Handle.false', ws⟩ := by
    rw [hr₁.key, Function.update_self] at hk
    exact (Option.some.inj hk).symm
  subst hkey
  have hkey₂ : m₂.key? = Function.update m.key? h (some ⟨l.value, high, Handle.false', ws⟩) := by
    rw [hr₂.key, hr₁.key, Function.update_idem]
  have hnot₂ : ¬ Pointed frozen m₂.key? h := by
    rw [hkey₂]
    exact T.not_pointed_of_create hnone (hsound hhigh) hterm
  have T₂' := T₂.drop_terminal rfl
  rw [Set.insert_comm] at T₂'
  refine Gives.bind (traced_setLow hb T₂' hh (Traced.not_below hb hnot₂ (hne (hsound hlow)))) ?_
  rintro _ m₃ ⟨k, hk, -, T₃, hr₃⟩
  rw [hkey₂, Function.update_self, Option.some.injEq] at hk
  subst hk
  refine Gives.pure ⟨hnone, hh, T₃.drop_terminal rfl, (hr₁.trans hr₂).trans ⟨?_,
    hr₃.literalVariables, hr₃.tableBits, hr₃.products⟩⟩
  rw [hr₃.key, hkey₂, Function.update_idem]

/-! ## Freeing nodes -/

/-- The children of a node that is taken away go to the set. -/
theorem Traced.remove (T : Traced frozen ext (insert h s) m) (hb : Bare frozen)
    (hk : m.key? h = some k) (hp : ¬ Pointed frozen m.key? h) :
    Unfolds (Function.update m.key? h none) ∧
      Attached frozen (insert k.high (insert k.low s) ∪ {h | 0 < ext h})
        (Function.update m.key? h none) := by
  refine ⟨T.unfolds.remove fun g he => hp (he.pointed hb), Attached.remove ?_ hk ?_⟩
  · refine T.attached.mono ?_
    rw [Set.insert_union]
    refine Set.insert_subset_insert (Set.union_subset_union_left _ ?_)
    exact (Set.subset_insert _ _).trans (Set.subset_insert _ _)
  · rintro j (rfl | rfl) - _ -
    · exact Or.inl (Or.inl (Set.mem_insert _ _))
    · exact Or.inl (Or.inl (Set.mem_insert_of_mem _ (Set.mem_insert _ _)))

/-- The handle leaves the set in both cases. -/
theorem traced_destroy (hb : Bare frozen) (T : Traced frozen ext (insert h s) m) :
    Gives (destroy h) m fun _ m' =>
      (∃ k, m.key? h = some k ∧ h.isTerminal = false ∧ ¬ Pointed frozen m.key? h ∧ ext h = 0 ∧
        Traced frozen ext (insert k.high (insert k.low s)) m' ∧
        Rekeys m m' (Function.update m.key? h none)) ∨
      Traced frozen ext s m ∧ m' = m := by
  refine Gives.mono (gives_destroy hb T.heap) ?_
  rintro _ m' (⟨⟨k, hk⟩, hh, hp, he, H', hr⟩ | ⟨hwhy, hm'⟩)
  · obtain ⟨hU, hA⟩ := T.remove hb hk hp
    exact Or.inl ⟨k, hk, hh, hp, he, .of_rekeys H' hr hU hA, hr⟩
  · refine Or.inr ⟨T.drop ?_, hm'⟩
    rcases hwhy with ht | hp | he
    · exact Or.inl ht
    · exact Or.inr (Or.inr (Or.inl hp))
    · exact Or.inr (Or.inr (Or.inr (Or.inl he)))

/-- A node that equals another one is freed; its children stay attached. -/
theorem traced_destroy_twin (hb : Bare frozen) (T : Traced frozen ext (insert h s) m)
    (hne : c ≠ h) (hc : c.isTerminal = false)
    (htwin : ∀ k, m.key? h = some k → m.key? c = some k) :
    Gives (destroy h) m fun _ m' => Traced frozen ext (insert c s) m' ∧
      (m' = m ∨ h.isTerminal = false ∧ (m.key? h).isSome ∧ ¬ Pointed frozen m.key? h ∧
        Rekeys m m' (Function.update m.key? h none)) := by
  refine Gives.mono ((traced_destroy hb T).and (gives_destroy hb T.heap)) ?_
  rintro _ m' ⟨⟨k, hk, hh, hp, -, T', hr⟩ | ⟨T', rfl⟩, -⟩
  · refine ⟨⟨T'.heap, T'.unfolds, ?_⟩, Or.inr ⟨hh, by rw [hk]; rfl, hp, hr⟩⟩
    have hA := T.attached
    rw [Set.insert_union] at hA ⊢
    rw [hr.key]
    exact hA.remove_twin hk (htwin k hk) (hb c hc) hne
  · exact ⟨T'.mono (Set.subset_insert _ _), Or.inl rfl⟩

theorem gives_dereference_used :
    Gives (dereference c) m fun _ m' => m'.arena.used = m.arena.used := by
  unfold dereference
  split
  · exact Gives.pure rfl
  · refine Gives.nodeAt fun n hn => Gives.lift fun _ _ => ?_
    refine Gives.mono gives_change ?_
    rintro _ m' ⟨-, rfl⟩
    rfl

theorem gives_free_used (hv : m.arena.Valid) :
    Gives (free h) m fun _ m' => m'.arena.used + 1 = m.arena.used := by
  unfold free
  refine Gives.nodeAt fun n hn => Gives.modify (Gives.pure ?_)
  have hpos := hv.used_pos hn
  rw [Arena.free_eq_ok hn]
  simp only
  omega

/-- Every node of the stack that only the stack keeps is freed with what it alone kept. -/
theorem traced_destroyAll (hb : Bare frozen) : ∀ (fuel : Nat) (stack : List Handle) {m : Manager},
    stack.length + 2 * m.arena.used ≤ fuel → Traced frozen ext (s ∪ {h | h ∈ stack}) m →
    Gives (destroyAll fuel stack) m fun _ m' => Traced frozen ext s m'
  | 0, stack, m, hfuel, T => by
      obtain rfl : stack = [] := List.length_eq_zero_iff.1 (by omega)
      exact Gives.pure (T.mono (by simp))
  | fuel + 1, [], m, _, T => Gives.pure (T.mono (by simp))
  | fuel + 1, h :: stack, m, hfuel, T => by
      have hstack : s ∪ {g | g ∈ h :: stack} = insert h (s ∪ {g | g ∈ stack}) := by
        ext g
        simp only [Set.mem_union, Set.mem_ofPred_eq, List.mem_cons, Set.mem_insert_iff]
        tauto
      rw [hstack] at T
      simp only [List.length_cons] at hfuel
      have hrest : Traced frozen ext (s ∪ {g | g ∈ stack}) m →
          Gives (destroyAll fuel stack) m fun _ m' => Traced frozen ext s m' :=
        traced_destroyAll hb fuel stack (by omega)
      unfold destroyAll
      refine Gives.get ?_
      split
      · rename_i hskip
        refine hrest (T.drop ?_)
        simp only [Bool.or_eq_true, Bool.not_eq_true'] at hskip
        rcases hskip with ht | hdead
        · exact Or.inl ht
        · refine Or.inr (Or.inr (Or.inr (Or.inr (key?_eq_none_iff.2 ?_))))
          simpa [Arena.isUsed] using hdead
      rename_i hskip
      have hh : h.isTerminal = false := by
        cases ht : h.isTerminal with
        | false => rfl
        | true => simp [ht] at hskip
      refine Gives.nodeAt fun n hn => ?_
      have hiff := T.heap.refs_eq_zero_iff hn (hb h hh)
      split
      · rename_i hrefs
        refine hrest (T.drop ?_)
        by_contra hno
        simp only [not_or] at hno
        exact absurd (hiff.2 ⟨hno.2.2.1, by omega⟩) (by omega)
      rename_i hrefs
      have hzero : n.refs = 0 := by omega
      obtain ⟨hU, hA⟩ := T.remove hb (key?_of_get? hn) (hiff.1 hzero).1
      refine Gives.bind ((Gives.of_ends (free_spec T.heap hn (hb h hh) hzero)).and
        (gives_free_used T.heap.valid)) ?_
      rintro _ m₁ ⟨⟨rfl, H₁, hr₁⟩, hu₁⟩
      rw [add_right_comm] at H₁
      refine Gives.bind ((gives_dereference hb H₁).and gives_dereference_used) ?_
      rintro _ m₂ ⟨⟨H₂, hr₂⟩, hu₂⟩
      refine Gives.bind ((gives_dereference hb H₂).and gives_dereference_used) ?_
      rintro _ m₃ ⟨⟨H₃, hr₃⟩, hu₃⟩
      have hkey : m₃.key? = Function.update m.key? h none := by
        rw [hr₃.key, hr₂.key, hr₁.key]
      refine traced_destroyAll hb fuel _ (by simp only [List.length_cons]; omega)
        ⟨H₃, hkey ▸ hU, hkey ▸ hA.mono ?_⟩
      refine Set.union_subset_union_left _ ?_
      intro g hg
      simp only [Set.mem_insert_iff, Set.mem_union, Set.mem_ofPred_eq, List.mem_cons,
        Node.key] at hg ⊢
      tauto

theorem traced_release (hb : Bare frozen) (T : Traced frozen (ext + Pi.single h 1) s m) :
    Gives (release h) m fun _ m' => Traced frozen ext s m' := by
  unfold release recursiveDestroy
  refine Gives.bind (traced_dereference hb T) ?_
  rintro _ m₁ ⟨T₁, -⟩
  refine Gives.get (traced_destroyAll hb _ _ ?_ (T₁.mono ?_))
  · simp only [List.length_cons, List.length_nil]
    omega
  · intro g hg
    simp only [Set.mem_insert_iff, Set.mem_union, Set.mem_ofPred_eq, List.mem_singleton] at hg ⊢
    exact hg.symm

end BayesCircuit.Decision
