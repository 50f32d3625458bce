import BayesCircuit.Proofs.Decision.Joint
import Mathlib.Data.List.Sort

/-!
# Conjunctions have a plan

`Placed` says where a side of a conjunction stands in an ordering: at a diagram of the blocks that
follow, or inside a block. Conditioning on a literal keeps both sides placed. So a conjunction of
regular diagrams has a plan (`Placed.exists_planned`): the ordering is not exhausted before the
diagram is complete.

The plan for two diagrams does not depend on how much of the ordering is left (`Planned.suffix`),
nor on which diagram comes first (`Planned.swap`). This is why a product can be looked up at
whatever level the pair is met again.
-/

namespace BayesCircuit.Decision

variable {same : Int → Int → Bool} {b : Block} {bs : List Block} {l : Literal}
variable {ls rest : List Literal} {A B D T : Diagram} {s t : Stand} {ws : Weights}

/-- Where a side stands in front of the literals of an ordering. -/
inductive Placed (same : Int → Int → Bool) : List Literal → Stand → Prop
  /-- The side has come to its end. -/
  | ended {ls : List Literal} {p : Option (Int × Weights × Diagram)} :
      Placed same ls ⟨.leaf true, p⟩
  /-- The side is between two blocks. -/
  | between {bs : List Block} {A : Diagram} : Layout same bs → Regular .atEnd bs A →
      Placed same (flatten bs) ⟨A, none⟩
  /-- The side is inside a block. -/
  | inside {l : Literal} {ls : List Literal} {bs : List Block} {s : Stand} : Layout same bs →
      Within same bs (l :: ls) → InBlock .atEnd same bs (l :: ls) s →
      Placed same (l :: ls ++ flatten bs) s

theorem InBlock.settle_placed (hL : Layout same bs) (hw : Within same bs ls)
    (h : InBlock .atEnd same bs ls s) :
    Placed same (ls ++ flatten bs) (s.settle same (ls ++ flatten bs).head?) := by
  cases ls with
  | nil =>
      rw [List.nil_append, h.settle_nil]
      exact .between hL h.regular
  | cons l ls =>
      rw [List.cons_append, List.head?_cons, h.settle_cons]
      exact .inside hL hw h

theorem Regular.placed (hL : Layout same bs) (hw : Within same bs ls) (hA : Regular .atEnd bs A) :
    Placed same (ls ++ flatten bs) ⟨A, none⟩ := by
  cases ls with
  | nil => exact .between hL hA
  | cons l ls => exact .inside hL hw (Or.inr ⟨rfl, hA⟩)

/-- The block that the next literal belongs to, and where the literal leads. -/
theorem Placed.cases_block (h : Placed same (l :: rest) s) :
    s.node = .leaf true ∨ ∃ bs ls, rest = ls ++ flatten bs ∧ Layout same bs ∧ Within same bs ls ∧
      InBlock .atEnd same bs ls (s.descend l) ∧ Regular .atEnd bs (firedNode (s.fire l) s) := by
  generalize hls : l :: rest = ls' at h
  cases h with
  | ended => exact Or.inl rfl
  | @between bs A hL hA =>
      cases bs with
      | nil => cases hls
      | cons b bs =>
          rw [flatten_cons, List.cons.injEq] at hls
          obtain ⟨rfl, rfl⟩ := hls
          obtain ⟨hd, hf⟩ := hA.descend_head hL
          exact Or.inr ⟨bs, b.tail, rfl, hL.tail, hL.within_literals.tail, hd, hf⟩
  | @inside l' ls bs s hL hw hs =>
      rw [List.cons_append, List.cons.injEq] at hls
      obtain ⟨rfl, rfl⟩ := hls
      exact Or.inr ⟨bs, ls, rfl, hL, hw.tail, hs.descend hw, hs.fired hw⟩

theorem Placed.low (h : Placed same (l :: rest) s) :
    Placed same rest ((s.descend l).settle same rest.head?) := by
  rcases h.cases_block with ht | ⟨bs, ls, rfl, hL, hw, hd, _⟩
  · rw [descend_of_true ht]
    obtain ⟨D, p⟩ := s
    obtain rfl : D = .leaf true := ht
    exact .ended
  · exact hd.settle_placed hL hw

theorem Placed.high (h : Placed same (l :: rest) s) :
    Placed same rest ⟨firedNode (s.fire l) s, none⟩ := by
  rcases h.cases_block with ht | ⟨bs, ls, rfl, hL, hw, _, hf⟩
  · rw [fire_of_true ht, firedNode_none, ht]
    exact .ended
  · exact hf.placed hL hw

/-- A literal that does not matter leaves a side where it is. -/
theorem Placed.skip (h : Placed same (l :: rest) s) (hf : s.fire l = none) :
    Placed same rest s := by
  rcases fire_cases s l with ⟨_, _, _, _, hf', _⟩ | ⟨_, hd, hf'⟩
  · rw [hf'] at hf
    cases hf
  by_cases ht : s.node = .leaf true
  · obtain ⟨D, p⟩ := s
    obtain rfl : D = .leaf true := ht
    exact .ended
  · rw [hf', if_neg ht, Option.map_eq_none_iff] at hf
    have := h.low
    rwa [hd, settle_of_none hf] at this

/-- Once a literal belongs to another variable than the node that was left, so do all others. -/
theorem Placed.apart {n : Int} {H : Diagram} (h : Placed same (l :: rest) s)
    (ht : s.node ≠ .leaf true) (hl : (s.descend l).left = some (n, ws, H))
    (hs : ((s.descend l).settle same rest.head?).left = none) :
    ∀ l' ∈ rest, same n l'.value = false := by
  rcases h.cases_block with he | ⟨bs, ls, rfl, _, _, hd, _⟩
  · exact absurd he ht
  rcases hd with ⟨n', ws', H', hT⟩ | ⟨hn, _⟩
  · rw [hT.left] at hl
    cases hl
    cases ls with
    | nil => exact hT.across
    | cons l' ls =>
        have := hT.within l' (List.mem_cons_self ..)
        simp [Stand.settle, hT.left, this] at hs
  · rw [hn] at hl
    cases hl

theorem Placed.eq_leaf (h : Placed same [] s) :
    s.node = .leaf true ∨ s.node = .leaf false ∧ s.left = none := by
  generalize hls : ([] : List Literal) = ls at h
  cases h with
  | ended => exact Or.inl rfl
  | @between bs A hL hA =>
      cases bs with
      | cons b bs => cases hls
      | nil =>
          cases A with
          | leaf c => cases c <;> simp
          | branch => exact hA.elim
  | inside => cases hls

/-- The root of a diagram in front of an ordering tests a literal of it. -/
theorem Placed.literal_mem {n : Int} (h : Placed same ls ⟨A, none⟩) (hn : A.literal? = some n) :
    ∃ l ∈ ls, l.value = n := by
  generalize hs : (⟨A, none⟩ : Stand) = s at h
  cases h with
  | ended =>
      cases hs
      cases hn
  | between hL hA =>
      cases hs
      exact hA.literal_mem hn
  | inside hL hw hB =>
      rcases hB with ⟨_, _, _, hT⟩ | ⟨_, hR⟩
      · have := hT.left
        rw [← hs] at this
        cases this
      · rw [← hs] at hR
        obtain ⟨l, hl, he⟩ := hR.literal_mem hn
        exact ⟨l, List.mem_append_right _ hl, he⟩

/-! ## Plans exist -/

/-- A node is planned from the plans of its two children. -/
theorem plan_of_node {H L : Diagram} (hfire : ¬ (s.fire l = none ∧ t.fire l = none))
    (hH : Planned same ls ⟨firedNode (s.fire l) s, none⟩ ⟨firedNode (t.fire l) t, none⟩ H)
    (hL : Planned same ls ((s.descend l).settle same ls.head?)
      ((t.descend l).settle same ls.head?) L) :
    (jointOutline same).plan (l :: ls) ⟨s, t⟩ = some (.branch l.value (nodeWeights
      (highFound (firedNode (s.fire l) s) (firedNode (t.fire l) t))
      (firedWeights (s.fire l) (t.fire l))) H L) := by
  unfold Planned at hH
  rw [lowFound_start] at hH
  have hlow : (jointOutline same).child ((jointOutline same).low ⟨s, t⟩ l ls.head?).1
      ((jointOutline same).plan ls ((jointOutline same).low ⟨s, t⟩ l ls.head?).2)
      ((jointOutline same).low ⟨s, t⟩ l ls.head?).2 = some L := hL
  simp only [Outline.plan, joint_high hfire, highFound_ne_redundant, if_false, hlow]
  simp only [start] at hH ⊢
  rw [hH]

/-- Unless something is left to do, the tree of two sides is known. -/
theorem planned_of_found (h : lowFound s t ≠ .unsatisfied) : ∃ T, Planned same ls s t T := by
  unfold Planned lowFound at *
  split
  · exact ⟨_, rfl⟩
  · rename_i hf
    rw [if_neg hf] at h
    split
    · exact ⟨_, rfl⟩
    · rename_i ht
      rw [if_neg ht] at h
      split
      · exact ⟨_, rfl⟩
      · rename_i hn
        exact absurd (if_neg hn) h

theorem planned_of_plan (h : lowFound s t = .unsatisfied) :
    Planned same ls s t T ↔ (jointOutline same).plan ls ⟨s, t⟩ = some T := by
  unfold Planned
  rw [h]
  rfl

/-- The ordering is long enough for two sides that are placed in it. -/
theorem Placed.exists_planned : ∀ {ls s t}, Placed same ls s → Placed same ls t →
    ∃ T, Planned same ls s t T
  | [], s, t, hs, ht => by
      refine planned_of_found ?_
      rcases hs.eq_leaf with hs | ⟨hs, hn⟩
      · rcases ht.eq_leaf with ht | ⟨ht, hn'⟩
        · simp [lowFound, hs, ht]
        · simp [lowFound, ht, hn']
      · simp [lowFound, hs, hn]
  | l :: ls, s, t, hs, ht => by
      by_cases hf : lowFound s t = .unsatisfied
      · simp only [planned_of_plan hf]
        by_cases hfire : s.fire l = none ∧ t.fire l = none
        · rw [joint_redundant hfire.1 hfire.2]
          obtain ⟨T, hT⟩ := Placed.exists_planned (hs.skip hfire.1) (ht.skip hfire.2)
          exact ⟨T, (planned_of_plan hf).1 hT⟩
        · obtain ⟨H, hH⟩ := Placed.exists_planned hs.high ht.high
          obtain ⟨L, hL⟩ := Placed.exists_planned hs.low ht.low
          exact ⟨_, plan_of_node hfire hH hL⟩
      · exact planned_of_found hf

/-! ## Plans at other levels -/

/-- A plan does not depend on how much of the ordering is left. -/
theorem Planned.append (hn : ((rest ++ ls).map (·.value)).Nodup) (hA : Placed same ls ⟨A, none⟩)
    (hB : Placed same ls ⟨B, none⟩) :
    Planned same (rest ++ ls) ⟨A, none⟩ ⟨B, none⟩ T ↔ Planned same ls ⟨A, none⟩ ⟨B, none⟩ T := by
  have hu : ∀ {D}, Placed same ls ⟨D, none⟩ → Untested rest D := by
    intro D hD l hl he
    obtain ⟨l', hl', hv⟩ := hD.literal_mem he
    rw [List.map_append] at hn
    exact (List.nodup_append.1 hn).2.2 _ (List.mem_map_of_mem hl) _ (List.mem_map_of_mem hl')
      hv.symm
  have hplan := plan_skip same ls (hu hA) (hu hB)
  unfold start at hplan
  unfold Planned
  rw [hplan]

/-- The plans of a pair at two levels of an ordering are the same. -/
theorem Planned.suffix {ordering ls' : List Literal} {T' : Diagram}
    (hn : (ordering.map (·.value)).Nodup) (hls : ls <:+ ordering) (hls' : ls' <:+ ordering)
    (hA : Placed same ls ⟨A, none⟩) (hB : Placed same ls ⟨B, none⟩)
    (hA' : Placed same ls' ⟨A, none⟩) (hB' : Placed same ls' ⟨B, none⟩)
    (hT : Planned same ls ⟨A, none⟩ ⟨B, none⟩ T) (hT' : Planned same ls' ⟨A, none⟩ ⟨B, none⟩ T') :
    T = T' := by
  have hsame : Planned same ls' ⟨A, none⟩ ⟨B, none⟩ T := by
    rcases List.suffix_or_suffix_of_suffix hls hls' with ⟨pre, rfl⟩ | ⟨pre, rfl⟩
    · have := hn.sublist (hls'.sublist.map _)
      exact (Planned.append this hA hB).2 hT
    · have := hn.sublist (hls.sublist.map _)
      exact (Planned.append this hA' hB').1 hT
  exact Option.some.inj (hsame.symm.trans hT')

/-! ## Plans of swapped sides -/

/-- The weights of all nodes ascend. -/
def Diagram.Ascends : Diagram → Prop
  | .leaf _ => True
  | .branch _ ws high low => Weights.ascends ws = true ∧ high.Ascends ∧ low.Ascends

/-- What holds of a node holds of its children, and `W` of its weights. -/
def Inherited (W : Weights → Prop) (P : Diagram → Prop) : Prop :=
  ∀ {n ws H L}, P (.branch n ws H L) → W ws ∧ P H ∧ P L

/-- A side stands at such diagrams, and has left such a node. -/
structure Stand.Has (W : Weights → Prop) (P : Diagram → Prop) (s : Stand) : Prop where
  node : P s.node
  left : ∀ {n ws H}, s.left = some (n, ws, H) → W ws ∧ P H

/-- The weights that a side can collect ascend. -/
abbrev Stand.Ascends (s : Stand) : Prop := s.Has (Weights.ascends · = true) Diagram.Ascends

theorem inherited_ascends : Inherited (Weights.ascends · = true) Diagram.Ascends := fun h => h

theorem ascends_iff_pairwise : Weights.ascends ws = true ↔ ws.Pairwise (· ≤ ·) := by
  induction ws with
  | nil => simp [Weights.ascends]
  | cons w ws ih =>
      cases ws with
      | nil => simp [Weights.ascends]
      | cons w' ws =>
          rw [Weights.ascends, Bool.and_eq_true, decide_eq_true_eq, ih]
          constructor
          · rintro ⟨hle, hp⟩
            refine List.pairwise_cons.2 ⟨fun w'' hw => ?_, hp⟩
            rcases List.mem_cons.1 hw with rfl | hw
            · exact hle
            · exact Nat.le_trans hle ((List.pairwise_cons.1 hp).1 w'' hw)
          · intro hp
            obtain ⟨hle, hp⟩ := List.pairwise_cons.1 hp
            exact ⟨hle w' (List.mem_cons_self ..), hp⟩

variable {us : Weights} {p q : Option (Weights × Diagram)}

theorem union_perm : (Weights.union ws us).Perm (ws ++ us) :=
  List.merge_perm_append _

theorem ascends_union (hw : Weights.ascends ws = true) (hu : Weights.ascends us = true) :
    Weights.ascends (Weights.union ws us) = true := by
  rw [ascends_iff_pairwise] at *
  exact hw.merge hu

theorem union_comm (hw : Weights.ascends ws = true) (hu : Weights.ascends us = true) :
    Weights.union ws us = Weights.union us ws := by
  refine List.Perm.eq_of_pairwise' (ascends_iff_pairwise.1 (ascends_union hw hu))
    (ascends_iff_pairwise.1 (ascends_union hu hw)) ?_
  exact union_perm.trans (List.perm_append_comm.trans union_perm.symm)

section

variable {W : Weights → Prop} {P : Diagram → Prop} (hP : Inherited W P)

include hP

theorem Stand.Has.fire (h : s.Has W P) {H : Diagram} (hf : s.fire l = some (ws, H)) :
    W ws ∧ P H := by
  rcases fire_cases s l with ⟨_, _, _, hs, hf', _⟩ | ⟨_, _, hf'⟩
  · have := h.node
    rw [hs] at this
    rw [hf'] at hf
    cases hf
    exact ⟨(hP this).1, (hP this).2.1⟩
  · rw [hf'] at hf
    split at hf
    · cases hf
    · obtain ⟨⟨n, ws', H'⟩, hl, he⟩ := Option.map_eq_some_iff.1 hf
      cases he
      exact h.left hl

theorem Stand.Has.fired (h : s.Has W P) : Stand.Has W P ⟨firedNode (s.fire l) s, none⟩ := by
  refine ⟨?_, fun hn => by cases hn⟩
  cases hf : s.fire l with
  | none => exact h.node
  | some p =>
      obtain ⟨ws, H⟩ := p
      exact (h.fire hP hf).2

theorem Stand.Has.descend (h : s.Has W P) : (s.descend l).Has W P := by
  rcases fire_cases s l with ⟨ws, high, low, hs, _, hd⟩ | ⟨_, hd, _⟩
  · have := h.node
    rw [hs] at this
    rw [hd]
    exact ⟨(hP this).2.2, fun hn => by
      cases hn
      exact ⟨(hP this).1, (hP this).2.1⟩⟩
  · rwa [hd]

omit hP in
theorem Stand.Has.settle (h : s.Has W P) {following : Option Literal} :
    (s.settle same following).Has W P := by
  refine ⟨h.node, fun hn => ?_⟩
  obtain ⟨hn, _⟩ := Option.filter_eq_some_iff.1 hn
  exact h.left hn

end

theorem firedWeights_comm (hs : s.Ascends) (ht : t.Ascends) :
    firedWeights (s.fire l) (t.fire l) = firedWeights (t.fire l) (s.fire l) := by
  have hasc : ∀ {r : Stand}, r.Ascends → Weights.ascends ((r.fire l).elim [] (·.1)) = true := by
    intro r hr
    cases hf : r.fire l with
    | none => rfl
    | some p =>
        obtain ⟨ws, H⟩ := p
        exact (hr.fire inherited_ascends hf).1
  exact union_comm (hasc hs) (hasc ht)

theorem highFound_comm : highFound A B = highFound B A := by
  simp only [highFound, or_comm, and_comm]

theorem lowFound_comm : lowFound s t = lowFound t s := by
  simp only [lowFound, or_comm, and_comm]

theorem swap_of_found (h : lowFound s t ≠ .unsatisfied) (hT : Planned same ls s t T) :
    Planned same rest t s T := by
  unfold Planned at *
  rw [lowFound_comm]
  rcases hc : lowFound s t with _ | _ | _ | _ | _ | _ <;> rw [hc] at hT
  · exact hT
  · exact absurd hc h
  · cases hT
  · -- exactly one side has come to its end
    have hne : ¬ (s.node = .leaf true ∧ t.node = .leaf true) := by
      intro hst
      unfold lowFound at hc
      rw [if_pos hst] at hc
      split at hc <;> cases hc
    have hor : s.node = .leaf true ∨ t.node = .leaf true := by
      unfold lowFound at hc
      split at hc
      · cases hc
      · split at hc
        · rename_i ht
          exact ht.imp And.left And.left
        · cases hc
    simp only [Outline.child, jointOutline, Option.some.injEq] at hT ⊢
    subst hT
    rcases hor with hs | ht
    · rw [if_pos hs, if_neg fun ht => hne ⟨hs, ht⟩]
    · rw [if_pos ht, if_neg fun hs => hne ⟨hs, ht⟩]
  · exact hT
  · cases hT

/-- A plan does not depend on which diagram comes first. -/
theorem Planned.swap : ∀ {ls s t T}, s.Ascends → t.Ascends → Planned same ls s t T →
    Planned same ls t s T
  | [], s, t, T, _, _, hT => by
      by_cases hf : lowFound s t = .unsatisfied
      · cases (planned_of_plan hf).1 hT
      · exact swap_of_found hf hT
  | l :: ls, s, t, T, hs, ht, hT => by
      by_cases hf : lowFound s t = .unsatisfied
      · have hplan := (planned_of_plan hf).1 hT
        have hf' := lowFound_comm.symm.trans hf
        refine (planned_of_plan hf').2 ?_
        by_cases hfire : s.fire l = none ∧ t.fire l = none
        · rw [joint_redundant hfire.1 hfire.2] at hplan
          rw [joint_redundant hfire.2 hfire.1]
          exact (planned_of_plan hf').1 (Planned.swap hs ht ((planned_of_plan hf).2 hplan))
        · obtain ⟨H, L, hH, hL, rfl⟩ := plan_node hfire hplan
          have hhigh := hH.swap (hs.fired inherited_ascends) (ht.fired inherited_ascends)
          have hlow := hL.swap (hs.descend inherited_ascends).settle
            (ht.descend inherited_ascends).settle
          rw [plan_of_node (fun h => hfire h.symm) hhigh hlow, highFound_comm,
            firedWeights_comm hs ht]
      · exact swap_of_found hf hT

end BayesCircuit.Decision
