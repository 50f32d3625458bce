import BayesCircuit.Proofs.Decision.Forward
import BayesCircuit.Proofs.Decision.Full
import BayesCircuit.Proofs.Decision.Meet
import BayesCircuit.Proofs.Decision.Shared
import BayesCircuit.Proofs.Decision.Reduce

/-!
# Products of full trees

The product of two full trees is full (`Full.meet`). The conjunction of two full trees that have
been collapsed builds what their product collapses to (`planned_collapse`): at every literal of a
variable that one of them tests, each side moves along the weights and the high child that it had
before it was collapsed, since a node that was left out jumps to the same place (`Covers`). So
collapsing may come before or after the product.

Full trees that have been collapsed may be conjoined in any order. Both with and without
collapsing, their diagrams are regular (`Uniform.exists_layout`), and the conjunction of two of them
has the collapsed product of the trees (`conjoin_full`). The products are those of a commutative
monoid, so the tree that is left in the end does not depend on the order of the queue
(`conjoinAll_full`).
-/

namespace BayesCircuit.Decision

open Collection Decision.Action Diagram

variable {same : Int → Int → Bool} {K : Diagram → Prop} {A B C D E H L T : Diagram} {ws : Weights}
variable {l : Literal} {ls rest b : List Literal} {bs : List (List Literal)} {s t : Stand} {n : Int}

/-! ## Inside a block -/

/-- What is left of a full tree in front of some literals of a block. -/
def Chained (bs : List (List Literal)) (ls : List Literal) (D : Diagram) : Prop :=
  Full bs D ∨ FullChain (Full bs) ls D

theorem Full.literal (hD : Full bs D) {i : Int} (h : D.literal? = some i) :
    ∃ l ∈ bs.flatten, i = l.value :=
  hD.inside.literal h

theorem Full.untested (hn : (ls ++ bs.flatten).Nodup) (hD : Full bs D) : Untested ls D := by
  intro l hl hvalue
  obtain ⟨l', hl', he⟩ := hD.literal hvalue
  exact (List.nodup_append.1 hn).2.2 l hl l' hl' (value_injective he)

theorem FullChain.ne_false (hD : FullChain K (l :: ls) D) : D ≠ .leaf false := by
  cases hD
  exact nofun

namespace Chained

/-- A literal that the root does not test comes before the whole tree. -/
theorem full (hD : Chained bs (l :: ls) D) (h : D.literal? ≠ some l.value) : Full bs D := by
  rcases hD with hD | hD
  · exact hD
  · cases hD
    exact absurd rfl h

theorem chain (hn : (l :: ls ++ bs.flatten).Nodup) (hD : Chained bs (l :: ls) D)
    (h : D.literal? = some l.value) : FullChain (Full bs) (l :: ls) D := by
  rcases hD with hD | hD
  · exact absurd h (hD.untested hn l (List.mem_cons_self ..))
  · exact hD

theorem high (hn : (l :: ls ++ bs.flatten).Nodup) (hD : Chained bs (l :: ls) D) :
    Full bs (D.highAt l) := by
  by_cases h : D.literal? = some l.value
  · cases hD.chain hn h with
    | cons _ _ hH _ => rwa [highAt_branch]
  · rw [(at_of_ne h).2.1]
    exact hD.full h

theorem low (hn : (l :: ls ++ bs.flatten).Nodup) (hD : Chained bs (l :: ls) D) :
    Chained bs ls (D.lowAt l) := by
  by_cases h : D.literal? = some l.value
  · cases hD.chain hn h with
    | cons _ _ _ hL =>
        rw [lowAt_branch]
        exact Or.inr hL
  · rw [(at_of_ne h).2.2]
    exact Or.inl (hD.full h)

end Chained

theorem Diagram.Ordered.prepend (hu : Untested ls D) (hD : Ordered rest D) :
    Ordered (ls ++ rest) D := by
  induction ls with
  | nil => exact hD
  | cons l ls ih =>
      obtain ⟨hw, hh, hl⟩ := at_of_ne (hu l (List.mem_cons_self ..))
      rw [List.cons_append, Ordered, hw, hh, hl]
      exact ⟨rfl, fun _ => rfl, ih hu.tail, ih hu.tail⟩

theorem Chained.ordered (hn : (ls ++ bs.flatten).Nodup)
    (hlater : ∀ {D}, Full bs D → Ordered bs.flatten D) (hD : Chained bs ls D) :
    Ordered (ls ++ bs.flatten) D := by
  rcases hD with hD | hD
  · exact (hlater hD).prepend (hD.untested hn)
  · induction hD with
    | nil => exact .leaf
    | @cons l ls ws H L hw hfalse hH _ ih =>
        have hn' := (List.nodup_cons.1 hn).2
        rw [List.cons_append, Ordered, weightsAt_branch, highAt_branch, lowAt_branch]
        exact ⟨hw, hfalse, (hlater hH).prepend (hH.untested hn'), ih hn'⟩

/-- A full tree tests the literals of its blocks in turn. -/
theorem Full.ordered (hn : bs.flatten.Nodup) (hD : Full bs D) : Ordered bs.flatten D := by
  induction bs generalizing D with
  | nil => exact hD
  | cons b bs ih => exact Chained.ordered hn (fun hD => ih (List.nodup_append.1 hn).2.1 hD) hD

/-! ## Products of full trees -/

section

variable (hn : (ls ++ bs.flatten).Nodup)
variable (hmeet : ∀ {A B}, Full bs A → Full bs B → Full bs (meet bs.flatten A B))

include hn hmeet

theorem full_meet_skip (hA : Full bs A) (hB : Full bs B) :
    Full bs (meet (ls ++ bs.flatten) A B) := by
  rw [meet_skip (hA.untested hn) (hB.untested hn)]
  exact hmeet hA hB

/-- The product of a chain with another one, or with a later tree, is a chain. -/
theorem FullChain.meet (hordered : ∀ {D}, Full bs D → Ordered bs.flatten D)
    (hA : FullChain (Full bs) ls A) (hB : Chained bs ls B) (hne : ls ≠ [] → B ≠ .leaf false) :
    FullChain (Full bs) ls (meet (ls ++ bs.flatten) A B) := by
  induction hA generalizing B with
  | nil =>
      rw [meet_eq_false_iff.2 (Or.inl rfl)]
      exact .nil
  | @cons l ls ws H L hw hfalse hH hL ih =>
      have hn' := (List.nodup_cons.1 hn).2
      have hchained : Chained bs (l :: ls) (.branch l.value ws H L) :=
        Or.inr (.cons hw hfalse hH hL)
      -- the product tests the literal, too
      have hroot : (meet (l :: ls ++ bs.flatten) (.branch l.value ws H L) B).literal? =
          some l.value :=
        literal_meet_iff.2 ⟨not_or.2 ⟨nofun, hne (List.cons_ne_nil l ls)⟩, Or.inl rfl⟩
      obtain ⟨hweights, hlight, -, -⟩ :=
        (hchained.ordered hn hordered).meet (hB.ordered hn hordered)
      rw [eq_branch hroot]
      refine .cons hweights hlight ?_ ?_
      · rw [List.cons_append, meet_at.2.1, highAt_branch]
        exact full_meet_skip hn' hmeet hH (hB.high hn)
      · rw [List.cons_append, meet_at.2.2, lowAt_branch]
        refine ih hn' (hB.low hn) fun hls => ?_
        by_cases h : B.literal? = some l.value
        · cases hB.chain hn h with
          | cons _ _ _ hBL =>
              obtain ⟨l', ls', rfl⟩ := List.exists_cons_of_ne_nil hls
              rw [lowAt_branch]
              exact hBL.ne_false
        · rw [(at_of_ne h).2.2]
          exact hne (List.cons_ne_nil l ls)

theorem Chained.meet (hordered : ∀ {D}, Full bs D → Ordered bs.flatten D)
    (hA : Chained bs ls A) (hB : Chained bs ls B) :
    Chained bs ls (meet (ls ++ bs.flatten) A B) := by
  by_cases hfalse : A = .leaf false ∨ B = .leaf false
  · rw [meet_eq_false_iff.2 hfalse]
    exact Or.inl full_leaf
  obtain ⟨hneA, hneB⟩ := not_or.1 hfalse
  rcases hA with hA | hA
  · rcases hB with hB | hB
    · exact Or.inl (full_meet_skip hn hmeet hA hB)
    · have hA' : Chained bs ls A := Or.inl hA
      have hB' : Chained bs ls B := Or.inr hB
      rw [meet_comm (hA'.ordered hn hordered) (hB'.ordered hn hordered)]
      exact Or.inr (hB.meet hn hmeet hordered hA' fun _ => hneA)
  · exact Or.inr (hA.meet hn hmeet hordered hB fun _ => hneB)

end

/-- The product of full trees is full. -/
theorem Full.meet (hn : bs.flatten.Nodup) (hA : Full bs A) (hB : Full bs B) :
    Full bs (meet bs.flatten A B) := by
  induction bs generalizing A B with
  | nil =>
      obtain ⟨c, rfl⟩ := hA
      rw [List.flatten_nil, Diagram.meet_nil]
      split
      · exact ⟨false, rfl⟩
      · exact ⟨true, rfl⟩
  | cons b bs ih =>
      have hn' := (List.nodup_append.1 hn).2.1
      exact Chained.meet hn (fun hA hB => ih hn' hA hB) (fun hD => hD.ordered hn') hA hB

/-! ## Sides of a collapsed tree -/

/-- The literals of blocks are different, those of one block are alike, and those of two blocks do
not count as one variable. -/
structure Separated (same : Int → Int → Bool) (bs : List (List Literal)) : Prop
    extends Grouped same bs where
  across : bs.Pairwise fun b b' => ∀ l ∈ b, ∀ l' ∈ b', same l.value l'.value = false

/-- A literal is alike those of a block, and apart from those of later blocks. -/
structure Beside (same : Int → Int → Bool) (bs : List (List Literal)) (ls : List Literal)
    (n : Int) : Prop where
  alike : ∀ l ∈ ls, ∀ i, same n i = same l.value i
  apart : ∀ l ∈ bs.flatten, same n l.value = false

theorem Beside.tail (h : Beside same bs (l :: ls) n) : Beside same bs ls n :=
  ⟨fun k hk => h.alike k (List.mem_cons_of_mem l hk), h.apart⟩

/-- A side of a conjunction of collapsed trees, and the part of the tree that it has in front of
it. -/
inductive Covers (same : Int → Int → Bool) (bs : List (List Literal)) (ls : List Literal)
    (C : Diagram) : Stand → Prop
  /-- The side has left no node of the block. -/
  | fresh : Chained bs ls C → Covers same bs ls C ⟨C.collapse same, none⟩
  /-- The side has left a node, which may have taken others with it. -/
  | below {n : Int} {ws : Weights} {H : Diagram} : FullChain (Full bs) ls C → ls ≠ [] →
      Beside same bs ls n → Covers same bs ls C
        ⟨Diagram.lowAfter same n ws H (C.collapse same), some (n, ws, H)⟩

/-- What a side of a conjunction makes of a literal. -/
structure Moved (same : Int → Int → Bool) (bs : List (List Literal)) (l : Literal)
    (ls : List Literal) (C : Diagram) (s : Stand) : Prop where
  idle : s.fire l = none ↔ C.literal? ≠ some l.value
  weights : (s.fire l).elim [] (·.1) = C.weightsAt l
  high : firedNode (s.fire l) s = (C.highAt l).collapse same
  low : Covers same bs ls (C.lowAt l) ((s.descend l).settle same (ls ++ bs.flatten).head?)

namespace Covers

/-- Past a literal, a side remembers the node that it has left as long as the block lasts. -/
theorem settle (hL : FullChain (Full bs) ls L) (hn : Beside same bs ls n) : Covers same bs ls L
    (Stand.settle same (ls ++ bs.flatten).head?
      ⟨Diagram.lowAfter same n ws H (L.collapse same), some (n, ws, H)⟩) := by
  cases hL with
  | nil =>
      have hleft : Stand.settle same ([] ++ bs.flatten).head?
          ⟨Diagram.lowAfter same n ws H (Diagram.collapse same (.leaf false)), some (n, ws, H)⟩ =
            ⟨Diagram.collapse same (.leaf false), none⟩ := by
        simp only [Stand.settle, List.nil_append, Option.filter]
        rw [if_neg]
        · rfl
        · cases hhead : bs.flatten.head? with
          | none => simp
          | some l =>
              have := hn.apart l (List.mem_of_head? hhead)
              simp [this]
      rw [hleft]
      exact .fresh (Or.inl full_leaf)
  | @cons l ls v H' L' hw hfalse hH hL =>
      have hchain : FullChain (Full bs) (l :: ls) (.branch l.value v H' L') := .cons hw hfalse hH hL
      cases hsame : same n l.value with
      | true =>
          have hkeep : Stand.settle same (l :: ls ++ bs.flatten).head?
              ⟨Diagram.lowAfter same n ws H (Diagram.collapse same (.branch l.value v H' L')),
                some (n, ws, H)⟩ =
              ⟨Diagram.lowAfter same n ws H (Diagram.collapse same (.branch l.value v H' L')),
                some (n, ws, H)⟩ := by
            simp [Stand.settle, hsame]
          rw [hkeep]
          exact .below hchain (List.cons_ne_nil l ls) hn
      | false =>
          -- the next literal does not count as the same, so nothing was left out
          have hdrop : Stand.settle same (l :: ls ++ bs.flatten).head?
              ⟨Diagram.lowAfter same n ws H (Diagram.collapse same (.branch l.value v H' L')),
                some (n, ws, H)⟩ =
              ⟨Diagram.collapse same (.branch l.value v H' L'), none⟩ := by
            simp [Stand.settle, hsame, Diagram.collapse, Diagram.skip, Diagram.lowAfter]
          rw [hdrop]
          exact .fresh (Or.inr hchain)

/-- A side that takes the high edge of the root. -/
theorem moved_of_fire (hf : s.fire l = some (ws, H.collapse same))
    (hlow : Covers same bs ls L ((s.descend l).settle same (ls ++ bs.flatten).head?)) :
    Moved same bs l ls (.branch l.value ws H L) s where
  idle := by
    rw [hf, literal_branch]
    exact iff_of_false nofun fun h => h rfl
  weights := by rw [hf, weightsAt_branch, Option.elim_some]
  high := by rw [hf, highAt_branch, firedNode_some]
  low := by rwa [lowAt_branch]

/-- A side at a node that tests the literal. -/
theorem moved_node {p : Option (Int × Weights × Diagram)} (hL : FullChain (Full bs) ls L)
    (hl : Beside same bs ls l.value) :
    Moved same bs l ls (.branch l.value ws H L) ⟨.branch l.value ws (H.collapse same)
      (Diagram.lowAfter same l.value ws (H.collapse same) (L.collapse same)), p⟩ := by
  refine moved_of_fire ?_ ?_
  · simp only [Stand.fire, if_true]
  · simp only [Stand.descend, if_true]
    exact settle hL hl

/-- A side whose node was left out jumps from the node that it has left. -/
theorem moved_skipped (hL : FullChain (Full bs) ls L) (hn : Beside same bs ls n) (hl : l ∉ ls) :
    Moved same bs l ls (.branch l.value ws H L)
      ⟨Diagram.lowAfter same n ws (H.collapse same) (L.collapse same),
        some (n, ws, H.collapse same)⟩ := by
  have hroot : (Diagram.lowAfter same n ws (H.collapse same) (L.collapse same)).literal? ≠
      some l.value := by
    intro he
    rcases hL.lowAfter_cases n ws (H.collapse same) hn.alike with hf | ⟨k, hk, hlit⟩
    · rw [hf] at he
      cases he
    · rw [hlit] at he
      obtain rfl := value_injective (Option.some.inj he)
      exact hl hk
  refine moved_of_fire ?_ ?_
  · rcases fire_cases ⟨Diagram.lowAfter same n ws (H.collapse same) (L.collapse same),
      some (n, ws, H.collapse same)⟩ l with ⟨_, _, _, hs, -⟩ | ⟨-, -, hf⟩
    · exact absurd (congrArg Diagram.literal? hs) hroot
    · rw [hf, if_neg (hL.lowAfter_ne_true hn.alike)]
      rfl
  · rw [descend_of_untested hroot]
    exact settle hL hn

theorem moved (hnodup : (l :: ls ++ bs.flatten).Nodup) (hl : Beside same bs ls l.value)
    (h : Covers same bs (l :: ls) C s) : Moved same bs l ls C s := by
  cases h with
  | fresh hC =>
      by_cases htest : C.literal? = some l.value
      · cases hC.chain hnodup htest with
        | cons _ _ _ hL => exact moved_node hL hl
      · have hnode : (C.collapse same).literal? ≠ some l.value := by rwa [literal_collapse]
        obtain ⟨hweights, hhigh, hlow⟩ := at_of_ne htest
        have hfire := fire_of_untested hnode
        refine ⟨iff_of_true hfire htest, ?_, ?_, ?_⟩
        · rw [hfire, hweights, Option.elim_none]
        · rw [hfire, hhigh, firedNode_none]
        · rw [descend_of_untested hnode, settle_of_none rfl, hlow]
          exact .fresh (Or.inl (hC.full htest))
  | below hC _ hn =>
      cases hC with
      | cons _ _ _ hL =>
          rw [lowAfter_collapse_branch (hn.alike l (List.mem_cons_self ..))
            (hL.lowAfter_ne_true hl.alike)]
          split
          · rename_i hskip
            obtain ⟨-, rfl, rfl⟩ := hskip
            exact moved_skipped hL hn.tail fun h =>
              (List.nodup_cons.1 hnodup).1 (List.mem_append_left _ h)
          · exact moved_node hL hl

theorem chained (h : Covers same bs ls C s) : Chained bs ls C := by
  cases h with
  | fresh hC => exact hC
  | below hC _ _ => exact Or.inr hC

/-- A literal that the tree does not test is passed. -/
theorem skip (h : Covers same bs (l :: ls) C s) (hl : C.literal? ≠ some l.value) :
    Covers same bs ls C s := by
  cases h with
  | fresh hC => exact .fresh (Or.inl (hC.full hl))
  | below hC _ _ =>
      cases hC
      exact absurd rfl hl

theorem node_eq (h : Covers same bs ls C s) (hs : s.left = none) : s.node = C.collapse same := by
  cases h with
  | fresh _ => rfl
  | below _ _ _ => cases hs

/-- A side that has come to `true'` has nothing in front of it. -/
theorem eq_true (h : Covers same bs ls C s) (hs : s.node = .leaf true) : C = .leaf true := by
  cases h with
  | fresh _ => exact collapse_eq_leaf.1 hs
  | below hC _ hn => exact absurd hs (hC.lowAfter_ne_true hn.alike)

theorem eq_false (h : Covers same bs ls C s) (hs : s.node = .leaf false ∧ s.left = none) :
    C = .leaf false :=
  collapse_eq_leaf.1 ((h.node_eq hs.2).symm.trans hs.1)

theorem ne_false (h : Covers same bs ls C s) (hs : s.node = .leaf false → s.left ≠ none) :
    C ≠ .leaf false := by
  rintro rfl
  cases h with
  | fresh _ => exact hs rfl rfl
  | below hC hls _ =>
      cases hC
      exact hls rfl

end Covers

/-! ## The product of collapsed trees -/

/-- Both sides of a conjunction work on, unless the product is known. -/
theorem AtWork.found (h : AtWork s t) : lowFound s t = .unsatisfied := by
  unfold lowFound
  rw [if_neg, if_neg, if_neg]
  · rintro (⟨hs, hn⟩ | ⟨ht, hn⟩)
    · exact (h.left_true hs).2 hn
    · exact (h.right_true ht).2 hn
  · exact fun hst => (h.left_true hst.1).1 hst.2
  · rintro (⟨hs, hn⟩ | ⟨ht, hn⟩)
    · exact h.left_false hs hn
    · exact h.right_false ht hn

section

variable (hordered : ∀ {D}, Full bs D → Ordered bs.flatten D)
variable (hlater : ∀ {A B T}, Full bs A → Full bs B → Planned same bs.flatten
  ⟨A.collapse same, none⟩ ⟨B.collapse same, none⟩ T →
    T.collapse same = (meet bs.flatten A B).collapse same)

include hordered hlater

/-- What two sides plan collapses to what the product in front of them collapses to. -/
theorem Covers.planned (hn : (ls ++ bs.flatten).Nodup) (hls : ∀ l ∈ ls, Beside same bs ls l.value)
    (hA : Covers same bs ls A s) (hB : Covers same bs ls B t)
    (hT : Planned same (ls ++ bs.flatten) s t T) :
    T.collapse same = (meet (ls ++ bs.flatten) A B).collapse same := by
  induction ls generalizing A B s t T with
  | nil =>
      have hfull : ∀ {C s}, Covers same bs [] C s → Full bs C ∧ s = ⟨C.collapse same, none⟩ := by
        intro C s hC
        cases hC with
        | fresh hC =>
            rcases hC with hC | hC
            · exact ⟨hC, rfl⟩
            · cases hC
              exact ⟨full_leaf, rfl⟩
        | below _ hne _ => exact absurd rfl hne
      obtain ⟨hfA, rfl⟩ := hfull hA
      obtain ⟨hfB, rfl⟩ := hfull hB
      exact hlater hfA hfB hT
  | cons l ls ih =>
      have hn' := (List.nodup_cons.1 hn).2
      have hls' : ∀ k ∈ ls, Beside same bs ls k.value :=
        fun k hk => (hls k (List.mem_cons_of_mem l hk)).tail
      have hl := (hls l (List.mem_cons_self ..)).tail
      have hoA := hA.chained.ordered hn hordered
      have hoB := hB.chained.ordered hn hordered
      rcases hT.cases_found with ⟨rfl, hf⟩ | ⟨rfl, hs, ht⟩ | ⟨rfl, hs, -, hleft⟩ |
        ⟨rfl, ht, -, hleft⟩ | ⟨hW, hplan⟩
      · rw [meet_eq_false_iff.2 (hf.imp hA.eq_false hB.eq_false)]
      · rw [hA.eq_true hs, hB.eq_true ht, true_meet .leaf]
      · rw [hA.eq_true hs, true_meet hoB, hB.node_eq hleft, collapse_collapse]
      · rw [hB.eq_true ht, meet_comm hoA .leaf, true_meet hoA, hA.node_eq hleft, collapse_collapse]
      · have MA := hA.moved hn hl
        have MB := hB.moved hn hl
        have hne : ¬ (A = .leaf false ∨ B = .leaf false) :=
          not_or.2 ⟨hA.ne_false hW.left_false, hB.ne_false hW.right_false⟩
        by_cases hfire : s.fire l = none ∧ t.fire l = none
        · have htest : ¬ (A.literal? = some l.value ∨ B.literal? = some l.value) :=
            not_or.2 ⟨MA.idle.1 hfire.1, MB.idle.1 hfire.2⟩
          rw [List.cons_append, joint_redundant hfire.1 hfire.2,
            ← planned_of_plan hW.found] at hplan
          rw [List.cons_append, meet_of_ne htest]
          exact ih hn' hls' (hA.skip (not_or.1 htest).1) (hB.skip (not_or.1 htest).2) hplan
        · obtain ⟨H, L, hH, hL, rfl⟩ := plan_node hfire hplan
          rw [MA.high, MB.high] at hH ⊢
          have hroot : (meet (l :: ls ++ bs.flatten) A B).literal? = some l.value := by
            refine literal_meet_iff.2 ⟨hne, ?_⟩
            by_contra htest
            exact hfire ⟨MA.idle.2 (not_or.1 htest).1, MB.idle.2 (not_or.1 htest).2⟩
          have hhigh := ih hn' hls' (.fresh (Or.inl (hA.chained.high hn)))
            (.fresh (Or.inl (hB.chained.high hn))) hH
          have hlow := ih hn' hls' MA.low MB.low hL
          rw [eq_branch hroot, List.cons_append, meet_at.1, meet_at.2.1, meet_at.2.2,
            Diagram.collapse, Diagram.collapse, hhigh, hlow, firedWeights, MA.weights, MB.weights,
            nodeWeights_found, nodeWeights_found]
          simp only [collapse_eq_leaf]

end

theorem Separated.tail (h : Separated same (b :: bs)) : Separated same bs where
  toGrouped := h.toGrouped.tail
  across := (List.pairwise_cons.1 h.across).2

theorem Separated.beside (h : Separated same (b :: bs)) (hl : l ∈ b) :
    Beside same bs b l.value where
  alike := h.alike b (List.mem_cons_self ..) l hl
  apart k hk := by
    obtain ⟨b', hb', hk⟩ := List.mem_flatten.1 hk
    exact (List.pairwise_cons.1 h.across).1 b' hb' l hl k hk

/-- What is planned for two collapsed trees collapses to what their product collapses to. -/
theorem planned_collapse (hS : Separated same bs) (hA : Full bs A) (hB : Full bs B)
    (hT : Planned same bs.flatten ⟨A.collapse same, none⟩ ⟨B.collapse same, none⟩ T) :
    T.collapse same = (Diagram.meet bs.flatten A B).collapse same := by
  induction bs generalizing A B T with
  | nil =>
      obtain ⟨a, rfl⟩ := hA
      obtain ⟨b, rfl⟩ := hB
      have hT' : some (Diagram.meet [] (.leaf a) (.leaf b)) = some T := by
        cases a
        · exact hT
        · cases b
          · exact hT
          · exact hT
      rw [← Option.some.inj hT']
      rfl
  | cons b bs ih =>
      have hn := hS.tail.nodup
      exact Covers.planned (fun hD => hD.ordered hn) (fun hA hB hT => ih hS.tail hA hB hT) hS.nodup
        (fun l hl => hS.beside hl) (.fresh hA) (.fresh hB) hT

end BayesCircuit.Decision

/-! ## Queues of full trees -/

namespace BayesCircuit.Decision

open Collection Decision.Action Diagram

variable {same : Int → Int → Bool} {K K' : Diagram → Prop} {A B D : Diagram} {e : Exit}
variable {ls : List Literal} {bs : List (List Literal)} {cs : List Block} {collapse : Bool}
variable {m₀ m : Manager} {a b : Handle}

/-! ## Regular trees -/

/-- A tree that tests single literals in turn is regular. -/
theorem Diagram.Ordered.regular (hn : ls.Nodup) (hD : Ordered ls D) :
    Regular .atEnd (singles ls) D := by
  induction ls generalizing D with
  | nil =>
      obtain ⟨c, rfl⟩ := hD
      exact regular_leaf
  | cons l ls ih =>
      obtain ⟨-, -, hH, hL⟩ := hD
      have hn' := (List.nodup_cons.1 hn).2
      by_cases hl : D.literal? = some l.value
      · rw [eq_branch hl]
        exact regular_branch (ih hn' hH) (ih hn' hL)
      · rw [(at_of_ne hl).2.1] at hH
        show Regular .atEnd (singles ([l] ++ ls)) D
        exact regular_append hn (ih hn' hH)

theorem FullChain.chain (hK : ∀ {D}, K D → K' D) (hD : FullChain K ls D) : Chain e K' ls D := by
  induction hD with
  | nil => exact chain_leaf
  | cons _ _ hH _ ih =>
      rw [Chain, if_pos rfl]
      exact ⟨hK hH, ih⟩

/-- The chains of a full tree are never left. -/
theorem Full.regular (hL : Layout same cs) (hD : Full (cs.map Block.literals) D) :
    Regular e cs D := by
  induction cs generalizing D with
  | nil =>
      obtain ⟨c, rfl⟩ := hD
      exact regular_leaf
  | cons b cs ih =>
      rcases hD with hD | hD
      · exact (ih hL.tail hD).later hL
      · have hb : b.literals = b.head :: b.tail := rfl
        rw [hb] at hD
        cases hD with
        | cons _ _ hH hLow =>
            rw [Regular, if_pos rfl]
            exact ⟨ih hL.tail hH, hLow.chain (ih hL.tail)⟩

theorem reduces_collapse (D : Diagram) : Reduces same D (D.collapse same) := by
  induction D with
  | leaf c => exact .refl _
  | branch l ws H L ihH ihL => exact .node ihH ihL (skips_skip same _)

/-! ## Orderings of full trees -/

/-- The literals of each block count as one variable, and nothing else does. -/
structure Uniform (same : Int → Int → Bool) (bs : List (List Literal)) : Prop
    extends Separated same bs where
  nonempty : ∀ b ∈ bs, b ≠ []
  within : ∀ b ∈ bs, ∀ l ∈ b, ∀ l' ∈ b, same l.value l'.value = true

theorem exists_blocks (h : ∀ b ∈ bs, b ≠ []) : ∃ cs : List Block, bs = cs.map Block.literals := by
  induction bs with
  | nil => exact ⟨[], rfl⟩
  | cons b bs ih =>
      obtain ⟨hb, hbs⟩ := List.forall_mem_cons.1 h
      obtain ⟨l, ls, rfl⟩ := List.exists_cons_of_ne_nil hb
      obtain ⟨cs, rfl⟩ := ih hbs
      exact ⟨⟨l, ls⟩ :: cs, rfl⟩

namespace Uniform

/-- Blocks are separated with and without collapsing. -/
theorem separated_sameIf (h : Uniform same bs) : Separated (sameIf collapse same) bs where
  nodup := h.nodup
  alike b hb l hl l' hl' i := congrArg (collapse && ·) (h.alike b hb l hl l' hl' i)
  across := h.across.imp fun hbb l hl l' hl' => by
    rw [sameIf, hbb l hl l' hl', Bool.and_false]

theorem layout (h : Uniform same (cs.map Block.literals)) : Layout same cs where
  nodup := values_nodup h.nodup
  within b hb :=
    List.pairwise_of_forall_mem_list (h.within b.literals (List.mem_map_of_mem hb))
  across := List.pairwise_map.1 h.across

/-- Full trees that are collapsed, or not, are regular. -/
theorem exists_layout (collapse : Bool) (h : Uniform same bs) : ∃ cs : List Block,
    flatten cs = bs.flatten ∧ Layout (sameIf collapse same) cs ∧
      ∀ {D}, Full bs D → Regular .atEnd cs (D.collapse (sameIf collapse same)) := by
  cases collapse with
  | true =>
      rw [sameIf_true]
      obtain ⟨cs, rfl⟩ := exists_blocks h.nonempty
      refine ⟨cs, rfl, h.layout, fun {D} hD => ?_⟩
      have hweakens : Exit.Weakens .never .atEnd := ⟨by decide, by decide⟩
      have hnever : Regular .never cs (D.collapse same) :=
        (reduces_collapse D).regular (by decide) h.layout (hD.regular h.layout)
      exact hnever.weaken hweakens
  | false =>
      refine ⟨singles bs.flatten, flatten_singles _, layout_singles h.nodup, fun {D} hD => ?_⟩
      rw [collapse_of_false]
      exact (hD.ordered h.nodup).regular h.nodup

end Uniform

/-! ## Conjoining full trees -/

/-- The conjunction of two collapsed full trees has their collapsed product. -/
theorem conjoin_full (V : m.Valid) (hU : Uniform m.sameVariable bs) (hA : Full bs A)
    (hB : Full bs B) (ha : Denotes m.key? a (A.collapse (sameIf collapse m.sameVariable)))
    (hb : Denotes m.key? b (B.collapse (sameIf collapse m.sameVariable))) :
    Ends (conjoin a b bs.flatten collapse false) m fun c m' =>
      Rooted m ((meet bs.flatten A B).collapse (sameIf collapse m.sameVariable)) c m' := by
  obtain ⟨cs, hflatten, hL, hregular⟩ := hU.exists_layout collapse
  obtain ⟨T, hT⟩ := Placed.exists_planned (.between hL (hregular hA)) (.between hL (hregular hB))
  have hspec := conjoin_spec collapse V hL ha hb (hregular hA) (hregular hB) hT
  rw [hflatten] at hspec hT
  refine Ends.mono hspec ?_
  rintro c m' ⟨D, hshrinks, hR⟩
  rw [hshrinks.exact ⟨tight_collapse, tight_collapse⟩,
    planned_collapse hU.separated_sameIf hA hB hT] at hR
  exact hR

/-- The collapsed tree of a diagram whose label is the tree from before. -/
def collapsedTree (collapse : Bool) (m : Manager) (t : OrderedTree ls) : Diagram :=
  t.1.collapse (sameIf collapse m.sameVariable)

/-- Full trees are joined by their products. -/
theorem joins_full (hU : Uniform m₀.sameVariable bs) (total : OrderedTree bs.flatten) :
    Joins m₀ (collapsedTree collapse m₀) (· * ·) bs.flatten collapse
      fun ts => (∀ t ∈ ts, Full bs t.1) ∧ ts.prod = total where
  joined := by
    rintro t t' ts ⟨hfull, rfl⟩
    obtain ⟨ht, hts⟩ := List.forall_mem_cons.1 hfull
    obtain ⟨ht', hts⟩ := List.forall_mem_cons.1 hts
    refine ⟨List.forall_mem_append.2 ⟨hts, List.forall_mem_singleton.2 ?_⟩, ?_⟩
    · exact ht.meet hU.nodup ht'
    · rw [List.prod_append, List.prod_singleton, mul_comm, List.prod_cons, List.prod_cons,
        mul_assoc]
  conjoined := by
    rintro t t' ts a b m ⟨hfull, -⟩ V hvariables ha hb
    obtain ⟨ht, hts⟩ := List.forall_mem_cons.1 hfull
    obtain ⟨ht', -⟩ := List.forall_mem_cons.1 hts
    have hsame : m.sameVariable = m₀.sameVariable := sameVariable_congr hvariables
    unfold collapsedTree at ha hb ⊢
    rw [← hsame] at ha hb hU ⊢
    exact conjoin_full V hU ht ht' ha hb

/-- A queue of collapsed full trees is conjoined to their collapsed product. -/
theorem conjoinAll_full {queue : List (Handle × OrderedTree bs.flatten)} (V : m₀.Valid)
    (hU : Uniform m₀.sameVariable bs) (hfull : ∀ t ∈ queue.map (·.2), Full bs t.1)
    (H : Held m₀ (collapsedTree collapse m₀) queue m) :
    Ends (conjoinAll (queue.map (·.1)) bs.flatten collapse false) m fun c m' =>
      Held m₀ (collapsedTree collapse m₀) [(c, (queue.map (·.2)).prod)] m' := by
  cases queue with
  | nil => exact Ends.pure (H.push ((H.valid V).rooted_terminal rfl .true'))
  | cons x queue =>
      refine Ends.mono (conjoinAll_held V (joins_full hU _) (List.cons_ne_nil x queue)
        ⟨hfull, rfl⟩ H) ?_
      rintro c m' ⟨t, ⟨-, hprod⟩, H'⟩
      rwa [← hprod, List.prod_singleton]

end BayesCircuit.Decision
