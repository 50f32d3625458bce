import BayesCircuit.Decision.Conjoin
import BayesCircuit.Proofs.Decision.Chain
import BayesCircuit.Proofs.Decision.Outline

/-!
# What a conjunction plans

The engine of a conjunction walks through two diagrams at once. `jointOutline` is this engine on
trees, and `joint` is the value of what it builds (`plan_value`).

The two walks do not disturb each other, with one exception. If one side leaves a chain early, for
`true'`, and the block does not touch the other side, what is built below the chain is a copy of
the other side; a later literal of the block then takes the high edge of the chain, which the side
at `true'` would not have done. At such a literal, `joint` goes on from that high edge
(`Stand.ended`).
-/

namespace BayesCircuit.Decision

namespace Stand

/-- Drop the node that was left unless the literal that follows belongs to the same variable. -/
def settle (same : Int → Int → Bool) (following : Option Literal) (s : Stand) : Stand :=
  ⟨s.node, s.left.filter fun p => following.any fun l => same p.1 l.value⟩

/-- What a side that has left its chain for `true'` would jump to, while the other side is still
at work. -/
def ended (s t : Stand) : Option (Weights × Diagram) :=
  if s.node = .leaf true ∧ t.node ≠ .leaf true then s.left.map (·.2) else none

end Stand

/-- What is known of the product of two diagrams whose sides cannot jump. -/
def highFound (A B : Diagram) : Cofactor :=
  if A = .leaf false ∨ B = .leaf false then .unsatisfiable
  else if A = .leaf true ∧ B = .leaf true then .satisfiable
  else if A = .leaf true ∨ B = .leaf true then .trivial
  else .unsatisfied

/-- What is known of the product of two sides, each of which may be able to jump. -/
def lowFound (s t : Stand) : Cofactor :=
  if s.node = .leaf false ∧ s.left = none ∨ t.node = .leaf false ∧ t.left = none then
    .unsatisfiable
  else if s.node = .leaf true ∧ t.node = .leaf true then .satisfiable
  else if s.node = .leaf true ∧ t.left = none ∨ t.node = .leaf true ∧ s.left = none then .trivial
  else .unsatisfied

/-- The weights that two sides collect. -/
def firedWeights (p q : Option (Weights × Diagram)) : Weights :=
  Weights.union (p.elim [] (·.1)) (q.elim [] (·.1))

/-- Where a side stands after a literal that holds. -/
def firedNode (p : Option (Weights × Diagram)) (s : Stand) : Diagram := p.elim s.node (·.2)

/-- Two sides that cannot jump. -/
def start (A B : Diagram) : Both Stand := ⟨⟨A, none⟩, ⟨B, none⟩⟩

/-- The engine of a conjunction on trees. -/
def jointOutline (same : Int → Int → Bool) : Outline (Both Stand) where
  high a l _ :=
    let p := a.left.fire l
    let q := a.right.fire l
    let A := firedNode p a.left
    let B := firedNode q a.right
    if p = none ∧ q = none then (.redundant, [], a)
    else (highFound A B, firedWeights p q, start A B)
  low a l following :=
    let s := (a.left.descend l).settle same following
    let t := (a.right.descend l).settle same following
    (lowFound s t, ⟨s, t⟩)
  other a := if a.left.node = .leaf true then a.right.node else a.left.node

/-- The value of two chains; `K` is the value of the diagrams that follow them. -/
def jointChain (K : Diagram → Diagram → Value) (x : Literal → Bool) :
    List Literal → Stand → Stand → Value
  | [], s, t => K s.node t.node
  | l :: ls, s, t =>
      if x l then
        if s.fire l = none ∧ t.fire l = none then
          match s.ended t, t.ended s with
          | some (ws, high), _ => collect ws (K high t.node)
          | none, some (ws, high) => collect ws (K s.node high)
          | none, none => K s.node t.node
        else collect (firedWeights (s.fire l) (t.fire l))
          (K (firedNode (s.fire l) s) (firedNode (t.fire l) t))
      else jointChain K x ls (s.descend l) (t.descend l)

/-- The value of what is built for two diagrams. -/
def joint (x : Literal → Bool) : List Block → Diagram → Diagram → Value
  | [], A, B => if A = .leaf true ∧ B = .leaf true then some 0 else none
  | b :: bs, A, B => jointChain (joint x bs) x b.literals ⟨A, none⟩ ⟨B, none⟩

variable {x : Literal → Bool} {same : Int → Int → Bool} {e : Exit}
variable {b : Block} {bs : List Block} {l : Literal} {ls rest : List Literal}
variable {A B D T : Diagram} {s t : Stand} {ws : Weights} {K : Diagram → Diagram → Value}

@[simp]
theorem jointChain_nil : jointChain K x [] s t = K s.node t.node := rfl

theorem jointChain_cons : jointChain K x (l :: ls) s t =
    if x l then
      if s.fire l = none ∧ t.fire l = none then
        match s.ended t, t.ended s with
        | some (ws, high), _ => collect ws (K high t.node)
        | none, some (ws, high) => collect ws (K s.node high)
        | none, none => K s.node t.node
      else collect (firedWeights (s.fire l) (t.fire l))
        (K (firedNode (s.fire l) s) (firedNode (t.fire l) t))
    else jointChain K x ls (s.descend l) (t.descend l) := rfl

theorem joint_nil : joint x [] A B =
    if A = .leaf true ∧ B = .leaf true then some 0 else none := rfl

theorem joint_cons : joint x (b :: bs) A B =
    jointChain (joint x bs) x b.literals ⟨A, none⟩ ⟨B, none⟩ := rfl

theorem lowFound_start : lowFound ⟨A, none⟩ ⟨B, none⟩ = highFound A B := by
  simp [lowFound, highFound]

@[simp]
theorem firedNode_none : firedNode none s = s.node := rfl

@[simp]
theorem firedNode_some {p : Weights × Diagram} : firedNode (some p) s = p.2 := rfl

theorem union_nil (ws : Weights) : Weights.union ws [] = ws := by
  simp [Weights.union]

theorem nil_union (ws : Weights) : Weights.union [] ws = ws := by
  simp [Weights.union]

/-! ## A side at a leaf -/

theorem fire_of_true (hs : s.node = .leaf true) : s.fire l = none := by
  obtain ⟨D, p⟩ := s
  obtain rfl : D = .leaf true := hs
  rfl

theorem descend_of_true (hs : s.node = .leaf true) : s.descend l = s := by
  obtain ⟨D, p⟩ := s
  obtain rfl : D = .leaf true := hs
  rfl

theorem jointChain_true (hs : s.node = .leaf true) (ht : t.node = .leaf true) :
    jointChain K x ls s t = K (.leaf true) (.leaf true) := by
  induction ls with
  | nil => rw [jointChain_nil, hs, ht]
  | cons l ls ih =>
      rw [jointChain_cons, fire_of_true hs, fire_of_true ht, descend_of_true hs, descend_of_true ht, ih]
      simp [Stand.ended, hs, ht]

/-- A side at `true'` that has left no chain leaves the other side alone. -/
theorem jointChain_true_left {K' : Diagram → Value} (hK : ∀ B, K (.leaf true) B = K' B) :
    jointChain K x ls ⟨.leaf true, none⟩ t = chainValue K' x ls t := by
  induction ls generalizing t with
  | nil => exact hK t.node
  | cons l ls ih =>
      rw [jointChain_cons, chainValue, descend_leaf, ih]
      cases ht : t.fire l with
      | none => simp [Stand.ended, hK]
      | some p => simp [firedWeights, firedNode, nil_union, hK]

theorem jointChain_true_right {K' : Diagram → Value} (hK : ∀ A, K A (.leaf true) = K' A) :
    jointChain K x ls s ⟨.leaf true, none⟩ = chainValue K' x ls s := by
  induction ls generalizing s with
  | nil => exact hK s.node
  | cons l ls ih =>
      rw [jointChain_cons, chainValue, descend_leaf, ih]
      cases hs : s.fire l with
      | none => simp [Stand.ended, hK]
      | some p => simp [firedWeights, firedNode, union_nil, hK]

theorem joint_true_left : joint x bs (.leaf true) B = B.value x bs := by
  induction bs generalizing B with
  | nil => simp [joint_nil, Diagram.value]
  | cons b bs ih => exact jointChain_true_left fun _ => ih

theorem joint_true_right : joint x bs A (.leaf true) = A.value x bs := by
  induction bs generalizing A with
  | nil => simp [joint_nil, Diagram.value]
  | cons b bs ih => exact jointChain_true_right fun _ => ih

theorem jointChain_false_left (hK : ∀ B, K (.leaf false) B = none) :
    jointChain K x ls ⟨.leaf false, none⟩ t = none := by
  induction ls generalizing t with
  | nil => exact hK t.node
  | cons l ls ih =>
      rw [jointChain_cons, descend_leaf, ih]
      cases ht : t.fire l with
      | none =>
          cases he : t.ended ⟨.leaf false, none⟩ <;> simp [Stand.ended, hK]
      | some p => simp [hK]

theorem jointChain_false_right (hK : ∀ A, K A (.leaf false) = none) :
    jointChain K x ls s ⟨.leaf false, none⟩ = none := by
  induction ls generalizing s with
  | nil => exact hK s.node
  | cons l ls ih =>
      rw [jointChain_cons, descend_leaf, ih]
      cases hs : s.fire l with
      | none =>
          cases he : s.ended ⟨.leaf false, none⟩ <;> simp [Stand.ended, hK]
      | some p => simp [hK]

theorem joint_false_left : joint x bs (.leaf false) B = none := by
  induction bs generalizing B with
  | nil => simp [joint_nil]
  | cons b bs ih => exact jointChain_false_left fun _ => ih

theorem joint_false_right : joint x bs A (.leaf false) = none := by
  induction bs generalizing A with
  | nil => simp [joint_nil]
  | cons b bs ih => exact jointChain_false_right fun _ => ih

theorem jointChain_of_untested (hs : Untested ls A) (ht : Untested ls B) :
    jointChain K x ls ⟨A, none⟩ ⟨B, none⟩ = K A B := by
  induction ls with
  | nil => rfl
  | cons l ls ih =>
      have hl := hs l (List.mem_cons_self ..)
      have hl' := ht l (List.mem_cons_self ..)
      rw [jointChain_cons, fire_of_untested hl, fire_of_untested hl', descend_of_untested hl,
        descend_of_untested hl', ih hs.tail ht.tail]
      simp [Stand.ended]

/-! ## Planning -/

/-- The tree of two sides is planned along an ordering. -/
def Planned (same : Int → Int → Bool) (ls : List Literal) (s t : Stand) (T : Diagram) : Prop :=
  (jointOutline same).child (lowFound s t) ((jointOutline same).plan ls ⟨s, t⟩) ⟨s, t⟩ = some T

/-- Two sides at which something is left to do. -/
structure AtWork (s t : Stand) : Prop where
  left_false : s.node = .leaf false → s.left ≠ none
  right_false : t.node = .leaf false → t.left ≠ none
  left_true : s.node = .leaf true → t.node ≠ .leaf true ∧ t.left ≠ none
  right_true : t.node = .leaf true → s.node ≠ .leaf true ∧ s.left ≠ none

theorem Planned.cases_found (h : Planned same ls s t T) :
    (T = .leaf false ∧ (s.node = .leaf false ∧ s.left = none ∨
      t.node = .leaf false ∧ t.left = none)) ∨
    (T = .leaf true ∧ s.node = .leaf true ∧ t.node = .leaf true) ∨
    (T = t.node ∧ s.node = .leaf true ∧ t.node ≠ .leaf true ∧ t.left = none) ∨
    (T = s.node ∧ t.node = .leaf true ∧ s.node ≠ .leaf true ∧ s.left = none) ∨
    (AtWork s t ∧ (jointOutline same).plan ls ⟨s, t⟩ = some T) := by
  unfold Planned lowFound at h
  split at h
  · rename_i hf
    exact Or.inl ⟨(Option.some.inj h).symm, hf⟩
  · rename_i hf
    split at h
    · rename_i ht
      exact Or.inr (Or.inl ⟨(Option.some.inj h).symm, ht⟩)
    · rename_i ht
      split at h
      · rename_i htriv
        simp only [Outline.child, jointOutline, Option.some.injEq] at h
        by_cases hs : s.node = .leaf true
        · rw [if_pos hs] at h
          rcases htriv with ⟨_, hn⟩ | ⟨hn, _⟩
          · exact Or.inr (Or.inr (Or.inl ⟨h.symm, hs, fun he => ht ⟨hs, he⟩, hn⟩))
          · exact absurd ⟨hs, hn⟩ ht
        · rw [if_neg hs] at h
          rcases htriv with ⟨he, _⟩ | ⟨he, hn⟩
          · exact absurd he hs
          · exact Or.inr (Or.inr (Or.inr (Or.inl ⟨h.symm, he, hs, hn⟩)))
      · rename_i htriv
        refine Or.inr (Or.inr (Or.inr (Or.inr ⟨⟨?_, ?_, ?_, ?_⟩, h⟩)))
        · exact fun he hn => hf (Or.inl ⟨he, hn⟩)
        · exact fun he hn => hf (Or.inr ⟨he, hn⟩)
        · exact fun he => ⟨fun he' => ht ⟨he, he'⟩, fun hn => htriv (Or.inl ⟨he, hn⟩)⟩
        · exact fun he => ⟨fun he' => ht ⟨he', he⟩, fun hn => htriv (Or.inr ⟨he, hn⟩)⟩

theorem joint_redundant (hs : s.fire l = none) (ht : t.fire l = none) :
    (jointOutline same).plan (l :: ls) ⟨s, t⟩ = (jointOutline same).plan ls ⟨s, t⟩ := by
  simp [Outline.plan, jointOutline, hs, ht]

theorem highFound_ne_redundant : highFound A B ≠ .redundant := by
  unfold highFound
  split
  · decide
  · split
    · decide
    · split <;> decide

theorem joint_high (hfire : ¬ (s.fire l = none ∧ t.fire l = none)) (following : Option Literal) :
    (jointOutline same).high ⟨s, t⟩ l following =
      (highFound (firedNode (s.fire l) s) (firedNode (t.fire l) t),
        firedWeights (s.fire l) (t.fire l),
        start (firedNode (s.fire l) s) (firedNode (t.fire l) t)) := by
  simp only [jointOutline]
  rw [if_neg hfire]

/-- What is planned at a literal that matters to a side. -/
theorem plan_node (hfire : ¬ (s.fire l = none ∧ t.fire l = none))
    (hT : (jointOutline same).plan (l :: ls) ⟨s, t⟩ = some T) :
    ∃ H L, Planned same ls ⟨firedNode (s.fire l) s, none⟩ ⟨firedNode (t.fire l) t, none⟩ H ∧
      Planned same ls ((s.descend l).settle same ls.head?) ((t.descend l).settle same ls.head?) L ∧
      T = .branch l.value (nodeWeights
        (highFound (firedNode (s.fire l) s) (firedNode (t.fire l) t))
        (firedWeights (s.fire l) (t.fire l))) H L := by
  simp only [Outline.plan, joint_high hfire, highFound_ne_redundant, if_false] at hT
  split at hT
  · rename_i H L hH hL
    refine ⟨H, L, ?_, hL, (Option.some.inj hT).symm⟩
    unfold Planned
    rw [lowFound_start]
    exact hH
  · cases hT

theorem plan_skip (same : Int → Int → Bool) (rest : List Literal) (hA : Untested ls A)
    (hB : Untested ls B) :
    (jointOutline same).plan (ls ++ rest) (start A B) =
      (jointOutline same).plan rest (start A B) := by
  induction ls with
  | nil => rfl
  | cons l ls ih =>
      have hl := fire_of_untested (hA l (List.mem_cons_self ..))
      have hl' := fire_of_untested (hB l (List.mem_cons_self ..))
      rw [← ih hA.tail hB.tail]
      exact joint_redundant hl hl'

theorem Planned.skip (hA : Untested ls A) (hB : Untested ls B)
    (h : Planned same (ls ++ rest) ⟨A, none⟩ ⟨B, none⟩ T) :
    Planned same rest ⟨A, none⟩ ⟨B, none⟩ T := by
  have := plan_skip same rest hA hB
  unfold start at this
  unfold Planned at h ⊢
  rwa [this] at h

/-- The root of what is planned tests a literal of the ordering. -/
theorem plan_literal (hT : (jointOutline same).plan ls ⟨s, t⟩ = some T) :
    ∃ l ∈ ls, T.literal? = some l.value := by
  induction ls with
  | nil => cases hT
  | cons l ls ih =>
      by_cases hfire : s.fire l = none ∧ t.fire l = none
      · rw [joint_redundant hfire.1 hfire.2] at hT
        obtain ⟨l', hl', he⟩ := ih hT
        exact ⟨l', List.mem_cons_of_mem _ hl', he⟩
      · obtain ⟨H, L, _, _, rfl⟩ := plan_node hfire hT
        exact ⟨l, List.mem_cons_self .., rfl⟩

/-! ## One side inside a block -/

/-- The literals that a block has left. -/
structure Within (same : Int → Int → Bool) (bs : List Block) (ls : List Literal) : Prop where
  related : ls.Pairwise fun l l' => same l.value l'.value = true
  across : ∀ l ∈ ls, ∀ l' ∈ flatten bs, same l.value l'.value = false
  untested : ∀ {e E}, Regular e bs E → Untested ls E

theorem Within.tail (hw : Within same bs (l :: ls)) : Within same bs ls where
  related := (List.pairwise_cons.1 hw.related).2
  across l' hl' := hw.across l' (List.mem_cons_of_mem _ hl')
  untested hE := (hw.untested hE).tail

/-- A side that has left a node of the block through its low edge. -/
structure Touched (e : Exit) (same : Int → Int → Bool) (bs : List Block) (ls : List Literal) (s : Stand)
    (n : Int) (ws : Weights) (H : Diagram) : Prop where
  left : s.left = some (n, ws, H)
  high : Regular e bs H
  within : ∀ l ∈ ls, same n l.value = true
  across : ∀ l ∈ flatten bs, same n l.value = false
  chain : Chain e (Regular e bs) ls s.node

/-- A side is inside the block, or the block does not touch it. -/
def InBlock (e : Exit) (same : Int → Int → Bool) (bs : List Block) (ls : List Literal) (s : Stand) : Prop :=
  (∃ n ws H, Touched e same bs ls s n ws H) ∨ s.left = none ∧ Regular e bs s.node

theorem InBlock.regular (h : InBlock e same bs [] s) : Regular e bs s.node := by
  rcases h with ⟨n, ws, H, hT⟩ | ⟨_, hR⟩
  · have := hT.chain
    cases hs : s.node with
    | leaf c => exact regular_leaf
    | branch =>
        rw [hs] at this
        exact this.2
  · exact hR

theorem settle_of_none (hs : s.left = none) (following : Option Literal) :
    s.settle same following = s := by
  obtain ⟨D, p⟩ := s
  obtain rfl : p = none := hs
  rfl

/-- Inside a block, the next literal belongs to the same variable. -/
theorem InBlock.settle_cons (h : InBlock e same bs (l :: ls) s) :
    s.settle same (some l) = s := by
  rcases h with ⟨n, ws, H, hT⟩ | ⟨hn, _⟩
  · obtain ⟨D, p⟩ := s
    obtain rfl : p = some (n, ws, H) := hT.left
    have := hT.within l (List.mem_cons_self ..)
    simp [Stand.settle, this]
  · exact settle_of_none hn _

/-- After its last literal, a block is forgotten. -/
theorem InBlock.settle_nil (h : InBlock e same bs [] s) :
    s.settle same (flatten bs).head? = ⟨s.node, none⟩ := by
  rcases h with ⟨n, ws, H, hT⟩ | ⟨hn, _⟩
  · obtain ⟨D, p⟩ := s
    obtain rfl : p = some (n, ws, H) := hT.left
    cases hb : flatten bs with
    | nil => simp [Stand.settle]
    | cons l' ls' =>
        have := hT.across l' (by rw [hb]; exact List.mem_cons_self ..)
        simp [Stand.settle, this]
  · obtain ⟨D, p⟩ := s
    obtain rfl : p = none := hn
    exact settle_of_none rfl _

theorem fire_cases (s : Stand) (l : Literal) :
    (∃ ws high low, s.node = .branch l.value ws high low ∧ s.fire l = some (ws, high) ∧
      s.descend l = ⟨low, some (l.value, ws, high)⟩) ∨
    (s.node.literal? ≠ some l.value ∧ s.descend l = s ∧
      s.fire l = if s.node = .leaf true then none else s.left.map (·.2)) := by
  obtain ⟨D, p⟩ := s
  cases D with
  | leaf c => cases c <;> simp [Stand.fire, Stand.descend, Diagram.literal?]
  | branch n ws high low =>
      by_cases hn : n = l.value
      · subst hn
        exact Or.inl ⟨ws, high, low, rfl, by simp [Stand.fire], by simp [Stand.descend]⟩
      · refine Or.inr ⟨by simpa [Diagram.literal?] using hn, ?_, ?_⟩ <;>
          simp [Stand.fire, Stand.descend, hn]

theorem chain_branch_cons {n : Int} {high low : Diagram} {K : Diagram → Prop}
    (h : Chain e K (l :: ls) (.branch n ws high low)) (hn : n ≠ l.value) :
    Chain e K ls (.branch n ws high low) := by
  simp only [Chain, hn, if_false] at h
  exact h.2

theorem InBlock.tail_of_untested (h : InBlock e same bs (l :: ls) s)
    (hl : s.node.literal? ≠ some l.value) : InBlock e same bs ls s := by
  rcases h with ⟨n, ws, H, hT⟩ | hn
  · refine Or.inl ⟨n, ws, H, hT.left, hT.high,
      fun l' hl' => hT.within l' (List.mem_cons_of_mem _ hl'), hT.across, ?_⟩
    have hc := hT.chain
    cases hs : s.node with
    | leaf c => exact chain_leaf
    | branch n' ws' high low =>
        rw [hs] at hc hl
        exact chain_branch_cons hc (by simpa [Diagram.literal?] using hl)
  · exact Or.inr hn

theorem InBlock.descend (hw : Within same bs (l :: ls)) (h : InBlock e same bs (l :: ls) s) :
    InBlock e same bs ls (s.descend l) := by
  rcases fire_cases s l with ⟨ws, high, low, hs, _, hd⟩ | ⟨hl, hd, _⟩
  · rw [hd]
    -- a diagram of later blocks does not test the literal
    rcases h with ⟨n, ws', H, hT⟩ | ⟨_, hR⟩
    · have hc := hT.chain
      rw [hs] at hc
      simp only [Chain, if_true] at hc
      refine Or.inl ⟨l.value, ws, high, rfl, hc.1, ?_, ?_, hc.2⟩
      · exact (List.pairwise_cons.1 hw.related).1
      · exact hw.across l (List.mem_cons_self ..)
    · refine absurd ?_ (hw.untested hR l (List.mem_cons_self ..))
      rw [hs]
      rfl
  · rw [hd]
    exact h.tail_of_untested hl

/-- After a literal that holds, both sides stand at later blocks. -/
theorem InBlock.fired (hw : Within same bs (l :: ls)) (h : InBlock e same bs (l :: ls) s) :
    Regular e bs (firedNode (s.fire l) s) := by
  rcases fire_cases s l with ⟨ws, high, low, hs, hf, _⟩ | ⟨hl, _, hf⟩
  · rw [hf]
    rcases h with ⟨n, ws', H, hT⟩ | ⟨_, hR⟩
    · have hc := hT.chain
      rw [hs] at hc
      simp only [Chain, if_true] at hc
      exact hc.1
    · refine absurd ?_ (hw.untested hR l (List.mem_cons_self ..))
      rw [hs]
      rfl
  · rw [hf]
    split
    · rename_i ht
      rw [firedNode_none, ht]
      exact regular_leaf
    · rcases h with ⟨n, ws', H, hT⟩ | ⟨hn, hR⟩
      · rw [hT.left]
        exact hT.high
      · rw [hn]
        exact hR

theorem InBlock.not_tested (hw : Within same bs (l :: ls)) (h : InBlock e same bs (l :: ls) s)
    (hn : s.left = none) : s.node.literal? ≠ some l.value := by
  rcases h with ⟨n, ws, H, hT⟩ | ⟨_, hR⟩
  · rw [hT.left] at hn
    cases hn
  · exact hw.untested hR l (List.mem_cons_self ..)

theorem left_descend (hs : s.left ≠ none) : (s.descend l).left ≠ none := by
  rcases fire_cases s l with ⟨ws, high, low, _, _, hd⟩ | ⟨_, hd, _⟩
  · rw [hd]
    simp
  · rwa [hd]

/-! ## The value of a planned tree -/

/-- What is built for a literal that holds has the value of the pair that is reached. -/
theorem collect_nodeWeights {K : Value} (hT : A = .leaf false ∨ B = .leaf false → K = none) :
    collect (nodeWeights (highFound A B) ws) K = collect ws K := by
  unfold nodeWeights highFound
  split
  · rename_i hf
    rw [hT hf]
    rfl
  · rename_i hf
    have hne : ((if A = .leaf true ∧ B = .leaf true then Cofactor.satisfiable
        else if A = .leaf true ∨ B = .leaf true then .trivial else .unsatisfied) ==
          .unsatisfiable) = false := by
      split
      · rfl
      · split <;> rfl
    simp [hne]

theorem joint_of_false (h : A = .leaf false ∨ B = .leaf false) : joint x bs A B = none := by
  rcases h with rfl | rfl
  · exact joint_false_left
  · exact joint_false_right

/-- The node that was left last, above what is planned for two sides inside a block. -/
structure Linked (x : Literal → Bool) (bs : List Block) (s t : Stand) (ws : Weights)
    (H : Diagram) : Prop where
  touched : s.left ≠ none ∨ t.left ≠ none
  left_false : s.left = none → s.node ≠ .leaf false
  right_false : t.left = none → t.node ≠ .leaf false
  left : ∀ {n ws' H'}, s.left = some (n, ws', H') → s.node = .leaf true → t.left = none →
    collect ws (H.value x bs) = collect ws' (joint x bs H' t.node)
  right : ∀ {n ws' H'}, t.left = some (n, ws', H') → t.node = .leaf true → s.left = none →
    collect ws (H.value x bs) = collect ws' (joint x bs s.node H')

/-- Planned trees for later blocks have the value of the pair. -/
def PlannedLater (e : Exit) (same : Int → Int → Bool) (x : Literal → Bool) (bs : List Block) : Prop :=
  ∀ {A B T}, Regular e bs A → Regular e bs B → Planned same (flatten bs) ⟨A, none⟩ ⟨B, none⟩ T →
    T.value x bs = joint x bs A B

variable {n : Int} {H : Diagram}

theorem PlannedLater.skip (hK : PlannedLater e same x bs) (hw : Within same bs ls)
    (hA : Regular e bs A) (hB : Regular e bs B)
    (hT : Planned same (ls ++ flatten bs) ⟨A, none⟩ ⟨B, none⟩ T) :
    T.value x bs = joint x bs A B :=
  hK hA hB (hT.skip (hw.untested hA) (hw.untested hB))

/-- A copy of a side that the block does not touch, below a chain that has ended. -/
theorem chainValue_copy {K : Diagram → Diagram → Value} {K' : Diagram → Value}
    {n' : Int} {ws' : Weights} {H' : Diagram} (hu : Untested ls D) (ht : D ≠ .leaf true)
    (hK : K (.leaf true) D = K' D)
    (hlink : collect ws (K' H) = collect ws' (K H' D)) :
    chainValue K' x ls ⟨D, some (n, ws, H)⟩ =
      jointChain K x ls ⟨.leaf true, some (n', ws', H')⟩ ⟨D, none⟩ := by
  induction ls with
  | nil => exact hK.symm
  | cons l ls ih =>
      have hl := hu l (List.mem_cons_self ..)
      have hfire : Stand.fire l ⟨D, some (n, ws, H)⟩ = some (ws, H) := by
        rcases fire_cases ⟨D, some (n, ws, H)⟩ l with ⟨_, _, _, hs, _⟩ | ⟨_, _, hf⟩
        · rw [show D = _ from hs] at hl
          exact absurd rfl hl
        · rw [hf]
          simp [ht]
      rw [chainValue, jointChain_cons, hfire, fire_true, fire_of_untested hl, descend_of_untested hl,
        descend_of_untested hl, descend_leaf, ih hu.tail]
      simp [Stand.ended, ht, hlink]

theorem chainValue_copy_right {K : Diagram → Diagram → Value} {K' : Diagram → Value}
    {n' : Int} {ws' : Weights} {H' : Diagram} (hu : Untested ls D) (ht : D ≠ .leaf true)
    (hK : K D (.leaf true) = K' D)
    (hlink : collect ws (K' H) = collect ws' (K D H')) :
    chainValue K' x ls ⟨D, some (n, ws, H)⟩ =
      jointChain K x ls ⟨D, none⟩ ⟨.leaf true, some (n', ws', H')⟩ := by
  induction ls with
  | nil => exact hK.symm
  | cons l ls ih =>
      have hl := hu l (List.mem_cons_self ..)
      have hfire : Stand.fire l ⟨D, some (n, ws, H)⟩ = some (ws, H) := by
        rcases fire_cases ⟨D, some (n, ws, H)⟩ l with ⟨_, _, _, hs, _⟩ | ⟨_, _, hf⟩
        · rw [show D = _ from hs] at hl
          exact absurd rfl hl
        · rw [hf]
          simp [ht]
      rw [chainValue, jointChain_cons, hfire, fire_true, fire_of_untested hl, descend_of_untested hl,
        descend_of_untested hl, descend_leaf, ih hu.tail]
      simp [Stand.ended, ht, hlink]

/-- Inside a block, two sides at which something is left to do react to the next literal. -/
theorem AtWork.fires (hW : AtWork s t) (htouched : s.left ≠ none ∨ t.left ≠ none) :
    ¬ (s.fire l = none ∧ t.fire l = none) := by
  have hsome : ∀ {r : Stand}, r.left ≠ none → r.node ≠ .leaf true → r.fire l ≠ none := by
    intro r hr ht
    rcases fire_cases r l with ⟨_, _, _, _, hf, _⟩ | ⟨_, _, hf⟩
    · rw [hf]
      simp
    · rw [hf, if_neg ht]
      simpa using hr
  rintro ⟨hs, ht⟩
  rcases htouched with h | h
  · by_cases hst : s.node = .leaf true
    · obtain ⟨htt, htl⟩ := hW.left_true hst
      exact hsome htl htt ht
    · exact hsome h hst hs
  · by_cases htt : t.node = .leaf true
    · obtain ⟨hst, hsl⟩ := hW.right_true htt
      exact hsome hsl hst hs
    · exact hsome h htt ht

/-- The link below a node that has been planned. -/
theorem Linked.descend (hfire : ¬ (s.fire l = none ∧ t.fire l = none))
    (htouched : (s.descend l).left ≠ none ∨ (t.descend l).left ≠ none)
    (hfalse : s.left = none → s.node ≠ .leaf false)
    (hfalse' : t.left = none → t.node ≠ .leaf false)
    (hH : collect ws (H.value x bs) = collect (firedWeights (s.fire l) (t.fire l))
      (joint x bs (firedNode (s.fire l) s) (firedNode (t.fire l) t))) :
    Linked x bs (s.descend l) (t.descend l) ws H := by
  -- a side that has left no node does not react to the literal
  have hnone : ∀ {r : Stand}, (r.descend l).left = none →
      r.left = none ∧ r.descend l = r ∧ r.fire l = none := by
    intro r hr
    rcases fire_cases r l with ⟨_, _, _, _, _, hd⟩ | ⟨_, hd, hf⟩
    · rw [hd] at hr
      cases hr
    · rw [hd] at hr
      refine ⟨hr, hd, ?_⟩
      rw [hf, hr]
      simp
  refine ⟨htouched, ?_, ?_, ?_, ?_⟩
  · intro hn
    rw [(hnone hn).2.1]
    exact hfalse (hnone hn).1
  · intro hn
    rw [(hnone hn).2.1]
    exact hfalse' (hnone hn).1
  · intro n' ws' H' hl htrue htn
    obtain ⟨_, htd, htf⟩ := hnone htn
    rw [htd, hH, htf]
    rcases fire_cases s l with ⟨_, _, _, _, hf, hd⟩ | ⟨_, hd, hf⟩
    · rw [hd] at hl
      cases hl
      rw [hf]
      simp [firedWeights, union_nil]
    · rw [hd] at htrue
      rw [if_pos htrue] at hf
      exact absurd ⟨hf, htf⟩ hfire
  · intro n' ws' H' hl htrue hsn
    obtain ⟨_, hsd, hsf⟩ := hnone hsn
    rw [hsd, hH, hsf]
    rcases fire_cases t l with ⟨_, _, _, _, hf, hd⟩ | ⟨_, hd, hf⟩
    · rw [hd] at hl
      cases hl
      rw [hf]
      simp [firedWeights, nil_union]
    · rw [hd] at htrue
      rw [if_pos htrue] at hf
      exact absurd ⟨hsf, hf⟩ hfire

/-- A node that has been planned has the value of the two sides, if its low child has. -/
theorem chainValue_node {p : Option (Int × Weights × Diagram)} {L : Diagram}
    (hK : PlannedLater e same x bs) (hw : Within same bs ls)
    (hs : Regular e bs (firedNode (s.fire l) s)) (ht : Regular e bs (firedNode (t.fire l) t))
    (hfire : ¬ (s.fire l = none ∧ t.fire l = none))
    (hH : Planned same (ls ++ flatten bs) ⟨firedNode (s.fire l) s, none⟩
      ⟨firedNode (t.fire l) t, none⟩ H)
    (htouched : (s.descend l).left ≠ none ∨ (t.descend l).left ≠ none)
    (hfalse : s.left = none → s.node ≠ .leaf false)
    (hfalse' : t.left = none → t.node ≠ .leaf false)
    (hws : ws = nodeWeights (highFound (firedNode (s.fire l) s) (firedNode (t.fire l) t))
      (firedWeights (s.fire l) (t.fire l)))
    (hlow : Linked x bs (s.descend l) (t.descend l) ws H →
      chainValue (Diagram.value x bs) x ls ⟨L, some (l.value, ws, H)⟩ =
        jointChain (joint x bs) x ls (s.descend l) (t.descend l)) :
    chainValue (Diagram.value x bs) x (l :: ls) ⟨.branch l.value ws H L, p⟩ =
      jointChain (joint x bs) x (l :: ls) s t := by
  have hvalue := hK.skip hw hs ht hH
  have hcollect : collect ws (H.value x bs) = collect (firedWeights (s.fire l) (t.fire l))
      (joint x bs (firedNode (s.fire l) s) (firedNode (t.fire l) t)) := by
    rw [hvalue, hws]
    exact collect_nodeWeights fun hf => joint_of_false hf
  have hf : Stand.fire l ⟨.branch l.value ws H L, p⟩ = some (ws, H) := by simp [Stand.fire]
  have hd : Stand.descend l ⟨.branch l.value ws H L, p⟩ = ⟨L, some (l.value, ws, H)⟩ := by
    simp [Stand.descend]
  rw [chainValue, jointChain_cons, hf, hd, if_neg hfire]
  cases x l with
  | true => exact hcollect
  | false => exact hlow (Linked.descend hfire htouched hfalse hfalse' hcollect)

theorem chainValue_planned (hK : PlannedLater e same x bs) :
    ∀ {ls s t T n ws H}, Within same bs ls → InBlock e same bs ls s → InBlock e same bs ls t →
      Planned same (ls ++ flatten bs) (s.settle same (ls ++ flatten bs).head?)
        (t.settle same (ls ++ flatten bs).head?) T →
      Linked x bs s t ws H →
      chainValue (Diagram.value x bs) x ls ⟨T, some (n, ws, H)⟩ =
        jointChain (joint x bs) x ls s t
  | [], s, t, T, n, ws, H, hw, hs, ht, hT, _ => by
      rw [List.nil_append, hs.settle_nil, ht.settle_nil] at hT
      exact hK hs.regular ht.regular hT
  | l :: ls, s, t, T, n, ws, H, hw, hs, ht, hT, hl => by
      rw [List.cons_append, List.head?_cons, hs.settle_cons, ht.settle_cons] at hT
      rcases hT.cases_found with ⟨_, hf⟩ | ⟨rfl, hst, htt⟩ | ⟨rfl, hst, htt, hn⟩ |
        ⟨rfl, htt, hst, hn⟩ | ⟨hW, hplan⟩
      · rcases hf with ⟨hf, hn⟩ | ⟨hf, hn⟩
        · exact absurd hf (hl.left_false hn)
        · exact absurd hf (hl.right_false hn)
      · rw [chainValue_true rfl, jointChain_true hst htt, joint_true_left]
      · obtain ⟨D, p⟩ := s
        obtain rfl : D = .leaf true := hst
        obtain ⟨E, q⟩ := t
        obtain rfl : q = none := hn
        cases p with
        | none => simpa using hl.touched
        | some p =>
            obtain ⟨n', ws', H'⟩ := p
            have hu : Untested (l :: ls) E := by
              rcases ht with ⟨_, _, _, hT⟩ | ⟨_, hR⟩
              · cases hT.left
              · exact hw.untested hR
            exact chainValue_copy hu htt joint_true_left
              (hl.left rfl rfl rfl)
      · obtain ⟨D, p⟩ := t
        obtain rfl : D = .leaf true := htt
        obtain ⟨E, q⟩ := s
        obtain rfl : q = none := hn
        cases p with
        | none => simpa using hl.touched
        | some p =>
            obtain ⟨n', ws', H'⟩ := p
            have hu : Untested (l :: ls) E := by
              rcases hs with ⟨_, _, _, hT⟩ | ⟨_, hR⟩
              · cases hT.left
              · exact hw.untested hR
            exact chainValue_copy_right hu hst joint_true_right
              (hl.right rfl rfl rfl)
      · have hfire := hW.fires (l := l) hl.touched
        obtain ⟨H₁, L, hH, hL, rfl⟩ := plan_node hfire hplan
        exact chainValue_node hK hw.tail (hs.fired hw) (ht.fired hw) hfire hH
          (hl.touched.imp left_descend left_descend) hl.left_false hl.right_false rfl fun hlink =>
            chainValue_planned hK hw.tail (hs.descend hw) (ht.descend hw) hL hlink

theorem Layout.within_literals (hL : Layout same (b :: bs)) : Within same bs b.literals where
  related := hL.within b (List.mem_cons_self ..)
  across l hl l' hl' := by
    obtain ⟨b', hb', hl'⟩ := List.mem_flatMap.1 hl'
    exact (List.pairwise_cons.1 hL.across).1 b' hb' l hl l' hl'
  untested hE := hE.untested hL

/-- At the first literal of a block, a diagram is inside the block or not touched by it. -/
theorem Regular.descend_head (hL : Layout same (b :: bs)) (hA : Regular e (b :: bs) A) :
    InBlock e same bs b.tail (Stand.descend b.head ⟨A, none⟩) ∧
      Regular e bs (firedNode (Stand.fire b.head ⟨A, none⟩) ⟨A, none⟩) := by
  have hw := hL.within_literals
  cases A with
  | leaf c => cases c <;> exact ⟨Or.inr ⟨rfl, regular_leaf⟩, regular_leaf⟩
  | branch n ws high low =>
      unfold Regular at hA
      split at hA
      · rename_i hn
        subst hn
        have hd : Stand.descend b.head ⟨.branch b.head.value ws high low, none⟩ =
            ⟨low, some (b.head.value, ws, high)⟩ := by simp [Stand.descend]
        have hf : Stand.fire b.head ⟨.branch b.head.value ws high low, none⟩ =
            some (ws, high) := by simp [Stand.fire]
        rw [hd, hf]
        exact ⟨Or.inl ⟨_, ws, high, rfl, hA.1, (List.pairwise_cons.1 hw.related).1,
          hw.across b.head (List.mem_cons_self ..), hA.2⟩, hA.1⟩
      · rename_i hn
        have hl : (Diagram.branch n ws high low).literal? ≠ some b.head.value := by
          simpa [Diagram.literal?] using hn
        rw [descend_of_untested hl, fire_of_untested hl]
        exact ⟨Or.inr ⟨rfl, hA⟩, hA⟩

/-- At its head, a block is touched by a side that reacts. -/
theorem touched_head (hfire : ¬ (Stand.fire l ⟨A, none⟩ = none ∧ Stand.fire l ⟨B, none⟩ = none)) :
    (Stand.descend l ⟨A, none⟩).left ≠ none ∨ (Stand.descend l ⟨B, none⟩).left ≠ none := by
  have hside : ∀ {D}, (Stand.descend l ⟨D, none⟩).left = none → Stand.fire l ⟨D, none⟩ = none := by
    intro D hn
    rcases fire_cases ⟨D, none⟩ l with ⟨_, _, _, _, _, hd⟩ | ⟨_, _, hf⟩
    · rw [hd] at hn
      cases hn
    · rw [hf]
      simp
  rw [← not_and_or]
  exact fun hn => hfire (hn.imp hside hside)

/-- A planned tree has the joint value of the two diagrams. -/
theorem plan_value : ∀ {bs}, Layout same bs → PlannedLater e same x bs
  | [], _, A, B, T, _, _, hT => by
      rcases hT.cases_found with ⟨rfl, hf⟩ | ⟨rfl, hst, htt⟩ | ⟨rfl, hst, htt, _⟩ |
        ⟨rfl, htt, hst, _⟩ | ⟨_, hplan⟩
      · rw [value_false, joint_of_false (hf.imp And.left And.left)]
      · simp [joint_nil, show A = _ from hst, show B = _ from htt]
      · rw [show A = _ from hst, joint_true_left]
      · rw [show B = _ from htt, joint_true_right]
      · cases hplan
  | b :: bs, hL, A, B, T, hA, hB, hT => by
      have hK : PlannedLater e same x bs := plan_value hL.tail
      rcases hT.cases_found with ⟨rfl, hf⟩ | ⟨rfl, hst, htt⟩ | ⟨rfl, hst, htt, _⟩ |
        ⟨rfl, htt, hst, _⟩ | ⟨hW, hplan⟩
      · rw [value_false, joint_of_false (hf.imp And.left And.left)]
      · rw [show A = _ from hst, show B = _ from htt, joint_true_left]
      · rw [show A = _ from hst, joint_true_left]
      · rw [show B = _ from htt, joint_true_right]
      · have hw := hL.within_literals
        obtain ⟨hsb, hsf⟩ := hA.descend_head hL
        obtain ⟨htb, htf⟩ := hB.descend_head hL
        by_cases hfire : Stand.fire b.head ⟨A, none⟩ = none ∧ Stand.fire b.head ⟨B, none⟩ = none
        · -- the block touches neither side
          rw [hfire.1] at hsf
          rw [hfire.2] at htf
          have hu : Untested b.literals A := hw.untested hsf
          have hu' : Untested b.literals B := hw.untested htf
          have hplan' : (jointOutline same).plan (flatten bs) (start A B) = some T := by
            rw [← plan_skip same (flatten bs) hu hu']
            exact hplan
          have hT' : Planned same (flatten bs) ⟨A, none⟩ ⟨B, none⟩ T :=
            Planned.skip hu hu' hT
          obtain ⟨l, hl, he⟩ := plan_literal hplan'
          have huT : Untested b.literals T := by
            intro l' hl' hT
            rw [he] at hT
            exact hL.not_mem hl' hl (Option.some.inj hT).symm
          rw [value_of_untested huT, joint_cons, jointChain_of_untested hu hu']
          exact hK hsf htf hT'
        · obtain ⟨H, L, hH, hlow, rfl⟩ := plan_node hfire hplan
          exact chainValue_node hK hw.tail hsf htf hfire hH (touched_head hfire)
            (fun hn he => hW.left_false he hn) (fun hn he => hW.right_false he hn) rfl
            fun hlink => chainValue_planned hK hw.tail hsb htb hlow hlink

end BayesCircuit.Decision
