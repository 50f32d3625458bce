import BayesCircuit.Proofs.Decision.Forward
import BayesCircuit.Proofs.Decision.Full

/-!
# The trees of tables

The literals of a table come in blocks, one for each variable; a row has one literal of each block,
its path. An excerpt has some of the rows of a table. Its tree tests every block in a chain of low
edges, as far as rows of the excerpt have one of the literals that follow; then it ends in `true'`.
The product of the trees of two excerpts without a common row is the tree of both
(`multiplies`): all ways of building a table from its rows therefore end in the same tree.
-/

namespace BayesCircuit.Decision

open Collection

variable {determinism : Bool} {l : Literal} {ls p : List Literal} {bs : List (List Literal)}
variable {D H L : Diagram} {w : Weight} {ws : Weights}

/-- The weights on the edge of a row's last literal, and where it leads to. -/
def entry (determinism : Bool) (w : Weight) : Weights × Diagram :=
  if determinism && w == 0 then ([], .leaf false)
  else if determinism && w == 1 then ([], .leaf true)
  else ([w], .leaf true)

theorem entry_cases (determinism : Bool) (w : Weight) :
    entry determinism w = ([], .leaf false) ∨ (entry determinism w).2 = .leaf true := by
  unfold entry
  split
  · exact Or.inl rfl
  · split
    · exact Or.inr rfl
    · exact Or.inr rfl

theorem ascends_entry : Weights.ascends (entry determinism w).1 = true := by
  unfold entry
  split
  · rfl
  · split <;> rfl

/-- Some of the rows of a table, by their paths. -/
abbrev Excerpt := List Literal → Option Weight

namespace Excerpt

variable {t t' : Excerpt}

/-- The rows that start with a literal. -/
def after (t : Excerpt) (l : Literal) : Excerpt := fun p => t (l :: p)

/-- The rows of two excerpts. -/
def join (t t' : Excerpt) : Excerpt := fun p => (t p).or (t' p)

/-- Whether there is a row over some blocks. -/
def occupied : List (List Literal) → Excerpt → Bool
  | [], t => (t []).isSome
  | b :: bs, t => b.any fun l => occupied bs (t.after l)

end Excerpt

/-- A chain over the literals of a block, as far as one of those that follow occurs. -/
def chainOf (occurs : Literal → Bool) (below : Literal → Weights × Diagram) :
    List Literal → Diagram
  | [] => .leaf false
  | l :: ls =>
      if (l :: ls).any occurs then .branch l.value (below l).1 (below l).2 (chainOf occurs below ls)
      else .leaf true

namespace Excerpt

/-- The tree of an excerpt over some blocks, and the weights in front of it. -/
def tree (determinism : Bool) : List (List Literal) → Excerpt → Weights × Diagram
  | [], t => (t []).elim ([], .leaf true) (entry determinism)
  | b :: bs, t =>
      ([], chainOf (fun l => occupied bs (t.after l)) (fun l => tree determinism bs (t.after l)) b)

/-- The chain for some of the literals of a block in front of others. -/
def chain (determinism : Bool) (bs : List (List Literal)) (t : Excerpt) : List Literal → Diagram :=
  chainOf (fun l => occupied bs (t.after l)) fun l => tree determinism bs (t.after l)

theorem tree_cons {b : List Literal} {t : Excerpt} :
    tree determinism (b :: bs) t = ([], t.chain determinism bs b) := rfl

end Excerpt

/-! ## Chains -/

section

variable {occurs occurs' : Literal → Bool} {below below' : Literal → Weights × Diagram}

theorem chainOf_of_any (h : (l :: ls).any occurs = true) : chainOf occurs below (l :: ls) =
    .branch l.value (below l).1 (below l).2 (chainOf occurs below ls) := by
  rw [chainOf, if_pos h]

theorem chainOf_of_none (hne : ls ≠ []) (h : ls.any occurs = false) :
    chainOf occurs below ls = .leaf true := by
  cases ls with
  | nil => exact absurd rfl hne
  | cons l ls => rw [chainOf, h]; rfl

theorem chainOf_congr (h : ∀ l ∈ ls, occurs l = occurs' l ∧ below l = below' l) :
    chainOf occurs below ls = chainOf occurs' below' ls := by
  induction ls with
  | nil => rfl
  | cons l ls ih =>
      have hany : (l :: ls).any occurs = (l :: ls).any occurs' := by
        rw [Bool.eq_iff_iff, List.any_eq_true, List.any_eq_true]
        exact exists_congr fun m => and_congr_right fun hm => by rw [(h m hm).1]
      rw [chainOf, chainOf, hany, (h l (List.mem_cons_self ..)).2,
        ih fun m hm => h m (List.mem_cons_of_mem l hm)]

theorem chainOf_literal {n : Int} (h : (chainOf occurs below ls).literal? = some n) :
    ∃ l ∈ ls, n = l.value := by
  cases ls with
  | nil => cases h
  | cons l ls =>
      rw [chainOf] at h
      split at h
      · exact ⟨l, List.mem_cons_self .., (Option.some.inj h).symm⟩
      · cases h

end

/-! ## Paths -/

/-- A path takes one literal of each block. -/
def Along (bs : List (List Literal)) (p : List Literal) : Prop := List.Forall₂ (· ∈ ·) p bs

namespace Excerpt

variable {t t' : Excerpt}

theorem occupied_iff : occupied bs t = true ↔ ∃ p, Along bs p ∧ (t p).isSome = true := by
  induction bs generalizing t with
  | nil =>
      refine ⟨fun h => ⟨[], .nil, h⟩, ?_⟩
      rintro ⟨p, hp, h⟩
      cases hp
      exact h
  | cons b bs ih =>
      simp only [occupied, List.any_eq_true, ih]
      constructor
      · rintro ⟨l, hl, p, hp, h⟩
        exact ⟨l :: p, .cons hl hp, h⟩
      · rintro ⟨p, hp, h⟩
        cases hp with
        | cons hl hp => exact ⟨_, hl, _, hp, h⟩

theorem occupied_eq_false_iff : occupied bs t = false ↔ ∀ p, Along bs p → t p = none := by
  rw [← Bool.not_eq_true, occupied_iff]
  push Not
  refine forall_congr' fun p => imp_congr_right fun _ => ?_
  cases t p <;> simp

/-- There is a row if every path has one. -/
theorem occupied_of_total (hbs : ∀ b ∈ bs, b ≠ []) (h : ∀ p, (t p).isSome = true) :
    occupied bs t = true := by
  induction bs generalizing t with
  | nil => exact h []
  | cons b bs ih =>
      obtain ⟨hb, hbs⟩ := List.forall_mem_cons.1 hbs
      obtain ⟨l, hl⟩ := List.exists_mem_of_ne_nil b hb
      rw [occupied, List.any_eq_true]
      exact ⟨l, hl, ih hbs fun p => h (l :: p)⟩

/-- Only the rows along the blocks matter. -/
theorem tree_congr (h : ∀ p, Along bs p → t p = t' p) :
    tree determinism bs t = tree determinism bs t' ∧ occupied bs t = occupied bs t' := by
  induction bs generalizing t t' with
  | nil =>
      have := h [] .nil
      rw [tree, tree, occupied, occupied, this]
      exact ⟨rfl, rfl⟩
  | cons b bs ih =>
      have hafter : ∀ l ∈ b, tree determinism bs (t.after l) = tree determinism bs (t'.after l) ∧
          occupied bs (t.after l) = occupied bs (t'.after l) :=
        fun l hl => ih fun p hp => h (l :: p) (.cons hl hp)
      refine ⟨?_, ?_⟩
      · rw [tree, tree, chainOf_congr fun l hl => ⟨(hafter l hl).2, (hafter l hl).1⟩]
      · rw [Bool.eq_iff_iff, occupied, occupied, List.any_eq_true, List.any_eq_true]
        exact exists_congr fun l => and_congr_right fun hl => by rw [(hafter l hl).2]

/-- Without a row nothing is tested. -/
theorem tree_of_empty (hbs : ∀ b ∈ bs, b ≠ []) (h : occupied bs t = false) :
    tree determinism bs t = ([], .leaf true) := by
  cases bs with
  | nil =>
      rw [occupied, Option.isSome_eq_false_iff, Option.isNone_iff_eq_none] at h
      rw [tree, h]
      rfl
  | cons b bs => rw [tree, chainOf_of_none (hbs b (List.mem_cons_self ..)) h]

theorem tree_literal {n : Int} (h : (tree determinism bs t).2.literal? = some n) :
    ∃ l ∈ bs.flatten, n = l.value := by
  cases bs with
  | nil =>
      rw [tree] at h
      cases ht : t [] with
      | none =>
          rw [ht] at h
          cases h
      | some w =>
          rw [ht, Option.elim_some] at h
          rcases entry_cases determinism w with he | he
          · rw [he] at h
            cases h
          · rw [he] at h
            cases h
  | cons b bs =>
      obtain ⟨l, hl, rfl⟩ := chainOf_literal h
      exact ⟨l, List.mem_append_left _ hl, rfl⟩

theorem occupied_join : occupied bs (t.join t') = (occupied bs t || occupied bs t') := by
  rw [Bool.eq_iff_iff, Bool.or_eq_true, occupied_iff, occupied_iff, occupied_iff, ← exists_or]
  refine exists_congr fun p => ?_
  rw [← and_or_left, join]
  cases t p <;> simp

theorem join_of_empty_left (h : occupied bs t = false) :
    tree determinism bs (t.join t') = tree determinism bs t' := by
  rw [occupied_eq_false_iff] at h
  refine (tree_congr fun p hp => ?_).1
  rw [join, h p hp]
  rfl

theorem join_of_empty_right (h : occupied bs t' = false) :
    tree determinism bs (t.join t') = tree determinism bs t := by
  rw [occupied_eq_false_iff] at h
  refine (tree_congr fun p hp => ?_).1
  rw [join, h p hp, Option.or_none]

end Excerpt

/-! ## Regular trees -/

theorem untested_of_literals {D : Diagram} {rest : List Literal} (hn : (ls ++ rest).Nodup)
    (hD : ∀ n, D.literal? = some n → ∃ l ∈ rest, n = l.value) : Untested ls D := by
  intro l hl hvalue
  obtain ⟨l', hl', he⟩ := hD _ hvalue
  exact (List.nodup_append.1 hn).2.2 l hl l' hl' (value_injective he)

theorem regular_chainOf {occurs : Literal → Bool} {below : Literal → Weights × Diagram}
    {rest : List Literal} (hn : (ls ++ rest).Nodup)
    (hbelow : ∀ l ∈ ls, Regular .atEnd (singles rest) (below l).2) :
    Regular .atEnd (singles (ls ++ rest)) (chainOf occurs below ls) := by
  induction ls with
  | nil => exact regular_leaf
  | cons l ls ih =>
      obtain ⟨hl, hls⟩ := List.forall_mem_cons.1 hbelow
      have hn' := (List.nodup_cons.1 hn).2
      rw [chainOf]
      split
      · exact regular_branch (regular_append hn' hl) (ih hn' hls)
      · exact regular_leaf

theorem Excerpt.regular_tree {t : Excerpt} (hn : bs.flatten.Nodup) :
    Regular .atEnd (singles bs.flatten) (t.tree determinism bs).2 := by
  induction bs generalizing t with
  | nil =>
      rw [Excerpt.tree]
      cases t [] with
      | none => exact regular_leaf
      | some w =>
          rw [Option.elim_some]
          rcases entry_cases determinism w with he | he
          · rw [he]
            exact regular_leaf
          · rw [he]
            exact regular_leaf
  | cons b bs ih => exact regular_chainOf hn fun l _ => ih (List.nodup_append.1 hn).2.1

/-! ## Products -/

/-- No literals count as one variable. -/
abbrev never : Int → Int → Bool := fun _ _ => false

theorem Planned.prepend {A B T : Diagram} {rest : List Literal} (hA : Untested ls A)
    (hB : Untested ls B) (h : Planned never rest ⟨A, none⟩ ⟨B, none⟩ T) :
    Planned never (ls ++ rest) ⟨A, none⟩ ⟨B, none⟩ T := by
  have hskip := plan_skip never rest hA hB
  unfold start at hskip
  unfold Planned at h ⊢
  rwa [hskip]

/-- Two nodes for one literal give a node for it. -/
theorem planned_branch {Ha Hb La Lb : Diagram} {wa wb : Weights} {rest : List Literal}
    (hH : Planned never rest ⟨Ha, none⟩ ⟨Hb, none⟩ H)
    (hL : Planned never rest ⟨La, none⟩ ⟨Lb, none⟩ L) :
    Planned never (l :: rest) ⟨.branch l.value wa Ha La, none⟩ ⟨.branch l.value wb Hb Lb, none⟩
      (.branch l.value (nodeWeights (highFound Ha Hb) (Weights.union wa wb)) H L) := by
  have hfire : ∀ {ws : Weights} {H L : Diagram},
      Stand.fire l ⟨.branch l.value ws H L, none⟩ = some (ws, H) := by
    intro ws H L
    simp [Stand.fire]
  have hdescend : ∀ {ws : Weights} {H L : Diagram},
      (Stand.descend l ⟨.branch l.value ws H L, none⟩).settle never rest.head? = ⟨L, none⟩ := by
    intro ws H L
    simp [Stand.descend, Stand.settle]
  have hne : ¬ (Stand.fire l ⟨.branch l.value wa Ha La, none⟩ = none ∧
      Stand.fire l ⟨.branch l.value wb Hb Lb, none⟩ = none) := by
    simp [hfire]
  unfold Planned at hH hL ⊢
  rw [lowFound_start] at hH ⊢
  have hwork : highFound (.branch l.value wa Ha La) (.branch l.value wb Hb Lb) = .unsatisfied := by
    simp [highFound]
  have hlow : (jointOutline never).low ⟨⟨.branch l.value wa Ha La, none⟩,
      ⟨.branch l.value wb Hb Lb, none⟩⟩ l rest.head? =
        (lowFound ⟨La, none⟩ ⟨Lb, none⟩, ⟨⟨La, none⟩, ⟨Lb, none⟩⟩) := by
    simp only [jointOutline, hdescend]
  rw [hwork, Outline.child, Outline.plan, joint_high hne, if_neg highFound_ne_redundant, hlow]
  simp only [hfire, firedNode_some, firedWeights, Option.elim_some]
  rw [show start Ha Hb = ⟨⟨Ha, none⟩, ⟨Hb, none⟩⟩ from rfl, hH, hL]

/-- A side at `true'` plans the other one. -/
theorem planned_true_right {rest : List Literal} :
    Planned never rest ⟨D, none⟩ ⟨.leaf true, none⟩ D := by
  unfold Planned lowFound
  cases D with
  | leaf b => cases b <;> rfl
  | branch => rfl

theorem planned_true_left {rest : List Literal} :
    Planned never rest ⟨.leaf true, none⟩ ⟨D, none⟩ D := by
  unfold Planned lowFound
  cases D with
  | leaf b => cases b <;> rfl
  | branch => rfl

theorem planned_false {rest : List Literal} :
    Planned never rest ⟨.leaf false, none⟩ ⟨D, none⟩ (.leaf false) := by
  unfold Planned lowFound
  rw [if_pos (Or.inl ⟨rfl, rfl⟩)]
  rfl

/-- What two edges become: the product below them, and the weights of both. -/
structure Multiplies (bs : List (List Literal)) (A B T : Weights × Diagram) : Prop where
  weights : nodeWeights (highFound A.2 B.2) (Weights.union A.1 B.1) = T.1
  planned : Planned never bs.flatten ⟨A.2, none⟩ ⟨B.2, none⟩ T.2

/-- The weights in front of a diagram are kept, unless there are weights in front of `false'`. -/
theorem nodeWeights_true (hD : D = .leaf false → ws = []) :
    nodeWeights (highFound D (.leaf true)) ws = ws ∧
      nodeWeights (highFound (.leaf true) D) ws = ws := by
  cases D with
  | leaf b =>
      cases b with
      | false =>
          rw [hD rfl]
          exact ⟨rfl, rfl⟩
      | true => exact ⟨rfl, rfl⟩
  | branch => exact ⟨rfl, rfl⟩

theorem multiplies_true_right {A : Weights × Diagram} (hA : A.2 = .leaf false → A.1 = []) :
    Multiplies bs A ([], .leaf true) A :=
  ⟨by rw [union_nil, (nodeWeights_true hA).1], planned_true_right⟩

theorem multiplies_true_left {A : Weights × Diagram} (hA : A.2 = .leaf false → A.1 = []) :
    Multiplies bs ([], .leaf true) A A :=
  ⟨by rw [nil_union, (nodeWeights_true hA).2], planned_true_left⟩

namespace Excerpt

variable {t t' : Excerpt}

/-- What ends in `false'` weighs nothing. -/
theorem weights_of_false (h : (tree determinism bs t).2 = .leaf false) :
    (tree determinism bs t).1 = [] := by
  cases bs with
  | nil =>
      rw [tree] at h ⊢
      cases ht : t [] with
      | none => rfl
      | some w =>
          rw [ht, Option.elim_some] at h
          rcases entry_cases determinism w with he | he
          · rw [Option.elim_some, he]
          · rw [he] at h
            cases h
  | cons b bs => rfl

theorem after_join : (t.join t').after l = (t.after l).join (t'.after l) := rfl

theorem chain_join_right (h : (ls.any fun l => occupied bs (t'.after l)) = false) :
    (t.join t').chain determinism bs ls = t.chain determinism bs ls := by
  refine chainOf_congr fun l hl => ?_
  have hl' : occupied bs (t'.after l) = false := by
    rw [List.any_eq_false] at h
    simpa using h l hl
  exact ⟨by rw [after_join, occupied_join, hl', Bool.or_false], join_of_empty_right hl'⟩

theorem chain_join_left (h : (ls.any fun l => occupied bs (t.after l)) = false) :
    (t.join t').chain determinism bs ls = t'.chain determinism bs ls := by
  refine chainOf_congr fun l hl => ?_
  have hl' : occupied bs (t.after l) = false := by
    rw [List.any_eq_false] at h
    simpa using h l hl
  exact ⟨by rw [after_join, occupied_join, hl', Bool.false_or], join_of_empty_left hl'⟩

theorem planned_chain (hn : (ls ++ bs.flatten).Nodup)
    (hbelow : ∀ l ∈ ls, Multiplies bs (tree determinism bs (t.after l))
      (tree determinism bs (t'.after l)) (tree determinism bs ((t.join t').after l))) :
    Planned never (ls ++ bs.flatten) ⟨t.chain determinism bs ls, none⟩
      ⟨t'.chain determinism bs ls, none⟩ ((t.join t').chain determinism bs ls) := by
  induction ls with
  | nil => exact planned_false
  | cons l ls ih =>
      obtain ⟨hl, hls⟩ := List.forall_mem_cons.1 hbelow
      have hn' := (List.nodup_cons.1 hn).2
      by_cases ha : ((l :: ls).any fun l => occupied bs (t.after l)) = true
      · by_cases hb : ((l :: ls).any fun l => occupied bs (t'.after l)) = true
        · have hab : ((l :: ls).any fun l => occupied bs ((t.join t').after l)) = true := by
            rw [List.any_eq_true] at ha ⊢
            obtain ⟨m, hm, hoccupied⟩ := ha
            refine ⟨m, hm, ?_⟩
            rw [after_join, occupied_join, hoccupied, Bool.true_or]
          rw [chain, chain, chain, chainOf_of_any ha, chainOf_of_any hb, chainOf_of_any hab,
            ← hl.weights]
          refine planned_branch ?_ (ih hn' hls)
          exact hl.planned.prepend (untested_of_literals hn' fun _ => tree_literal)
            (untested_of_literals hn' fun _ => tree_literal)
        · rw [Bool.not_eq_true] at hb
          rw [chain_join_right hb, show t'.chain determinism bs (l :: ls) = _ from
            chainOf_of_none (by simp) hb]
          exact planned_true_right
      · rw [Bool.not_eq_true] at ha
        rw [chain_join_left ha, show t.chain determinism bs (l :: ls) = _ from
          chainOf_of_none (by simp) ha]
        exact planned_true_left

variable (determinism) in
/-- The product of the trees of two excerpts without a common row is the tree of both. -/
theorem multiplies (hn : bs.flatten.Nodup) (h : ∀ p, t p = none ∨ t' p = none) :
    Multiplies bs (tree determinism bs t) (tree determinism bs t')
      (tree determinism bs (t.join t')) := by
  induction bs generalizing t t' with
  | nil =>
      rcases h [] with hnone | hnone
      · have hjoin : (t.join t') [] = t' [] := by rw [join, hnone, Option.none_or]
        have : tree determinism [] (t.join t') = tree determinism [] t' := by
          rw [tree, tree, hjoin]
        rw [this, show tree determinism [] t = ([], .leaf true) by rw [tree, hnone]; rfl]
        exact multiplies_true_left weights_of_false
      · have hjoin : (t.join t') [] = t [] := by rw [join, hnone, Option.or_none]
        have : tree determinism [] (t.join t') = tree determinism [] t := by
          rw [tree, tree, hjoin]
        rw [this, show tree determinism [] t' = ([], .leaf true) by rw [tree, hnone]; rfl]
        exact multiplies_true_right weights_of_false
  | cons b bs ih =>
      refine ⟨by simp [tree, nodeWeights, union_nil], planned_chain hn fun l _ => ?_⟩
      exact ih (List.nodup_append.1 hn).2.1 fun p => h (l :: p)

end Excerpt

/-! ## The tree of all rows -/

theorem fullChain_chainOf {K : Diagram → Prop}
    {occurs : Literal → Bool} {below : Literal → Weights × Diagram}
    (hoccurs : ∀ l ∈ ls, occurs l = true)
    (hbelow : ∀ l ∈ ls, Weights.ascends (below l).1 = true ∧
      ((below l).2 = .leaf false → (below l).1 = []) ∧ K (below l).2) :
    FullChain K ls (chainOf occurs below ls) := by
  induction ls with
  | nil => exact .nil
  | cons l ls ih =>
      obtain ⟨hl, hls⟩ := List.forall_mem_cons.1 hoccurs
      obtain ⟨⟨hascends, hfalse, hK⟩, hrest⟩ := List.forall_mem_cons.1 hbelow
      rw [chainOf_of_any (by rw [List.any_cons, hl, Bool.true_or])]
      exact .cons hascends hfalse hK (ih hls hrest)

theorem Excerpt.ascends_tree {t : Excerpt} : Weights.ascends (t.tree determinism bs).1 = true := by
  cases bs with
  | nil =>
      rw [Excerpt.tree]
      cases t [] with
      | none => rfl
      | some w => exact ascends_entry
  | cons b bs => rfl

/-- The tree of all rows of a table is full. -/
theorem Excerpt.full_tree {t : Excerpt} (hbs : ∀ b ∈ bs, b ≠ []) (h : ∀ p, (t p).isSome = true) :
    Full bs (t.tree determinism bs).2 := by
  induction bs generalizing t with
  | nil =>
      rw [Excerpt.tree]
      obtain ⟨w, hw⟩ := Option.isSome_iff_exists.1 (h [])
      rw [hw, Option.elim_some, entry]
      split
      · exact ⟨false, rfl⟩
      · split
        · exact ⟨true, rfl⟩
        · exact ⟨true, rfl⟩
  | cons b bs ih =>
      obtain ⟨-, hbs⟩ := List.forall_mem_cons.1 hbs
      exact Or.inr (fullChain_chainOf (fun l _ => occupied_of_total hbs fun p => h (l :: p))
        fun l _ => ⟨ascends_tree, weights_of_false, ih hbs fun p => h (l :: p)⟩)

end BayesCircuit.Decision
