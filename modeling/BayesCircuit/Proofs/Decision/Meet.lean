import BayesCircuit.Proofs.Decision.Placement
import Mathlib.Algebra.BigOperators.Group.List.Basic

/-!
# Products of trees

`Diagram.meet` is the product of two trees that test the literals of an ordering: a node for every
literal that one of them tests, with the weights of both, and `false'` as soon as one of them is
`false'`. Trees whose weights ascend and whose high edges to `false'` weigh nothing (`Ordered`) are
a commutative monoid for this product, with `true'` as the unit. So the product of several trees
does not depend on how they are paired.
-/

namespace BayesCircuit.Decision

variable {l : Literal} {ls : List Literal} {A B C D H L : Diagram} {ws us vs : Weights}

namespace Diagram

/-- The weights on the high edge of the root, if it tests the literal. -/
def weightsAt (l : Literal) : Diagram → Weights
  | .leaf _ => []
  | .branch n ws _ _ => if n = l.value then ws else []

/-- Where the high edge of the root leads, if it tests the literal. -/
def highAt (l : Literal) : Diagram → Diagram
  | .leaf c => .leaf c
  | .branch n ws H L => if n = l.value then H else .branch n ws H L

/-- Where the low edge of the root leads, if it tests the literal. -/
def lowAt (l : Literal) : Diagram → Diagram
  | .leaf c => .leaf c
  | .branch n ws H L => if n = l.value then L else .branch n ws H L

/-- The product of two trees along an ordering. -/
def meet : List Literal → Diagram → Diagram → Diagram
  | [], A, B => if A = .leaf false ∨ B = .leaf false then .leaf false else .leaf true
  | l :: ls, A, B =>
      if A = .leaf false ∨ B = .leaf false then .leaf false
      else if A.literal? = some l.value ∨ B.literal? = some l.value then
        .branch l.value (nodeWeights (highFound (A.highAt l) (B.highAt l))
            (Weights.union (A.weightsAt l) (B.weightsAt l)))
          (meet ls (A.highAt l) (B.highAt l)) (meet ls (A.lowAt l) (B.lowAt l))
      else meet ls A B

/-- The tree tests the literals of an ordering in turn, its weights ascend, and high edges to
`false'` weigh nothing. -/
def Ordered : List Literal → Diagram → Prop
  | [], D => ∃ c, D = .leaf c
  | l :: ls, D => Weights.ascends (D.weightsAt l) = true ∧
      (D.highAt l = .leaf false → D.weightsAt l = []) ∧ Ordered ls (D.highAt l) ∧
      Ordered ls (D.lowAt l)

/-! ## Roots -/

@[simp]
theorem literal_branch {n : Int} : (branch n ws H L).literal? = some n := rfl

@[simp]
theorem weightsAt_branch : weightsAt l (.branch l.value ws H L) = ws := if_pos rfl

@[simp]
theorem highAt_branch : highAt l (.branch l.value ws H L) = H := if_pos rfl

@[simp]
theorem lowAt_branch : lowAt l (.branch l.value ws H L) = L := if_pos rfl

theorem at_of_ne (h : D.literal? ≠ some l.value) :
    D.weightsAt l = [] ∧ D.highAt l = D ∧ D.lowAt l = D := by
  cases D with
  | leaf c => exact ⟨rfl, rfl, rfl⟩
  | branch n ws H L =>
      have hne : n ≠ l.value := fun he => h (congrArg some he)
      exact ⟨if_neg hne, if_neg hne, if_neg hne⟩

theorem eq_branch (h : D.literal? = some l.value) :
    D = .branch l.value (D.weightsAt l) (D.highAt l) (D.lowAt l) := by
  cases D with
  | leaf c => cases h
  | branch n ws H L =>
      obtain rfl := Option.some.inj h
      rw [weightsAt_branch, highAt_branch, lowAt_branch]

/-- A tree is known by what a literal makes of it. -/
theorem ext_at (h : A.literal? = some l.value ↔ B.literal? = some l.value)
    (hws : A.weightsAt l = B.weightsAt l) (hH : A.highAt l = B.highAt l)
    (hL : A.lowAt l = B.lowAt l) : A = B := by
  by_cases hA : A.literal? = some l.value
  · rw [eq_branch hA, eq_branch (h.1 hA), hws, hH, hL]
  · rw [← (at_of_ne hA).2.1, hH, (at_of_ne (mt h.2 hA)).2.1]

/-! ## Nodes of a product -/

theorem nodeWeights_found : nodeWeights (highFound A B) ws =
    if A = .leaf false ∨ B = .leaf false then [] else ws := by
  by_cases h : A = .leaf false ∨ B = .leaf false
  · rw [if_pos h, highFound, if_pos h]
    rfl
  · rw [if_neg h, nodeWeights, if_neg]
    rw [beq_iff_eq]
    unfold highFound
    rw [if_neg h]
    split
    · decide
    · split <;> decide

theorem meet_nil :
    meet [] A B = if A = .leaf false ∨ B = .leaf false then .leaf false else .leaf true := rfl

theorem meet_cons : meet (l :: ls) A B =
    if A = .leaf false ∨ B = .leaf false then .leaf false
    else if A.literal? = some l.value ∨ B.literal? = some l.value then
      .branch l.value (nodeWeights (highFound (A.highAt l) (B.highAt l))
          (Weights.union (A.weightsAt l) (B.weightsAt l)))
        (meet ls (A.highAt l) (B.highAt l)) (meet ls (A.lowAt l) (B.lowAt l))
    else meet ls A B := rfl

theorem meet_eq_false_iff : meet ls A B = .leaf false ↔ A = .leaf false ∨ B = .leaf false := by
  induction ls generalizing A B with
  | nil =>
      rw [meet_nil]
      split
      · rename_i h
        exact iff_of_true rfl h
      · rename_i h
        exact iff_of_false nofun h
  | cons l ls ih =>
      rw [meet_cons]
      split
      · rename_i h
        exact iff_of_true rfl h
      · rename_i h
        split
        · exact iff_of_false nofun h
        · exact ih

/-- The root of a product tests what the root of a factor tests. -/
theorem literal_meet {n : Int} (h : (meet ls A B).literal? = some n) :
    A.literal? = some n ∨ B.literal? = some n := by
  induction ls generalizing A B with
  | nil =>
      rw [meet_nil] at h
      split at h <;> cases h
  | cons l ls ih =>
      rw [meet_cons] at h
      split at h
      · cases h
      · split at h
        · rename_i hl
          rwa [← h]
        · exact ih h

theorem literal_meet_iff : (meet (l :: ls) A B).literal? = some l.value ↔
    ¬ (A = .leaf false ∨ B = .leaf false) ∧
      (A.literal? = some l.value ∨ B.literal? = some l.value) := by
  rw [meet_cons]
  split
  · rename_i h
    exact iff_of_false nofun fun h' => h'.1 h
  · rename_i h
    split
    · rename_i hl
      exact iff_of_true rfl ⟨h, hl⟩
    · rename_i hl
      exact iff_of_false (fun hm => hl (literal_meet hm)) fun h' => hl h'.2

/-- What a literal makes of a product. -/
theorem meet_at : (meet (l :: ls) A B).weightsAt l = nodeWeights
      (highFound (A.highAt l) (B.highAt l)) (Weights.union (A.weightsAt l) (B.weightsAt l)) ∧
    (meet (l :: ls) A B).highAt l = meet ls (A.highAt l) (B.highAt l) ∧
    (meet (l :: ls) A B).lowAt l = meet ls (A.lowAt l) (B.lowAt l) := by
  by_cases h : A = .leaf false ∨ B = .leaf false
  · have hhigh : A.highAt l = .leaf false ∨ B.highAt l = .leaf false := by
      rcases h with rfl | rfl
      · exact Or.inl rfl
      · exact Or.inr rfl
    have hlow : A.lowAt l = .leaf false ∨ B.lowAt l = .leaf false := by
      rcases h with rfl | rfl
      · exact Or.inl rfl
      · exact Or.inr rfl
    rw [meet_cons, if_pos h, nodeWeights_found, if_pos hhigh, meet_eq_false_iff.2 hhigh,
      meet_eq_false_iff.2 hlow]
    exact ⟨rfl, rfl, rfl⟩
  · by_cases hl : A.literal? = some l.value ∨ B.literal? = some l.value
    · rw [meet_cons, if_neg h, if_pos hl, weightsAt_branch, highAt_branch, lowAt_branch]
      exact ⟨rfl, rfl, rfl⟩
    · obtain ⟨hwA, hhA, hlA⟩ := at_of_ne (not_or.1 hl).1
      obtain ⟨hwB, hhB, hlB⟩ := at_of_ne (not_or.1 hl).2
      obtain ⟨hw, hh, hlow⟩ := at_of_ne (D := meet ls A B) fun hm => hl (literal_meet hm)
      rw [meet_cons, if_neg h, if_neg hl, hw, hh, hlow, hwA, hhA, hlA, hwB, hhB, hlB,
        nodeWeights_found, if_neg h]
      exact ⟨(union_nil []).symm, rfl, rfl⟩

theorem meet_of_ne (hl : ¬ (A.literal? = some l.value ∨ B.literal? = some l.value)) :
    meet (l :: ls) A B = meet ls A B := by
  rw [meet_cons, if_neg hl]
  split
  · rename_i h
    exact (meet_eq_false_iff.2 h).symm
  · rfl

theorem meet_skip {rest : List Literal} (hA : Untested ls A) (hB : Untested ls B) :
    meet (ls ++ rest) A B = meet rest A B := by
  induction ls with
  | nil => rfl
  | cons l ls ih =>
      have hl : ¬ (A.literal? = some l.value ∨ B.literal? = some l.value) :=
        not_or.2 ⟨hA l (List.mem_cons_self ..), hB l (List.mem_cons_self ..)⟩
      rw [List.cons_append, meet_of_ne hl, ih hA.tail hB.tail]

/-! ## Laws -/

theorem union_assoc (hw : Weights.ascends ws = true) (hu : Weights.ascends us = true)
    (hv : Weights.ascends vs = true) : Weights.union (Weights.union ws us) vs =
      Weights.union ws (Weights.union us vs) := by
  have hleft : (Weights.union (Weights.union ws us) vs).Perm (ws ++ us ++ vs) :=
    union_perm.trans (union_perm.append_right vs)
  have hright : (Weights.union ws (Weights.union us vs)).Perm (ws ++ (us ++ vs)) :=
    union_perm.trans (union_perm.append_left ws)
  refine List.Perm.eq_of_pairwise' (ascends_iff_pairwise.1 (ascends_union (ascends_union hw hu) hv))
    (ascends_iff_pairwise.1 (ascends_union hw (ascends_union hu hv))) ?_
  exact hleft.trans ((List.Perm.of_eq (List.append_assoc ..)).trans hright.symm)

theorem Ordered.leaf {c : Bool} : ∀ {ls : List Literal}, Ordered ls (.leaf c)
  | [] => ⟨c, rfl⟩
  | _ :: _ => ⟨rfl, fun _ => rfl, Ordered.leaf, Ordered.leaf⟩

theorem Ordered.meet (hA : Ordered ls A) (hB : Ordered ls B) : Ordered ls (meet ls A B) := by
  induction ls generalizing A B with
  | nil =>
      rw [meet_nil]
      split
      · exact .leaf
      · exact .leaf
  | cons l ls ih =>
      obtain ⟨hwA, -, hhA, hlA⟩ := hA
      obtain ⟨hwB, -, hhB, hlB⟩ := hB
      rw [Ordered, meet_at.1, meet_at.2.1, meet_at.2.2, meet_eq_false_iff, nodeWeights_found]
      refine ⟨?_, fun hf => if_pos hf, ih hhA hhB, ih hlA hlB⟩
      split
      · rfl
      · exact ascends_union hwA hwB

theorem meet_comm (hA : Ordered ls A) (hB : Ordered ls B) : meet ls A B = meet ls B A := by
  induction ls generalizing A B with
  | nil => simp only [meet_nil, or_comm]
  | cons l ls ih =>
      obtain ⟨hwA, -, hhA, hlA⟩ := hA
      obtain ⟨hwB, -, hhB, hlB⟩ := hB
      refine ext_at (l := l) ?_ ?_ ?_ ?_
      · simp only [literal_meet_iff, or_comm]
      · rw [meet_at.1, meet_at.1, union_comm hwA hwB, highFound_comm]
      · rw [meet_at.2.1, meet_at.2.1, ih hhA hhB]
      · rw [meet_at.2.2, meet_at.2.2, ih hlA hlB]

theorem true_meet (hA : Ordered ls A) : meet ls (.leaf true) A = A := by
  induction ls generalizing A with
  | nil =>
      obtain ⟨c, rfl⟩ := hA
      cases c
      · rfl
      · rfl
  | cons l ls ih =>
      obtain ⟨-, hfalse, hh, hl⟩ := hA
      refine ext_at (l := l) ?_ ?_ ?_ ?_
      · rw [literal_meet_iff]
        refine ⟨fun h => h.2.resolve_left nofun, fun h => ⟨?_, Or.inr h⟩⟩
        rintro (he | rfl)
        · cases he
        · cases h
      · rw [meet_at.1, nodeWeights_found, weightsAt, nil_union]
        split
        · rename_i h
          exact (hfalse (h.resolve_left nofun)).symm
        · rfl
      · rw [meet_at.2.1, highAt, ih hh]
      · rw [meet_at.2.2, lowAt, ih hl]

theorem meet_assoc (hA : Ordered ls A) (hB : Ordered ls B) (hC : Ordered ls C) :
    meet ls (meet ls A B) C = meet ls A (meet ls B C) := by
  induction ls generalizing A B C with
  | nil =>
      show (if meet [] A B = .leaf false ∨ C = .leaf false then leaf false else leaf true) =
        if A = .leaf false ∨ meet [] B C = .leaf false then leaf false else leaf true
      simp only [meet_eq_false_iff, or_assoc]
  | cons l ls ih =>
      obtain ⟨hwA, -, hhA, hlA⟩ := hA
      obtain ⟨hwB, -, hhB, hlB⟩ := hB
      obtain ⟨hwC, -, hhC, hlC⟩ := hC
      refine ext_at (l := l) ?_ ?_ ?_ ?_
      · simp only [literal_meet_iff, meet_eq_false_iff]
        tauto
      · simp only [meet_at, nodeWeights_found, meet_eq_false_iff, or_assoc]
        split
        · rfl
        · rename_i h
          rw [if_neg fun h' => h (or_assoc.1 (Or.inl h')), if_neg fun h' => h (Or.inr h'),
            union_assoc hwA hwB hwC]
      · rw [meet_at.2.1, meet_at.2.1, meet_at.2.1, meet_at.2.1, ih hhA hhB hhC]
      · rw [meet_at.2.2, meet_at.2.2, meet_at.2.2, meet_at.2.2, ih hlA hlB hlC]

end Diagram

/-! ## The monoid of ordered trees -/

/-- The trees that test the literals of an ordering in turn. -/
def OrderedTree (ls : List Literal) : Type := {D : Diagram // D.Ordered ls}

namespace OrderedTree

instance : One (OrderedTree ls) := ⟨.leaf true, .leaf⟩

instance : Mul (OrderedTree ls) := ⟨fun A B => ⟨Diagram.meet ls A.1 B.1, A.2.meet B.2⟩⟩

theorem one_mul (A : OrderedTree ls) : 1 * A = A := Subtype.ext (Diagram.true_meet A.2)

theorem mul_comm (A B : OrderedTree ls) : A * B = B * A := Subtype.ext (Diagram.meet_comm A.2 B.2)

theorem mul_assoc (A B C : OrderedTree ls) : A * B * C = A * (B * C) :=
  Subtype.ext (Diagram.meet_assoc A.2 B.2 C.2)

instance : CommMonoid (OrderedTree ls) where
  mul_assoc := mul_assoc
  one_mul := one_mul
  mul_one A := (mul_comm A 1).trans (one_mul A)
  mul_comm := mul_comm

end OrderedTree

end BayesCircuit.Decision
