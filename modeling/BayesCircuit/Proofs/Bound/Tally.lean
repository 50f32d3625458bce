import BayesCircuit.Bound.Tree
import Mathlib.Algebra.GroupWithZero.Nat
import Mathlib.Algebra.Order.BigOperators.Group.List

/-!
# Sums and products that fit

In machine words, a sum or product that fits is found exactly, and so is each part of it: the parts
of a product of positive numbers are no greater than the product.
-/

namespace BayesCircuit

theorem sumOf_eq (ns : List Nat) : sumOf ns = ns.sum := rfl

namespace Tally

variable {m n : Nat} {dims : List Nat} {dim : Variable → Nat} {us : List Variable}

theorem exact_add : Tally.exact.add? m n = some (m + n) := rfl

theorem word_mul (h : m * n < wordSize) : Tally.word.mul? m n = some (m * n) := if_pos h

theorem word_add (h : m + n < wordSize) : Tally.word.add? m n = some (m + n) := if_pos h

theorem foldlM_exact : ∀ {dims : List Nat} {k : Nat},
    dims.foldlM Tally.exact.mul? k = some (k * dims.prod)
  | [], k => by simp
  | d :: dims, k => by
      rw [List.foldlM_cons, List.prod_cons, ← Nat.mul_assoc]
      exact foldlM_exact

/-- A product of positive numbers that fits is found in machine words. -/
theorem foldlM_word : ∀ (dims : List Nat) (k : Nat), (∀ d ∈ dims, 0 < d) →
    k * dims.prod < wordSize → dims.foldlM Tally.word.mul? k = some (k * dims.prod)
  | [], k, _, _ => by simp
  | d :: dims, k, hpos, h => by
      obtain ⟨_, hpos⟩ := List.forall_mem_cons.1 hpos
      rw [List.prod_cons, ← Nat.mul_assoc] at h ⊢
      have hle := Nat.le_mul_of_pos_right (k * d) (List.prod_pos_iff_forall_pos_nat.2 hpos)
      rw [List.foldlM_cons, word_mul (Nat.lt_of_le_of_lt hle h)]
      exact foldlM_word dims (k * d) hpos h

theorem widthFrom_eq {α : Type} (tally : Tally α) (b : Bound) : ∀ {us : List Variable} {k : α},
    Elimination.widthFrom tally b us k = (us.map b.dim).foldlM tally.mul? k
  | [], k => rfl
  | u :: us, k => by
      rw [Elimination.widthFrom, List.map_cons, List.foldlM_cons]
      cases tally.mul? k (b.dim u) with
      | none => rfl
      | some k => exact widthFrom_eq tally b

end Tally

namespace LevelArithmetic

variable {arith : LevelArithmetic Nat} {fits : Nat → Prop}

/-- Natural numbers of any size. -/
def exact : LevelArithmetic Nat where
  zero := 0
  add? a b := some (a + b)
  width? dims := some dims.prod
  branch? level dim := some (level * dim + level)

/-- Arithmetic in which the numbers that fit are found exactly. -/
structure Counts (arith : LevelArithmetic Nat) (fits : Nat → Prop) : Prop where
  mono : ∀ {m k}, m ≤ k → fits k → fits m
  zero : arith.zero = 0
  add : ∀ {m k}, fits (m + k) → arith.add? m k = some (m + k)
  width : ∀ {dims : List Nat}, (∀ d ∈ dims, 0 < d) → fits dims.prod →
    arith.width? dims = some dims.prod
  branch : ∀ {level dim}, fits (level * dim + level) →
    arith.branch? level dim = some (level * dim + level)

theorem counts_exact : Counts exact fun _ => True :=
  ⟨fun _ _ => trivial, rfl, fun _ => rfl, fun _ _ => rfl, fun _ => rfl⟩

theorem counts_word : Counts word (· < wordSize) where
  mono := Nat.lt_of_le_of_lt
  zero := rfl
  add := Tally.word_add
  width {dims} hpos h := by
    have hrun := Tally.foldlM_word dims 1 hpos (by rwa [Nat.one_mul])
    rwa [Nat.one_mul] at hrun
  branch {level dim} h := by
    have hmul : Tally.word? (level * dim) = some (level * dim) :=
      if_pos (Nat.lt_of_le_of_lt (Nat.le_add_right _ _) h)
    have hadd : Tally.word? (level * dim + level) = some (level * dim + level) := if_pos h
    simp only [word, hmul, Option.bind_some, hadd]

end LevelArithmetic
end BayesCircuit
