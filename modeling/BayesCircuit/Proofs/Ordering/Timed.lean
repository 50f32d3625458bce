import BayesCircuit.Ordering.Timed
import Mathlib.Data.List.Basic

/-!
# Clocks that stand still, and clocks that do anything

When every look at the clock gives the same answer, searching against the clock is the search of the
task (`generate_pure`).

For any clock there are rules for what a search *always* returns, whatever the looks say (`Always`);
they follow the way in which computations are put together.
-/

namespace BayesCircuit.Ordering

/-! ## What a computation always returns -/

section

variable {κ α β : Type} {x : StateM κ α} {f : α → StateM κ β} {P Q : α → Prop} {R : β → Prop}

/-- Of what the computation returns a condition holds, whatever state it starts from. -/
def Always (x : StateM κ α) (P : α → Prop) : Prop := ∀ k, P (x.run k).1

theorem Always.mono (hx : Always x P) (h : ∀ a, P a → Q a) : Always x Q := fun k => h _ (hx k)

theorem Always.pure {a : α} (h : P a) : Always (pure a : StateM κ α) P := fun _ => h

theorem Always.bind (hx : Always x P) (hf : ∀ a, P a → Always (f a) R) : Always (x >>= f) R := by
  intro k
  rw [StateT.run_bind]
  exact hf _ (hx k) _

/-- After a step of which nothing has to be known, such as a look at the clock. -/
theorem Always.step (hf : ∀ a, Always (f a) R) : Always (x >>= f) R :=
  Always.bind (P := fun _ => True) (fun _ => trivial) fun a _ => hf a

theorem Always.ite {c : Prop} [Decidable c] {y : StateM κ α} (hx : c → Always x P)
    (hy : ¬ c → Always y P) : Always (if c then x else y) P := by
  split
  · rename_i h
    exact hx h
  · rename_i h
    exact hy h

theorem Always.foldlM {g : α → β → StateM κ α} : ∀ {bs : List β} {a : α}, P a →
    (∀ a, P a → ∀ b ∈ bs, Always (g a b) P) → Always (bs.foldlM g a) P
  | [], _, ha, _ => .pure ha
  | b :: bs, a, ha, hg => by
      rw [List.foldlM_cons]
      exact (hg a ha b (List.mem_cons_self ..)).bind fun a ha =>
        Always.foldlM ha fun a ha b hb => hg a ha b (List.mem_cons_of_mem _ hb)

end

namespace Timed

open Ordering.Task Annealing

/-! ## Looks that give the same answer -/

section

variable {m : Type → Type} [Monad m] [LawfulMonad m] {σ ε : Type} {t : Task}

theorem topologicalFrom_pure : ∀ {fuel : Nat} {roots : List Variable}
    {best : List Variable × Float}, topologicalFrom (pure t.expired : m Bool) t fuel roots best =
      pure (t.topologicalFrom fuel roots best)
  | 0, _, _ => rfl
  | fuel + 1, roots, best => by
      rw [topologicalFrom, Task.topologicalFrom]
      simp only [pure_bind, topologicalFrom_pure]
      cases (Collection.Permutation.step roots).1 <;> cases t.expired <;> rfl

theorem topological_pure : topological (pure t.expired : m Bool) t = pure t.topological :=
  topologicalFrom_pure

theorem componentsFrom_pure : ∀ {fuel : Nat} {roots : List Variable}
    {best : Option (List Variable × Nat)},
    componentsFrom (pure t.expired : m Bool) t fuel roots best =
      pure (t.componentsFrom fuel roots best)
  | 0, _, _ => rfl
  | fuel + 1, roots, best => by
      simp only [componentsFrom, Task.componentsFrom, pure_bind, componentsFrom_pure]
      cases (Collection.Permutation.step roots).1 <;> cases t.expired <;> rfl

theorem components_pure : components (pure t.expired : m Bool) t = pure t.components := by
  rw [components, Task.components]
  split
  · exact topological_pure
  · exact componentsFrom_pure

theorem allFrom_pure : ∀ {fuel : Nat} {waiting : Array Nat} {placed : List Variable}
    {best : List Variable × Nat}, allFrom (pure t.expired : m Bool) t fuel waiting placed best =
      pure (t.allFrom fuel waiting placed best)
  | 0, _, _, _ => rfl
  | fuel + 1, waiting, placed, best => by
      rw [allFrom, Task.allFrom]
      simp only [pure_bind, allFrom_pure, List.foldlM_pure]
      cases t.expired
      · simp only [Bool.false_eq_true, if_false]
        split <;> rfl
      · rfl

theorem allTopological_pure :
    allTopological (pure t.expired : m Bool) t = pure t.allTopological := by
  simp only [allTopological, topological_pure, allFrom_pure, pure_bind, Task.allTopological]

theorem bruteFrom_pure {scope : List Variable} : ∀ {left : Nat} {e : Elimination}
    {placed : List Variable} {cost : Nat} {best : List Variable × Nat},
    bruteFrom (pure t.expired : m Bool) t scope left e placed cost best =
      pure (t.bruteFrom scope left e placed cost best)
  | 0, _, _, _, _ => rfl
  | left + 1, e, placed, cost, best => by
      rw [bruteFrom, Task.bruteFrom]
      simp only [pure_bind, bruteFrom_pure, ← apply_ite, List.foldlM_pure]
      

theorem bruteForce_pure : bruteForce (pure t.expired : m Bool) t = pure t.bruteForce := by
  simp only [bruteForce, Task.bruteForce, bruteFrom_pure, pure_bind, topological_pure,
    ← apply_ite]

theorem bestFrom_pure {upper : Nat} : ∀ {fuel : Nat} {heap : Collection.Heap Beginning}
    {closed : Std.HashSet Collection.VariableSet},
    bestFrom (pure t.expired : m Bool) t upper fuel heap closed =
      pure (t.bestFrom upper fuel heap closed)
  | 0, _, _ => rfl
  | fuel + 1, heap, closed => by
      rw [bestFrom, Task.bestFrom]
      simp only [pure_bind, bestFrom_pure, ← apply_ite]
      cases heap.pop? Beginning.before <;> rfl

theorem bestFirst_pure : bestFirst (pure t.expired : m Bool) t = pure t.bestFirst := by
  simp only [bestFirst, Task.bestFirst, bestFrom_pure, pure_bind, topological_pure, ← apply_ite]

theorem lookaheadFrom_pure {scope : List Variable} {depth : Nat} : ∀ {left : Nat} {e : Elimination}
    {placed : List Variable},
    lookaheadFrom (pure t.expired : m Bool) t scope depth left e placed =
      pure (t.lookaheadFrom scope
        (min (if t.expired then 1 else max depth 1) (scope.length + 1)) left e placed)
  | 0, _, _ => rfl
  | left + 1, e, placed => by
      rw [lookaheadFrom, Task.lookaheadFrom]
      simp only [pure_bind, lookaheadFrom_pure]
      cases t.pick scope (min (if t.expired then 1 else max depth 1) (scope.length + 1)) e placed <;>
        rfl

theorem lookahead_pure {depth : Nat} :
    lookahead (pure t.expired : m Bool) t depth = pure (t.lookahead depth) :=
  lookaheadFrom_pure

variable {p : Annealing} {d : Draws σ} {l : Landscape ε} {expired : Bool}

theorem cool_pure : ∀ {n : Nat} {heat : Float} {w : Walk σ ε},
    cool (pure expired : m Bool) p d l n heat w =
      pure (if expired then w else w.cool p d l n heat)
  | 0, _, w => by simp [cool, Walk.cool]
  | n + 1, heat, w => by
      rw [cool, Walk.cool]
      simp only [pure_bind, cool_pure]
      cases expired <;> simp [← apply_ite]

theorem walk_pure {ordering : List Variable} {seed : Nat} :
    walk (pure expired : m Bool) p d l ordering seed = pure (p.walk d l expired ordering seed) := by
  simp only [walk, cool_pure, pure_bind, Annealing.walk]

theorem walks_pure {ordering : List Variable} {base : Nat} : ∀ {n : Nat},
    walks (pure expired : m Bool) p d l ordering base n =
      pure (p.walks d l expired ordering base n)
  | 0 => walk_pure
  | n + 1 => by
      rw [walks, Annealing.walks]
      simp only [walks_pure, walk_pure, pure_bind]

theorem runFrom_pure {workers : Nat} : ∀ {fuel run : Nat} {ordering : List Variable}
    {stable : ε × Nat}, runFrom (pure expired : m Bool) p d l workers fuel run ordering stable =
      pure (p.runFrom d l expired workers fuel run ordering stable)
  | 0, _, _, _ => rfl
  | fuel + 1, run, ordering, stable => by
      rw [runFrom, Annealing.runFrom]
      simp only [walks_pure, pure_bind, runFrom_pure]
      by_cases hruns : p.runs == 0
      · simp only [hruns, if_true, Bool.true_and, ← apply_ite]
        congr 1
        cases expired <;> simp
      · simp only [hruns, ← apply_ite, Bool.false_and, Bool.false_eq_true, if_false]

theorem search_pure {processors : Nat} {ordering : List Variable} :
    search (pure expired : m Bool) p d l processors ordering =
      pure (p.search d l processors expired ordering) := by
  rw [search, Annealing.search]
  split
  · rfl
  · exact runFrom_pure

/-- The search of a task for which every look at the clock gives the same answer. -/
theorem run_pure {options : Options} :
    run (pure t.expired : m Bool) .keystream t options = pure (t.run options) := by
  rw [run, Task.run]
  cases options.strategy
  all_goals simp only [topological_pure, bestFirst_pure, bruteForce_pure, components_pure,
    lookahead_pure, allTopological_pure, annealFrom, search_pure, pure_bind]
  all_goals rfl

/-- Ordering a partition that is given all of its time or none is searching against a clock. -/
theorem generate_pure {net : Network} {p : Partition} {options : Options} {log : Float → Float} :
    generate (pure options.expired : m Bool) .keystream net p options log =
      pure ((ofPartition net p options.expired log).generate options) := by
  have hrun : run (pure options.expired : m Bool) .keystream
      (ofPartition net p options.expired log) options =
        pure ((ofPartition net p options.expired log).run options) :=
    run_pure (t := ofPartition net p options.expired log)
  simp only [generate, hrun, pure_bind]
  rfl

end

end Timed
end BayesCircuit.Ordering
