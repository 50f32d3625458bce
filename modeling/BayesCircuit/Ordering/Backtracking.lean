import BayesCircuit.Ordering.Timed

/-!
# Backtracking through all topological sorts

Here the search for the best of all topological sorts keeps one state that it changes in place. To
try a variable that waits for no parent, the variable is placed, its children wait for one parent
less, the rest is searched, and the variable is withdrawn again. A sort is recognised by the fact
that no variable can be tried.
-/

namespace BayesCircuit.Ordering

/-- A search for the best of all topological sorts. -/
structure Backtracking where
  /-- How many parents of each owned variable are still to be placed. -/
  waiting : Array Nat
  /-- Which variables have been placed. -/
  visited : Array Bool
  /-- The placed variables, the last one first. -/
  placed : List Variable
  /-- The best sort so far with its bound. -/
  best : List Variable × Nat

namespace Backtracking

/-- Nothing has been placed. -/
def start (t : Task) (best : List Variable × Nat) : Backtracking where
  waiting := t.parentCounts
  visited := Array.replicate t.net.size false
  placed := []
  best

/-- Whether a variable can be tried. -/
def isFree (s : Backtracking) (v : Variable) : Bool :=
  s.waiting.getD v 0 == 0 && !s.visited.getD v true

/-- Place a variable. -/
def place (t : Task) (v : Variable) (s : Backtracking) : Backtracking :=
  { s with
    waiting := (t.childrenOf v).foldl (fun w c => w.modify c (· - 1)) s.waiting
    visited := s.visited.setIfInBounds v true
    placed := v :: s.placed }

/-- Withdraw the variable that was placed last. -/
def withdraw (t : Task) (v : Variable) (s : Backtracking) : Backtracking :=
  { s with
    waiting := (t.childrenOf v).foldl (fun w c => w.modify c (· + 1)) s.waiting
    visited := s.visited.setIfInBounds v false
    placed := s.placed.tail }

/-- Note what has been placed if its bound is less than the best one. -/
def note (t : Task) (s : Backtracking) : Backtracking :=
  let bound := t.bound.compute .nodes s.placed.reverse
  if bound < s.best.2 then { s with best := (s.placed.reverse, bound) } else s

variable {m : Type → Type} [Monad m]

/-- Try all variables that are free, one after the other. -/
def visit (look : m Bool) (t : Task) : Nat → Backtracking → m Backtracking
  | 0, s => pure (s.note t)
  | fuel + 1, s => do
      let expired ← look
      if expired then pure s
      else
        let (s, extended) ← t.scope.foldlM
          (fun (s, extended) v =>
            if s.isFree v then do
              let s ← visit look t fuel (s.place t v)
              pure (s.withdraw t v, true)
            else pure (s, extended))
          (s, false)
        pure (if extended then s else s.note t)

/-- The topological sort with the least bound on nodes. -/
def allTopological (look : m Bool) (t : Task) : m (List Variable) := do
  let first ← Timed.topological look t
  let s ← visit look t (t.size + 1) (start t (first, t.bound.compute .nodes first))
  return s.best.1

end Backtracking
end BayesCircuit.Ordering
