/-!
# Permutations in lexicographic order

`next` finds the least rearrangement of a list that is greater than it, and `step` walks through
all of them: from the greatest it goes back to the least.
-/

namespace BayesCircuit.Collection.Permutation

variable {α : Type} [LT α] [DecidableLT α]

/-- Exchange `x` with the last greater element of a list that never increases, and reverse what
follows. -/
def exchange (x : α) (xs : List α) : Option (List α) :=
  let greater := xs.takeWhile (x < ·)
  let others := xs.dropWhile (x < ·)
  match greater.getLast? with
  | none => none
  | some y => some (y :: (greater.dropLast ++ x :: others).reverse)

/-- The next rearrangement; the greatest one has none. If the tail of a list has none, the tail
never increases. -/
def next : List α → Option (List α)
  | [] => none
  | x :: xs =>
      match next xs with
      | some ys => some (x :: ys)
      | none => exchange x xs

/-- The next rearrangement, and whether it is greater than the list. -/
def step (xs : List α) : Bool × List α :=
  match next xs with
  | some ys => (true, ys)
  | none => (false, xs.reverse)

end BayesCircuit.Collection.Permutation
