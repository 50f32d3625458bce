/-!
# Sets of numbers as ascending lists

A set of variables that is walked through in ascending order is a list without repetitions, the
smallest number first.
-/

namespace BayesCircuit.Collection.Ascending

/-- Add a number to an ascending list. -/
def insert (v : Nat) : List Nat → List Nat
  | [] => [v]
  | x :: xs =>
      if v < x then v :: x :: xs
      else if x < v then x :: insert v xs
      else x :: xs

/-- Take a number out of an ascending list. -/
def erase (v : Nat) (xs : List Nat) : List Nat := xs.filter (· != v)

/-- The numbers of two ascending lists. -/
def union (xs ys : List Nat) : List Nat := ys.foldl (fun s v => insert v s) xs

/-- The numbers of a list in ascending order. -/
def ofList (xs : List Nat) : List Nat := union [] xs

/-- The numbers of a list that another one does not have. -/
def diff (xs ys : List Nat) : List Nat := xs.filter fun v => !ys.contains v

/-- The numbers of a list that another one has too. -/
def inter (xs ys : List Nat) : List Nat := xs.filter ys.contains

end BayesCircuit.Collection.Ascending
