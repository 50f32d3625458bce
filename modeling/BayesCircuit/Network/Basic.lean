import BayesCircuit.Counter
import BayesCircuit.Decimal.Double

/-!
# Bayesian networks

A network is a list of variables. Each has named values, parents and a table of conditional
probabilities. Variables are numbered in the order in which they were added.

* `addVariable` adds a variable without parents whose values are equally likely.
* `setPotential` gives a variable its parents and its table. The rows of a table count with the
  first parent as the most significant digit and the variable itself as the least significant one.
* `find?` finds a variable by its name; of several with one name it finds the last.
-/

namespace BayesCircuit

/-- The number of a network variable. -/
abbrev Variable := Nat

/-- An entry of a table. Two entries are the same only if their bits are. -/
abbrev Probability := Decimal.Double

/-- A variable with its values, its parents and its table. -/
structure Network.Node where
  name : String
  states : Array String
  parents : List Variable
  table : Array Probability

/-- A list of variables. -/
structure Network where
  nodes : Array Network.Node

namespace Network

def empty : Network := ⟨#[]⟩

def size (net : Network) : Nat := net.nodes.size

def node (net : Network) (v : Variable) : Outcome Node := fetch net.nodes v

/-- The number of values of every variable. -/
def dims (net : Network) : Array Nat := net.nodes.map (·.states.size)

def dim (net : Network) (v : Variable) : Outcome Nat := return (← net.node v).states.size

def name (net : Network) (v : Variable) : Outcome String := return (← net.node v).name

def parents (net : Network) (v : Variable) : Outcome (List Variable) :=
  return (← net.node v).parents

/-- The name of a value of a variable. -/
def valueName (net : Network) (v : Variable) (value : Nat) : Outcome String := do
  fetch (← net.node v).states value

/-- The last variable with a name. -/
def find? (net : Network) (name : String) : Option Variable :=
  (List.range net.size).reverse.find? fun v => net.nodes[v]?.any (·.name == name)

/-- Add a variable whose values are equally likely. A variable without values gets a table with
one entry. -/
def addVariable (net : Network) (name : String) (states : Array String) : Network :=
  let dim := max states.size 1
  ⟨net.nodes.push ⟨name, states, [], Array.replicate dim (.ofFloat (1.0 / dim.toFloat))⟩⟩

/-- Give a variable its parents and its table, whose length is the product of the domain sizes. -/
def setPotential (net : Network) (child : Variable) (parents : List Variable)
    (table : Array Probability) : Outcome Network := do
  let expected ← (← Counter.ofScope net.dims (parents ++ [child])).states?
  if table.size != expected then
    fail (.parse (← net.name child) 0
      (s!"potential has {table.size} entries, expected {expected}"))
  return ⟨net.nodes.modify child fun n => { n with parents, table }⟩

/-- The children of every variable in ascending order, once for each time the variable is listed
as a parent. -/
def children (net : Network) : Array (List Variable) :=
  (Array.range net.size).map fun p =>
    net.nodes.toList.zipIdx.flatMap fun (n, v) => (n.parents.filter (· == p)).map fun _ => v

/-- The number of table entries. -/
def entryCount (net : Network) : Nat := sumOf (net.nodes.toList.map (·.table.size))

/-- The variables without parents. -/
def roots (net : Network) : List Variable :=
  (List.range net.size).filter fun v => net.nodes[v]?.any (·.parents.isEmpty)

end Network
end BayesCircuit
