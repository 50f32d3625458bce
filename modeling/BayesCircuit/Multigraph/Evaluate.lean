import BayesCircuit.Multigraph.Basic

/-!
# Evaluating multigraphs

An or node adds up the products of the labels of its edges with what they lead to; an and node
multiplies what its edges lead to. Evidence fixes some variables, whose or nodes then have only the
edge of the fixed value. The value of the root is the sum, over all assignments that agree with
the evidence, of the products of the table entries.
-/

namespace BayesCircuit.Multigraph

/-- Addition and multiplication with their neutral elements. -/
structure SumProduct (α : Type) where
  zero : α
  one : α
  add : α → α → α
  mul : α → α → α

namespace SumProduct

/-- Floating-point numbers. -/
def float : SumProduct Float := ⟨0.0, 1.0, (· + ·), (· * ·)⟩

/-- Natural numbers. -/
def nat : SumProduct Nat := ⟨0, 1, (· + ·), (· * ·)⟩

end SumProduct

/-- For each variable its value, if that is fixed; variables after the last one are free. -/
abbrev Evidence := List (Option Nat)

variable {W α : Type}

/-- Whether evidence admits a value. -/
def admits (observed : Option Nat) (value : Nat) : Bool := observed.elim true (· == value)

/-- The value of a node, given the values of the nodes that edges lead to. -/
def nodeValue (S : SumProduct α) (weigh : W → α) (observed : Option Nat) (valueAt : NodeId → α)
    (n : Node W) : α :=
  match n.kind with
  | .and => n.edges.foldl (fun acc e => S.mul acc (valueAt e.target)) S.one
  | .or =>
      (n.edges.zipIdx.filter fun (_, value) => admits observed value).foldl
        (fun acc (e, _) => S.add acc (S.mul (weigh e.label) (valueAt e.target))) S.zero

/-- The values of the nodes of the layer `index` in their order, given those of the layers
after it. -/
def levelValues (S : SumProduct α) (weigh : W → α) (terminal index : Nat) (evidence : Evidence)
    (l : Level W) (below : List (Array α)) : Array α :=
  let observed := (evidence[l.owner]?).join
  let valueAt := fun (own : Array α) (id : NodeId) =>
    if id.layer == terminal then S.one
    else if id.layer == index then own.getD id.index S.zero
    else (below.getD (id.layer - (index + 1)) #[]).getD id.index S.zero
  l.nodes.foldl (fun own n => own.push (nodeValue S weigh observed (valueAt own) n)) #[]

/-- The values of the nodes of layers that follow each other, the first of which is `index`. -/
def valuesFrom (S : SumProduct α) (weigh : W → α) (terminal : Nat) (evidence : Evidence)
    (index : Nat) : List (Level W) → List (Array α)
  | [] => []
  | l :: ls =>
      let below := valuesFrom S weigh terminal evidence (index + 1) ls
      levelValues S weigh terminal index evidence l below :: below

/-- The value of the root. -/
def evaluateWith (S : SumProduct α) (weigh : W → α) (g : Multigraph W) (evidence : Evidence) : α :=
  match g.root with
  | none => S.one
  | some root =>
      let terminal := g.terminal.layer
      let values := valuesFrom S weigh terminal evidence 0 (g.levels.toList.take terminal)
      (values.getD root.layer #[]).getD root.index S.zero

/-- The value of the root in floating point. -/
def evaluate (label : EdgeLabel W) (e : Encoding) (g : Multigraph W) (evidence : Evidence) :
    Float :=
  g.evaluateWith .float (label.value e) evidence

end BayesCircuit.Multigraph
