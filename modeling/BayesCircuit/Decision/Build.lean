import BayesCircuit.Decision.Cofactor
import BayesCircuit.Decision.Collapse

/-!
# Building diagrams

A diagram is built from its root down. At each literal of an ordering, an *engine* conditions what
is to be built on the literal. If the literal matters, a node is made; its high and its low child
are the cofactors, which are built from the rest of the ordering unless the engine knows them. Then
the node is collapsed if that is asked for, and merged with its canonical twin.

A time limit is looked at every 1024 steps only.
-/

namespace BayesCircuit.Decision

/-- What conditions the thing to be built. Every finding except `redundant` leaves one step that has
to be undone. -/
structure Engine (σ : Type) where
  /-- Condition on a literal, which is followed by another one in the ordering, or on its
  negation: what is left, and the weights that the step collects. -/
  condition : σ → Literal → Option Literal → Bool → Action (Cofactor × Weights × σ)
  undo : σ → σ
  /-- The diagram that a `trivial` cofactor equals. -/
  trivial : σ → Outcome Handle
  /-- The result for a `cached` cofactor. -/
  cached : σ → Handle
  /-- Learn the result for a cofactor of a literal that holds. -/
  record : σ → Handle → Action Unit

/-- The canonical nodes, the state of the engine and the number of steps. -/
structure Progress (σ : Type) where
  table : Table
  engine : σ
  steps : Nat

variable {σ : Type}

/-- Count a step. -/
def tick (expired : Bool) (steps : Nat) : Action Nat := do
  if (steps + 1) % 1024 == 0 && expired then throw (.error .timeout)
  return steps + 1

/-- Finish a node whose children are in place: the canonical node that replaces it. -/
def finish (collapse expired : Bool) (h : Handle) : Progress σ → Action (Handle × Progress σ)
  | ⟨table, engine, steps⟩ => do
      let steps ← tick expired steps
      let table ← if collapse then do
          let fuel ← depthBound
          let (_, table) ← collapseNode fuel table h
          pure table
        else pure table
      let (c, table) ← merge table h
      return (c, ⟨table, engine, steps⟩)

/-- Fail because the ordering has no literal left. -/
def exhausted {α : Type} (level : Nat) : Action α :=
  throw (.error (.internal
    (s!"ordering exhausted at level {level} before the diagram was complete") none))

/-- Fail because of a low cofactor that an engine must not find. -/
def unexpected {α : Type} (h : Handle) (level : Nat) (found : Cofactor) : Action α := do
  let l := (← nodeAt h).literal
  throw (.error (.internal
    (s!"negative cofactor of {l} at level {level} reported " ++ found.name) none))

/-- Undo the last step of the engine. -/
def Progress.undo (E : Engine σ) : Progress σ → Progress σ
  | ⟨table, engine, steps⟩ => ⟨table, E.undo engine, steps⟩

/-- Build what is left along the rest of an ordering, which starts at the given level. -/
def buildFrom (E : Engine σ) (collapse expired : Bool) :
    List Literal → Nat → Progress σ → Action (Handle × Progress σ)
  | [], level, p => do
      discard (tick expired p.steps)
      exhausted level
  | l :: rest, level, ⟨table, engine, steps⟩ => do
      let steps ← tick expired steps
      let (found, weights, engine) ← E.condition engine l rest.head? true
      match found with
      | .redundant => buildFrom E collapse expired rest (level + 1) ⟨table, engine, steps⟩
      | found =>
          let h ← create l (if found == .unsatisfiable then [] else weights)
          let ⟨table, engine, steps⟩ ← (match found with
            | .unsatisfied => do
                let (c, p) ← buildFrom E collapse expired rest (level + 1) ⟨table, engine, steps⟩
                setHigh h c
                E.record p.engine c
                return p.undo E
            | .trivial => do
                let (c, table) ← copy table (← Action.lift (E.trivial engine))
                setHigh h c
                E.record engine c
                return ⟨table, E.undo engine, steps⟩
            | .cached => do
                setHigh h (E.cached engine)
                return ⟨table, E.undo engine, steps⟩
            | .satisfiable => do
                setHigh h Handle.true'
                return ⟨table, E.undo engine, steps⟩
            | _ => do
                setHigh h Handle.false'
                return ⟨table, E.undo engine, steps⟩ : Action (Progress σ))
          let steps ← tick expired steps
          let (found, _, engine) ← E.condition engine l rest.head? false
          let p ← (match found with
            | .unsatisfied => do
                let (c, p) ← buildFrom E collapse expired rest (level + 1) ⟨table, engine, steps⟩
                setLow h c
                return p.undo E
            | .trivial => do
                let (c, table) ← copy table (← Action.lift (E.trivial engine))
                setLow h c
                return ⟨table, E.undo engine, steps⟩
            | .satisfiable => do
                setLow h Handle.true'
                return ⟨table, E.undo engine, steps⟩
            | .unsatisfiable => do
                setLow h Handle.false'
                return ⟨table, E.undo engine, steps⟩
            | found => unexpected h level found : Action (Progress σ))
          finish collapse expired h p

/-- Build a diagram along an ordering. The caller holds a reference to the root. -/
def build (E : Engine σ) (engine : σ) (ordering : List Literal) (collapse expired : Bool) :
    Action Handle := do
  let (root, _) ← buildFrom E collapse expired ordering 0 ⟨← newTable, engine, 0⟩
  reference root
  return root

/-!
## Building one step at a time

`buildFrom` keeps what is left to do in its recursion. The driver keeps it in frames, one for each
node on the path from the root to the node that is being built, and does one step after the other:
it conditions on the literal of the last frame, or on its negation, or it finishes the node of the
last frame and hands the result on. Between two steps nothing is going on, so what holds of all
states of a pass is said about the states of the driver.
-/

/-- Where the result for a frame goes. -/
inductive Slot where
  | root
  | high (parent : Handle)
  | low (parent : Handle)
  deriving DecidableEq, Repr

/-- What a frame does next: it conditions on its literal or on the negation, or it finishes its
node. -/
inductive Phase where
  | positive
  | negative
  | canonical
  deriving DecidableEq, Repr

/-- What is left to do for a node. In the positive phase there is no node yet. -/
structure Frame where
  slot : Slot
  level : Nat
  node : Handle
  phase : Phase
  deriving DecidableEq, Repr

/-- A frame without a node. -/
def Frame.start (slot : Slot) (level : Nat) : Frame := ⟨slot, level, Handle.false', .positive⟩

/-- The frames, the last one first, and what the pass has so far. -/
structure Driver (σ : Type) where
  frames : List Frame
  progress : Progress σ
  root : Handle

namespace Driver

/-- Nothing has been done. -/
def start (table : Table) (engine : σ) : Driver σ :=
  ⟨[.start .root 0], ⟨table, engine, 0⟩, Handle.false'⟩

/-- The high child of a node that needs no frame. -/
def answerHigh (E : Engine σ) (h : Handle) (found : Cofactor) :
    Progress σ → Action (Progress σ)
  | ⟨table, engine, steps⟩ =>
      match found with
      | .satisfiable => do
          setHigh h Handle.true'
          return ⟨table, E.undo engine, steps⟩
      | .trivial => do
          let (c, table) ← copy table (← Action.lift (E.trivial engine))
          setHigh h c
          E.record engine c
          return ⟨table, E.undo engine, steps⟩
      | .cached => do
          setHigh h (E.cached engine)
          return ⟨table, E.undo engine, steps⟩
      | _ => do
          setHigh h Handle.false'
          return ⟨table, E.undo engine, steps⟩

/-- The low child of a node that needs no frame. -/
def answerLow (E : Engine σ) (h : Handle) (level : Nat) (found : Cofactor) :
    Progress σ → Action (Progress σ)
  | ⟨table, engine, steps⟩ =>
      match found with
      | .satisfiable => do
          setLow h Handle.true'
          return ⟨table, E.undo engine, steps⟩
      | .unsatisfiable => do
          setLow h Handle.false'
          return ⟨table, E.undo engine, steps⟩
      | .trivial => do
          let (c, table) ← copy table (← Action.lift (E.trivial engine))
          setLow h c
          return ⟨table, E.undo engine, steps⟩
      | found => unexpected h level found

/-- Hand the result for a frame on. -/
def deliver (E : Engine σ) (c : Handle) : Slot → Driver σ → Action (Driver σ)
  | .root, d => do
      reference c
      return { d with root := c }
  | .high h, d => do
      setHigh h c
      E.record d.progress.engine c
      return { d with progress := d.progress.undo E }
  | .low h, d => do
      setLow h c
      return { d with progress := d.progress.undo E }

/-- Condition on the literal of a frame, and make a node for it if it matters. -/
def stepPositive (E : Engine σ) (ordering : List Literal) (expired : Bool) (f : Frame)
    (below : List Frame) (d : Driver σ) : Action (Driver σ) := do
  let steps ← tick expired d.progress.steps
  match ordering[f.level]? with
  | none => exhausted f.level
  | some l =>
      let (found, weights, engine) ←
        E.condition d.progress.engine l ordering[f.level + 1]? true
      let p : Progress σ := ⟨d.progress.table, engine, steps⟩
      match found with
      | .redundant =>
          return ⟨{ f with level := f.level + 1 } :: below, p, d.root⟩
      | found =>
          let h ← create l (if found == .unsatisfiable then [] else weights)
          let frames := { f with node := h, phase := .negative } :: below
          match found with
          | .unsatisfied => return ⟨.start (.high h) (f.level + 1) :: frames, p, d.root⟩
          | found => return ⟨frames, ← answerHigh E h found p, d.root⟩

/-- Condition on the negation of the literal of a frame. -/
def stepNegative (E : Engine σ) (ordering : List Literal) (expired : Bool) (f : Frame)
    (below : List Frame) (d : Driver σ) : Action (Driver σ) := do
  let steps ← tick expired d.progress.steps
  let l ← Action.lift (expect .outOfRange ordering[f.level]?)
  let (found, _, engine) ← E.condition d.progress.engine l ordering[f.level + 1]? false
  let p : Progress σ := ⟨d.progress.table, engine, steps⟩
  let frames := { f with phase := .canonical } :: below
  match found with
  | .unsatisfied => return ⟨.start (.low f.node) (f.level + 1) :: frames, p, d.root⟩
  | found => return ⟨frames, ← answerLow E f.node f.level found p, d.root⟩

/-- Finish the node of a frame. -/
def stepCanonical (E : Engine σ) (collapse expired : Bool) (f : Frame) (below : List Frame)
    (d : Driver σ) : Action (Driver σ) := do
  let (c, p) ← finish collapse expired f.node d.progress
  deliver E c f.slot ⟨below, p, d.root⟩

/-- Do one step, unless nothing is left to do. -/
def step (E : Engine σ) (ordering : List Literal) (collapse expired : Bool) (d : Driver σ) :
    Action (Driver σ) :=
  match d.frames with
  | [] => return d
  | f :: below =>
      match f.phase with
      | .positive => stepPositive E ordering expired f below d
      | .negative => stepNegative E ordering expired f below d
      | .canonical => stepCanonical E collapse expired f below d

end Driver
end BayesCircuit.Decision
