import BayesCircuit.Compiler.Compilation
import BayesCircuit.Encoding.Files
import BayesCircuit.Files.Store
import BayesCircuit.Network.Reader
import BayesCircuit.PseudoTree.Text

/-!
# Reading and writing artifacts

What the files of an artifact say is worked out by `receive` and `documents`, which do not touch any
file. `readArtifact` and `writeArtifact` are the interactions around them.
-/

namespace BayesCircuit.Compiler.Compilation

/-- The number of a partition in file names, which only one of several has. -/
def partNumber (c : Compilation) (i : Nat) : Option Nat :=
  if 1 < c.partitions.size then some i else none

/-- The path of an artifact, or of its part with a number. -/
def path (c : Compilation) (a : Artifact) (part : Option Nat) : String :=
  c.files.path a c.settings.diagram part

/-- The path of the artifact of a partition. -/
def partPath (c : Compilation) (a : Artifact) (i : Nat) : String := c.path a (c.partNumber i)

/-! ## Reading -/

/-- A file that was to be read: its path, and its text or why there is none. -/
structure Source where
  path : String
  content : Except String String

/-- The text of a file. -/
def Source.text (s : Source) : Outcome String :=
  match s.content with
  | .ok text => .ok text
  | .error reason => fail (.io s.path reason)

/-- The paths of the files to be read. -/
def sources (c : Compilation) (a : Artifact) : List String :=
  if !a.isReadable then []
  else if a.isPerPartition then (List.range c.partitions.size).map (c.partPath a)
  else [c.path a none]

/-- The ordering of variables that an index file lists. -/
def parseVariables (net : Network) (file text : String) : Outcome (List Variable) := do
  let ordering ← Ordering.parseIndices file text
  match ordering.find? (net.size ≤ ·) with
  | none => return ordering
  | some v => fail (.parse file 0 s!"variable {v} out of range")

/-- The ordering of variables behind the ordering of literals that an index file lists. -/
def parseLiterals (c : Compilation) (file text : String) : Outcome (List Variable) := do
  if 1 < c.partitions.size then
    fail (.unsupported "literal orderings of partitioned networks")
  let numbers ← Ordering.parseIndices file text
  require (!numbers.contains 0)
  Ordering.collapse c.encoding (numbers.map Int.ofNat)

/-- The ordering that a file describes. -/
def readOrdering (c : Compilation) (a : Artifact) (s : Source) : Outcome (List Variable) := do
  let text ← s.text
  match a with
  | .elimination => Ordering.parseElimination c.network s.path text
  | .variableOrder => parseVariables c.network s.path text
  | _ => c.parseLiterals s.path text

/-- The pseudo-tree that a file describes. -/
def readPseudoTree (s : Source) : Outcome PseudoTree := do
  PseudoTree.parse s.path (← s.text)

/-- Take over what the files of an artifact say. -/
def receive (a : Artifact) (files : List Source) : Step Unit := do
  let c ← get
  match a with
  | .partition =>
      files.forM fun s => do
        setPartitions (← liftOutcome do Partitions.parse c.network s.path (← s.text))
  | .elimination | .variableOrder | .literalOrder =>
      setOrderings (← liftOutcome (files.mapM (c.readOrdering a)))
  | .pseudoTree =>
      let trees ← liftOutcome (files.mapM readPseudoTree)
      setOrderings (trees.map (·.preorder))
      modify fun c => { c with pseudoTrees := trees.toArray }
  | .composition =>
      files.forM fun s => do
        let ordering ← liftOutcome do Ordering.parseIndices s.path (← s.text)
        modify fun c => { c with composing := some ordering }
  | _ => liftOutcome (fail (.unsupported ("reading '" ++ a.name ++ "' files")))

/-! ## Writing -/

/-- A file to be written. -/
structure Document where
  path : String
  text : String
  /-- Whether the file is named among those written; companions of other files are not. -/
  isListed : Bool

/-- The ordering of a partition, which has to be there. -/
def orderingOf (c : Compilation) (i : Nat) : Outcome (List Variable) :=
  match c.orderings[i]? with
  | some ordering => .ok ordering
  | none => fail (.invalidOrdering s!"partition {i} has not been ordered")

/-- The diagrams, which have to be there. -/
def circuitsFor (c : Compilation) (a : Artifact) : Outcome Circuits :=
  match c.circuits with
  | some circuits => .ok circuits
  | none => fail (.unsupported ("writing '" ++ a.name ++ "' without a compiled diagram"))

/-- The text of an artifact for a partition. -/
def partText (c : Compilation) (a : Artifact) (i : Nat) : Outcome String := do
  match a with
  | .elimination => Ordering.toEliminationText c.network (← c.orderingOf i)
  | .variableOrder => return Ordering.toIndexText (← c.orderingOf i)
  | .literalOrder => return Ordering.toIndexText (← Ordering.expand c.encoding (← c.orderingOf i))
  | .pseudoTree =>
      discard (c.orderingOf i)
      return (← c.pseudoTree i).toText ++ "\n"
  | .spanning =>
      if let some t := c.spanning[i]? then return t.toDotText
      discard (c.orderingOf i)
      return (← c.spanningTree i).toDotText
  | .circuit => (← c.circuitsFor a).circuitText i
  | _ => (← c.circuitsFor a).dotText c.encoding i

/-- The text of an artifact for the whole network. -/
def wholeText (c : Compilation) (a : Artifact) : Outcome String :=
  match a with
  | .mapping => c.encoding.toMapText
  | .partition =>
      if c.partitions.isMonolithic then
        fail (.unsupported "partition file of a single partition")
      else c.partitions.toFileText c.network
  | .composition =>
      match c.composition with
      | some (_, tree) => .ok (Ordering.toIndexText tree.ordering)
      | none => fail (.unsupported "composition ordering of a single partition")
  | _ => c.encoding.toExchangeText

/-- The files to be written, in order; nothing is written after one that cannot be made. -/
def documents (c : Compilation) (a : Artifact) : List (Outcome Document) :=
  if a.isPerPartition then
    (List.range c.partitions.size).map fun i => do return ⟨c.partPath a i, ← c.partText a i, true⟩
  else
    let main : Outcome Document := do return ⟨c.path a none, ← c.wholeText a, true⟩
    if a == .exchange then
      [main, .ok ⟨c.path a none ++ ".map", c.encoding.toNamesText, false⟩]
    else [main]

/-! ## Interactions -/

/-- Read several files. -/
def readSources : List String → Interaction (List Source)
  | [] => return []
  | path :: paths => do
      let content ← Interaction.readFile path
      return ⟨path, content⟩ :: (← readSources paths)

/-- Read an artifact. -/
def readArtifact (c : Compilation) (a : Artifact) :
    Interaction (EStateM.Result Failure Compilation Unit) := do
  let files ← readSources (c.sources a)
  return (receive a files).run c

/-- Write files until one cannot be written; the paths of those that are listed. -/
def writeDocuments : List (Outcome Document) → Interaction (Outcome (List String))
  | [] => return .ok []
  | .error f :: _ => return .error f
  | .ok d :: rest => do
      match ← Interaction.writeFile d.path d.text with
      | .error reason => return fail (.io d.path reason)
      | .ok () =>
          let written ← writeDocuments rest
          return written.map fun paths => if d.isListed then d.path :: paths else paths

/-- Write an artifact; the paths of its files. -/
def writeArtifact (c : Compilation) (a : Artifact) : Interaction (Outcome (List String)) :=
  writeDocuments (c.documents a)

/-- Start from a network file. -/
def openFile (settings : Settings) (path : String) : Interaction (Outcome Compilation) := do
  let source : Source := ⟨path, ← Interaction.readFile path⟩
  return do
    let network ← Network.parse path (← source.text)
    start settings (.ofNetwork path) network

end BayesCircuit.Compiler.Compilation
