import BayesCircuit.Compiler.Diagram
import BayesCircuit.Files.Path

/-!
# Artifacts and their files

An artifact is something that the compiler reads or writes. Its file has a name of its own or the
name of the network with the extension of the artifact. If there are several partitions, artifacts
of single partitions have the number of the partition before the extension.
-/

namespace BayesCircuit.Compiler

/-- What the compiler reads or writes. -/
inductive Artifact where
  /-- The compiled diagrams. -/
  | circuit
  /-- Literals and weights. -/
  | mapping
  /-- Drawings of the diagrams. -/
  | drawing
  | partition
  /-- Names of variables in the order of elimination. -/
  | elimination
  /-- Numbers of variables in the order of compilation. -/
  | variableOrder
  /-- Numbers of literals in the order of compilation. -/
  | literalOrder
  | pseudoTree
  /-- Drawings of the spanning trees. -/
  | spanning
  /-- The composition ordering of the partitions. -/
  | composition
  /-- The network in the exchange format. -/
  | exchange
  deriving DecidableEq, Repr

namespace Artifact

def all : List Artifact :=
  [circuit, mapping, drawing, partition, elimination, variableOrder, literalOrder, pseudoTree,
    spanning, composition, exchange]

def name : Artifact → String
  | circuit => "circuit"
  | mapping => "map"
  | drawing => "dot"
  | partition => "part"
  | elimination => "elim"
  | variableOrder => "var"
  | literalOrder => "lit"
  | pseudoTree => "pseudo"
  | spanning => "spanning"
  | composition => "comp"
  | exchange => "uai"

/-- The extension of the file of an artifact. -/
def extension (d : Diagram) : Artifact → String
  | circuit =>
      match d with
      | .decision => "ac"
      | .chain => "mc.ac"
      | .tree => "tdmc.ac"
  | mapping => "map"
  | drawing => "dot"
  | partition => "part"
  | elimination => "num"
  | variableOrder => "ord"
  | literalOrder => "lord"
  | pseudoTree => "pseudo"
  | spanning => "spanning.dot"
  | composition => "comp"
  | exchange => "uai"

def isReadable : Artifact → Bool
  | partition | elimination | variableOrder | literalOrder | pseudoTree | composition => true
  | circuit | mapping | drawing | spanning | exchange => false

/-- Whether every partition has a file of its own. -/
def isPerPartition : Artifact → Bool
  | circuit | drawing | elimination | variableOrder | literalOrder | pseudoTree | spanning => true
  | mapping | partition | composition | exchange => false

/-- The artifact that a text names, or what is wrong with the text. Two artifacts have a second
name. -/
def parse (text : String) : Except String Artifact :=
  if text == "order" then .ok literalOrder
  else if text == "ac" then .ok circuit
  else
    match all.find? (·.name == text) with
    | some a => .ok a
    | none => .error ("unknown file type '" ++ text ++ "'")

end Artifact

/-- Where the files of the artifacts are. -/
structure FileNames where
  /-- The name of the network without its extension. -/
  base : String
  /-- The names that artifacts have been given, the last one first. -/
  given : List (Artifact × String)

namespace FileNames

/-- The names beside a network. -/
def ofNetwork (path : String) : FileNames := ⟨Path.withoutExtension path, []⟩

/-- The names without a network. -/
def standard : FileNames := ofNetwork "tmp"

/-- Give a name to an artifact. -/
def set (f : FileNames) (a : Artifact) (path : String) : FileNames :=
  { f with given := (a, path) :: f.given }

/-- Whether an artifact has been given a name. -/
def isSet (f : FileNames) (a : Artifact) : Bool := (f.given.lookup a).isSome

/-- The path of an artifact, or of its part with a number. -/
def path (f : FileNames) (a : Artifact) (d : Diagram) (part : Option Nat) : String :=
  let path := (f.given.lookup a).getD (f.base ++ "." ++ a.extension d)
  part.elim path (Path.numbered path)

end FileNames
end BayesCircuit.Compiler
