import BayesCircuit.Collection.Ascending
import BayesCircuit.Network.Basic
import BayesCircuit.Text.Blank
import BayesCircuit.Text.Numeral

/-!
# Partitions of a network

A partition *owns* variables, whose tables are compiled in it, and sees the parents of these
variables that other partitions own: its *cutset*. The owned sets of a partitioning are disjoint
and cover the network, which `Partitions.verify` checks; cutsets may overlap.

A partition file starts with the word `partition` and a number, followed by one line for each
partition with the names of its variables between commas.
-/

namespace BayesCircuit

open Collection

/-- The owned variables and the cutset, both ascending. -/
structure Partition where
  owned : List Variable
  cutset : List Variable
  deriving DecidableEq, Repr

namespace Partition

/-- The partition that owns the given variables. -/
def ofOwned (net : Network) (scope : List Variable) : Outcome Partition := do
  let owned := Ascending.ofList scope
  let parents ← owned.mapM net.parents
  return ⟨owned, Ascending.diff (Ascending.ofList parents.flatten) owned⟩

/-- Owned and cutset variables, ascending. -/
def scope (p : Partition) : List Variable := Ascending.union p.owned p.cutset

/-- The number of owned and cutset variables. -/
def size (p : Partition) : Nat := p.owned.length + p.cutset.length

/-- Whether nothing is owned. -/
def isEmpty (p : Partition) : Bool := p.owned.isEmpty

def contains (p : Partition) (v : Variable) : Bool := p.owned.contains v || p.cutset.contains v

end Partition

/-- The partitions of a network, in order. -/
structure Partitions where
  parts : Array Partition
  deriving DecidableEq, Repr

namespace Partitions

/-- One partition that owns everything. -/
def one (net : Network) : Outcome Partitions :=
  return ⟨#[← Partition.ofOwned net (List.range net.size)]⟩

/-- The partitions that own the given sets. -/
def ofSets (net : Network) (sets : List (List Variable)) : Outcome Partitions :=
  return ⟨(← sets.mapM (Partition.ofOwned net)).toArray⟩

def size (ps : Partitions) : Nat := ps.parts.size

def isEmpty (ps : Partitions) : Bool := ps.parts.isEmpty

/-- Whether there is exactly one partition. -/
def isMonolithic (ps : Partitions) : Bool := ps.size == 1

def get (ps : Partitions) (i : Nat) : Outcome Partition := fetch ps.parts i

/-- The first partition that owns a variable. -/
def owner? (ps : Partitions) (v : Variable) : Option Nat :=
  ps.parts.findIdx? (·.owned.contains v)

/-- Names with commas between them. -/
def listNames (net : Network) (scope : List Variable) : Outcome String :=
  return Text.join "," (← scope.mapM net.name)

/-- Take the variables of a list, the one of partition number `i`, out of those not covered. -/
def cover (net : Network) (i : Nat) : List Variable → List Variable → Outcome (List Variable)
  | uncovered, [] => .ok uncovered
  | uncovered, v :: vs => do
      if !uncovered.contains v then
        fail (.invalidPartition
          ("variable '" ++ (← net.name v) ++ s!"' occurs in partition {i} for the second time"))
      cover net i (Ascending.erase v uncovered) vs

/-- Take the variables of all partitions out of those not covered. -/
def coverAll (net : Network) : List Variable → List (Partition × Nat) → Outcome (List Variable)
  | uncovered, [] => .ok uncovered
  | uncovered, (p, i) :: ps => do coverAll net (← cover net (i + 1) uncovered p.owned) ps

/-- Check that the owned sets are disjoint and cover the network. -/
def verify (ps : Partitions) (net : Network) : Outcome Unit := do
  let uncovered ← coverAll net (List.range net.size) ps.parts.toList.zipIdx
  if !uncovered.isEmpty then
    fail (.invalidPartition ("partitions do not cover all variables, missing \x7b" ++
      (← listNames net uncovered) ++ "\x7d"))

/-- Check that an ordering lists the variables of a partition, each once. -/
def verifyOrdering (ps : Partitions) (net : Network) (i : Nat) (ordering : List Variable) :
    Outcome Unit := do
  let expected := (← ps.get i).scope
  if Ascending.ofList ordering != expected || ordering.length != expected.length then
    fail (.invalidOrdering
      (s!"ordering of partition {i + 1} does not consist of partition and cutset \x7b" ++
        (← listNames net expected) ++ "\x7d"))

/-- The rest of a text after a word at its start. -/
def afterWord? (word text : String) : Option String :=
  let w := word.toList
  let t := text.toList
  if w.isPrefixOf t then some (String.ofList (t.drop w.length)) else none

/-- The number that the first line of a partition file announces. -/
def announced? (header : String) : Option Nat := do
  Text.u64? (Text.trim (← afterWord? "partition" header))

/-- The variables that a line names. -/
def parseLine (net : Network) (file : String) (line : Nat) (text : String) :
    Outcome (List Variable) :=
  (Text.split ',' text).mapM fun field =>
    let name := Text.trim field
    match net.find? name with
    | some v => .ok v
    | none => fail (.parse file line ("unknown variable '" ++ name ++ "'"))

/-- Read a partition file. -/
def parse (net : Network) (file text : String) : Outcome Partitions := do
  match (Text.lines text).map Text.trim with
  | [] => fail (.parse file 1 "missing header")
  | header :: rest =>
      let some n := announced? header | fail (.parse file 1 "expected 'partition N'")
      if n < 2 || net.size < n then
        fail (.parse file 1
          "number of partitions must be at least 2 and at most the number of variables")
      let listed := ((rest.zipIdx 2).filter (!·.1.isEmpty)).take n
      let sets ← listed.mapM fun (text, line) => parseLine net file line text
      if sets.length != n then
        fail (.parse file 0 (s!"expected {n} partitions, found {sets.length}"))
      ofSets net sets

/-- The partition file. -/
def toFileText (ps : Partitions) (net : Network) : Outcome String := do
  let lines ← ps.parts.toList.mapM fun p => listNames net p.owned
  return (s!"partition {ps.size}" :: lines).foldl (fun s l => s ++ l ++ "\n") ""

end Partitions
end BayesCircuit
