import BayesCircuit.CommandLine.Arguments
import BayesCircuit.Compiler.Assignment
import BayesCircuit.Compiler.Files

/-!
# The program

The program reads a network and the given artifacts, compiles, reports the statistics and writes
artifacts. Its exit code is zero if all went well, one for an error that is reported, two for
arguments that are not well formed, and another one for a fault.
-/

namespace BayesCircuit.CommandLine

open Compiler

def name : String := "bayescircuit"

def version : String := "0.1.0"

/-- The text of the help. -/
def helpText : String :=
  Text.join "\n"
    (["Compile Bayesian networks into decision diagrams and multigraphs", "",
      "Usage: " ++ name ++ " [OPTIONS] <NET>", "", "Options:"] ++ Flag.all.map Flag.helpLine)

/-- The exit code for a fault. -/
def faultCode : Nat := 101

/-- Report a failure. -/
def reportFailure : Failure → Interaction Nat
  | .error e => do
      Interaction.complainLine ("Error: " ++ e.message)
      return 1
  | .fault _ => do
      Interaction.complainLine "Error: a precondition was broken"
      return faultCode

/-- Report what is wrong with the choice of artifacts. -/
def reportReason (reason : String) : Interaction Nat := do
  Interaction.complainLine ("Error: " ++ reason)
  return 1

/-- An artifact that is to be read or written, and the path of its file if one is given. -/
structure FileChoice where
  artifact : Artifact
  path : Option String

/-- The choice that a text `TYPE` or `TYPE=FILE` stands for. -/
def FileChoice.parse (text : String) : Except String FileChoice := do
  match Text.splitOnce? '=' text with
  | some (type, path) => return ⟨← Artifact.parse type, some path⟩
  | none => return ⟨← Artifact.parse text, none⟩

/-- Everything that the arguments ask for. A quiet program does not tell what it is doing. -/
structure Plan where
  network : String
  settings : Settings
  reads : List FileChoice
  writes : List FileChoice
  quiet : Bool

namespace Plan

/-- Check that everything to be read can be read and is not written as well. -/
def checkReads (reads writes : List FileChoice) : Except String Unit :=
  reads.forM fun r =>
    if !r.artifact.isReadable then .error ("cannot read '" ++ r.artifact.name ++ "' files")
    else if writes.any (·.artifact == r.artifact) then
      .error ("option '" ++ r.artifact.name ++ "' given to both -r and -w")
    else .ok ()

/-- Circuits are written together with the mapping. -/
def completeWrites (writes : List FileChoice) : List FileChoice :=
  if writes.any (·.artifact == .circuit) && !writes.any (·.artifact == .mapping) then
    writes ++ [⟨.mapping, none⟩]
  else writes

/-- The settings that the arguments choose. -/
def chooseSettings (processors : Nat) (a : Arguments) : Outcome Settings :=
  let start : Settings :=
    { Settings.standard with
      diagram := a.diagram.getD .tree, method := a.method.getD .hybrid, processors
      workers := if a.parallel then 0 else 1 }
  match (a.options.forM Settings.assign).run start with
  | .ok _ s => .ok s
  | .error f _ => .error f

/-- The artifacts that the arguments choose, to be read and to be written. -/
def chooseFiles (a : Arguments) : Except String (List FileChoice × List FileChoice) := do
  let reads ← a.reads.mapM FileChoice.parse
  let writes ← a.writes.mapM FileChoice.parse
  checkReads reads writes
  return (reads, completeWrites writes)

/-- The files that are read first are those that others depend on. -/
def rank : Artifact → Nat
  | .partition => 0
  | .composition => 1
  | _ => 2

/-- The artifacts to be read, in order. -/
def readOrder (p : Plan) : List Artifact :=
  (p.reads.map (·.artifact)).mergeSort fun a b => rank a ≤ rank b

/-- The names of files, with those that were given. -/
def fileNames (p : Plan) (files : FileNames) : FileNames :=
  (p.reads ++ p.writes).foldl (fun f r => r.path.elim f (f.set r.artifact)) files

end Plan

/-- Read artifacts, one after the other. -/
def readAll : List Artifact → Compilation → Interaction (Outcome Compilation)
  | [], c => return .ok c
  | a :: rest, c => do
      match ← c.readArtifact a with
      | .error f _ => return .error f
      | .ok _ c => readAll rest c

/-- Say which files of an artifact have been written. -/
def announce (what : String) (paths : List String) : Interaction Unit :=
  paths.forM fun path => Interaction.printLine ("Wrote " ++ what ++ " to " ++ path)

/-- Write artifacts, one after the other. Those that are not supported are left out. -/
def writeAll (c : Compilation) : List Artifact → Interaction Nat
  | [] => return 0
  | a :: rest => do
      match ← c.writeArtifact a with
      | .ok paths =>
          announce a.name paths
          writeAll c rest
      | .error (.error (.unsupported reason)) =>
          Interaction.complainLine ("skipping '" ++ a.name ++ "': " ++ reason)
          writeAll c rest
      | .error f => reportFailure f

/-- Write only the exchange file. -/
def exportNetwork (c : Compilation) : Interaction Nat := do
  match ← c.writeArtifact .exchange with
  | .ok paths =>
      announce "UAI network" paths
      return 0
  | .error f => reportFailure f

/-- How long the stages took that ended at the given times. The stages after the ordering are not
told apart. A stage that ran took some time. -/
def durations (c : Compilation) (started ordered compiled : Nat) : Durations :=
  let rest := max 1 (compiled - ordered)
  let isDecision := match c.circuits with
    | some (.decision ..) => true
    | _ => false
  { ordering := ordered - started
    spanning := if c.spanning.isEmpty then 0 else rest
    tables := if isDecision then rest else 0
    total := compiled - started }

/-- Report the statistics, then write. -/
def reportAndWrite (c : Compilation) (d : Durations) (writes : List Artifact) :
    Interaction Nat := do
  match c.stats.toText d with
  | .error f => reportFailure f
  | .ok report =>
      Interaction.printLine report
      writeAll c writes

/-- Compile, report and write. -/
def compileAndWrite (c : Compilation) (writes : List Artifact) : Interaction Nat := do
  let started ← Interaction.now
  match Compilation.prepare.run c with
  | .error f _ => reportFailure f
  | .ok _ c =>
      let ordered ← Interaction.now
      match Compilation.compile.run c with
      | .error f _ => reportFailure f
      | .ok _ c =>
          let compiled ← Interaction.now
          reportAndWrite c (durations c started ordered compiled) writes

/-- Carry out a plan. -/
def carryOut (p : Plan) : Interaction Nat := do
  unless p.quiet do Interaction.complainLine ("Loading network from " ++ p.network)
  match ← Compilation.openFile p.settings p.network with
  | .error f => reportFailure f
  | .ok c =>
      let c := { c with files := p.fileNames c.files }
      if p.writes.any (·.artifact == .exchange) then exportNetwork c
      else
        match ← readAll p.readOrder c with
        | .error f => reportFailure f
        | .ok c => compileAndWrite c (p.writes.map (·.artifact))

/-- Run the program with well-formed arguments. -/
def runWith (processors : Nat) (network : String) (a : Arguments) : Interaction Nat := do
  match Plan.chooseSettings processors a with
  | .error f => reportFailure f
  | .ok settings =>
      match Plan.chooseFiles a with
      | .error reason => reportReason reason
      | .ok (reads, writes) => carryOut ⟨network, settings, reads, writes, a.quiet⟩

/-- Run the program; the result is its exit code. -/
def run (processors : Nat) (arguments : List String) : Interaction Nat := do
  match Arguments.parse arguments with
  | .error .help =>
      Interaction.printLine helpText
      return 0
  | .error .version =>
      Interaction.printLine (name ++ " " ++ version)
      return 0
  | .error (.usage reason) =>
      Interaction.complainLine ("error: " ++ reason)
      return 2
  | .ok a => runWith processors (a.network.getD "") a

end BayesCircuit.CommandLine
