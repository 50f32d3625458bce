import BayesCircuit.Compiler.Diagram
import BayesCircuit.Text.Blank

/-!
# Command-line arguments

Flags are single letters behind one dash, several of which can share the dash, or words behind two.
A flag with a value takes it from the rest of the argument, after an equals sign if there is one, or
from the next argument, which must not look like a flag itself. Behind a lone double dash nothing is
a flag. What is no flag and no value is the network, of which there is exactly one.
-/

namespace BayesCircuit.CommandLine

open Compiler (Method Diagram)

/-- Why the arguments do not lead to a compilation. -/
inductive Stop where
  | help
  | version
  /-- The arguments are not well formed. -/
  | usage (reason : String)
  deriving DecidableEq, Repr

/-- The flags. -/
inductive Flag where
  | method
  | diagram
  | write
  | read
  | option
  | parallel
  | verbose
  | quiet
  | help
  | version
  deriving DecidableEq, Repr

namespace Flag

def all : List Flag :=
  [method, diagram, write, read, option, parallel, verbose, quiet, help, version]

def letter : Flag → Char
  | method => 'c'
  | diagram => 't'
  | write => 'w'
  | read => 'r'
  | option => 'o'
  | parallel => 'p'
  | verbose => 'v'
  | quiet => 'q'
  | help => 'h'
  | version => 'V'

def word : Flag → String
  | method => "strategy"
  | diagram => "type"
  | write => "write"
  | read => "read"
  | option => "option"
  | parallel => "parallel"
  | verbose => "verbose"
  | quiet => "quiet"
  | help => "help"
  | version => "version"

/-- What the value of a flag is called, if the flag has one. -/
def valueName? : Flag → Option String
  | method => some "STRATEGY"
  | diagram => some "DIAGRAM"
  | write => some "TYPE[=FILE]"
  | read => some "TYPE[=FILE]"
  | option => some "KEY=VALUE"
  | parallel | verbose | quiet | help | version => none

def takesValue (f : Flag) : Bool := f.valueName?.isSome

/-- What a flag is for. -/
def purpose : Flag → String
  | method => "Compilation strategy: bottomup, topdown or hybrid"
  | diagram => "Diagram type: wpbdd, mg or tdmg"
  | write =>
      "Write a file: part, map, dot, elim, var, lit, circuit, comp, uai, pseudo or spanning"
  | read => "Read a file: part, elim, var, lit, pseudo or comp"
  | option => "Set an option"
  | parallel => "Compile in parallel, one worker for each processor unless workers are set"
  | verbose => "Report more"
  | quiet => "Report only warnings and errors"
  | help => "Show this help"
  | version => "Show the version"

def ofLetter? (c : Char) : Option Flag := all.find? (·.letter == c)

def ofWord? (word : String) : Option Flag := all.find? (·.word == word)

/-- The line of the help about a flag. -/
def helpLine (f : Flag) : String :=
  let usage := "-" ++ f.letter.toString ++ ", --" ++ f.word ++
    f.valueName?.elim "" fun name => " <" ++ name ++ ">"
  "  " ++ usage ++ String.ofList (List.replicate (30 - usage.length) ' ') ++ f.purpose

end Flag

/-- What the arguments say. -/
structure Arguments where
  network : Option String
  method : Option Method
  diagram : Option Diagram
  writes : List String
  reads : List String
  options : List String
  parallel : Bool
  verbosity : Nat
  quiet : Bool

namespace Arguments

/-- The arguments that say nothing. -/
def empty : Arguments := ⟨none, none, none, [], [], [], false, 0, false⟩

/-- Refuse a second occurrence. -/
def once {α : Type} (f : Flag) (allowed : Bool) (a : α) : Except Stop α :=
  if allowed then .ok a
  else .error (.usage ("--" ++ f.word ++ " cannot be used multiple times"))

/-- What a value names, or why it is refused. -/
def named {α : Type} (found : Except String α) : Except Stop α := found.mapError .usage

/-- Take over a flag with its value. -/
def give (f : Flag) (value : String) (a : Arguments) : Except Stop Arguments := do
  match f with
  | .method =>
      let m ← named (Method.parse value)
      once f a.method.isNone { a with method := some m }
  | .diagram =>
      let d ← named (Diagram.parse value)
      once f a.diagram.isNone { a with diagram := some d }
  | .write => return { a with writes := a.writes ++ [value] }
  | .read => return { a with reads := a.reads ++ [value] }
  | .option => return { a with options := a.options ++ [value] }
  | _ => throw (.usage ("--" ++ f.word ++ " takes no value"))

/-- Take over a flag without a value. -/
def raise (f : Flag) (a : Arguments) : Except Stop Arguments :=
  match f with
  | .parallel => once f (!a.parallel) { a with parallel := true }
  | .verbose => .ok { a with verbosity := a.verbosity + 1 }
  | .quiet => once f (!a.quiet) { a with quiet := true }
  | .help => .error .help
  | .version => .error .version
  | _ => .error (.usage ("--" ++ f.word ++ " needs a value"))

/-- Take over the network. -/
def place (path : String) (a : Arguments) : Except Stop Arguments :=
  if path.isEmpty then .error (.usage "the network has no name")
  else if a.network.isSome then .error (.usage ("unexpected argument '" ++ path ++ "'"))
  else .ok { a with network := some path }

/-- An argument that is no flag. -/
def unknown {α : Type} (argument : String) : Except Stop α :=
  .error (.usage ("unexpected argument '" ++ argument ++ "'"))

/-- Read letters behind a dash: the arguments, and the flag that still waits for its value. -/
def readLetters (argument : String) :
    List Char → Arguments → Except Stop (Arguments × Option Flag)
  | [], a => .ok (a, none)
  | c :: cs, a =>
      match Flag.ofLetter? c with
      | none => unknown argument
      | some f =>
          if f.takesValue then
            match cs with
            | [] => .ok (a, some f)
            | '=' :: value | value => do return (← give f (String.ofList value) a, none)
          else do readLetters argument cs (← raise f a)

/-- Read a word behind two dashes. -/
def readWord (argument word : String) (a : Arguments) :
    Except Stop (Arguments × Option Flag) := do
  match Text.splitOnce? '=' word with
  | some (word, value) =>
      let some f := Flag.ofWord? word | unknown argument
      return (← give f value a, none)
  | none =>
      let some f := Flag.ofWord? word | unknown argument
      if f.takesValue then return (a, some f) else return (← raise f a, none)

/-- Read the arguments; the value of a flag may still be missing. -/
def readFrom : List String → Option Flag → Arguments → Except Stop Arguments
  | [], none, a => .ok a
  | [], some f, _ => raise f empty
  | argument :: rest, waiting, a =>
      match argument.toList, waiting with
      | ['-', '-'], none => rest.foldlM (fun a path => place path a) a
      | '-' :: _ :: _, some f => raise f empty
      | '-' :: '-' :: cs, none => do
          let (a, waiting) ← readWord argument (String.ofList cs) a
          readFrom rest waiting a
      | '-' :: c :: cs, none => do
          let (a, waiting) ← readLetters argument (c :: cs) a
          readFrom rest waiting a
      | _, some f => do readFrom rest none (← give f argument a)
      | _, none => do readFrom rest none (← place argument a)

/-- Read the arguments. The network has to be there, and reporting cannot be both less and more. -/
def parse (arguments : List String) : Except Stop Arguments := do
  let a ← readFrom arguments none empty
  if a.network.isNone then throw (.usage "the network is missing")
  if a.quiet && 0 < a.verbosity then
    throw (.usage "--quiet cannot be used with --verbose")
  return a

end Arguments
end BayesCircuit.CommandLine
