import BayesCircuit.Decimal.Layout
import BayesCircuit.Decimal.Reader
import BayesCircuit.Encoding.Basic
import BayesCircuit.Text.Blank
import BayesCircuit.Text.Numeral

/-!
# Mapping files and network exchange files

A mapping file starts with the numbers of variables, literals and weights. Then come lines for

* each variable: its number, its domain size, its first literal and its name;
* each literal: its number, its variable and the name of its value;
* each weight: its number and its value.

The exchange file of a network lists the scopes of its factors and then their tables, in which the
first variable of a scope is the most significant one; a second file beside it holds the names. An
exchange file is read as a row of words; it does not matter which blanks and line ends stand between
them.
-/

namespace BayesCircuit.Encoding

/-- Lines with a line feed after each. -/
def unlines (ls : List String) : String := ls.foldl (fun s l => s ++ l ++ "\n") ""

/-- Numbers with spaces between them. -/
def spaced (ns : List Nat) : String := Text.join " " (ns.map toString)

/-! ## Writing -/

/-- The line of a literal. Its variable must have the value that the literal stands for. -/
def literalLine (e : Encoding) (l : Nat) : Outcome String := do
  let v ← fetch e.literalVariables l
  let value ← minus l (← e.firstLiteral v)
  ensure .outOfRange (value < e.dims.getD v 0)
  return s!"{l},{v}," ++ e.literalNames.getD l ""

/-- The mapping file. -/
def toMapText (e : Encoding) : Outcome String := do
  let header := s!"map {e.variableCount} {e.literalCount} {e.weightCount}"
  let vars := (List.range e.variableCount).map fun v =>
    s!"{v},{e.dims.getD v 0},{e.firstLiterals.getD v 0}," ++ e.names.getD v ""
  let literals ← ((List.range e.literalCount).map (· + 1)).mapM e.literalLine
  let weights := e.weightValues.toList.zipIdx.map fun (p, i) =>
    s!"{e.literalCount + 1 + i}," ++ p.plain
  return unlines (header :: vars ++ literals ++ weights)

/-- The values of a table, from a state of a counter on, counting with its last wheel. -/
def tableFrom (e : Encoding) (f : Factor) : Nat → Counter → Outcome (List Float)
  | 0, _ => .ok []
  | fuel + 1, c => do
      let x ← e.weightValue (← fetch f.weights c.value)
      match c.incrementLast with
      | none => return [x]
      | some c => return x :: (← tableFrom e f fuel c)

/-- The table of a factor with its first variable as the most significant one. -/
def tableLine (e : Encoding) (f : Factor) : Outcome String := do
  let values ← tableFrom e f (max f.rows 1) f.counter
  return toString f.rows ++ String.join (values.map fun x => " " ++ Decimal.source x)

/-- The exchange file of a network. -/
def toExchangeText (e : Encoding) : Outcome String := do
  let scopes := e.factors.toList.map fun f =>
    s!"{f.scope.length} " ++ spaced f.scope
  let tables ← e.factors.toList.mapM e.tableLine
  return unlines (["BAYES", toString e.variableCount, spaced e.dims.toList,
    toString e.factors.size] ++ scopes ++ tables)

/-- The names of the variables and their values. -/
def toNamesText (e : Encoding) : String :=
  unlines ("# <id>:<variable name>:<value 1>,...,<value n>" ::
    (List.range e.variableCount).map fun v =>
      let values := (List.range (e.dims.getD v 0)).map (e.valueName v)
      s!"{v}:" ++ e.names.getD v "" ++ ":" ++ Text.join "," values)

/-! ## Reading -/

/-- Fail at a line of a file. -/
def badLine {α : Type} (file : String) (line : Nat) (reason : String) : Outcome α :=
  fail (.parse file line reason)

/-- A number with blanks around it. -/
def number (file : String) (line : Nat) (s : String) : Outcome Nat :=
  match Text.u64? (Text.trim s) with
  | some n => .ok n
  | none => badLine file line "expected a number"

/-- The first `count` fields of a line, the last of which holds all that is left. -/
def fields : Nat → String → List String
  | 0, _ => []
  | 1, s => [s]
  | count + 2, s =>
      match Text.splitOnce? ',' s with
      | none => [s]
      | some (field, rest) => field :: fields (count + 1) rest

/-- Read `count` lines, each of which changes the encoding. -/
def readLines (file missing : String) (step : Nat → String → Encoding → Outcome Encoding) :
    Nat → List (String × Nat) → Encoding → Outcome (Encoding × List (String × Nat))
  | 0, ls, e => .ok (e, ls)
  | _ + 1, [], _ => badLine file 0 missing
  | count + 1, (text, line) :: ls, e => do
      readLines file missing step count ls (← step line text e)

/-- Read the line of a variable, of which there are `variables`. -/
def readVariable (file : String) (vars line : Nat) (text : String) (e : Encoding) :
    Outcome Encoding := do
  match fields 4 text with
  | [v, dim, first, name] =>
      let v ← number file line v
      if vars ≤ v then badLine file line "variable out of range"
      let dim ← number file line dim
      let first ← number file line first
      return { e with
        dims := e.dims.setIfInBounds v (dim % halfWordSize)
        firstLiterals := e.firstLiterals.setIfInBounds v (first % halfWordSize)
        names := e.names.setIfInBounds v name }
  | _ => badLine file line "expected 'v,dim,lit,name'"

/-- Read the line of a literal, of which there are `literals`. -/
def readLiteral (file : String) (vars literals line : Nat) (text : String) (e : Encoding) :
    Outcome Encoding := do
  match fields 3 text with
  | [l, v, name] =>
      let l ← number file line l
      let v ← number file line v
      if l == 0 || literals < l || vars ≤ v then badLine file line "literal out of range"
      let first := e.firstLiterals.getD v 0
      if l < first || first + e.dims.getD v 0 ≤ l then
        badLine file line "literal outside its variable's range"
      return { e with
        literalVariables := e.literalVariables.setIfInBounds l v
        literalNames := e.literalNames.setIfInBounds l name }
  | _ => badLine file line "expected 'l,var,valuename'"

/-- Read the line of a weight, of which there are `weights`. -/
def readWeight (file : String) (literals weights line : Nat) (text : String) (e : Encoding) :
    Outcome Encoding := do
  match Text.splitOnce? ',' text with
  | none => badLine file line "expected 'w,probability'"
  | some (w, p) =>
      let w ← number file line w
      match Decimal.read? (Text.trim p) with
      | none => badLine file line "expected a probability"
      | some p =>
          if w ≤ literals || weights ≤ w - (literals + 1) then
            badLine file line "weight out of range"
          return { e with weightValues := e.weightValues.setIfInBounds (w - (literals + 1)) p }

/-- Room for the parts that a file announces: names of 24 bytes, numbers of four and entries of
eight. -/
def reserveParts (vars literals weights : Nat) : Outcome Unit := do
  reserve 24 vars
  reserve 4 (literals + 1)
  reserve 8 weights

/-- An encoding in which nothing is known yet. The numbers of its parts are announced by a file;
where they exceed the number of its lines, reading it fails before the missing parts are used. -/
def unknown (lineCount vars literals weights : Nat) : Encoding :=
  let vars := min vars lineCount
  { dims := Array.replicate vars 0
    firstLiterals := Array.replicate vars 0
    literalVariables := Array.replicate (min literals lineCount + 1) 0
    weightValues := Array.replicate (min weights lineCount) .zero
    names := Array.replicate vars ""
    literalNames := Array.replicate (min literals lineCount + 1) ""
    factors := #[] }

/-- Read a mapping file. The encoding has no factors. -/
def parseMap (file text : String) : Outcome Encoding := do
  match (Text.lines text).zipIdx 1 with
  | [] => badLine file 0 "empty mapping"
  | (header, line) :: ls =>
      match Text.words header with
      | ["map", vars, literals, weights] =>
          let vars ← number file line vars
          let literals ← number file line literals
          let weights ← number file line weights
          reserveParts vars literals weights
          let e := unknown ls.length vars literals weights
          let (e, ls) ← readLines file "missing variable line" (readVariable file vars)
            vars ls e
          let (e, ls) ← readLines file "missing literal line" (readLiteral file vars literals)
            literals ls e
          let (e, _) ← readLines file "missing weight line" (readWeight file literals weights)
            weights ls e
          return e
      | _ => badLine file line "expected 'map <variables> <literals> <weights>'"

end BayesCircuit.Encoding

/-! ## Reading exchange files -/

namespace BayesCircuit

/-- A function of some variables, with its values in a row. -/
structure Exchange.Function (α : Type) where
  scope : List Variable
  table : List α
  deriving Repr, DecidableEq

/-- What an exchange file says: the domain sizes of the variables, and functions. -/
structure Exchange (α : Type) where
  dims : List Nat
  functions : List (Exchange.Function α)
  deriving Repr, DecidableEq

namespace Exchange

variable {α : Type}

/-- The place of an assignment in the table of a function with some scope. -/
def place (dims : List Nat) (scope : List Variable) (ρ : Variable → Nat) : Nat :=
  scope.foldl (fun i u => i * dims.getD u 0 + ρ u) 0

/-- The value of a function for an assignment. -/
def value? (x : Exchange α) (f : Function α) (ρ : Variable → Nat) : Option α :=
  f.table[place x.dims f.scope ρ]?

/-- A reader of some words at the beginning of a row, which leaves the others. -/
abbrev Reader (α : Type) := StateT (List String) Option α

/-- The next word, if it can be read. -/
def next (read? : String → Option α) : Reader α
  | [] => none
  | w :: ws => (read? w).map (·, ws)

/-- A word that has to be there. -/
def keyword (word : String) : Reader Unit := next fun w => if w = word then some () else none

/-- A number in decimal digits. -/
def natural : Reader Nat := next fun w => Text.natural? w.toList

/-- A known number of things. -/
def several (r : Reader α) : Nat → Reader (List α)
  | 0 => return []
  | n + 1 => return (← r) :: (← several r n)

/-- Some things, of which the number comes first. -/
def counted (r : Reader α) : Reader (List α) := do
  several r (← natural)

/-- The parts of a file. After the first word come the number of variables and their domain sizes,
the number of functions and their scopes, each with its length, and their tables, each with its
length; how the numbers of a table are spelled is left open. -/
def parts (real? : String → Option α) : Reader (Exchange α) := do
  keyword "BAYES"
  let dims ← counted natural
  let scopes ← counted (counted natural)
  let tables ← several (counted (next real?)) scopes.length
  return ⟨dims, List.zipWith Function.mk scopes tables⟩

/-- A whole file; `real?` reads the numbers of the tables. -/
def read? (real? : String → Option α) (text : String) : Option (Exchange α) :=
  match parts real? (Text.words text) with
  | some (x, []) => some x
  | _ => none

end Exchange
end BayesCircuit
