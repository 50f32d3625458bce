import BayesCircuit.Network.Basic
import BayesCircuit.Network.Token

/-!
# Reading network files

A network file is a sequence of blocks:

* `net` with properties, which are skipped;
* `node`, possibly after the word `discrete`, with a name and properties, of which `states` lists
  the names of the values;
* `potential` with a variable, after a bar its parents, and properties, of which `data` holds the
  table in reading order, whatever its parentheses.

Potentials take effect when the whole file has been read, in their order. A message names the line
of the token after the one that could not be read.
-/

namespace BayesCircuit.Network

/-- What remains of a file: its name, its tokens and the line of its very last token. -/
structure Cursor where
  file : String
  rest : List Lexeme
  lastLine : Nat

namespace Cursor

/-- The line of the next token, or of the last one if there is none. -/
def line (c : Cursor) : Nat := (c.rest.head?.map (·.line)).getD c.lastLine

/-- Fail at the line of the cursor. -/
def stop {α : Type} (c : Cursor) (reason : String) : Outcome α :=
  fail (.parse c.file c.line reason)

/-- Whether the next token is a punctuation mark. -/
def sees (c : Cursor) (mark : Char) : Bool := c.rest.head?.any (·.token.isMark mark)

/-- Take the next token. -/
def next (c : Cursor) : Outcome (Token × Cursor) :=
  match c.rest with
  | [] => c.stop "unexpected end of input"
  | l :: rest => .ok (l.token, { c with rest })

/-- Take a given punctuation mark. -/
def expectMark (c : Cursor) (mark : Char) : Outcome Cursor := do
  let (t, c) ← c.next
  if t.isMark mark then return c
  else c.stop ("expected '" ++ mark.toString ++ "', found " ++ t.describe)

/-- Take an identifier. -/
def identifier (c : Cursor) : Outcome (String × Cursor) := do
  match ← c.next with
  | (.identifier name, c) => return (name, c)
  | (t, c) => c.stop ("expected identifier, found " ++ t.describe)

/-- Take the value of a property at a given depth of parentheses: the tokens inside, in order. -/
def valueAt (file : String) (lastLine : Nat) : Nat → List Lexeme → Outcome (List Token × Cursor)
  | _, [] => stop ⟨file, [], lastLine⟩ "unexpected end of input"
  | depth, l :: rest => do
      match l.token with
      | .mark c =>
          if c == '(' then valueAt file lastLine (depth + 1) rest
          else if c == ')' && depth == 1 then return ([], ⟨file, rest, lastLine⟩)
          else if c == ')' && depth != 0 then valueAt file lastLine (depth - 1) rest
          else stop ⟨file, rest, lastLine⟩ ("unexpected '" ++ c.toString ++ "'")
      | t =>
          if depth == 0 then return ([t], ⟨file, rest, lastLine⟩)
          else
            let (ts, c) ← valueAt file lastLine depth rest
            return (t :: ts, c)

/-- Take the value of a property. -/
def value (c : Cursor) : Outcome (List Token × Cursor) := valueAt c.file c.lastLine 0 c.rest

/-- Take the properties up to the closing brace. A property is longer than nothing, so the
comparison of lengths never fails. -/
def propertiesToEnd (c : Cursor) : Outcome (List (String × List Token) × Cursor) := do
  if c.sees '\x7d' then return ([], ← c.expectMark '\x7d')
  let (key, afterKey) ← c.identifier
  let (value, afterValue) ← (← afterKey.expectMark '=').value
  let rest ← afterValue.expectMark ';'
  if _shorter : rest.rest.length < c.rest.length then
    let (more, last) ← rest.propertiesToEnd
    return ((key, value) :: more, last)
  else abort .requirement
termination_by c.rest.length

/-- Take the properties of a block. -/
def properties (c : Cursor) : Outcome (List (String × List Token) × Cursor) := do
  (← c.expectMark '\x7b').propertiesToEnd

/-- Take the names of parents up to the closing parenthesis. -/
def parentsToEnd (net : Network) (c : Cursor) : Outcome (List Variable × Cursor) := do
  if c.sees ')' then return ([], ← c.expectMark ')')
  let (name, rest) ← c.identifier
  match net.find? name with
  | none => rest.stop ("unknown node '" ++ name ++ "'")
  | some v =>
      if _shorter : rest.rest.length < c.rest.length then
        let (more, last) ← parentsToEnd net rest
        return (v :: more, last)
      else abort .requirement
termination_by c.rest.length

end Cursor

/-- A table as a file gives it: the variable, its parents, the entries and the line of the block. -/
structure Potential where
  child : Variable
  parents : List Variable
  data : List Probability
  line : Nat

/-- The name of a value, which may be given as a number. -/
def stateName : Token → String
  | .identifier s | .text s => s
  | .number x => x.plain
  | .mark c => c.toString

/-- Read a node after the word that announces it. -/
def readNode (net : Network) (c : Cursor) : Outcome (Network × Cursor) := do
  let (name, c) ← c.identifier
  if (net.find? name).isSome then c.stop ("duplicate node '" ++ name ++ "'")
  let (properties, c) ← c.properties
  let states := (properties.filter (·.1 == "states")).flatMap fun p => p.2.map stateName
  if states.isEmpty then c.stop ("node '" ++ name ++ "' has no states")
  return (net.addVariable name states.toArray, c)

/-- The entries of a table. -/
def readData (c : Cursor) (tokens : List Token) : Outcome (List Probability) :=
  tokens.mapM fun t =>
    match t with
    | .number x => .ok x
    | t => c.stop ("non-numeric entry " ++ t.describe ++ " in data")

/-- Read a potential after the word that announces it. -/
def readPotential (net : Network) (line : Nat) (c : Cursor) : Outcome (Potential × Cursor) := do
  let (name, c) ← (← c.expectMark '(').identifier
  let child ← match net.find? name with
    | none => c.stop ("unknown node '" ++ name ++ "'")
    | some v => .ok v
  let (parents, c) ←
    if c.sees '|' then c.next >>= fun (_, c) => c.parentsToEnd net
    else (c.expectMark ')').map fun c => ([], c)
  let (properties, c) ← c.properties
  let data ← readData c ((properties.filter (·.1 == "data")).flatMap (·.2))
  return (⟨child, parents, data, line⟩, c)

/-- Read one block. -/
def readBlock (net : Network) (potentials : List Potential) (c : Cursor) :
    Outcome (Network × List Potential × Cursor) := do
  let line := c.line
  let (keyword, c) ← c.identifier
  match keyword with
  | "net" =>
      let (_, c) ← c.properties
      return (net, potentials, c)
  | "discrete" =>
      let (node, c) ← c.identifier
      if node != "node" then
        c.stop ("expected 'node' after 'discrete', found '" ++ node ++ "'")
      let (net, c) ← readNode net c
      return (net, potentials, c)
  | "node" =>
      let (net, c) ← readNode net c
      return (net, potentials, c)
  | "continuous" => c.stop "continuous nodes are not supported"
  | "potential" =>
      let (p, c) ← readPotential net line c
      return (net, potentials ++ [p], c)
  | other => c.stop ("unexpected '" ++ other ++ "'")

/-- Read all blocks. A block is longer than nothing, so the comparison of lengths never fails. -/
def readBlocks (net : Network) (potentials : List Potential) (c : Cursor) :
    Outcome (Network × List Potential) := do
  if c.rest.isEmpty then return (net, potentials)
  let (net, potentials, rest) ← readBlock net potentials c
  if _shorter : rest.rest.length < c.rest.length then readBlocks net potentials rest
  else abort .requirement
termination_by c.rest.length

/-- Give a variable the table of a potential; a wrong length is reported at the potential. -/
def applyPotential (file : String) (net : Network) (p : Potential) : Outcome Network :=
  match net.setPotential p.child p.parents p.data.toArray with
  | .error (.error (.parse _ _ reason)) => fail (.parse file p.line reason)
  | result => result

/-- The network that a text describes; `file` is the name that messages give to the text. -/
def parse (file : String) (text : String) : Outcome Network := do
  match Token.scan text with
  | .error line => fail (.parse file line "unterminated string")
  | .ok lexemes =>
      let lastLine := (lexemes.getLast?.map (·.line)).getD 0
      let (net, potentials) ← readBlocks empty [] ⟨file, lexemes, lastLine⟩
      potentials.foldlM (applyPotential file) net

end Network
end BayesCircuit
