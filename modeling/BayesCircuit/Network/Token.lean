import BayesCircuit.Decimal.Layout
import BayesCircuit.Decimal.Reader
import BayesCircuit.Failure
import BayesCircuit.Text.Blank
import BayesCircuit.Text.Quoted

/-!
# Tokens of network files

A network file consists of punctuation marks, quoted strings and words. A word that starts like a
number and spells one is a number; any other word is an identifier. A percent sign starts a
comment that lasts to the end of its line.
-/

namespace BayesCircuit.Network

/-- The tokens of a network file. -/
inductive Token where
  | identifier (name : String)
  | text (value : String)
  | number (value : Decimal.Double)
  | mark (c : Char)

/-- A token and the line on which it ends. -/
structure Lexeme where
  token : Token
  line : Nat

namespace Token

/-- How a message shows a token. -/
def describe : Token → String
  | identifier name => "Ident(" ++ Text.quoted name ++ ")"
  | text value => "Str(" ++ Text.quoted value ++ ")"
  | number value => "Number(" ++ value.source ++ ")"
  | mark c => "Punct(" ++ Text.quotedChar c ++ ")"

/-- Whether a token is a given punctuation mark. -/
def isMark (c : Char) : Token → Bool
  | mark d => d == c
  | _ => false

/-- The punctuation marks. -/
def marks : List Char := ['(', ')', '\x7b', '\x7d', '=', ';', '|']

/-- Characters that end a word. -/
def endsWord (c : Char) : Bool :=
  Text.isBlank c || marks.contains c || c == '"' || c == '%'

/-- Whether a word that starts with this character can be a number. -/
def startsNumber (c : Char) : Bool :=
  Text.isDigit c || c == '.' || c == '-' || c == '+'

/-- The token of a word. -/
def ofWord (cs : List Char) : Token :=
  let word := String.ofList cs
  match cs.head?.filter startsNumber, Decimal.read? word with
  | some _, some x => number x
  | _, _ => identifier word

/-- What the characters read last belong to; words and strings are kept last character first. -/
inductive Mode where
  | between
  | comment
  | string (run : List Char)
  | word (run : List Char)

/-- What follows a character between tokens: the mode, the line and the token it makes. -/
def startAt (line : Nat) (c : Char) : Mode × Nat × List Lexeme :=
  if c == '\n' then (.between, line + 1, [])
  else if Text.isBlank c then (.between, line, [])
  else if c == '%' then (.comment, line, [])
  else if c == '"' then (.string [], line, [])
  else if marks.contains c then (.between, line, [⟨.mark c, line⟩])
  else (.word [c], line, [])

/-- What follows a character: the mode, the line and the tokens it completes. -/
def advance (mode : Mode) (line : Nat) (c : Char) : Mode × Nat × List Lexeme :=
  match mode with
  | .between => startAt line c
  | .comment => if c == '\n' then (.between, line + 1, []) else (.comment, line, [])
  | .string run =>
      if c == '"' then (.between, line, [⟨.text (String.ofList run.reverse), line⟩])
      else (.string (c :: run), if c == '\n' then line + 1 else line, [])
  | .word run =>
      if endsWord c then
        let (mode, next, started) := startAt line c
        (mode, next, ⟨ofWord run.reverse, line⟩ :: started)
      else (.word (c :: run), line, [])

/-- The tokens of the rest of a text, or the line on which it ends inside a string. -/
def scanFrom (mode : Mode) (line : Nat) : List Char → Except Nat (List Lexeme)
  | [] =>
      match mode with
      | .between | .comment => .ok []
      | .string _ => .error line
      | .word run => .ok [⟨ofWord run.reverse, line⟩]
  | c :: cs =>
      let (mode, line, done) := advance mode line c
      (scanFrom mode line cs).map (done ++ ·)

/-- The tokens of a text, or the line on which it ends inside a string. -/
def scan (text : String) : Except Nat (List Lexeme) := scanFrom .between 1 text.toList

end Token
end BayesCircuit.Network
