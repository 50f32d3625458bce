/-!
# Blank characters, words and lines

Texts are cut at characters with the Unicode property `White_Space`, which is more than the
blanks of ASCII.

* `trim` drops blanks at both ends.
* `words` cuts a text into its maximal runs of other characters.
* `lines` cuts a text after each line feed; a carriage return before the line feed belongs to
  the line end.
-/

namespace BayesCircuit.Text

/-- Characters with the Unicode property `White_Space`. -/
def isBlank (c : Char) : Bool :=
  let n := c.toNat
  (9 ≤ n && n ≤ 13) || n == 0x20 || n == 0x85 || n == 0xA0 || n == 0x1680 ||
    (0x2000 ≤ n && n ≤ 0x200A) || n == 0x2028 || n == 0x2029 || n == 0x202F || n == 0x205F ||
    n == 0x3000

/-- A list of characters without the blanks at its end. -/
def trimEndChars (cs : List Char) : List Char :=
  (cs.reverse.dropWhile isBlank).reverse

/-- A list of characters without the blanks at both ends. -/
def trimChars (cs : List Char) : List Char :=
  trimEndChars (cs.dropWhile isBlank)

/-- A text without the blanks at both ends. -/
def trim (s : String) : String :=
  String.ofList (trimChars s.toList)

/-- A text without the blanks at its end. -/
def trimEnd (s : String) : String :=
  String.ofList (trimEndChars s.toList)

/-- The maximal runs of characters that are not blank; `run` holds the run that is being read,
last character first. -/
def wordsFrom : List Char → List Char → List String
  | run, [] => if run.isEmpty then [] else [String.ofList run.reverse]
  | run, c :: cs =>
      if isBlank c then
        if run.isEmpty then wordsFrom [] cs
        else String.ofList run.reverse :: wordsFrom [] cs
      else wordsFrom (c :: run) cs

/-- The words of a text, in order. -/
def words (s : String) : List String :=
  wordsFrom [] s.toList

/-- A line that ended in a line feed, last character first, without its carriage return. -/
def dropReturn : List Char → List Char
  | '\r' :: cs => cs
  | cs => cs

/-- The lines of a list of characters; `run` holds the line being read, last character first. -/
def linesFrom : List Char → List Char → List String
  | run, [] => if run.isEmpty then [] else [String.ofList run.reverse]
  | run, c :: cs =>
      if c == '\n' then String.ofList (dropReturn run).reverse :: linesFrom [] cs
      else linesFrom (c :: run) cs

/-- The lines of a text. Nothing after the last line feed is no line. -/
def lines (s : String) : List String :=
  linesFrom [] s.toList

/-- The pieces between the occurrences of a character, of which there is at least one. -/
def splitChars (sep : Char) : List Char → List (List Char)
  | [] => [[]]
  | c :: cs =>
      if c == sep then [] :: splitChars sep cs
      else
        match splitChars sep cs with
        | [] => [[c]]
        | piece :: rest => (c :: piece) :: rest

/-- The pieces of a text between the occurrences of a character. -/
def split (sep : Char) (s : String) : List String :=
  (splitChars sep s.toList).map String.ofList

/-- The text before and the text after the first occurrence of a character. -/
def splitOnce? (sep : Char) (s : String) : Option (String × String) :=
  let cs := s.toList
  match cs.dropWhile (· != sep) with
  | [] => none
  | _ :: rest => some (String.ofList (cs.takeWhile (· != sep)), String.ofList rest)

/-- Texts with a separator between neighbours. -/
def join (sep : String) : List String → String
  | [] => ""
  | [s] => s
  | s :: rest => s ++ sep ++ join sep rest

end BayesCircuit.Text
