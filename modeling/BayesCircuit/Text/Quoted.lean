import BayesCircuit.Text.Unprintable

/-!
# Quoted texts

A quoted text stands between double quotes. Backslashes, the surrounding quote and the common
control characters are written as a backslash and a letter, and other characters that would not be
seen are written as their number in hexadecimal digits.
-/

namespace BayesCircuit.Text

/-- A number in lower-case hexadecimal digits. -/
def hexadecimal (n : Nat) : List Char := Nat.toDigits 16 n

/-- A character inside quotes of the given kind. -/
def escape (quote : Char) (c : Char) : List Char :=
  if c == '\x00' then ['\\', '0']
  else if c == '\t' then ['\\', 't']
  else if c == '\r' then ['\\', 'r']
  else if c == '\n' then ['\\', 'n']
  else if c == '\\' || c == quote then ['\\', c]
  else if isUnprintable c then ['\\', 'u', '\x7b'] ++ hexadecimal c.toNat ++ ['\x7d']
  else [c]

/-- The quote around single characters. -/
def singleQuote : Char := Char.ofNat 39

/-- A text between double quotes. -/
def quoted (s : String) : String :=
  String.ofList ('"' :: s.toList.flatMap (escape '"') ++ ['"'])

/-- A character between single quotes. -/
def quotedChar (c : Char) : String :=
  String.ofList (singleQuote :: escape singleQuote c ++ [singleQuote])

end BayesCircuit.Text
