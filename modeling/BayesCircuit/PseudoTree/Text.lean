import BayesCircuit.PseudoTree.Basic
import BayesCircuit.Text.Numeral

/-!
# Pseudo-trees as text

A tree is written as its variable and the trees below it, between parentheses. Only the first line
of a text counts; a blank one stands for the empty tree. Positions in messages count the bytes of
the line without the blanks around it, and a byte is shown as the character of the same number.
-/

namespace BayesCircuit.PseudoTree

open Collection

mutual

/-- The text of a tree. -/
def Node.toText : Node → String
  | .mk v cs => "(" ++ toString v ++ Node.allToText cs ++ ")"

/-- The texts of trees, one after the other. -/
def Node.allToText : List Node → String
  | [] => ""
  | n :: ns => Node.toText n ++ Node.allToText ns

end

/-- The text of a tree. -/
def toText (t : PseudoTree) : String := t.root.toText

/-- What the reader is in the middle of. -/
inductive Mode where
  /-- Between parentheses. -/
  | between
  /-- Behind an opening parenthesis. -/
  | opened
  /-- Inside a number that started at a position; its digits, last first. -/
  | digits (start : Nat) (run : List Char)

/-- A variable whose parenthesis is open and the trees below it so far, last first. -/
structure Frame where
  label : Variable
  below : List Node

/-- The open parentheses, innermost first, or the tree once it is closed. -/
inductive Progress where
  | opening (frames : List Frame)
  | closed (root : Node)

/-- Close the innermost parenthesis. -/
def Progress.close (f : Frame) : List Frame → Progress
  | [] => .closed (.mk f.label f.below.reverse)
  | g :: rest => .opening ({ g with below := .mk f.label f.below.reverse :: g.below } :: rest)

/-- Open the parenthesis of the variable with the given digits. -/
def openFrame (file : String) (start : Nat) (run : List Char) (frames : List Frame) :
    Outcome (List Frame) :=
  let v := Text.digitsValue run.reverse
  if v < Nat.pow 2 32 then .ok (⟨v, []⟩ :: frames)
  else fail (.parse file 1 s!"variable out of range at position {start}")

/-- A byte as a character. -/
def byteChar (b : UInt8) : Char := Char.ofNat b.toNat

/-- Read a byte between parentheses; `left` counts the bytes from this one on. -/
def readBetween (file : String) (position left : Nat) (c : Char) :
    Progress → Outcome (Mode × Progress)
  | .closed _ => fail (.parse file 1 s!"{left} characters left after the pseudo-tree")
  | .opening frames =>
      if c == '(' then .ok (.opened, .opening frames)
      else
        match c, frames with
        | ')', f :: rest => .ok (.between, Progress.close f rest)
        | c, _ => fail (.parse file 1
            ("unexpected '" ++ c.toString ++ s!"' at position {position}"))

/-- Read a byte. -/
def readByte (file : String) (position left : Nat) (c : Char) :
    Mode → Progress → Outcome (Mode × Progress)
  | .between, p => readBetween file position left c p
  | .opened, p =>
      if Text.isDigit c then .ok (.digits position [c], p)
      else fail (.parse file 1
        ("read '" ++ c.toString ++ s!"' at position {position}, expected a number"))
  | .digits start run, p => do
      if Text.isDigit c then return (.digits start (c :: run), p)
      match p with
      | .closed root => readBetween file position left c (.closed root)
      | .opening frames => do
          let frames ← openFrame file start run frames
          readBetween file position left c (.opening frames)

/-- Fail for want of closing parentheses. -/
def missing {α : Type} (file : String) (n : Nat) : Outcome α :=
  fail (.parse file 1 s!"{max n 1} missing closing brackets")

/-- Read the bytes from a position on. -/
def readFrom (file : String) (position : Nat) (mode : Mode) (p : Progress) :
    List UInt8 → Outcome Node
  | [] =>
      match mode, p with
      | .between, .closed root => .ok root
      | .between, .opening [] => .ok (.mk joiner [])
      | .digits start run, .opening frames => do
          let frames ← openFrame file start run frames
          missing file frames.length
      | _, .opening frames => missing file frames.length
      | _, .closed _ => missing file 0
  | b :: bs => do
      let (mode, p) ← readByte file position (bs.length + 1) (byteChar b) mode p
      readFrom file (position + 1) mode p bs

/-- The tree that a text spells. -/
def parse (file text : String) : Outcome PseudoTree := do
  let line := Text.trim ((Text.lines text).headD "")
  let root ← readFrom file 0 .between (.opening []) line.toUTF8.toList
  return ofRoot root [] 0

end BayesCircuit.PseudoTree
