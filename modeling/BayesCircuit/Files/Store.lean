import BayesCircuit.Files.Path

/-!
# Files

Programs use files, the console and the clock (`Interaction`), and can be carried out on files in
memory (`Store`).

## Files in memory

A store holds files by their *places*. The place of a file is the list of the directories that lead
to it from the working directory, and its name. A directory exists if a file lies below it, and
files can only be made in directories that exist. The directories above the working directory exist
as well; their places consist of `..` alone, and the place of the uppermost one is a slash. What else
lies outside the working directory is not known. Operations fail with the reason that the operating
system gives.
-/

namespace BayesCircuit

/-- Texts by their places. -/
structure Store where
  files : List (List String × String)

namespace Store

/-! ## Reasons -/

/-- The reason for a path that leads nowhere. -/
def notFound : String := "No such file or directory (os error 2)"

/-- The reason for a file that is used as a directory. -/
def notDirectory : String := "Not a directory (os error 20)"

/-- The reason for a directory that is used as a file. -/
def isDirectory : String := "Is a directory (os error 21)"

/-- The reason for a path or a name that is too long. -/
def tooLong : String := "File name too long (os error 36)"

/-- The reason for a path with the character that ends paths. -/
def hasNul : String := "file name contained an unexpected NUL byte"

/-- The most bytes of a name. -/
def maxNameSize : Nat := 255

/-- The most bytes of a path. -/
def maxPathSize : Nat := 4095

/-! ## Places -/

/-- The place of the uppermost directory. -/
def top : List String := ["/"]

/-- Whether a place is the working directory or above it. -/
def isAbove (place : List String) : Bool := place == top || place.all (· == "..")

/-- Where a path starts. -/
def origin (path : String) : List String := if path.startsWith "/" then top else []

/-- The place that a piece of a path leads to from a directory. -/
def enter (place : List String) (piece : String) : List String :=
  if Path.isIdle piece then place
  else if piece != ".." then place ++ [piece]
  else if place == top then top
  else if isAbove place then ".." :: place
  else place.dropLast

/-- The text at a place. -/
def text? (s : Store) (place : List String) : Option String := s.files.lookup place

/-- Whether there is a directory at a place. -/
def hasDirectory (s : Store) (place : List String) : Bool :=
  isAbove place || s.files.any fun (p, _) => place.isPrefixOf p && place != p

/-- Fail unless there is a directory at a place. -/
def checkDirectory (s : Store) (place : List String) : Except String Unit :=
  if s.hasDirectory place then .ok ()
  else .error (if (s.text? place).isSome then notDirectory else notFound)

/-- The place that a piece leads to, which has to be taken in a directory. -/
def step (s : Store) (place : List String) (piece : String) : Except String (List String) := do
  s.checkDirectory place
  if maxNameSize < piece.utf8ByteSize then throw tooLong
  return enter place piece

/-- Fail if a path cannot be looked up at all. -/
def checkPath (path : String) : Except String Unit :=
  if path.contains '\x00' then .error hasNul
  else if path.isEmpty then .error notFound
  else if maxPathSize < path.utf8ByteSize then .error tooLong
  else .ok ()

/-! ## Reading and writing -/

/-- The text of a file. -/
def read (s : Store) (path : String) : Except String String := do
  checkPath path
  let place ← (Text.split '/' path).foldlM s.step (origin path)
  match s.text? place with
  | some text => return text
  | none => throw (if s.hasDirectory place then isDirectory else notFound)

/-- Replace or add a text. -/
def put (text : String) (place : List String) :
    List (List String × String) → List (List String × String)
  | [] => [(place, text)]
  | (p, t) :: rest => if p == place then (p, text) :: rest else (p, t) :: put text place rest

/-- A path without slashes at its end. -/
def dropSlashes (path : String) : String :=
  String.ofList (path.toList.reverse.dropWhile (· == '/')).reverse

/-- Make or replace a file. A path with a slash at its end names a directory. -/
def write (s : Store) (path text : String) : Except String Store := do
  checkPath path
  let pieces := Text.split '/' (dropSlashes path)
  let directory ← pieces.dropLast.foldlM s.step (origin path)
  s.checkDirectory directory
  if path.endsWith "/" then throw isDirectory
  let place ← s.step directory (pieces.getLastD "")
  if s.hasDirectory place then throw isDirectory
  return ⟨put text place s.files⟩

/-- The store of texts with the given paths. -/
def ofList (files : List (String × String)) : Store :=
  ⟨files.foldl (fun fs (path, text) =>
    put text ((Text.split '/' path).foldl enter (origin path)) fs) []⟩

/-- The files in the working directory and below it, with their paths. -/
def toList (s : Store) : List (String × String) :=
  (s.files.filter fun (place, _) => !isAbove (place.take 1)).map
    fun (place, text) => (Text.join "/" place, text)

end Store
end BayesCircuit

/-!
## Programs that use files

An interaction reads and writes files, prints lines and looks at the clock, and every answer that it
gets decides how it goes on. `inStore` carries out an interaction on files in memory, where no time
passes.
-/

namespace BayesCircuit

/-- A program with a result. Files that cannot be read or written have a reason. -/
inductive Interaction (α : Type) where
  | done (result : α)
  | read (path : String) (next : Except String String → Interaction α)
  | write (path text : String) (next : Except String Unit → Interaction α)
  /-- Print a text and a line end. -/
  | print (text : String) (next : Interaction α)
  /-- Print a text and a line end where errors are printed. -/
  | complain (text : String) (next : Interaction α)
  /-- Read the clock, in nanoseconds. -/
  | clock (next : Nat → Interaction α)

namespace Interaction

variable {α β : Type}

/-- Go on with the result. -/
def bind : Interaction α → (α → Interaction β) → Interaction β
  | done a, f => f a
  | read path next, f => read path fun r => bind (next r) f
  | write path text next, f => write path text fun r => bind (next r) f
  | print text next, f => print text (bind next f)
  | complain text next, f => complain text (bind next f)
  | clock next, f => clock fun t => bind (next t) f

instance : Monad Interaction where
  pure := done
  bind := bind

/-- Read a file. -/
def readFile (path : String) : Interaction (Except String String) := read path done

/-- Write a file. -/
def writeFile (path text : String) : Interaction (Except String Unit) := write path text done

def printLine (text : String) : Interaction Unit := print text (done ())

def complainLine (text : String) : Interaction Unit := complain text (done ())

def now : Interaction Nat := clock done

/-- What an interaction leaves behind: its result, the files and what was printed. -/
structure Trace (α : Type) where
  result : α
  store : Store
  printed : List String

/-- Carry out an interaction on files in memory. -/
def inStore : Interaction α → Store → Trace α
  | done a, s => ⟨a, s, []⟩
  | read path next, s => inStore (next (s.read path)) s
  | write path text next, s =>
      match s.write path text with
      | .ok s => inStore (next (.ok ())) s
      | .error reason => inStore (next (.error reason)) s
  | print text next, s =>
      let t := inStore next s
      { t with printed := text :: t.printed }
  | complain _ next, s => inStore next s
  | clock next, s => inStore (next 0) s

end Interaction
end BayesCircuit
