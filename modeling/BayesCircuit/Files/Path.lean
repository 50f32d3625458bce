import BayesCircuit.Text.Blank

/-!
# File names in paths

A path is cut into pieces at its slashes. Empty pieces and single dots say nothing, except a dot
that the path begins with. The last piece that says something is the *name*, unless it is `..`; its
*stem* ends before its last dot, where the *extension* begins. A dot at the start of a name begins
no extension.
-/

namespace BayesCircuit.Path

/-- How many characters at the start of a path anchor it: a slash, or a dot that stands alone. -/
def anchorLength : List Char → Nat
  | '/' :: _ => 1
  | ['.'] => 1
  | '.' :: '/' :: _ => 1
  | _ => 0

/-- The anchor of a path. -/
def anchor (path : String) : String :=
  String.ofList (path.toList.take (anchorLength path.toList))

/-- The pieces of a path after its anchor. -/
def pieces (path : String) : List String :=
  Text.split '/' (String.ofList (path.toList.drop (anchorLength path.toList)))

/-- Whether a piece does not lead anywhere. -/
def isIdle (piece : String) : Bool := piece.isEmpty || piece == "."

/-- Pieces without the idle ones at their end. -/
def dropIdle (ps : List String) : List String := (ps.reverse.dropWhile isIdle).reverse

/-- The name at the end of a path. -/
def name? (path : String) : Option String :=
  match (dropIdle (pieces path)).getLast? with
  | some ".." => none
  | last => last

/-- The stem and the extension of a name. -/
def splitName (name : String) : String × Option String :=
  let reversed := name.toList.reverse
  match reversed.dropWhile (· != '.') with
  | [] | ['.'] => (name, none)
  | _ :: stem =>
      (String.ofList stem.reverse, some (String.ofList (reversed.takeWhile (· != '.')).reverse))

/-- The stem of the name. -/
def stem? (path : String) : Option String := (name? path).map fun n => (splitName n).1

/-- The extension of the name. -/
def extension? (path : String) : Option String := (name? path).bind fun n => (splitName n).2

/-- What stands before the name. -/
def beforeName (path : String) : String :=
  anchor path ++ String.join ((dropIdle (pieces path)).dropLast.map (· ++ "/"))

/-- A path up to the end of its stem. The extension of a name that begins with two dots and has no
others is cut off behind the second dot if the path ends with it. -/
def withoutExtension (path : String) : String :=
  match name? path with
  | none => path
  | some name =>
      let (stem, extension) := splitName name
      let atEnd := !((pieces path).getLast?.any isIdle)
      if extension.isSome && stem == "." && atEnd then beforeName path ++ ".."
      else beforeName path ++ stem

/-- The directory of a path with a name, without idle pieces at its end. -/
def directory (path : String) : String :=
  anchor path ++ Text.join "/" (dropIdle (dropIdle (pieces path)).dropLast)

/-- A name in a directory. -/
def inDirectory (dir name : String) : String :=
  if dir.isEmpty || dir.endsWith "/" then dir ++ name else dir ++ "/" ++ name

/-- A path with another name. -/
def withName (path name : String) : String :=
  inDirectory (if (name? path).isSome then directory path else path) name

/-- A path with a number before the extension. -/
def numbered (path : String) (i : Nat) : String :=
  let numberedStem := (stem? path).getD "" ++ s!".{i}"
  withName path
    (match extension? path with
    | some extension => numberedStem ++ "." ++ extension
    | none => numberedStem)

end BayesCircuit.Path
