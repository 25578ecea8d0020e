/-!
# Paths

A path is a text of names with slashes between them. Names that are empty, or that stand for the place
where they are read before anything was entered, say nothing: paths that differ in them alone have
the same names. A name behind another one is kept whatever it is, because it asks for the name before
it to be a directory.
-/

namespace SortedTables

/-- Why an operation on files is refused. -/
inductive IoFault where
  /-- There is no file of that name. -/
  | notFound
  /-- A file stands on a path where a directory has to be. -/
  | notADirectory
  /-- A directory stands where a file has to be. -/
  | isADirectory
  /-- A name or a path is too long. -/
  | invalidName
  /-- A path contains the character with number zero. -/
  | nulCharacter
  /-- The file ends inside the range asked for. -/
  | unexpectedEnd
deriving DecidableEq

/-- The wording of a refusal. -/
def IoFault.message : IoFault → String
  | notFound => "io:NotFound"
  | notADirectory => "io:NotADirectory"
  | isADirectory => "io:IsADirectory"
  | invalidName => "io:InvalidFilename"
  | nulCharacter => "file name contained an unexpected NUL byte"
  | unexpectedEnd => "failed to fill whole buffer"

/-- A path taken apart. -/
structure Path where
  /-- The names on the path. The first one is empty on a path that does not start where it is read. -/
  names : List String
  /-- Whether a slash stands behind the last name, which asks for a directory. -/
  endsWithSlash : Bool
deriving DecidableEq

namespace Path

/-- The longest name, in bytes. -/
def maxNameSize : Nat := 255

/-- The longest path, in bytes. -/
def maxSize : Nat := 4095

/-- What stands between the slashes of a text. -/
def split : List Char → List (List Char)
  | [] => [[]]
  | c :: rest =>
    match c, split rest with
    | '/', pieces => [] :: pieces
    | c, [] => [[c]]
    | c, first :: later => (c :: first) :: later

/-- Whether a piece of a path stays in the place where it is read. -/
def staysHere (piece : List Char) : Bool := piece = [] || piece = ['.']

/-- The pieces of a path that say something. -/
def relevant : List (List Char) → List (List Char)
  | [] :: pieces => [] :: pieces.filter (· ≠ [])
  | pieces => (pieces.dropWhile staysHere).filter (· ≠ [])

/-- Takes a path apart. -/
def parse (path : String) : Except IoFault Path :=
  if '\x00' ∈ path.toList then .error .nulCharacter
  else if maxSize < path.utf8ByteSize then .error .invalidName
  else if path = "" then .error .notFound
  else
    let pieces := split path.toList
    .ok ⟨(relevant pieces).map String.ofList, pieces.getLast? = some []⟩

/-- Whether a name leads to the place where it is read, or to one around it. -/
def leadsAround (name : String) : Bool :=
  ["", ".", ".."].contains name

/-- The names behind those at the start that lead to the place where the path is read, or to one
around it. The first of them is looked up in a directory that there is. -/
def entered (names : List String) : List String :=
  names.dropWhile leadsAround

end Path

end SortedTables
