import NestedStyles.Text

/-!
Paths as text. Components are separated by slashes; empty ones and `.` at the end of a path do not
count, and a path that starts with a slash is absolute.
-/

namespace NestedStyles.Path

def isAbsolute (path : String) : Bool := path.toList.head? == some '/'

def pieces (path : String) : List String := (Text.splitAt '/' path.toList).map String.ofList

def join (base name : String) : String :=
  if isAbsolute name || base = "" then name
  else if base.toList.getLast? = some '/' then base ++ name
  else base ++ "/" ++ name

/-- A path split before its components: a root, a leading `.`, or nothing. -/
def splitAnchor (path : String) : String × List String :=
  match pieces path with
  | "" :: second :: rest => ("/", second :: rest)
  | "." :: rest => (".", if rest.isEmpty then [] else "" :: rest)
  | all => ("", all)

def isVoid (piece : String) : Bool := piece = "" || piece = "."

def trimEnd (pieces : List String) : List String := (pieces.reverse.dropWhile isVoid).reverse

/-- The last component, unless the path has none or it is `.` or `..`. -/
def fileName? (path : String) : Option String :=
  match (trimEnd (splitAnchor path).2).getLast? with
  | none => none
  | some last => if last = ".." then none else some last

/-- The path without its last component, empty if there is none. -/
def parent (path : String) : String :=
  match splitAnchor path with
  | (anchor, pieces) =>
    match trimEnd pieces with
    | [] => ""
    | trimmed => anchor ++ "/".intercalate (trimEnd trimmed.dropLast)

end NestedStyles.Path
