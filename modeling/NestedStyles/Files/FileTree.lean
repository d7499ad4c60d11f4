import NestedStyles.Error
import NestedStyles.Files.Path

/-!
The files of a system, and the directory in it that relative paths start at. There are no links, so
`..` leads to the directory that holds the one it follows, and from the root to the root.
-/

namespace NestedStyles

inductive Entry
  | directory
  | text (content : String)
  /-- A file whose content is no text. -/
  | binary
  deriving DecidableEq, Repr

def Entry.ofBytes (bytes : ByteArray) : Entry :=
  match String.fromUTF8? bytes with
  | some content => .text content
  | none => .binary

/-- Entries by the names that lead to them from the root. A directory is there with everything in
it, and so is the directory `here` that relative paths start at. -/
structure FileTree where
  entries : List (List String × Entry) := []
  here : List String := []
  deriving DecidableEq, Repr

namespace FileTree

def start (here : List String) (path : String) : List String :=
  if Path.isAbsolute path then [] else here

/-- The tree of files given by their paths from a directory. A path that ends with a slash names a
directory. -/
def inDirectory (here : List String) (files : List (String × Entry)) : FileTree where
  entries := files.map fun (path, entry) =>
    let pieces := Path.pieces path
    (start here path ++ pieces.filter (!Path.isVoid ·),
      if pieces.getLast? = some "" then .directory else entry)
  here := here

/-- The files of a working directory that is alone in the root. -/
def ofFiles (files : List (String × Entry)) : FileTree := inDirectory ["work"] files

def entry? (t : FileTree) (names : List String) : Option Entry :=
  match t.entries.find? fun (place, _) => place = names with
  | some (_, entry) => some entry
  | none =>
    if names.isPrefixOf t.here || t.entries.any fun (place, _) => names.isPrefixOf place then
      some .directory
    else none

def walk (t : FileTree) (place : List String) :
    List String → Except Refusal (List String × Entry)
  | [] => .ok (place, .directory)
  | piece :: rest =>
    if Path.isVoid piece then t.walk place rest
    else if piece = ".." then t.walk place.dropLast rest
    else
      match t.entry? (place ++ [piece]) with
      | none => .error .missing
      | some .directory => t.walk (place ++ [piece]) rest
      | some entry => if rest.isEmpty then .ok (place ++ [piece], entry) else .error .notDirectory

def read (t : FileTree) (path : String) : Except Refusal String :=
  if path = "" then .error .missing
  else
    match t.walk (start t.here path) (Path.pieces path) with
    | .error reason => .error reason
    | .ok (_, .directory) => .error .isDirectory
    | .ok (_, .binary) => .error .notText
    | .ok (_, .text content) => .ok content

/-- The place a file of that path is written to. The directory must be there, and the path must not
name a directory. -/
def target (t : FileTree) (path : String) : Except Refusal (List String) :=
  if path = "" then .error .missing
  else
    let pieces := Path.pieces path
    let body := (pieces.reverse.dropWhile (· = "")).reverse
    match body.getLast? with
    | none => .error .isDirectory
    | some name =>
      match t.walk (start t.here path) body.dropLast with
      | .error reason => .error reason
      | .ok (place, .directory) =>
        if body.length < pieces.length || name = "." || name = ".." then .error .isDirectory
        else if t.entry? (place ++ [name]) = some .directory then .error .isDirectory
        else .ok (place ++ [name])
      | .ok _ => .error .notDirectory

/-- The file below `here` that writing a text to a place adds or changes. -/
def change? (t : FileTree) (place : List String) (content : String) : Option (String × String) :=
  if t.here.isPrefixOf place && t.entry? place ≠ some (.text content) then
    some ("/".intercalate (place.drop t.here.length), content)
  else none

/-- How many characters the texts have. No more names can be written in them. -/
def size (t : FileTree) : Nat :=
  t.entries.foldr (fun
    | (_, .text content), total => content.length + total
    | _, total => total) 0

end FileTree

structure Disk where
  read : String → Except Refusal String
  size : Nat

def FileTree.disk (t : FileTree) : Disk := ⟨t.read, t.size⟩

end NestedStyles
