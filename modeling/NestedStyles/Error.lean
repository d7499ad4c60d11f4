import NestedStyles.Fault

/-!
Failures that end a run.
-/

namespace NestedStyles

inductive Refusal
  | unknownSheet
  | missing
  | isDirectory
  | notDirectory
  | notText
  deriving DecidableEq, Repr

def Refusal.text : Refusal → String
  | unknownSheet => "no such stylesheet"
  | missing => "No such file or directory (os error 2)"
  | isDirectory => "Is a directory (os error 21)"
  | notDirectory => "Not a directory (os error 20)"
  | notText => "stream did not contain valid UTF-8"

inductive Error
  /-- A sheet could not be read. -/
  | resolution (name : String) (reason : Refusal)
  | parse (sheet : String) (fault : Fault)
  /-- A file that is no sheet could not be read or written. -/
  | access (path : String) (reason : Refusal)
  | settings (path : String)
  deriving DecidableEq, Repr

namespace Error

def message : Error → String
  | resolution name reason => "Cannot read file " ++ name ++ ": " ++ reason.text
  | parse sheet fault => located sheet fault.span fault.problem.message
  | access path reason => "Failed to access " ++ path ++ ": " ++ reason.text
  | settings path => "Invalid configuration in " ++ path

def path? : Error → Option String
  | resolution name _ => some name
  | access path _ => some path
  | parse .. | settings _ => none

end Error

end NestedStyles
