import NestedStyles.Error
import NestedStyles.Session.Expand
import NestedStyles.Sheet.Reader

/-!
Merging sheets into a session. What a sheet imports is merged before the sheet itself, and a name
is merged once. When an import fails, the session keeps what was merged until then.
-/

namespace NestedStyles

/-- Where sheets are found by name. No chain of imports through the sheets found there has more
than `depth` different names. -/
structure Library where
  load : String → Except Error String
  depth : Nat

/-- Sheets given by name and source text, the newest first. -/
abbrev Sources := List (String × String)

def Library.ofSources (sources : Sources) : Library where
  load name :=
    match sources.lookup name with
    | some source => .ok source
    | none => .error (.resolution name .unknownSheet)
  depth := sources.length

namespace Session

def declare (s : Session) (d : Declaration) : Session :=
  if d.isDefault && s.scope.has d.name then s.warn (.redundantVariable d)
  else { s with scope := s.scope.set d.name d.value }

def addTemplate (s : Session) (t : Template) : Session :=
  { s with templates := (t.name, t) :: s.templates }

/-- Adds what a sheet declares, but for its imports. -/
def merge (s : Session) (sheet : Sheet) : Session :=
  let s := sheet.templates.foldl addTemplate s
  let s := sheet.declarations.foldl declare s
  s.expandAll none none sheet.sections

abbrev Outcome := Session × Except Error Unit

def each (step : Session → String → Outcome) (s : Session) : List String → Outcome
  | [] => (s, .ok ())
  | name :: rest =>
    match step s name with
    | (s, .error e) => (s, .error e)
    | (s, .ok ()) => each step s rest

/-- Finds the sheet of a name and hands it to `next`, unless the name was imported before. -/
def importNameWith (lib : Library) (next : Session → Sheet → Outcome) (s : Session)
    (name : String) : Outcome :=
  let file := Text.withEnding name s.suffix
  if file ∈ s.imported then (s.note [.alreadyImported file], .ok ())
  else
    match lib.load file with
    | .error e => (s.note [.unreadable file], .error e)
    | .ok source =>
      match Sheet.parse file source with
      | .error fault => (s, .error (.parse file fault))
      | .ok sheet => next s sheet

/-- Merges a sheet after what it imports, through at most `fuel` sheets one inside the other. -/
def importWithin (lib : Library) : (fuel : Nat) → Session → Sheet → Outcome
  | 0, s, _ => (s, .ok ())
  | fuel + 1, s, sheet =>
    if sheet.name ∈ s.imported then (s.note [.alreadyImported sheet.name], .ok ())
    else
      let s := { s with imported := sheet.name :: s.imported }
      let s := s.note [.importing sheet.name]
      match each (importNameWith lib (importWithin lib fuel)) s sheet.imports with
      | (s, .error e) => (s, .error e)
      | (s, .ok ()) => (s.merge sheet, .ok ())

/-- Merges a sheet and all it imports. Sheets inside each other have different names, so one more
than the depth of the library is enough. -/
def importSheet (lib : Library) (s : Session) (sheet : Sheet) : Outcome :=
  importWithin lib (lib.depth + 1) s sheet

def importName (lib : Library) (s : Session) (name : String) : Outcome :=
  importNameWith lib (importSheet lib) s name

def importSource (lib : Library) (s : Session) (name source : String) : Outcome :=
  match Sheet.parse name source with
  | .error fault => (s, .error (.parse name fault))
  | .ok sheet => s.importSheet lib sheet

end Session

end NestedStyles
