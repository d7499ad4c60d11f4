import NestedStyles.Expr.Eval
import NestedStyles.RuleTable

/-!
The state of a compilation. Sheets are merged into a session one after the other; what they
declare is visible in all of them.
-/

namespace NestedStyles

def defaultSuffix : String := ".bss"

structure Session where
  calls : Evaluator := Evaluator.written
  suffix : String := defaultSuffix
  /-- Names of the sheets that were merged or whose imports are being merged. -/
  imported : List String := []
  /-- Templates by name, the newest first. -/
  templates : List (String × Template) := []
  scope : Scope := {}
  table : RuleTable := .empty
  /-- The rules outside every container, in the order they were found. -/
  top : List Nat := []
  /-- The rules that extensions can name, the newest first. -/
  targets : List (String × Nat) := []
  /-- The container of every media path, in the order they were made. -/
  containers : List (String × Nat) := []
  log : List Event := []

namespace Session

def note (s : Session) (events : List Event) : Session := { s with log := s.log ++ events }

def warn (s : Session) (warning : Warning) : Session := s.note [.warning warning]

def eval (s : Session) (scope : Scope) (e : Expr) : Expr × Session :=
  match e.eval s.calls scope with
  | (value, events) => (value, s.note events)

def evalAttributes (s : Session) (scope : Scope) : List Attribute → List Attribute × Session
  | [] => ([], s)
  | a :: rest =>
    match s.eval scope a.value with
    | (value, s) =>
      match s.evalAttributes scope rest with
      | (rest, s) => (⟨a.name, value⟩ :: rest, s)

/-- Adds a rule to the container of a media path, which is made when it is first needed, or
outside the containers. -/
def place (s : Session) (path : Option String) (rule : Rule) : Session :=
  match path with
  | none => { s with table := s.table.push rule, top := s.top ++ [s.table.size] }
  | some path =>
    match s.containers.lookup path with
    | some container => { s with table := s.table.pushInto container rule }
    | none =>
      { s with
        table := (s.table.push { selectors := [[path]] }).pushInto s.table.size rule
        containers := s.containers ++ [(path, s.table.size)] }

/-- The rules that stand in no other: the containers, then the others. -/
def roots (s : Session) : List Nat := s.containers.map (·.2) ++ s.top

end Session

end NestedStyles
