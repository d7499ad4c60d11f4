import NestedStyles.Sheet
import NestedStyles.Text.Controls

/-!
What happens during a run besides its result. Warnings tell of contributions that were left out;
the other events only matter to whoever follows the run.
-/

namespace NestedStyles

inductive Level
  | error
  | warn
  | info
  | debug
  | trace
  deriving DecidableEq, Repr

namespace Level

def rank : Level → Nat
  | error => 1
  | warn => 2
  | info => 3
  | debug => 4
  | trace => 5

def label : Level → String
  | error => "ERROR"
  | warn => "WARN"
  | info => "INFO"
  | debug => "DEBUG"
  | trace => "TRACE"

end Level

inductive Warning
  | redundantVariable (declaration : Declaration)
  | unknownTarget (target : String) (selectors : List Selector)
  | unknownTemplate (name : String) (selectors : List Selector)
  | argumentCount (name : String) (selectors : List Selector) (found expected : Nat)
  | mediaAttributes (query : String)
  | selfReference (name : String)
  deriving DecidableEq, Repr

def Warning.message : Warning → String
  | redundantVariable d => "will skip redundant variable definition: '" ++ d.text ++ "'"
  | unknownTarget target selectors =>
    "Skipping unknown @extend '" ++ target ++ "' referenced by selector '" ++
      Selector.listText selectors ++ "'"
  | unknownTemplate name selectors =>
    "Skipping unknown @func '" ++ name ++ "' referenced by selector '" ++
      Selector.listText selectors ++ "'"
  | argumentCount name selectors found expected =>
    "@func call '" ++ name ++ "' by selector '" ++ Selector.listText selectors ++
      "' does not match expected number of parameters. Found: " ++ found.repr ++
      ", expected: " ++ expected.repr
  | mediaAttributes query => "Cannot define attributes in @media selector '" ++ query ++ "'"
  | selfReference name => "Cannot resolve self-referencing variable '$" ++ name ++ "'"

def warningLine (message : String) : String := "warning: " ++ message

inductive Event
  | warning (warning : Warning)
  | undefinedVariable (name : String)
  | importing (sheet : String)
  | alreadyImported (sheet : String)
  | unreadable (file : String)
  | pruned (selectors : List Selector)
  | compiled (input : String) (rules warnings : Nat)
  | failed (message : String)
  deriving DecidableEq, Repr

namespace Event

def level : Event → Level
  | warning _ => .warn
  | undefinedVariable _ | importing _ | alreadyImported _ => .debug
  | unreadable _ | failed _ => .error
  | pruned _ => .trace
  | compiled .. => .info

def message : Event → String
  | warning w => w.message
  | undefinedVariable name => "undefined variable $" ++ name
  | importing sheet => "importing " ++ sheet
  | alreadyImported sheet => sheet ++ " already imported"
  | unreadable file => "Cannot read file " ++ file
  | pruned selectors => "pruning empty rule '" ++ Selector.listText selectors ++ "'"
  | compiled input rules warnings =>
    "compiled " ++ input ++ " into " ++ rules.repr ++ " rules with " ++ warnings.repr ++ " warnings"
  | failed message => message

def logText (e : Event) : String := Text.spellControls e.message

def warning? : Event → Option Warning
  | warning w => some w
  | _ => none

end Event

end NestedStyles
