import NestedStyles.Build
import NestedStyles.Printer

/-!
The command line: its arguments, and what running them gives.
-/

namespace NestedStyles

structure Request where
  input : String
  output : Option String := none
  minify : Bool := false
  config : Option String := none
  baseDir : Option String := none
  deriving DecidableEq, Repr

namespace Request

inductive ValueOption
  | output
  | config
  | baseDir
  deriving DecidableEq, Repr

inductive Argument
  | positional (text : String)
  | minify
  | option (name : ValueOption) (value : String)
  deriving DecidableEq, Repr

def splitEquals (cs : List Char) : List Char × Option (List Char) :=
  match cs.dropWhile (· ≠ '=') with
  | [] => (cs, none)
  | _ :: value => (cs.takeWhile (· ≠ '='), some value)

def longOption? (name : List Char) : Option ValueOption :=
  if name = "output".toList then some .output
  else if name = "config".toList then some .config
  else if name = "base-dir".toList then some .baseDir
  else none

def shortOption? : Char → Option ValueOption
  | 'o' => some .output
  | 'c' => some .config
  | _ => none

/-- An argument of its own as a value: it must not look like an option. -/
def valueText? (text : String) : Option String :=
  match text.toList with
  | '-' :: _ :: _ => none
  | _ => some text

/-- The value written in the same argument as a short option, after `=` or directly. -/
def attached (cs : List Char) : String :=
  match cs with
  | '=' :: value => String.ofList value
  | value => String.ofList value

/-- Splits arguments into options and others. After `--` there are no options. -/
def scan : List String → Option (List Argument)
  | [] => some []
  | text :: rest =>
    match text.toList with
    | ['-', '-'] => some (rest.map .positional)
    | '-' :: '-' :: body =>
      match splitEquals body with
      | (name, value) =>
        if name = "minify".toList then
          if value.isSome then none else (scan rest).map (.minify :: ·)
        else
          match longOption? name, value, rest with
          | none, _, _ => none
          | some option, some value, rest =>
            (scan rest).map (.option option (String.ofList value) :: ·)
          | some _, none, [] => none
          | some option, none, next :: rest => do
            let value ← valueText? next
            let arguments ← scan rest
            some (.option option value :: arguments)
    | '-' :: letter :: body =>
      match shortOption? letter, body, rest with
      | none, _, _ => none
      | some _, [], [] => none
      | some option, [], next :: rest => do
        let value ← valueText? next
        let arguments ← scan rest
        some (.option option value :: arguments)
      | some option, body, rest => (scan rest).map (.option option (attached body) :: ·)
    | _ => (scan rest).map (.positional text :: ·)

/-- The only one of some values, if there are not two of them. A path must not be empty. -/
def atMostOne : List String → Option (Option String)
  | [] => some none
  | [value] => if value = "" then none else some (some value)
  | _ => none

def valuesOf (name : ValueOption) (arguments : List Argument) : List String :=
  arguments.filterMap fun
    | .option other value => if other = name then some value else none
    | _ => none

def positionals (arguments : List Argument) : List String :=
  arguments.filterMap fun
    | .positional text => some text
    | _ => none

def ofArguments (arguments : List Argument) : Option Request := do
  let input ← (← atMostOne (positionals arguments))
  let output ← atMostOne (valuesOf .output arguments)
  let config ← atMostOne (valuesOf .config arguments)
  let baseDir ← atMostOne (valuesOf .baseDir arguments)
  if 1 < arguments.count .minify then none
  else some ⟨input, output, arguments.contains .minify, config, baseDir⟩

/-- The request of a whole command line. `build` is the only command. -/
def parse? : List String → Option Request
  | "build" :: rest => (scan rest).bind ofArguments
  | _ => none

/-- What a request says itself goes before what its configuration says. -/
def adjust (r : Request) (s : Settings) : Settings :=
  { s with minify := s.minify || r.minify, baseDir := r.baseDir <|> s.baseDir }

def settings (disk : Disk) (r : Request) : Except Error Settings :=
  match r.config with
  | none => .ok (r.adjust {})
  | some path => (disk.settings path).map r.adjust

def run (disk : Disk) (r : Request) : Except Error String × List Event :=
  match r.settings disk with
  | .error e => (.error e, [])
  | .ok settings =>
    match compileFile disk settings r.input with
    | .error (e, log) => (.error e, log)
    | .ok compilation =>
      let event := .compiled r.input compilation.rules.length compilation.warnings.length
      (.ok (compilation.css settings.minify), compilation.log ++ [event])

end Request

structure Report where
  exit : Nat
  stdout : String := ""
  log : List Event := []
  /-- The file that was added or changed. -/
  written : Option (String × String) := none
  deriving DecidableEq, Repr

/-- Runs a command line in a directory. Without a request there is a usage error. -/
def FileTree.execute (t : FileTree) (arguments : List String) : Option Report :=
  match Request.parse? arguments with
  | none => none
  | some r =>
    match r.run t.disk with
    | (.error e, log) => some { exit := 1, log := log ++ [.failed e.message] }
    | (.ok css, log) =>
      match r.output with
      | none => some { exit := 0, stdout := css, log := log }
      | some path =>
        match t.target path with
        | .error reason =>
          some { exit := 1, log := log ++ [.failed (Error.access path reason).message] }
        | .ok place => some { exit := 0, log := log, written := t.change? place css }

def shown (limit : Option Level) (log : List Event) : List Event :=
  match limit with
  | none => []
  | some level => log.filter fun e => e.level.rank ≤ level.rank

def limit? : String → Option (Option Level)
  | "off" => some none
  | "error" => some (some .error)
  | "warn" => some (some .warn)
  | "info" => some (some .info)
  | "debug" => some (some .debug)
  | "trace" => some (some .trace)
  | _ => none

/-- The limit that a setting asks for: warnings and errors, if it asks for nothing known. -/
def limitOf (setting : Option String) : Option Level :=
  (setting.bind limit?).getD (some .warn)

end NestedStyles
