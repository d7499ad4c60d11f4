import NestedStyles.CommandLine

/-!
The program. What a request reads is not known before it runs, so it is run again with every file
that turns out to be needed until none is missing.
-/

namespace NestedStyles

def Refusal.ofError : IO.Error → Refusal
  | .noFileOrDirectory .. => .missing
  | .inappropriateType _ code _ => if code = 20 then .notDirectory else .isDirectory
  | _ => .notText

def readFile (path : String) : IO (Except Refusal String) := do
  try return .ok (← IO.FS.readFile path)
  catch e => return .error (.ofError e)

/-- What is known of the files a request needs. -/
abbrev Known := List (String × Except Refusal String)

def Known.disk (known : Known) : Disk where
  read path := (known.lookup path).getD (.error .missing)
  size := known.foldr (fun
    | (_, .ok text), total => text.length + total
    | _, total => total) 0

/-- Runs a request, reading files as they are asked for. -/
partial def settle (r : Request) (known : Known) : IO (Except Error String × List Event) := do
  match r.run known.disk with
  | (.error e, log) =>
    match e.path? with
    | none => return (.error e, log)
    | some path =>
      if (known.lookup path).isSome then return (.error e, log)
      else settle r ((path, ← readFile path) :: known)
  | done => return done

def report (log : List Event) : IO Unit := do
  let limit := limitOf (← IO.getEnv "LOG")
  for event in shown limit log do
    IO.eprintln (event.level.label ++ " " ++ event.logText)

end NestedStyles

open NestedStyles in
def main (arguments : List String) : IO UInt32 := do
  match Request.parse? arguments with
  | none =>
    IO.eprintln "usage: build INPUT [-o FILE] [--minify] [-c FILE] [--base-dir DIR]"
    return 2
  | some r =>
    match ← settle r [] with
    | (.error e, log) =>
      report (log ++ [.failed e.message])
      return 1
    | (.ok css, log) =>
      report log
      match r.output with
      | none =>
        IO.print css
        return 0
      | some path =>
        try
          IO.FS.writeFile path css
          return 0
        catch e =>
          report [.failed (Error.access path (.ofError e)).message]
          return 1
