import NestedStyles.Files.FileTree
import NestedStyles.Session.Compile
import NestedStyles.Session.Import
import NestedStyles.Settings

/-!
Compiling one sheet with all it imports.
-/

namespace NestedStyles

def Disk.library (disk : Disk) (base : String) : Library where
  load name :=
    let path := Path.join base name
    match disk.read path with
    | .ok source => .ok source
    | .error reason => .error (.resolution path reason)
  depth := disk.size

def Disk.settings (disk : Disk) (path : String) : Except Error Settings :=
  match disk.read path with
  | .error reason => .error (.access path reason)
  | .ok text =>
    match Settings.parse? text with
    | none => .error (.settings path)
    | some settings => .ok settings

def compileAfter : Session.Outcome → Except (Error × List Event) Compilation
  | (s, .error e) => .error (e, s.log)
  | (s, .ok ()) => .ok s.compile

def compileSource (lib : Library) (name source : String) :
    Except (Error × List Event) Compilation :=
  compileAfter (({} : Session).importSource lib name source)

/-- Compiles the sheet that a path names. Its file name is resolved as an import is, in the
directory of the settings or else in the one of the path. -/
def compileFile (disk : Disk) (settings : Settings) (path : String) :
    Except (Error × List Event) Compilation :=
  let base := settings.baseDir.getD (Path.parent path)
  let name := (Path.fileName? path).getD ""
  compileAfter (Session.importName (disk.library base) { suffix := settings.suffix } name)

end NestedStyles
