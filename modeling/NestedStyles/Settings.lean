import NestedStyles.Json
import NestedStyles.Session

/-!
Settings of a build, which can be given as a JSON object or as an array of its values in order.
-/

namespace NestedStyles

structure Settings where
  minify : Bool := false
  /-- Where sheets are looked for, if not beside the one that is built. -/
  baseDir : Option String := none
  suffix : String := defaultSuffix
  deriving DecidableEq, Repr

namespace Settings

def minifyOf : Json → Option Bool
  | .bool value => some value
  | _ => none

def baseDirOf : Json → Option (Option String)
  | .null => some none
  | .string (some text) => some (some text)
  | _ => none

def suffixOf : Json → Option String
  | .string text => text
  | _ => none

/-- The setting of a key: `fallback` without a member of that key, and none with more than one. -/
def member {α : Type} (members : List (Option String × Json)) (key : String)
    (decode : Json → Option α) (fallback : α) : Option α :=
  match members.filter fun (name, _) => name = some key with
  | [] => some fallback
  | [(_, value)] => decode value
  | _ => none

def item {α : Type} (items : List Json) (index : Nat) (decode : Json → Option α) (fallback : α) :
    Option α :=
  match items[index]? with
  | none => some fallback
  | some value => decode value

/-- Members with other keys are ignored, but every key must have a text. -/
def ofJson? : Json → Option Settings
  | .object members => do
    if members.any fun (name, _) => name.isNone then none
    else
      let minify ← member members "minify" minifyOf false
      let baseDir ← member members "base_dir" baseDirOf none
      let suffix ← member members "suffix" suffixOf defaultSuffix
      some ⟨minify, baseDir, suffix⟩
  | .array items => do
    if 3 < items.length then none
    else
      let minify ← item items 0 minifyOf false
      let baseDir ← item items 1 baseDirOf none
      let suffix ← item items 2 suffixOf defaultSuffix
      some ⟨minify, baseDir, suffix⟩
  | _ => none

def parse? (text : String) : Option Settings := (Json.parse text).bind ofJson?

end Settings

end NestedStyles
