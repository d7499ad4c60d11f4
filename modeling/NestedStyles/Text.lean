/-!
Character classes and affixes of texts.
-/

namespace NestedStyles.Text

/-- The characters with the property White_Space: the controls from tab to carriage return,
the spaces of every width, the two separators and the next-line control. -/
def isBlank (c : Char) : Bool :=
  let n := c.toNat
  (0x09 ≤ n && n ≤ 0x0D) || n == 0x20 || n == 0x85 || n == 0xA0 || n == 0x1680 ||
    (0x2000 ≤ n && n ≤ 0x200A) || n == 0x2028 || n == 0x2029 || n == 0x202F || n == 0x205F ||
    n == 0x3000

def endsWith (text ending : String) : Bool :=
  ending.toList.isSuffixOf text.toList

def withEnding (text ending : String) : String :=
  if endsWith text ending then text else text ++ ending

/-- The pieces of a text between the occurrences of a character, at least one. -/
def splitAt (mark : Char) : List Char → List (List Char)
  | [] => [[]]
  | c :: rest =>
    match splitAt mark rest with
    | [] => [[]]
    | piece :: pieces => if c = mark then [] :: piece :: pieces else (c :: piece) :: pieces

end NestedStyles.Text
