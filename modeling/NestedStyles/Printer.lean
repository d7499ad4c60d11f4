import NestedStyles.Session.Compile

/-!
Writing rules as text. A hard line break is always written; soft ones and the indentation are left
out of minified text.
-/

namespace NestedStyles

structure Printer where
  text : String := ""
  minify : Bool := false
  indent : Nat := 0
  lineStart : Bool := true
  deriving DecidableEq, Repr

namespace Printer

def indentation (depth : Nat) : String := String.ofList (List.replicate (4 * depth) ' ')

/-- Writes a text, indented if it starts a line. -/
def write (p : Printer) (text : String) : Printer :=
  if text = "" then p
  else
    let margin := if p.lineStart && !p.minify then indentation p.indent else ""
    { p with text := p.text ++ margin ++ text, lineStart := false }

def lineBreak (p : Printer) : Printer := { p with text := p.text ++ "\n", lineStart := true }

def softBreak (p : Printer) : Printer := if p.minify then p else p.lineBreak

def deeper (p : Printer) : Printer := { p with indent := p.indent + 1 }

def shallower (p : Printer) : Printer := { p with indent := p.indent - 1 }

def choose (p : Printer) (pretty minified : String) : Printer :=
  p.write (if p.minify then minified else pretty)

def selectorText (p : Printer) (selectors : List Selector) : String :=
  (if p.minify then "," else ", ").intercalate (selectors.map Selector.text)

def writeAttribute (p : Printer) (a : Attribute) : Printer :=
  ((((p.write a.name).choose ": " ":").write a.value.render).write ";").softBreak

mutual
def writeRule (p : Printer) : FlatRule → Printer
  | ⟨selectors, attributes, children⟩ =>
    let p := ((p.write (p.selectorText selectors)).choose " \x7b" "\x7b").softBreak.deeper
    let p := attributes.foldl writeAttribute p
    (writeChildren p children).shallower.write "\x7d"
def writeChildren (p : Printer) : List FlatRule → Printer
  | [] => p
  | r :: rest => writeChildren (writeRule p r).softBreak rest
end

def writeRules (p : Printer) (rules : List FlatRule) : Printer :=
  rules.foldl (fun p r => (p.writeRule r).lineBreak.softBreak) p

end Printer

def Compilation.css (c : Compilation) (minify : Bool) : String :=
  (({ minify := minify } : Printer).writeRules c.rules).text

end NestedStyles
