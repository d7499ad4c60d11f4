/-!
Selectors and how a nested one combines with the one around it. A selector is the list of its
parts: compounds, combinators and `&`, which stands for the enclosing selector.
-/

namespace NestedStyles

abbrev Selector := List String

namespace Selector

def parent : String := "&"

def text (s : Selector) : String := " ".intercalate s

def listText (ss : List Selector) : String := ", ".intercalate (ss.map text)

/-- The text of the alternatives starts with `@`, as in `@font-face` or `@keyframes spin`. -/
def isAtRule (ss : List Selector) : Bool := (listText ss).toList.head? == some '@'

/-- Drops the first part of `child` and joins its second part to the last part of `outer`, so
`& --active` after `.nav .btn` is `.nav .btn--active`. Without these two parts `child` stays. -/
def glue (child outer : Selector) : Selector :=
  match child, outer.getLast? with
  | _ :: second :: rest, some last => outer.dropLast ++ (last ++ second) :: rest
  | _, _ => child

/-- The selector of a section nested in a rule. A leading `&` is tried before a trailing one. -/
def nest (child outer : Selector) : Selector :=
  if 1 < child.length ∧ outer ≠ [] ∧ child.head? = some parent then child.glue outer
  else if child.getLast? = some parent then child.dropLast ++ outer
  else outer ++ child

/-- The selector of a template's section for one caller. A trailing `&` is tried before a leading
one. -/
def apply (child caller : Selector) : Selector :=
  if child.getLast? = some parent then child.dropLast ++ caller
  else if child.head? = some parent then child.glue caller
  else caller ++ child

/-- Every child with every outer selector, the children in the outer loop. -/
def cross (combine : Selector → Selector → Selector) (children outer : List Selector) :
    List Selector :=
  children.flatMap fun child => outer.map (combine child)

end Selector

end NestedStyles
