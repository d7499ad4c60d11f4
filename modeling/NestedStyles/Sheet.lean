import NestedStyles.Expr
import NestedStyles.Selector

/-!
Parsed sheets: what one source text declares.
-/

namespace NestedStyles

structure Attribute where
  name : String
  value : Expr
  deriving DecidableEq, Repr

def Attribute.text (a : Attribute) : String := a.name ++ ": " ++ a.value.render

/-- A variable with its value. A default gives way to any earlier declaration. -/
structure Declaration where
  name : String
  value : Expr
  isDefault : Bool := false
  deriving DecidableEq, Repr

def Declaration.text (d : Declaration) : String :=
  "$" ++ d.name ++ ": " ++ d.value.render ++ (if d.isDefault then " !default" else "")

structure Reference where
  name : String
  arguments : List Expr := []
  deriving DecidableEq, Repr

/-- One nesting level of a sheet. A section without selectors is a media wrapper: it confines what
it holds to its query and gives no rule of its own. -/
structure Section where
  selectors : List Selector := []
  attributes : List Attribute := []
  nested : List Section := []
  extensions : List String := []
  references : List Reference := []
  media : Option Expr := none
  deriving Repr, Inhabited

namespace Section

mutual
def decEq : (a b : Section) → Decidable (a = b)
  | ⟨s, a, n, e, r, m⟩, ⟨s', a', n', e', r', m'⟩ =>
    have := decEqAll n n'
    decidable_of_iff (s = s' ∧ a = a' ∧ n = n' ∧ e = e' ∧ r = r' ∧ m = m') (by simp)
def decEqAll : (xs ys : List Section) → Decidable (xs = ys)
  | [], [] => isTrue rfl
  | x :: xs, y :: ys =>
    have := decEq x y
    have := decEqAll xs ys
    decidable_of_iff (x = y ∧ xs = ys) (by simp)
  | [], _ :: _ | _ :: _, [] => isFalse (by simp)
end

instance : DecidableEq Section := decEq

def addAttribute (s : Section) (a : Attribute) : Section :=
  { s with attributes := s.attributes ++ [a] }

def addNested (s inner : Section) : Section := { s with nested := s.nested ++ [inner] }

def addExtension (s : Section) (target : String) : Section :=
  { s with extensions := s.extensions ++ [target] }

def addReference (s : Section) (r : Reference) : Section :=
  { s with references := s.references ++ [r] }

end Section

/-- A named block with parameters that sections can refer to. -/
structure Template where
  name : String
  parameters : List String := []
  attributes : List Attribute := []
  sections : List Section := []
  deriving DecidableEq, Repr

structure Sheet where
  name : String
  imports : List String := []
  declarations : List Declaration := []
  templates : List Template := []
  sections : List Section := []
  deriving DecidableEq, Repr

end NestedStyles
