import NestedStyles.Expr

/-!
Variable environments. A scope holds its own bindings and those of the scopes around it; a bound
value belongs to the scope that binds it.
-/

namespace NestedStyles

/-- Bindings of one scope, the newest first. -/
abbrev Frame := List (String × Expr)

structure Scope where
  bindings : Frame := []
  outer : List Frame := []
  deriving DecidableEq, Repr

namespace Scope

/-- The value of a name in the innermost frame that binds it, and the scope of that frame. -/
def find (name : String) (bindings : Frame) : List Frame → Option (Expr × Scope)
  | [] => (bindings.lookup name).map (·, ⟨bindings, []⟩)
  | next :: outer =>
    match bindings.lookup name with
    | some value => some (value, ⟨bindings, next :: outer⟩)
    | none => find name next outer

def lookup (s : Scope) (name : String) : Option (Expr × Scope) := find name s.bindings s.outer

def get? (s : Scope) (name : String) : Option Expr := (s.lookup name).map (·.1)

def has (s : Scope) (name : String) : Bool := (s.lookup name).isSome

/-- Binds a name here, hiding what it is bound to further out. -/
def set (s : Scope) (name : String) (value : Expr) : Scope :=
  { s with bindings := (name, value) :: s.bindings }

def enter (s : Scope) : Scope := ⟨[], s.bindings :: s.outer⟩

def leave (s : Scope) : Scope :=
  match s.outer with
  | [] => s
  | bindings :: outer => ⟨bindings, outer⟩

def depth (s : Scope) : Nat := s.outer.length

def size (s : Scope) : Nat := (s.bindings ++ s.outer.flatten).length

end Scope

end NestedStyles
