/-!
Values of attributes and variables, and media queries. A value is literal text, a variable, a
call, or a list whose items are written with a separator between them.
-/

namespace NestedStyles

inductive Separator
  | space
  | comma
  /-- Pieces written without a blank between them. -/
  | concat
  deriving DecidableEq, Repr

def Separator.text : Separator → String
  | space => " "
  | comma => ", "
  | concat => ""

inductive Expr
  | text (text : String)
  | var (name : String)
  | call (name : String) (arguments : List Expr)
  | list (separator : Separator) (items : List Expr)
  deriving Repr, Inhabited

namespace Expr

mutual
def decEq : (a b : Expr) → Decidable (a = b)
  | .text s, .text t => decidable_of_iff (s = t) (by simp)
  | .var m, .var n => decidable_of_iff (m = n) (by simp)
  | .call m xs, .call n ys =>
    have := decEqAll xs ys
    decidable_of_iff (m = n ∧ xs = ys) (by simp)
  | .list s xs, .list t ys =>
    have := decEqAll xs ys
    decidable_of_iff (s = t ∧ xs = ys) (by simp)
  | .text _, .var _ | .text _, .call .. | .text _, .list .. | .var _, .text _ | .var _, .call ..
  | .var _, .list .. | .call .., .text _ | .call .., .var _ | .call .., .list ..
  | .list .., .text _ | .list .., .var _ | .list .., .call .. => isFalse (by simp)
def decEqAll : (xs ys : List Expr) → Decidable (xs = ys)
  | [], [] => isTrue rfl
  | x :: xs, y :: ys =>
    have := decEq x y
    have := decEqAll xs ys
    decidable_of_iff (x = y ∧ xs = ys) (by simp)
  | [], _ :: _ | _ :: _, [] => isFalse (by simp)
end

instance : DecidableEq Expr := decEq

mutual
def render : Expr → String
  | .text s => s
  | .var name => "$" ++ name
  | .call name arguments => name ++ "(" ++ ", ".intercalate (renderAll arguments) ++ ")"
  | .list separator items => separator.text.intercalate (renderAll items)
def renderAll : List Expr → List String
  | [] => []
  | e :: rest => e.render :: renderAll rest
end

mutual
def isConstant : Expr → Bool
  | .text _ => true
  | .var _ | .call .. => false
  | .list _ items => allConstant items
def allConstant : List Expr → Bool
  | [] => true
  | e :: rest => e.isConstant && allConstant rest
end

def collapse (separator : Separator) : List Expr → Expr
  | [e] => e
  | items => .list separator items

@[simp] theorem renderAll_eq_map (es : List Expr) : renderAll es = es.map render := by
  induction es with
  | nil => rfl
  | cons e es ih => simp [renderAll, ih]

@[simp] theorem allConstant_eq_all (es : List Expr) : allConstant es = es.all isConstant := by
  induction es with
  | nil => rfl
  | cons e es ih => simp [allConstant, ih]

end Expr

end NestedStyles
