import NestedStyles.Event
import NestedStyles.Scope

/-!
Evaluation. Variables are replaced by their values, each evaluated in the scope that binds it, and
calls are handed to an evaluator with their arguments evaluated. A variable without a value stays,
and so does one that is met again while its own value is evaluated.
-/

namespace NestedStyles

/-- Gives the value of a call from its name and its evaluated arguments. -/
abbrev Evaluator := String → List Expr → Expr

namespace Evaluator

/-- A call stands for its own text. -/
def written : Evaluator := fun name arguments => .text (Expr.call name arguments).render

def arity : Evaluator := fun name arguments => .text (name ++ "/" ++ arguments.length.repr)

def first : Evaluator := fun name arguments => arguments.head?.getD (.text name)

def keep : Evaluator := fun name arguments => .call name arguments

end Evaluator

/-- What an evaluation met: the variables without a value, and those that depend on themselves,
each of these once. -/
structure Trace where
  undefined : List String := []
  cycles : List String := []
  deriving DecidableEq, Repr

namespace Trace

def addUndefined (t : Trace) (name : String) : Trace :=
  { t with undefined := t.undefined ++ [name] }

def addCycle (t : Trace) (name : String) : Trace :=
  if name ∈ t.cycles then t else { t with cycles := t.cycles ++ [name] }

/-- Missing values show as they are met, dependencies when the evaluation ends. -/
def events (t : Trace) : List Event :=
  t.undefined.map .undefinedVariable ++ t.cycles.map fun name => .warning (.selfReference name)

end Trace

namespace Expr

mutual
def traverse (calls : Evaluator) (onVar : String → Trace → Expr × Trace) :
    Expr → Trace → Expr × Trace
  | .text s, trace => (.text s, trace)
  | .var name, trace => onVar name trace
  | .call name arguments, trace =>
    match traverseAll calls onVar arguments trace with
    | (arguments, trace) => (calls name arguments, trace)
  | .list separator items, trace =>
    match traverseAll calls onVar items trace with
    | (items, trace) => (.list separator items, trace)
def traverseAll (calls : Evaluator) (onVar : String → Trace → Expr × Trace) :
    List Expr → Trace → List Expr × Trace
  | [], trace => ([], trace)
  | e :: rest, trace =>
    match traverse calls onVar e trace with
    | (e, trace) =>
      match traverseAll calls onVar rest trace with
      | (rest, trace) => (e :: rest, trace)
end

/-- The value of a variable in `scope` while the values of `resolving` are being evaluated, the
innermost first. At most `budget` values are followed one inside the other. -/
def resolve (calls : Evaluator) :
    (budget : Nat) → (scope : Scope) → (resolving : List String) → String → Trace → Expr × Trace
  | 0, _, _, name, trace => (.var name, trace)
  | budget + 1, scope, resolving, name, trace =>
    if name ∈ resolving then (.var name, trace.addCycle name)
    else
      match scope.lookup name with
      | none => (.var name, trace.addUndefined name)
      | some (value, home) =>
        traverse calls (resolve calls budget home (name :: resolving)) value trace

/-- The value of an expression and what its evaluation met. No two names of those being resolved
are equal and each is bound, so the number of bindings bounds their number. -/
def evalTrace (calls : Evaluator) (scope : Scope) (e : Expr) : Expr × Trace :=
  traverse calls (resolve calls (scope.size + 1) scope []) e {}

def eval (calls : Evaluator) (scope : Scope) (e : Expr) : Expr × List Event :=
  match evalTrace calls scope e with
  | (value, trace) => (value, trace.events)

end Expr

end NestedStyles
