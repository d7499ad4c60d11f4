import NestedStyles.Sheet

/-!
Rules of the output: selectors, attributes and, in media containers and at-rules, further rules.
-/

namespace NestedStyles

structure FlatRule where
  selectors : List Selector := []
  attributes : List Attribute := []
  children : List FlatRule := []
  deriving Repr, Inhabited

namespace FlatRule

mutual
def decEq : (a b : FlatRule) → Decidable (a = b)
  | ⟨s, a, c⟩, ⟨s', a', c'⟩ =>
    have := decEqAll c c'
    decidable_of_iff (s = s' ∧ a = a' ∧ c = c') (by simp)
def decEqAll : (xs ys : List FlatRule) → Decidable (xs = ys)
  | [], [] => isTrue rfl
  | x :: xs, y :: ys =>
    have := decEq x y
    have := decEqAll xs ys
    decidable_of_iff (x = y ∧ xs = ys) (by simp)
  | [], _ :: _ | _ :: _, [] => isFalse (by simp)
end

instance : DecidableEq FlatRule := decEq

mutual
/-- Leaves out every rule that has no attribute at any depth. -/
def prune : FlatRule → Option FlatRule
  | ⟨selectors, attributes, children⟩ =>
    let kept := pruneAll children
    if attributes.isEmpty && kept.isEmpty then none else some ⟨selectors, attributes, kept⟩
def pruneAll : List FlatRule → List FlatRule
  | [] => []
  | r :: rest =>
    match r.prune with
    | none => pruneAll rest
    | some r => r :: pruneAll rest
end

mutual
/-- The selectors of the rules that pruning leaves out, children before their parent. -/
def pruned : FlatRule → List (List Selector)
  | ⟨selectors, attributes, children⟩ =>
    prunedAll children ++
      (if attributes.isEmpty && (pruneAll children).isEmpty then [selectors] else [])
def prunedAll : List FlatRule → List (List Selector)
  | [] => []
  | r :: rest => r.pruned ++ prunedAll rest
end

end FlatRule

end NestedStyles
