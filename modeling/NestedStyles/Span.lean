/-!
Positions in a source text. Lines and columns count from one, columns in characters, and only a
line feed starts a new line.
-/

namespace NestedStyles

structure Span where
  line : Nat
  column : Nat
  deriving DecidableEq, Repr

namespace Span

def start : Span := ⟨1, 1⟩

def after (s : Span) (c : Char) : Span :=
  if c = '\n' then ⟨s.line + 1, 1⟩ else ⟨s.line, s.column + 1⟩

def advance (s : Span) (cs : List Char) : Span :=
  cs.foldl after s

/-- The position 0:0 stands for no position. -/
def text (s : Span) : String :=
  if s.line = 0 ∧ s.column = 0 then "<unknown>" else s.line.repr ++ ":" ++ s.column.repr

@[simp] theorem advance_nil (s : Span) : s.advance [] = s := rfl

@[simp] theorem advance_cons (s : Span) (c : Char) (cs : List Char) :
    s.advance (c :: cs) = (s.after c).advance cs := rfl

theorem advance_append (s : Span) (xs ys : List Char) :
    s.advance (xs ++ ys) = (s.advance xs).advance ys := List.foldl_append

end Span

end NestedStyles
