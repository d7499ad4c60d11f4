import NestedStyles.Expr
import NestedStyles.Token.Stream

/-!
Reading values. A value is a comma list of space lists of terms, and a term is a run of pieces
without a blank between them. One token is taken at a time; what is open at that moment, the
levels of parentheses and in each of them the items, terms and pieces so far, is the state.
-/

namespace NestedStyles.ExprReader

/-- A piece of an open term. A word stays apart until the term ends, since a parenthesis directly
after it makes it the name of a call. -/
inductive Piece
  | word (text : String)
  | expr (e : Expr)
  deriving DecidableEq, Repr

def Piece.toExpr : Piece → Expr
  | word text => .text text
  | expr e => e

/-- Puts an expression before others, joining two texts that meet. -/
def joinText : Expr → List Expr → List Expr
  | .text s, .text t :: rest => .text (s ++ t) :: rest
  | e, rest => e :: rest

/-- What is read of a list between two parentheses, the newest first. -/
structure Level where
  items : List Expr := []
  terms : List Expr := []
  pieces : List Piece := []
  deriving DecidableEq, Repr

namespace Level

def push (l : Level) (piece : Piece) : Level := { l with pieces := piece :: l.pieces }

def closeTerm (l : Level) : Level :=
  match l.pieces with
  | [] => l
  | pieces =>
    let parts := (pieces.reverse.map Piece.toExpr).foldr joinText []
    { l with terms := .collapse .concat parts :: l.terms, pieces := [] }

def closeItem (l : Level) (found : String) : Except Problem (List Expr) :=
  match l.closeTerm.terms with
  | [] => .error (.expected .value found)
  | terms => .ok (l.items.reverse ++ [.collapse .space terms.reverse])

def isEmpty (l : Level) : Bool := l.items.isEmpty && l.terms.isEmpty && l.pieces.isEmpty

end Level

inductive Opener
  | group
  | call (name : String)
  deriving DecidableEq, Repr

structure Frame where
  opener : Opener
  outer : Level
  deriving DecidableEq, Repr

/-- A value ends before the token that cannot continue it. Arguments end with the parenthesis that
closes them. -/
inductive Mode
  | value
  | arguments
  deriving DecidableEq, Repr

structure State where
  frames : List Frame := []
  level : Level := {}
  deriving DecidableEq, Repr

inductive Step
  | next (state : State)
  | finish (items : List Expr)
  deriving DecidableEq, Repr

inductive Role
  | piece
  | comma
  | close
  | halt
  deriving DecidableEq, Repr

def defaultFlag : String := "!default"

def roleOf : TokenKind → Role
  | .comma => .comma
  | .closeParen => .close
  | .semicolon | .closeBrace | .openBrace => .halt
  | .word text => if text = defaultFlag then .halt else .piece
  | _ => .piece

namespace State

/-- The state with a piece added, in a term of its own if the token is spaced. -/
def take (s : State) (t : Token) : State :=
  let level := if t.spaced then s.level.closeTerm else s.level
  match t.kind, level.pieces with
  | .openParen, .word name :: pieces =>
    ⟨⟨.call name, { level with pieces := pieces }⟩ :: s.frames, {}⟩
  | .openParen, _ => ⟨⟨.group, level⟩ :: s.frames, {}⟩
  | .word text, _ => { s with level := level.push (.word text) }
  | .var name, _ => { s with level := level.push (.expr (.var name)) }
  | kind, _ => { s with level := level.push (.expr (.text kind.text)) }

def comma (s : State) : Except Problem State :=
  match s.level.closeItem "," with
  | .error problem => .error problem
  | .ok items => .ok { s with level := { items := items.reverse } }

def leave (frame : Frame) (frames : List Frame) (items : List Expr) : State :=
  match frame.opener with
  | .call name => ⟨frames, frame.outer.push (.expr (.call name items))⟩
  | .group =>
    let opened := frame.outer.push (.expr (.text "("))
    let filled := if items.isEmpty then opened else opened.push (.expr (.collapse .comma items))
    ⟨frames, filled.push (.expr (.text ")"))⟩

/-- A closing parenthesis. Directly after the one it matches it ends an empty list. -/
def close (mode : Mode) (s : State) : Except Problem Step :=
  match s.frames, mode with
  | [], .value => (s.level.closeItem ")").map .finish
  | [], .arguments =>
    if s.level.isEmpty then .ok (.finish []) else (s.level.closeItem ")").map .finish
  | frame :: frames, _ =>
    if s.level.isEmpty then .ok (.next (leave frame frames []))
    else (s.level.closeItem ")").map fun items => .next (leave frame frames items)

/-- A token that belongs to no value. Only a value outside parentheses can end there. -/
def halt (mode : Mode) (s : State) (found : String) : Except Problem (List Expr) :=
  match s.level.closeItem found with
  | .error problem => .error problem
  | .ok items =>
    match s.frames, mode with
    | [], .value => .ok items
    | [], .arguments => .error .expectedArgumentEnd
    | ⟨.call _, _⟩ :: _, _ => .error .expectedArgumentEnd
    | ⟨.group, _⟩ :: _, _ => .error (.expected .closingParenthesis found)

end State

def run (mode : Mode) (stop : Span) (s : State) : List Token → Reading (List Expr)
  | [] =>
    match s.halt mode "" with
    | .error problem => .error ⟨stop, problem⟩
    | .ok items => .ok (items, [])
  | t :: rest =>
    match roleOf t.kind with
    | .piece => run mode stop (s.take t) rest
    | .comma =>
      match s.comma with
      | .error problem => .error ⟨t.span, problem⟩
      | .ok s => run mode stop s rest
    | .close =>
      match s.close mode with
      | .error problem => .error ⟨t.span, problem⟩
      | .ok (.next s) => run mode stop s rest
      | .ok (.finish items) =>
        match mode with
        | .value => .ok (items, t :: rest)
        | .arguments => .ok (items, rest)
    | .halt =>
      match s.halt mode t.text with
      | .error problem => .error ⟨t.span, problem⟩
      | .ok items => .ok (items, t :: rest)

theorem suffix_of_run {mode : Mode} {stop : Span} {s : State} {tokens rest : List Token}
    {items : List Expr} (h : run mode stop s tokens = .ok (items, rest)) : rest <:+ tokens := by
  fun_induction run mode stop s tokens <;> simp_all [List.suffix_cons_iff]

end NestedStyles.ExprReader

namespace NestedStyles

open ExprReader

def readValue (stop : Span) (tokens : List Token) : Reading Expr :=
  match run .value stop {} tokens with
  | .error fault => .error fault
  | .ok (items, rest) => .ok (.collapse .comma items, rest)

def readArguments (stop : Span) (tokens : List Token) : Reading (List Expr) :=
  run .arguments stop {} tokens

theorem suffix_of_readValue {stop : Span} {tokens rest : List Token} {e : Expr}
    (h : readValue stop tokens = .ok (e, rest)) : rest <:+ tokens := by
  unfold readValue at h
  split at h
  · cases h
  · next hr =>
    cases h
    exact suffix_of_run hr

end NestedStyles
