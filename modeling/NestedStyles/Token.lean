import NestedStyles.Span

/-!
Tokens of a source text. A token carries the characters it was written with, its position, and
whether anything separates it from the token before it.
-/

namespace NestedStyles

inductive Quote
  | single
  | double
  deriving DecidableEq, Repr

def Quote.char : Quote → Char
  | single => '\x27'
  | double => '\x22'

def Quote.of? : Char → Option Quote
  | '\x27' => some .single
  | '\x22' => some .double
  | _ => none

inductive Combinator
  | child
  | adjacent
  | sibling
  deriving DecidableEq, Repr

def Combinator.char : Combinator → Char
  | child => '>'
  | adjacent => '+'
  | sibling => '~'

inductive TokenKind
  /-- Identifiers, numbers, class names, units and any other run of plain characters. -/
  | word (text : String)
  | var (name : String)
  | directive (name : String)
  /-- A quoted string. The body keeps its escapes as they are written. -/
  | quoted (quote : Quote) (body : String)
  | ampersand
  | colon
  | semicolon
  | comma
  | openBrace
  | closeBrace
  | openParen
  | closeParen
  | combinator (combinator : Combinator)
  deriving DecidableEq, Repr

namespace TokenKind

def text : TokenKind → String
  | word text => text
  | var name => "$" ++ name
  | directive name => "@" ++ name
  | quoted quote body => quote.char.toString ++ body ++ quote.char.toString
  | ampersand => "&"
  | colon => ":"
  | semicolon => ";"
  | comma => ","
  | openBrace => "\x7b"
  | closeBrace => "\x7d"
  | openParen => "("
  | closeParen => ")"
  | combinator c => c.char.toString

def ofMark? : Char → Option TokenKind
  | '{' => some openBrace
  | '}' => some closeBrace
  | ';' => some semicolon
  | ':' => some colon
  | ',' => some comma
  | '(' => some openParen
  | ')' => some closeParen
  | '&' => some ampersand
  | '>' => some (combinator .child)
  | '+' => some (combinator .adjacent)
  | '~' => some (combinator .sibling)
  | _ => none

/-- How many parentheses are open after a token, when `depth` are open before it. A closing
parenthesis that matches none is passed over. -/
def depthAfter (depth : Nat) : TokenKind → Nat
  | openParen => depth + 1
  | closeParen => depth - 1
  | _ => depth

end TokenKind

structure Token where
  kind : TokenKind
  span : Span
  /-- A blank or a comment stands before the token, or it is the first one. -/
  spaced : Bool
  deriving DecidableEq, Repr

def Token.text (t : Token) : String := t.kind.text

structure Tokens where
  list : List Token
  stop : Span
  deriving DecidableEq, Repr

end NestedStyles
