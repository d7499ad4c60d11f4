import NestedStyles.Span

/-!
What can be wrong with a source text, and where.
-/

namespace NestedStyles

inductive Expectation
  | value
  | semicolon
  | closingParenthesis
  | openingBrace
  | colonAfterVariable
  | colonAfterAttribute (name : String)
  | braceAfterTemplate
  | braceAfterQuery
  deriving DecidableEq, Repr

def Expectation.text : Expectation → String
  | value => "value"
  | semicolon => "';'"
  | closingParenthesis => "')'"
  | openingBrace => "'\x7b'"
  | colonAfterVariable => "':' after variable name"
  | colonAfterAttribute name => "':' after attribute '" ++ name ++ "'"
  | braceAfterTemplate => "'\x7b' after @func header"
  | braceAfterQuery => "'\x7b' after media query"

inductive Problem
  | unterminatedString
  | unterminatedComment
  | namelessVariable
  | namelessDirective
  | expected (what : Expectation) (found : String)
  | expectedImport
  | expectedParameter
  | expectedTemplateName
  | expectedQuery
  | expectedTarget
  | expectedAttributeName
  | expectedArgumentEnd
  | missingSelector
  | unclosedBlock
  | nestedImport
  | nestedVariable
  | attributeOutsideSelector
  | unsupportedStatement (keyword : String)
  | callsInTemplate (template : String)
  | mediaInTemplate (template : String)
  deriving DecidableEq, Repr

def Problem.message : Problem → String
  | unterminatedString => "Unterminated string"
  | unterminatedComment => "Unterminated comment"
  | namelessVariable => "Expected variable name after '$'"
  | namelessDirective => "Expected directive name after '@'"
  | expected what found => "Expected " ++ what.text ++ " but found '" ++ found ++ "'"
  | expectedImport => "Expected stylesheet name after @import"
  | expectedParameter => "Expected parameter name like '$name'"
  | expectedTemplateName => "Expected function name"
  | expectedQuery => "Expected media query"
  | expectedTarget => "Expected selector after @extend"
  | expectedAttributeName => "Expected attribute name"
  | expectedArgumentEnd => "Expected ',' or ')' in argument list"
  | missingSelector => "Missing selector before '\x7b'"
  | unclosedBlock => "Expected '\x7d' before end of file"
  | nestedImport => "@import is only allowed at top level"
  | nestedVariable => "Variables are only allowed at top level"
  | attributeOutsideSelector => "Attributes must be declared inside a selector"
  | unsupportedStatement keyword => "Unsupported at-rule statement '@" ++ keyword ++ "'"
  | callsInTemplate template =>
    "@func '" ++ template ++ "' cannot contain @extend or @func calls"
  | mediaInTemplate template => "@func '" ++ template ++ "' cannot contain @media blocks"

structure Fault where
  span : Span
  problem : Problem
  deriving DecidableEq, Repr

def located (sheet : String) (span : Span) (message : String) : String :=
  sheet ++ ":" ++ span.text ++ ": " ++ message

end NestedStyles
