import NestedStyles.Selector
import NestedStyles.Token.Stream

/-!
Reading the selectors before a block.
-/

namespace NestedStyles.SelectorReader

/-- Whether an opening brace comes before the end of the statement. Parentheses hide what they
hold, `depth` of them being open. -/
def blockFollows (depth : Nat) : List Token → Bool
  | [] => false
  | t :: rest =>
    if depth = 0 ∧ t.kind = .openBrace then true
    else if depth = 0 ∧ (t.kind = .semicolon ∨ t.kind = .closeBrace) then false
    else blockFollows (t.kind.depthAfter depth) rest

/-- The comma-separated alternatives before the first opening brace outside parentheses, the
current one apart from those after it, and the tokens from the brace on. -/
def alternatives (depth : Nat) : List Token → List Token × List (List Token) × List Token
  | [] => ([], [], [])
  | t :: rest =>
    if depth = 0 ∧ t.kind = .openBrace then ([], [], t :: rest)
    else if depth = 0 ∧ t.kind = .comma then
      let (current, later, tail) := alternatives depth rest
      ([], current :: later, tail)
    else
      let (current, later, tail) := alternatives (t.kind.depthAfter depth) rest
      (t :: current, later, tail)

def flush (compound : String) (parts : Selector) : Selector :=
  if compound = "" then parts else compound :: parts

/-- The parts of one alternative. Tokens without a blank between them form a compound, and so does
all that parentheses hold; `&` and combinators are parts of their own. -/
def partsFrom (depth : Nat) (compound : String) : List Token → Selector
  | [] => flush compound []
  | t :: rest =>
    let depth' := t.kind.depthAfter depth
    if depth = 0 then
      match t.kind with
      | .ampersand | .combinator _ => flush compound (t.text :: partsFrom 0 "" rest)
      | _ =>
        if t.spaced then flush compound (partsFrom depth' t.text rest)
        else partsFrom depth' (compound ++ t.text) rest
    else partsFrom depth' (compound ++ (if t.spaced then " " else "") ++ t.text) rest

/-- A leading `&` with a blank after it means plain nesting. -/
def startsWithSpacedParent : List Token → Bool
  | first :: second :: _ => first.kind = .ampersand && second.spaced
  | _ => false

def partsOf (tokens : List Token) : Selector :=
  let parts := partsFrom 0 "" tokens
  if startsWithSpacedParent tokens && 1 < parts.length then parts.tail else parts

theorem suffix_of_alternatives (depth : Nat) (tokens : List Token) :
    (alternatives depth tokens).2.2 <:+ tokens := by
  fun_induction alternatives depth tokens <;> simp_all [List.suffix_cons_iff]

end NestedStyles.SelectorReader

namespace NestedStyles

open SelectorReader

def readSelectors (stop : Span) (tokens : List Token) : Reading (List Selector) :=
  match alternatives 0 tokens with
  | (first, later, rest) =>
    if (first :: later).any List.isEmpty then Token.fail stop rest .missingSelector
    else
      match Token.expect stop .openBrace .openingBrace rest with
      | .error fault => .error fault
      | .ok rest => .ok ((first :: later).map partsOf, rest)

theorem brace_of_readSelectors {stop : Span} {tokens rest : List Token}
    {selectors : List Selector} (h : readSelectors stop tokens = .ok (selectors, rest)) :
    ∃ b, b.kind = .openBrace ∧ b :: rest <:+ tokens := by
  have hs := suffix_of_alternatives 0 tokens
  unfold readSelectors at h
  split at h
  next first later tail heq =>
  rw [heq] at hs
  split at h
  · cases h
  split at h
  · cases h
  next hb =>
  obtain ⟨b, hk, rfl⟩ := Token.cons_of_expect hb
  cases h
  exact ⟨b, hk, hs⟩

end NestedStyles
