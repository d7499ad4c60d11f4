import NestedStyles.Token
import NestedStyles.Fault

/-!
Reading from the tokens that are left. A reader takes them as a list and gives back those it did
not use; the position of the end of the text comes along for faults found there.
-/

namespace NestedStyles

/-- The result of a reader and the tokens it left. -/
abbrev Reading (α : Type) := Except Fault (α × List Token)

namespace Token

def spanOf (stop : Span) : List Token → Span
  | [] => stop
  | t :: _ => t.span

def fail {α : Type} (stop : Span) (tokens : List Token) (problem : Problem) : Except Fault α :=
  .error ⟨spanOf stop tokens, problem⟩

def expect (stop : Span) (kind : TokenKind) (what : Expectation) :
    List Token → Except Fault (List Token)
  | [] => .error ⟨stop, .expected what ""⟩
  | t :: rest => if t.kind = kind then .ok rest else .error ⟨t.span, .expected what t.text⟩

/-- Takes a semicolon, or nothing before the end of the block or of the text. -/
def endStatement : List Token → Except Fault (List Token)
  | [] => .ok []
  | t :: rest =>
    match t.kind with
    | .semicolon => .ok rest
    | .closeBrace => .ok (t :: rest)
    | _ => .error ⟨t.span, .expected .semicolon t.text⟩

/-- The texts of tokens in order, with a blank before each spaced one but the first. -/
def joined : List Token → String
  | [] => ""
  | t :: rest => t.text ++ followed rest
where
  followed : List Token → String
    | [] => ""
    | t :: rest => (if t.spaced then " " else "") ++ t.text ++ followed rest

/-- At least one of the tokens was taken, and `rest` is left. -/
def Past (tokens rest : List Token) : Prop := ∃ t more, t :: more <:+ tokens ∧ rest <:+ more

section Past

variable {tokens more rest : List Token}

theorem Past.suffix (h : Past tokens rest) : rest <:+ tokens := by
  obtain ⟨t, more, htokens, hrest⟩ := h
  exact hrest.trans ((List.suffix_cons t more).trans htokens)

theorem Past.length_lt (h : Past tokens rest) : rest.length < tokens.length := by
  obtain ⟨t, more, htokens, hrest⟩ := h
  have htaken := htokens.length_le
  have hleft := hrest.length_le
  simp only [List.length_cons] at htaken
  omega

theorem Past.trans_suffix (h : Past tokens more) (hrest : rest <:+ more) : Past tokens rest := by
  obtain ⟨t, left, htokens, hmore⟩ := h
  exact ⟨t, left, htokens, hrest.trans hmore⟩

theorem past_cons (t : Token) (h : rest <:+ tokens) : Past (t :: tokens) rest :=
  ⟨t, tokens, List.suffix_refl _, h⟩

end Past

theorem cons_of_expect {stop : Span} {kind : TokenKind} {what : Expectation}
    {tokens rest : List Token} (h : expect stop kind what tokens = .ok rest) :
    ∃ t, t.kind = kind ∧ tokens = t :: rest := by
  unfold expect at h
  split at h
  · cases h
  · next t tail =>
    split at h
    · next hk =>
      cases h
      exact ⟨t, hk, rfl⟩
    · cases h

theorem suffix_of_expect {stop : Span} {kind : TokenKind} {what : Expectation}
    {tokens rest : List Token} (h : expect stop kind what tokens = .ok rest) : rest <:+ tokens := by
  obtain ⟨t, -, rfl⟩ := cons_of_expect h
  exact List.suffix_cons t rest

theorem suffix_of_endStatement {tokens rest : List Token} (h : endStatement tokens = .ok rest) :
    rest <:+ tokens := by
  unfold endStatement at h
  split at h
  · cases h
    exact List.suffix_refl _
  · split at h
    · cases h
      exact List.suffix_cons ..
    · cases h
      exact List.suffix_refl _
    · cases h

end Token

end NestedStyles
