import NestedStyles.Text
import NestedStyles.Token
import NestedStyles.Fault

/-!
Splitting a source text into items: blanks, comments and tokens. Every item is read from the
first characters of what is left of the text, so the texts of the items are the source.
-/

namespace NestedStyles.Lexer

open Text

/-- Whether a character can continue a word: it is no blank and starts no other token. -/
def isWordChar (c : Char) : Bool :=
  !isBlank c && (TokenKind.ofMark? c).isNone && (Quote.of? c).isNone && c != '$' && c != '@'

inductive Item
  | blank (c : Char)
  | blockComment (body : List Char)
  | lineComment (body : List Char)
  | token (kind : TokenKind)
  deriving DecidableEq, Repr

def Item.text : Item → List Char
  | blank c => [c]
  | blockComment body => '/' :: '*' :: body ++ ['*', '/']
  | lineComment body => '/' :: '/' :: body
  | token kind => kind.text.toList

def opensBlockComment : List Char → Bool
  | '/' :: '*' :: _ => true
  | _ => false

/-- Two slashes open a comment at the start of the text, after a blank and after `;`, `{` or `}`,
and nowhere else, so the slashes of an address stay part of a word. -/
def opensLineComment (previous : Option Char) : List Char → Bool
  | '/' :: '/' :: _ =>
    match previous with
    | none => true
    | some c => isBlank c || c == ';' || c == '{' || c == '}'
  | _ => false

/-- The text before the first `*/` and the text after it. -/
def splitComment : List Char → Option (List Char × List Char)
  | [] => none
  | '*' :: '/' :: rest => some ([], rest)
  | c :: rest => (splitComment rest).map fun (body, tail) => (c :: body, tail)

/-- The text before the first `quote` that no backslash escapes, and the text after it. -/
def splitQuoted (quote : Char) : List Char → Option (List Char × List Char)
  | [] => none
  | '\\' :: c :: rest => (splitQuoted quote rest).map fun (body, tail) => ('\\' :: c :: body, tail)
  | c :: rest =>
    if c = quote then some ([], rest)
    else (splitQuoted quote rest).map fun (body, tail) => (c :: body, tail)

/-- The longest run of word characters before a block comment, and the text after it. -/
def splitWord : List Char → List Char × List Char
  | [] => ([], [])
  | c :: rest =>
    if isWordChar c && !opensBlockComment (c :: rest) then
      let (word, tail) := splitWord rest
      (c :: word, tail)
    else ([], c :: rest)

def readName (kind : String → TokenKind) (problem : Problem) (rest : List Char) :
    Except Problem (Item × List Char) :=
  match splitWord rest with
  | ([], _) => .error problem
  | (name, tail) => .ok (.token (kind (String.ofList name)), tail)

def readToken (c : Char) (rest : List Char) : Except Problem (Item × List Char) :=
  match TokenKind.ofMark? c with
  | some kind => .ok (.token kind, rest)
  | none =>
    match Quote.of? c with
    | some quote =>
      match splitQuoted c rest with
      | none => .error .unterminatedString
      | some (body, tail) => .ok (.token (.quoted quote (String.ofList body)), tail)
    | none =>
      if c = '$' then readName .var .namelessVariable rest
      else if c = '@' then readName .directive .namelessDirective rest
      else
        let (word, tail) := splitWord rest
        .ok (.token (.word (String.ofList (c :: word))), tail)

/-- The item that starts with `c`, when `previous` is the character before it. -/
def readItem (previous : Option Char) (c : Char) (rest : List Char) :
    Except Problem (Item × List Char) :=
  if isBlank c then .ok (.blank c, rest)
  else if opensBlockComment (c :: rest) then
    match splitComment (rest.drop 1) with
    | none => .error .unterminatedComment
    | some (body, tail) => .ok (.blockComment body, tail)
  else if opensLineComment previous (c :: rest) then
    let text := rest.drop 1
    .ok (.lineComment (text.takeWhile (· ≠ '\n')), text.dropWhile (· ≠ '\n'))
  else readToken c rest

theorem append_of_splitComment {cs body tail : List Char}
    (h : splitComment cs = some (body, tail)) : cs = body ++ '*' :: '/' :: tail := by
  fun_induction splitComment cs generalizing body with
  | case1 => simp at h
  | case2 rest => simp at h; simp [← h.1, h.2]
  | case3 c rest _ ih =>
    simp only [Option.map_eq_some_iff, Prod.exists, Prod.mk.injEq] at h
    obtain ⟨b, t, hb, rfl, rfl⟩ := h
    simp [ih hb]

theorem append_of_splitQuoted {quote : Char} {cs body tail : List Char}
    (h : splitQuoted quote cs = some (body, tail)) : cs = body ++ quote :: tail := by
  fun_induction splitQuoted quote cs generalizing body with
  | case1 => simp at h
  | case2 c rest ih =>
    simp only [Option.map_eq_some_iff, Prod.exists, Prod.mk.injEq] at h
    obtain ⟨b, t, hb, rfl, rfl⟩ := h
    simp [ih hb]
  | case3 rest _ => simp at h; simp [← h.1, h.2]
  | case4 c rest _ _ ih =>
    simp only [Option.map_eq_some_iff, Prod.exists, Prod.mk.injEq] at h
    obtain ⟨b, t, hb, rfl, rfl⟩ := h
    simp [ih hb]

theorem splitWord_append (cs : List Char) : (splitWord cs).1 ++ (splitWord cs).2 = cs := by
  fun_induction splitWord cs with
  | case1 => rfl
  | case2 c rest _ word tail hw ih => simp_all
  | case3 => rfl

theorem eq_of_readName {kind : String → TokenKind} {problem : Problem} {rest tail : List Char}
    {item : Item} (h : readName kind problem rest = .ok (item, tail)) :
    ∃ name, item = .token (kind (String.ofList name)) ∧ rest = name ++ tail := by
  have hw := splitWord_append rest
  unfold readName at h
  split at h
  · simp at h
  · next name t _ hs =>
    simp only [Except.ok.injEq, Prod.mk.injEq] at h
    rw [hs, h.2] at hw
    exact ⟨name, h.1.symm, hw.symm⟩

theorem text_of_mark {c : Char} {kind : TokenKind} (h : TokenKind.ofMark? c = some kind) :
    kind.text.toList = [c] := by
  unfold TokenKind.ofMark? at h
  split at h <;> simp at h <;> subst h <;> rfl

theorem char_of_quote {c : Char} {quote : Quote} (h : Quote.of? c = some quote) :
    quote.char = c := by
  unfold Quote.of? at h
  split at h <;> simp at h <;> subst h <;> rfl

theorem text_of_readToken {c : Char} {rest tail : List Char} {item : Item}
    (h : readToken c rest = .ok (item, tail)) :
    ∃ more, item.text = c :: more ∧ rest = more ++ tail := by
  unfold readToken at h
  split at h
  · next hk =>
    simp only [Except.ok.injEq, Prod.mk.injEq] at h
    exact ⟨[], by simp [← h.1, Item.text, text_of_mark hk], by simp [h.2]⟩
  split at h
  · next hq =>
    split at h
    · simp at h
    · next body t hs =>
      simp only [Except.ok.injEq, Prod.mk.injEq] at h
      refine ⟨body ++ [c], ?_, ?_⟩
      · simp [← h.1, Item.text, TokenKind.text, char_of_quote hq]
      · simp [append_of_splitQuoted hs, h.2]
  split at h
  · next hc =>
    obtain ⟨name, rfl, hr⟩ := eq_of_readName h
    exact ⟨name, by simp [Item.text, TokenKind.text, hc], hr⟩
  split at h
  · next hc =>
    obtain ⟨name, rfl, hr⟩ := eq_of_readName h
    exact ⟨name, by simp [Item.text, TokenKind.text, hc], hr⟩
  · simp only [Except.ok.injEq, Prod.mk.injEq] at h
    refine ⟨(splitWord rest).1, by simp [← h.1, Item.text, TokenKind.text], ?_⟩
    rw [← h.2, splitWord_append]

theorem text_of_readItem {previous : Option Char} {c : Char} {rest tail : List Char} {item : Item}
    (h : readItem previous c rest = .ok (item, tail)) :
    ∃ more, item.text = c :: more ∧ rest = more ++ tail := by
  unfold readItem at h
  split at h
  · simp only [Except.ok.injEq, Prod.mk.injEq] at h
    exact ⟨[], by simp [← h.1, Item.text], by simp [h.2]⟩
  split at h
  · next hb =>
    split at h
    · simp at h
    · next body t hs =>
      simp only [Except.ok.injEq, Prod.mk.injEq] at h
      unfold opensBlockComment at hb
      split at hb
      · next heq =>
        simp only [List.cons.injEq] at heq
        obtain ⟨rfl, rfl⟩ := heq
        have := append_of_splitComment hs
        simp only [List.drop_succ_cons, List.drop_zero] at this
        exact ⟨'*' :: body ++ ['*', '/'], by simp [← h.1, Item.text], by simp [this, h.2]⟩
      · simp at hb
  split at h
  · next hl =>
    simp only [Except.ok.injEq, Prod.mk.injEq] at h
    unfold opensLineComment at hl
    split at hl
    · next text heq =>
      simp only [List.cons.injEq] at heq
      obtain ⟨rfl, rfl⟩ := heq
      refine ⟨'/' :: text.takeWhile (· ≠ '\n'), by simp [← h.1, Item.text], ?_⟩
      simp [← h.2, List.takeWhile_append_dropWhile]
    · simp at hl
  · exact text_of_readToken h

theorem length_readItem {previous : Option Char} {c : Char} {rest tail : List Char} {item : Item}
    (h : readItem previous c rest = .ok (item, tail)) : tail.length ≤ rest.length := by
  obtain ⟨more, -, hr⟩ := text_of_readItem h
  simp [hr]

/-- Reads the tokens of `cs`. `previous` is the character before `cs`, `span` its position, and
`spaced` tells whether a token read now is separated from the one before it. -/
def scan (previous : Option Char) (span : Span) (spaced : Bool) (cs : List Char) :
    Except Fault Tokens :=
  match cs with
  | [] => .ok ⟨[], span⟩
  | c :: rest =>
    match h : readItem previous c rest with
    | .error problem => .error ⟨span, problem⟩
    | .ok (item, tail) =>
      have : tail.length ≤ rest.length := length_readItem h
      match item with
      | .token kind =>
        match scan item.text.getLast? (span.advance item.text) false tail with
        | .error fault => .error fault
        | .ok tokens => .ok { tokens with list := ⟨kind, span, spaced⟩ :: tokens.list }
      | _ => scan item.text.getLast? (span.advance item.text) true tail
termination_by cs.length

end NestedStyles.Lexer

namespace NestedStyles

def tokenize (source : String) : Except Fault Tokens :=
  Lexer.scan none .start true source.toList

end NestedStyles
