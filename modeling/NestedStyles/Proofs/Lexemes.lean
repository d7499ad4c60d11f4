import NestedStyles.Token.Lexer

/-!
What the tokens of a text say apart from their positions. Scanning a text reads its items one after
the other, and the tokens among them are its lexemes.
-/

namespace NestedStyles

/-- A token without its position. -/
structure Lexeme where
  kind : TokenKind
  spaced : Bool
  deriving DecidableEq, Repr

def Token.lexeme (t : Token) : Lexeme := ⟨t.kind, t.spaced⟩

theorem kinds_of_lexemes {tokens : List Token} {lexemes : List Lexeme}
    (h : tokens.map Token.lexeme = lexemes) : tokens.map (·.kind) = lexemes.map (·.kind) := by
  rw [← h, List.map_map]
  rfl

namespace Lexer

/-- The lexemes of a text after the character `previous`. -/
inductive Scans : (previous : Option Char) → (spaced : Bool) → List Char → List Lexeme → Prop
  | done {previous : Option Char} {spaced : Bool} : Scans previous spaced [] []
  | token {previous : Option Char} {spaced : Bool} {c : Char} {rest tail : List Char}
      {kind : TokenKind} {lexemes : List Lexeme} :
      readItem previous c rest = .ok (.token kind, tail) →
      Scans kind.text.toList.getLast? false tail lexemes →
      Scans previous spaced (c :: rest) (⟨kind, spaced⟩ :: lexemes)
  | gap {previous : Option Char} {spaced : Bool} {c : Char} {rest tail : List Char} {item : Item}
      {lexemes : List Lexeme} :
      readItem previous c rest = .ok (item, tail) → (∀ kind, item ≠ .token kind) →
      Scans item.text.getLast? true tail lexemes → Scans previous spaced (c :: rest) lexemes

variable {previous : Option Char} {span : Span} {spaced : Bool} {cs : List Char}
  {lexemes : List Lexeme}

theorem scans_of_scan {tokens : Tokens} (h : scan previous span spaced cs = .ok tokens) :
    Scans previous spaced cs (tokens.list.map Token.lexeme) := by
  fun_induction scan previous span spaced cs generalizing tokens with
  | case1 =>
    cases h
    exact .done
  | case2 => cases h
  | case3 _ _ _ _ _ _ _ _ _ _ _ hs => simp [hs] at h
  | case4 _ _ _ _ _ _ _ hi found _ _ hs ih =>
    simp only [hs, Except.ok.injEq] at h
    rw [← h]
    exact .token hi (ih hs)
  | case5 _ _ _ _ _ _ _ hi _ hi' hne ih =>
    refine .gap hi ?_ (ih h)
    rintro kind rfl
    exact hne kind hi' rfl HEq.rfl

theorem scan_of_scans (h : Scans previous spaced cs lexemes) (span : Span) :
    ∃ tokens, scan previous span spaced cs = .ok tokens ∧
      tokens.list.map Token.lexeme = lexemes := by
  induction h generalizing span with
  | done => exact ⟨⟨[], span⟩, by unfold scan; rfl, rfl⟩
  | @token previous spaced c rest tail kind lexemes hi _ ih =>
    obtain ⟨tokens, hs, hl⟩ := ih (span.advance kind.text.toList)
    refine ⟨{ tokens with list := ⟨kind, span, spaced⟩ :: tokens.list }, ?_, ?_⟩
    · unfold scan
      split
      · next he => simp [hi] at he
      · next he =>
        rw [hi] at he
        cases he
        simp only [Item.text, hs]
    · rw [List.map_cons, hl]
      rfl
  | @gap previous spaced c rest tail item lexemes hi hne _ ih =>
    obtain ⟨tokens, hs, hl⟩ := ih (span.advance item.text)
    refine ⟨tokens, ?_, hl⟩
    unfold scan
    split
    · next he => simp [hi] at he
    · next he =>
      rw [hi] at he
      cases he
      cases item with
      | token kind => exact absurd rfl (hne kind)
      | blank | blockComment | lineComment => exact hs

theorem scans_token_iff {c : Char} {rest tail : List Char} {kind : TokenKind}
    (h : readItem previous c rest = .ok (.token kind, tail)) :
    Scans previous spaced (c :: rest) lexemes ↔ ∃ later, lexemes = ⟨kind, spaced⟩ :: later ∧
      Scans kind.text.toList.getLast? false tail later := by
  constructor
  · intro hs
    cases hs with
    | token hi hs =>
      cases h.symm.trans hi
      exact ⟨_, rfl, hs⟩
    | gap hi hne =>
      cases h.symm.trans hi
      exact absurd rfl (hne kind)
  · rintro ⟨later, rfl, hs⟩
    exact .token h hs

theorem scans_gap_iff {c : Char} {rest tail : List Char} {item : Item}
    (h : readItem previous c rest = .ok (item, tail)) (hne : ∀ kind, item ≠ .token kind) :
    Scans previous spaced (c :: rest) lexemes ↔ Scans item.text.getLast? true tail lexemes := by
  constructor
  · intro hs
    cases hs with
    | token hi =>
      cases h.symm.trans hi
      exact absurd rfl (hne _)
    | gap hi _ hs =>
      cases h.symm.trans hi
      exact hs
  · exact .gap h hne

theorem Scans.readItem (h : Scans previous spaced cs lexemes) {l : Lexeme} (hl : l ∈ lexemes) :
    ∃ before c rest tail, c :: rest <:+ cs ∧
      Lexer.readItem before c rest = .ok (.token l.kind, tail) := by
  have hsuffix : ∀ {before : Option Char} {c : Char} {rest tail : List Char} {item : Item},
      Lexer.readItem before c rest = .ok (item, tail) → tail <:+ c :: rest := by
    intro before c rest tail item hi
    obtain ⟨more, -, rfl⟩ := text_of_readItem hi
    exact ⟨c :: more, by simp⟩
  induction h with
  | done => cases hl
  | token hi _ ih =>
    rcases List.mem_cons.1 hl with rfl | hl
    · exact ⟨_, _, _, _, List.suffix_rfl, hi⟩
    · obtain ⟨before, d, later, tail, hin, hread⟩ := ih hl
      exact ⟨before, d, later, tail, hin.trans (hsuffix hi), hread⟩
  | gap hi _ _ ih =>
    obtain ⟨before, d, later, tail, hin, hread⟩ := ih hl
    exact ⟨before, d, later, tail, hin.trans (hsuffix hi), hread⟩

theorem Scans.mem_of_mark (h : Scans previous spaced cs lexemes) {l : Lexeme} (hl : l ∈ lexemes)
    {c : Char} (hmark : l.kind.text = c.toString) : c ∈ cs := by
  obtain ⟨_, d, rest, _, hsuffix, hi⟩ := h.readItem hl
  obtain ⟨more, htext, -⟩ := text_of_readItem hi
  have hd : d = c := by
    simp [Item.text, hmark] at htext
    exact htext.1.symm
  exact hsuffix.subset (by simp [hd])

end Lexer

open Lexer in
theorem text_ne_of_tokenize {source : String} {tokens : Tokens}
    (h : tokenize source = .ok tokens) : ∀ t ∈ tokens.list, t.text ≠ "" := by
  intro t ht hempty
  obtain ⟨_, c, _, _, -, hi⟩ := (scans_of_scan h).readItem (List.mem_map_of_mem ht)
  obtain ⟨more, htext, -⟩ := text_of_readItem hi
  have hnil : t.kind.text.toList = [] := by simpa [Token.text] using hempty
  simp [Item.text, Token.lexeme, hnil] at htext

end NestedStyles
