import NestedStyles.Proofs.HeaderSpelling

/-!
Writing the tokens of a text again. Their texts in order, with one blank before each spaced one, are
read as the same tokens. Tokens that stood side by side stand side by side again, after the same
character, so nothing between them is joined, parted or taken for a comment. A blank can make a
comment of what comes after it, and this is the one thing that has to be excluded.
-/

namespace NestedStyles

open Lexer

namespace Lexeme

/-- The texts of lexemes in order, with a blank before each spaced one. -/
def respelled : List Lexeme → List Char
  | [] => []
  | l :: ls => (if l.spaced then [' '] else []) ++ (l.kind.text.toList ++ respelled ls)

theorem toList_followed_eq (tokens : List Token) :
    (Token.joined.followed tokens).toList = respelled (tokens.map Token.lexeme) := by
  induction tokens with
  | nil => rfl
  | cons t tokens ih =>
    rw [Token.toList_followed, ih]
    rfl

theorem ends_respelled {l : Lexeme} {ls : List Lexeme} {pad : List Char}
    (h : (l :: ls).IsChain Meets) (hname : l.kind.isName) (hpad : Ends pad) :
    Ends (respelled ls ++ pad) := by
  cases ls with
  | nil => exact hpad
  | cons next ls =>
    intro c hc
    rw [respelled, List.append_assoc, List.append_assoc] at hc
    cases hs : next.spaced with
    | true =>
      rw [hs] at hc
      cases hc
      decide
    | false =>
      rw [hs] at hc
      have hword : next.kind.isWord = false := by
        by_contra hword
        have hnot := (List.isChain_cons_cons.1 h).1 hs (by simpa using hword)
        rw [hname] at hnot
        cases hnot
      exact TokenKind.head_of_not_word hword c hc

end Lexeme

namespace Lexer

open Lexeme

variable {cs rest tail : List Char} {c : Char} {previous : Option Char} {kind : TokenKind}

theorem not_opensLineComment_of_readItem
    (h : readItem previous c rest = .ok (.token kind, tail)) :
    opensLineComment previous (c :: rest) = false := by
  unfold readItem at h
  split at h
  · cases h
  split at h
  · split at h <;> cases h
  split at h
  · cases h
  · next hline => simpa using hline

theorem not_opensLineComment_append {more : List Char} (hne : kind.text ≠ "")
    (hends : kind.isName → Ends more)
    (h : opensLineComment previous (kind.text.toList ++ tail) = false) :
    opensLineComment previous (kind.text.toList ++ more) = false := by
  rw [← Bool.not_eq_true]
  intro hopens
  obtain ⟨after, htext⟩ := slashes_of_append hne hends (slashes_of_opensLineComment hopens)
  -- both slashes stand in the token, and nothing after them matters
  have hsame : opensLineComment previous (kind.text.toList ++ more) =
      opensLineComment previous (kind.text.toList ++ tail) := by
    rw [← htext]
    rfl
  rw [hsame, h] at hopens
  cases hopens

/-- The lexemes of a text are read from what they are respelled as. A lexeme without a blank before
it is read after the same character as in the text. -/
theorem Scans.respelled {spaced : Bool} {ls : List Lexeme} (h : Scans previous spaced cs ls)
    (hslashes : ∀ l ∈ ls, l.spaced → ¬ ['/', '/'] <+: l.kind.text.toList) (pad : List Char)
    (hends : Ends pad) (hpad : ∀ before held, Scans before held pad []) :
    ∀ before held, (spaced = false → before = previous ∧ held = false) →
      Scans before held (respelled ls ++ pad) ls := by
  induction h with
  | done => exact fun before held _ => hpad before held
  | gap _ _ _ ih => exact fun before held _ => ih hslashes before held (by simp)
  | @token previous spaced c rest tail kind ls hi hs ih =>
    intro before held hsame
    obtain ⟨hslash, hothers⟩ := List.forall_mem_cons.1 hslashes
    have hunbroken := (unbroken_of_readItem hi).1
    have hscanned : Scans previous spaced (c :: rest) (⟨kind, spaced⟩ :: ls) := .token hi hs
    have hname : kind.isName → Ends (Lexeme.respelled ls ++ pad) :=
      fun hname => ends_respelled hscanned.meets hname hends
    have hrest := ih hothers kind.text.toList.getLast? false fun _ => ⟨rfl, rfl⟩
    rw [Lexeme.respelled, List.append_assoc, List.append_assoc]
    cases spaced with
    | true =>
      have hplain : kind.Plain := TokenKind.plain_iff.2 ⟨hunbroken, hslash rfl⟩
      obtain ⟨d, later, htext, hitem⟩ := readItem_of_plain hplain hname (some ' ')
      have hblank : Lexer.readItem before ' ' (d :: later) = .ok (.blank ' ', d :: later) := rfl
      simp only [if_true, htext]
      exact .gap hblank (by simp) (.token hitem hrest)
    | false =>
      obtain ⟨rfl, rfl⟩ := hsame rfl
      have hline := not_opensLineComment_of_readItem hi
      rw [text_of_readItem_token hi] at hline
      obtain ⟨d, later, htext, hitem⟩ := readItem_of_unbroken hunbroken hname
        (not_opensLineComment_append hunbroken.text_ne hname hline)
      simp only [Bool.false_eq_true, if_false, List.nil_append, htext]
      exact .token hitem hrest

theorem readItem_after_blank (c : Char) (rest : List Char) :
    readItem (some ' ') c rest = readItem none c rest := by
  have hopens : opensLineComment (some ' ') (c :: rest) = opensLineComment none (c :: rest) := by
    unfold opensLineComment
    split <;> rfl
  rw [readItem, readItem, hopens]

theorem scans_after_blank_iff {spaced : Bool} {ls : List Lexeme} :
    Scans (some ' ') spaced cs ls ↔ Scans none spaced cs ls := by
  constructor <;> intro h <;> cases h with
  | done => exact .done
  | token hi hs => exact .token (by simpa only [readItem_after_blank] using hi) hs
  | gap hi hne hs => exact .gap (by simpa only [readItem_after_blank] using hi) hne hs

theorem Scans.without_blank {ls : List Lexeme} (h : Scans none true (' ' :: cs) ls) :
    Scans none true cs ls := by
  have hblank : Lexer.readItem none ' ' cs = .ok (.blank ' ', cs) := rfl
  exact scans_after_blank_iff.1 ((scans_gap_iff hblank (by simp)).1 h)

end Lexer

theorem tokenize_of_scans {text : String} {ls : List Lexeme}
    (h : Scans none true text.toList ls) :
    ∃ tokens, tokenize text = .ok tokens ∧ tokens.list.map Token.lexeme = ls :=
  scan_of_scans h .start

/-- The tokens of a text, written with one blank before each spaced one, are read as tokens of the
same kinds with the same blanks, if no spaced token starts with two slashes. It does not matter
whether the end of the text counts as spaced and whether the first token keeps its blank. -/
theorem tokenize_respelled {source : String} {tokens : Tokens} (h : tokenize source = .ok tokens)
    (hslashes : ∀ t ∈ tokens.list, t.spaced → ¬ ['/', '/'] <+: t.text.toList) :
    ∀ text ∈ [Token.joined.followed tokens.list ++ " ", Token.joined.followed tokens.list,
        Token.joined tokens.list],
      ∃ again, tokenize text = .ok again ∧
        again.list.map Token.lexeme = tokens.list.map Token.lexeme := by
  have hscans := scans_of_scan h
  have hmarked : ∀ l ∈ tokens.list.map Token.lexeme, l.spaced →
      ¬ ['/', '/'] <+: l.kind.text.toList := by
    intro l hl
    obtain ⟨t, ht, rfl⟩ := List.mem_map.1 hl
    exact hslashes t ht
  have hclosed := hscans.respelled hmarked [] (by simp [Ends]) (fun _ _ => .done)
    none true (by simp)
  rw [List.append_nil, ← Lexeme.toList_followed_eq] at hclosed
  simp only [List.forall_mem_cons, List.not_mem_nil, false_implies, implies_true, and_true]
  refine ⟨?_, tokenize_of_scans hclosed, ?_⟩
  · have hblank : ∀ before, Lexer.readItem before ' ' [] = .ok (.blank ' ', []) := fun _ => rfl
    have hpadded := hscans.respelled hmarked [' '] (by simp [Ends]; decide)
      (fun before _ => .gap (hblank before) (by simp) .done) none true (by simp)
    rw [← Lexeme.toList_followed_eq] at hpadded
    exact tokenize_of_scans (by simpa using hpadded)
  · cases htokens : tokens.list with
    | nil => exact tokenize_of_scans .done
    | cons t rest =>
      rw [htokens] at hclosed hscans
      have hspaced : t.spaced = true := hscans.spaced_head rfl t.lexeme rfl
      rw [Token.toList_followed, hspaced] at hclosed
      apply tokenize_of_scans
      rw [Token.joined, String.toList_append]
      exact hclosed.without_blank

/-- Comments between words, an address, a word with slashes after a quote and names beside marks. -/
theorem tokenize_respelled_address :
    let source := "a/* */b // c\nurl(http://x.org) 'q \"'//z $v/:@w;"
    ∃ tokens, tokenize source = .ok tokens ∧
      Token.joined tokens.list = "a b url(http://x.org) 'q \"'//z $v/:@w;" ∧
      ∃ again, tokenize (Token.joined tokens.list) = .ok again ∧
        again.list.map Token.lexeme = tokens.list.map Token.lexeme := by
  intro source
  have hrun : (tokenize source).toOption.map (fun tokens => (Token.joined tokens.list,
      tokens.list.all fun t => !t.spaced || !List.isPrefixOf ['/', '/'] t.text.toList)) =
      some ("a b url(http://x.org) 'q \"'//z $v/:@w;", true) := by
    decide +kernel
  cases ht : tokenize source with
  | error fault => simp [ht, Except.toOption] at hrun
  | ok tokens =>
    simp only [ht, Except.toOption, Option.map_some, Option.some.injEq, Prod.mk.injEq,
      List.all_eq_true, Bool.or_eq_true, Bool.not_eq_true'] at hrun
    obtain ⟨htext, hslashes⟩ := hrun
    refine ⟨tokens, rfl, htext, tokenize_respelled ht ?_ _ (by simp)⟩
    intro t hin hspaced hpair
    rcases hslashes t hin with hnot | hnot
    · simp [hspaced] at hnot
    · rw [List.isPrefixOf_iff_prefix.2 hpair] at hnot
      cases hnot

end NestedStyles
