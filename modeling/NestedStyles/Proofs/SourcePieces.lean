import NestedStyles.Proofs.Spelling
import Mathlib.Data.List.Induction

/-!
Splitting a text into tokens loses nothing. The text is made of pieces, one for each token and one
for its end: what stands between the tokens, and the token. Every piece is where its position says,
and a token is spaced where something stands before it.
-/

namespace NestedStyles

/-! Positions -/

namespace Span

/-- The position after a text that stands at the start: a line for every line feed in it, and a
column for every character since the last one. -/
def afterText (cs : List Char) : Span :=
  ⟨1 + cs.count '\n', 1 + (cs.reverse.takeWhile (· ≠ '\n')).length⟩

theorem advance_start (cs : List Char) : start.advance cs = afterText cs := by
  induction cs using List.reverseRecOn with
  | nil => rfl
  | append_singleton cs c ih =>
    rw [advance_append, ih, advance_cons, advance_nil]
    by_cases hc : c = '\n'
    · simp [after, afterText, hc]
      omega
    · simp [after, afterText, hc]
      omega

example : afterText "a\n b\nc /*\n*/ ".toList = ⟨4, 4⟩ := by decide

end Span

/-! Between the tokens -/

/-- What can stand between tokens, before the text `rest`: blanks, comments that their first `*/`
closes, and comments that go on to the end of their line or of the whole text. -/
inductive Trivia : (gap rest : List Char) → Prop
  | nil {rest : List Char} : Trivia [] rest
  | blank {c : Char} {gap rest : List Char} : Text.isBlank c → Trivia gap rest →
      Trivia (c :: gap) rest
  | blockComment {body gap rest : List Char} : ¬ ['*', '/'] <:+: body ++ ['*'] →
      Trivia gap rest → Trivia ('/' :: '*' :: body ++ '*' :: '/' :: gap) rest
  | lineComment {body gap rest : List Char} : '\n' ∉ body →
      (∀ c ∈ (gap ++ rest).head?, c = '\n') → Trivia gap rest →
      Trivia ('/' :: '/' :: body ++ gap) rest

namespace Lexer

variable {cs rest tail gap body : List Char} {c : Char} {previous : Option Char} {item : Item}

theorem not_closed_of_splitComment (h : splitComment cs = some (body, tail)) :
    ¬ ['*', '/'] <:+: body ++ ['*'] := by
  fun_induction splitComment cs generalizing body with
  | case1 => cases h
  | case2 rest =>
    cases h
    intro hin
    have hlength := hin.length_le
    simp at hlength
  | case3 c rest hnot ih =>
    simp only [Option.map_eq_some_iff, Prod.exists, Prod.mk.injEq] at h
    obtain ⟨inner, _, hinner, rfl, rfl⟩ := h
    rw [List.cons_append, List.infix_cons_iff]
    rintro (hstart | hin)
    · obtain ⟨rfl, hslash⟩ := List.cons_prefix_cons.1 hstart
      -- the slash stands in the comment, so the rest would have closed it here
      have hrest := append_of_splitComment hinner
      cases inner with
      | nil => simp at hslash
      | cons d inner =>
        obtain ⟨rfl, -⟩ := List.cons_prefix_cons.1 hslash
        exact hnot _ rfl hrest
    · exact ih hinner hin

theorem token_of_readToken (h : readToken c rest = .ok (item, tail)) :
    ∃ kind, item = .token kind := by
  unfold readToken readName at h
  grind

theorem trivia_of_readItem (h : readItem previous c rest = .ok (item, tail))
    (hne : ∀ kind, item ≠ .token kind) {after : List Char} (htail : tail = gap ++ after)
    (hgap : Trivia gap after) : Trivia (item.text ++ gap) after := by
  unfold readItem at h
  split at h
  · next hblank =>
    cases h
    exact .blank hblank hgap
  split at h
  · split at h
    · cases h
    · next hs =>
      cases h
      simpa [Item.text] using Trivia.blockComment (not_closed_of_splitComment hs) hgap
  split at h
  · cases h
    refine .lineComment ?_ ?_ hgap
    · intro hin
      simpa using List.all_eq_true.1 List.all_takeWhile _ hin
    · intro d hd
      rw [← htail] at hd
      have hstop := List.head?_dropWhile_not (· ≠ '\n') (rest.drop 1)
      rw [hd] at hstop
      simpa using hstop
  · obtain ⟨kind, rfl⟩ := token_of_readToken h
    exact absurd rfl (hne kind)

end Lexer

/-! The pieces of a text -/

/-- A token where it stands, or the end of a text, which counts as spaced. -/
structure TokenPlace where
  kind : Option TokenKind
  span : Span
  spaced : Bool
  deriving DecidableEq, Repr

def Tokens.places (tokens : Tokens) : List TokenPlace :=
  tokens.list.map (fun t => ⟨some t.kind, t.span, t.spaced⟩) ++ [⟨none, tokens.stop, true⟩]

/-- A place with what stands before it. -/
structure SourcePiece extends TokenPlace where
  gap : List Char

namespace SourcePiece

def text (p : SourcePiece) : List Char :=
  match p.kind with
  | none => []
  | some kind => kind.text.toList

def chars (p : SourcePiece) : List Char := p.gap ++ p.text

/-- The piece starts at `span` and stands before the text `rest`; a token that directly follows what
is before the piece is spaced if `spaced` says so. -/
structure Fits (span : Span) (spaced : Bool) (rest : List Char) (p : SourcePiece) : Prop where
  trivia : Trivia p.gap (p.text ++ rest)
  span : p.span = span.advance p.gap
  spaced : p.spaced = true ↔ p.gap ≠ [] ∨ spaced = true ∨ p.kind = none

/-- The pieces stand one after the other, the first of them at `span`. -/
def Laid (span : Span) (spaced : Bool) : List SourcePiece → Prop
  | [] => True
  | p :: ps => p.Fits span spaced (ps.flatMap chars) ∧ Laid (span.advance p.chars) false ps

theorem Laid.fits {span : Span} {spaced : Bool} {before after : List SourcePiece} {p : SourcePiece}
    (h : Laid span spaced (before ++ p :: after)) :
    p.Fits (span.advance (before.flatMap chars)) (spaced && before.isEmpty)
      (after.flatMap chars) := by
  induction before generalizing span spaced with
  | nil => simpa using h.1
  | cons first before ih =>
    have hrest := ih h.2
    rw [Bool.false_and] at hrest
    rw [List.flatMap_cons, Span.advance_append]
    simpa using hrest

theorem Laid.token {span : Span} {pieces : List SourcePiece} (kind : TokenKind) (spaced : Bool)
    (h : Laid (span.advance kind.text.toList) false pieces) :
    Laid span spaced (⟨⟨some kind, span, spaced⟩, []⟩ :: pieces) :=
  ⟨⟨.nil, rfl, by simp⟩, h⟩

theorem Laid.trivia {span : Span} {p : SourcePiece} {pieces : List SourcePiece} {text : List Char}
    (h : Laid (span.advance text) true (p :: pieces)) (hne : text ≠ []) (spaced : Bool)
    (htext : Trivia (text ++ p.gap) (p.text ++ pieces.flatMap chars)) :
    Laid span spaced ({ p with gap := text ++ p.gap } :: pieces) := by
  obtain ⟨⟨-, hspan, hspaced⟩, hrest⟩ := h
  refine ⟨⟨htext, ?_, ?_⟩, ?_⟩
  · rw [Span.advance_append]
    exact hspan
  · simp [hspaced, hne]
  · rw [show ({ p with gap := text ++ p.gap } : SourcePiece).chars = text ++ p.chars from
      List.append_assoc .., Span.advance_append]
    exact hrest

end SourcePiece

open Lexer in
/-- Scanning a text lays it out in pieces. -/
theorem Lexer.laid_of_scan {previous : Option Char} {span : Span} {spaced : Bool} {cs : List Char}
    {tokens : Tokens} (h : scan previous span spaced cs = .ok tokens) :
    ∃ pieces : List SourcePiece, pieces.map (·.toTokenPlace) = tokens.places ∧
      pieces.flatMap SourcePiece.chars = cs ∧ SourcePiece.Laid span spaced pieces := by
  fun_induction scan previous span spaced cs generalizing tokens with
  | case1 previous span spaced =>
    cases h
    exact ⟨[⟨⟨none, span, true⟩, []⟩], rfl, rfl, ⟨.nil, rfl, by simp⟩, trivial⟩
  | case2 => cases h
  | case3 _ _ _ _ _ _ _ _ _ _ _ hs => simp [hs] at h
  | case4 previous span spaced c rest tail kind hi found _ _ hs ih =>
    simp only [hs, Except.ok.injEq] at h
    obtain ⟨pieces, hplaces, htext, hlaid⟩ := ih hs
    refine ⟨⟨⟨some kind, span, spaced⟩, []⟩ :: pieces, ?_, ?_, .token kind spaced hlaid⟩
    · rw [List.map_cons, hplaces, ← h]
      rfl
    · rw [List.flatMap_cons, htext, text_of_readItem_token hi]
      rfl
  | case5 previous span spaced c rest item tail hi _ hi' hne ih =>
    obtain ⟨pieces, hplaces, htext, hlaid⟩ := ih h
    have hgap : ∀ kind, item ≠ .token kind := by
      rintro kind rfl
      exact hne kind hi' rfl HEq.rfl
    obtain ⟨more, hitem, hrest⟩ := text_of_readItem hi
    cases pieces with
    | nil => simp [Tokens.places] at hplaces
    | cons p pieces =>
      rw [List.flatMap_cons] at htext
      have htail : tail = p.gap ++ (p.text ++ pieces.flatMap SourcePiece.chars) := by
        rw [← htext, SourcePiece.chars, List.append_assoc]
      refine ⟨{ p with gap := item.text ++ p.gap } :: pieces, hplaces, ?_,
        hlaid.trivia (by simp [hitem]) spaced (trivia_of_readItem hi hgap htail hlaid.1.trivia)⟩
      rw [List.flatMap_cons, hitem, hrest, htail]
      simp [SourcePiece.chars, SourcePiece.text]

/-- A text is the concatenation of the texts of its tokens, the end of the text after them, and of
what stands between them. A token is at the line and column that its position gives, it is spaced if
something stands before it or it is the first one, and no word stands directly after a name. -/
theorem pieces_of_tokenize {source : String} {tokens : Tokens} (h : tokenize source = .ok tokens) :
    (∃ pieces : List SourcePiece, pieces.map (·.toTokenPlace) = tokens.places ∧
      source.toList = pieces.flatMap SourcePiece.chars ∧
      ∀ before p after, pieces = before ++ p :: after →
        Trivia p.gap (p.text ++ after.flatMap SourcePiece.chars) ∧
        p.span = .afterText (before.flatMap SourcePiece.chars ++ p.gap) ∧
        (p.spaced = true ↔ p.gap ≠ [] ∨ before = [] ∨ p.kind = none)) ∧
    tokens.list.IsChain fun a b => a.kind.isName → b.kind.isWord → b.spaced = true := by
  constructor
  · obtain ⟨pieces, hplaces, htext, hlaid⟩ := Lexer.laid_of_scan h
    refine ⟨pieces, hplaces, htext.symm, ?_⟩
    rintro before p after rfl
    obtain ⟨htrivia, hspan, hspaced⟩ := hlaid.fits
    refine ⟨htrivia, ?_, by simpa using hspaced⟩
    rw [hspan, ← Span.advance_append, Span.advance_start]
  · have hmeets := (Lexer.scans_of_scan h).meets
    rw [List.isChain_map] at hmeets
    refine hmeets.imp fun a b hab hname hword => ?_
    by_contra hspaced
    have hnot := hab ((Bool.not_eq_true _).mp hspaced) hword
    rw [show a.lexeme.kind.isName = true from hname] at hnot
    cases hnot

/-- Both kinds of comments, a quoted line feed, a word after a quote and an address. -/
theorem pieces_of_tokenize_comments :
    let source := "/*/ * */a/**/b//c // d\n$e// :'\n'//f"
    let tokens : Tokens :=
      { list :=
          [⟨.word "a", ⟨1, 9⟩, true⟩, ⟨.word "b//c", ⟨1, 14⟩, true⟩, ⟨.var "e//", ⟨2, 1⟩, true⟩,
            ⟨.colon, ⟨2, 6⟩, true⟩, ⟨.quoted .single "\n", ⟨2, 7⟩, false⟩,
            ⟨.word "//f", ⟨3, 2⟩, false⟩]
        stop := ⟨3, 5⟩ }
    tokenize source = .ok tokens ∧
    (∃ pieces : List SourcePiece, pieces.map (·.toTokenPlace) = tokens.places ∧
      source.toList = pieces.flatMap SourcePiece.chars ∧
      ∀ before p after, pieces = before ++ p :: after →
        Trivia p.gap (p.text ++ after.flatMap SourcePiece.chars) ∧
        p.span = .afterText (before.flatMap SourcePiece.chars ++ p.gap) ∧
        (p.spaced = true ↔ p.gap ≠ [] ∨ before = [] ∨ p.kind = none)) ∧
    tokens.list.IsChain fun a b => a.kind.isName → b.kind.isWord → b.spaced = true := by
  intro source tokens
  have htokens : tokenize source = .ok tokens := by decide +kernel
  exact ⟨htokens, pieces_of_tokenize htokens⟩

end NestedStyles
