import NestedStyles.Proofs.Lexemes
import Mathlib.Data.List.Chain
import Mathlib.Data.List.Infix

/-!
Texts that are read as given lexemes. Tokens are written one after the other, with blanks before
those that are spaced; a word is never written directly after a name, which it would continue. The
lexemes of every text can be written again in this way.
-/

namespace NestedStyles

open Lexer Text

namespace TokenKind

/-- Tokens that the word characters after them would continue. -/
def isName : TokenKind → Bool
  | word _ | var _ | directive _ => true
  | _ => false

def isWord : TokenKind → Bool
  | word _ => true
  | _ => false

/-- The text of a token is read as this token, where nothing after it continues it. -/
def Plain : TokenKind → Prop
  | word text =>
    text ≠ "" ∧ splitWord text.toList = (text.toList, []) ∧ ¬ ['/', '/'] <+: text.toList
  | var name | directive name => name ≠ "" ∧ splitWord name.toList = (name.toList, [])
  | quoted quote body =>
    splitQuoted quote.char (body.toList ++ [quote.char]) = some (body.toList, [])
  | _ => True

/-- Nothing inside the text of a token ends it. A word of this kind may start with two slashes, so
that after some characters its text is read as a comment. -/
def Unbroken : TokenKind → Prop
  | word text => text ≠ "" ∧ splitWord text.toList = (text.toList, [])
  | kind => kind.Plain

theorem head_of_not_word {kind : TokenKind} {cs : List Char} (hw : kind.isWord = false) (c : Char)
    (hc : c ∈ (kind.text.toList ++ cs).head?) : isWordChar c = false := by
  cases kind with
  | word => cases hw
  | var | directive =>
    simp only [TokenKind.text, String.toList_append] at hc
    cases hc
    decide
  | quoted quote body =>
    simp [TokenKind.text] at hc
    subst hc
    cases quote <;> decide
  | combinator k => cases k <;> (cases hc; decide)
  | _ => cases hc; decide

theorem plain_iff {kind : TokenKind} :
    kind.Plain ↔ kind.Unbroken ∧ ¬ ['/', '/'] <+: kind.text.toList := by
  have hother : kind.isWord = false → ¬ ['/', '/'] <+: kind.text.toList := by
    rintro hw ⟨rest, hrest⟩
    have hhead : '/' ∈ (kind.text.toList ++ []).head? := by simp [← hrest]
    exact absurd (head_of_not_word hw '/' hhead) (by decide)
  cases kind with
  | word text => exact ⟨fun ⟨hne, hself, hline⟩ => ⟨⟨hne, hself⟩, hline⟩,
      fun ⟨⟨hne, hself⟩, hline⟩ => ⟨hne, hself, hline⟩⟩
  | _ => exact ⟨fun h => ⟨h, hother rfl⟩, And.left⟩

theorem Unbroken.text_ne {kind : TokenKind} (h : kind.Unbroken) : kind.text ≠ "" := by
  cases kind with
  | word => exact h.1
  | combinator c => cases c <;> decide
  | var | directive | quoted => simp [TokenKind.text]
  | _ => decide

theorem Plain.text_ne {kind : TokenKind} (h : kind.Plain) : kind.text ≠ "" :=
  (plain_iff.1 h).1.text_ne

theorem isName_of_isWord {kind : TokenKind} (h : kind.isWord) : kind.isName := by
  cases kind <;> simp_all [isWord, isName]

end TokenKind

/-! Reading a token back -/

namespace Lexer

variable {cs tail : List Char} {c : Char}

def Ends (tail : List Char) : Prop := ∀ c ∈ tail.head?, isWordChar c = false

theorem opensBlockComment_iff : opensBlockComment cs = true ↔ ['/', '*'] <+: cs := by
  unfold opensBlockComment
  split
  · simp
  · next hnot =>
    simp only [Bool.false_eq_true, false_iff]
    rintro ⟨rest, rfl⟩
    exact hnot rest rfl

theorem slashes_of_opensLineComment {previous : Option Char}
    (h : opensLineComment previous cs = true) : ['/', '/'] <+: cs := by
  unfold opensLineComment at h
  split at h
  · simp
  · cases h

theorem pair_prefix_append {a b : Char} (h : [a, b] <+: cs ++ tail) (hne : cs ≠ []) :
    [a, b] <+: cs ∨ b ∈ tail.head? := by
  match cs, hne with
  | [d], _ =>
    right
    cases tail with
    | nil => simp at h
    | cons e rest =>
      simp only [List.singleton_append, List.cons_prefix_cons, List.nil_prefix, and_true] at h
      simp [h.2]
  | d :: e :: rest, _ =>
    left
    simpa using h

theorem opens_append (previous : Option Char) (ht : Ends tail) :
    opensBlockComment (c :: (cs ++ tail)) = opensBlockComment (c :: cs) ∧
      opensLineComment previous (c :: (cs ++ tail)) = opensLineComment previous (c :: cs) := by
  cases cs with
  | cons d cs =>
    unfold opensBlockComment opensLineComment
    constructor <;> split <;> split <;> simp_all
  | nil =>
    cases tail with
    | nil => exact ⟨rfl, rfl⟩
    | cons d tail =>
      have hd : d ≠ '*' ∧ d ≠ '/' := by
        constructor <;> rintro rfl <;> exact absurd (ht _ rfl) (by decide)
      simp [opensBlockComment, opensLineComment, hd]

theorem splitWord_cons (h : splitWord (c :: cs) = (c :: cs, [])) :
    isWordChar c = true ∧ opensBlockComment (c :: cs) = false ∧ splitWord cs = (cs, []) := by
  rw [splitWord] at h
  split at h
  · next hword =>
    simp only [Bool.and_eq_true, Bool.not_eq_true'] at hword
    simp only [Prod.mk.injEq, List.cons.injEq, true_and] at h
    exact ⟨hword.1, hword.2, Prod.ext h.1 h.2⟩
  · simp at h

theorem head_of_word {kind : TokenKind} (h : kind.Unbroken) (hw : kind.isWord) :
    ∃ c more, kind.text.toList = c :: more ∧ isWordChar c = true := by
  cases kind with
  | word text =>
    obtain ⟨hne, hself⟩ := h
    obtain ⟨c, more, hmore⟩ := List.exists_cons_of_ne_nil
      (fun hnil => hne (String.toList_eq_nil_iff.1 hnil))
    rw [hmore] at hself
    exact ⟨c, more, hmore, (splitWord_cons hself).1⟩
  | _ => cases hw

theorem splitWord_append_ends (cs : List Char) (ht : Ends tail) :
    splitWord (cs ++ tail) = ((splitWord cs).1, (splitWord cs).2 ++ tail) := by
  induction cs with
  | nil =>
    cases tail with
    | nil => rfl
    | cons d tail => simp [splitWord, ht d rfl]
  | cons c cs ih =>
    rw [List.cons_append, splitWord, splitWord, (opens_append none ht).1, ih]
    split <;> rfl

theorem splitQuoted_cons {quote : Char} (hc : c ≠ '\\') (rest : List Char) :
    splitQuoted quote (c :: rest) =
      if c = quote then some ([], rest)
      else (splitQuoted quote rest).map fun (body, tail) => (c :: body, tail) := by
  rw [splitQuoted]
  intro d later heq
  exact absurd heq hc

/-- A backslash that escapes nothing ends the text, so no quote is found after it. -/
theorem ne_backslash_of_splitQuoted {quote : Char} {rest : List Char}
    {found : List Char × List Char}
    (hnot : ∀ d later, c = '\\' → rest = d :: later → False)
    (h : splitQuoted quote rest = some found) : c ≠ '\\' := by
  rintro rfl
  cases rest with
  | nil => cases h
  | cons d later => exact hnot d later rfl rfl

theorem splitQuoted_append {quote : Char} {body rest : List Char}
    (h : splitQuoted quote cs = some (body, rest)) (hq : quote ≠ '\\') (tail : List Char) :
    splitQuoted quote (body ++ quote :: tail) = some (body, tail) := by
  fun_induction splitQuoted quote cs generalizing body with
  | case1 => cases h
  | case2 c rest ih =>
    simp only [Option.map_eq_some_iff, Prod.exists, Prod.mk.injEq] at h
    obtain ⟨b, t, hb, rfl, rfl⟩ := h
    rw [List.cons_append, List.cons_append, splitQuoted, ih hb]
    rfl
  | case3 =>
    cases h
    rw [List.nil_append, splitQuoted_cons hq, if_pos rfl]
  | case4 c rest hnot hc ih =>
    simp only [Option.map_eq_some_iff, Prod.exists, Prod.mk.injEq] at h
    obtain ⟨b, t, hb, rfl, rfl⟩ := h
    have hslash := ne_backslash_of_splitQuoted hnot hb
    rw [List.cons_append, splitQuoted_cons hslash, if_neg hc, ih hb]
    rfl

theorem quote_ne_backslash (quote : Quote) : quote.char ≠ '\\' := by
  cases quote <;> decide

theorem quote_of_char (quote : Quote) : Quote.of? quote.char = some quote := by
  cases quote <;> rfl

theorem isWordChar_spec (h : isWordChar c = true) : isBlank c = false ∧
    TokenKind.ofMark? c = none ∧ Quote.of? c = none ∧ c ≠ '$' ∧ c ≠ '@' := by
  simpa [isWordChar, and_assoc] using h

theorem readItem_of_not_opens {rest : List Char} {previous : Option Char} (hb : isBlank c = false)
    (hblock : opensBlockComment (c :: rest) = false)
    (hline : opensLineComment previous (c :: rest) = false) :
    readItem previous c rest = readToken c rest := by
  rw [readItem, if_neg (by simp [hb]), if_neg (by simp [hblock]), if_neg (by simp [hline])]

theorem readItem_eq_readToken {rest : List Char} (hb : isBlank c = false)
    (hblock : ¬ ['/', '*'] <+: c :: rest) (hline : ¬ ['/', '/'] <+: c :: rest)
    (previous : Option Char) : readItem previous c rest = readToken c rest := by
  apply readItem_of_not_opens hb
  · rwa [← Bool.not_eq_true, opensBlockComment_iff]
  · rw [← Bool.not_eq_true]
    exact fun h => hline (slashes_of_opensLineComment h)

theorem readItem_of_ne_slash {rest : List Char} (hb : isBlank c = false) (hc : c ≠ '/')
    (previous : Option Char) : readItem previous c rest = readToken c rest := by
  apply readItem_eq_readToken hb <;> simp [hc.symm]

theorem readItem_mark {kind : TokenKind} (hk : TokenKind.ofMark? c = some kind)
    (previous : Option Char) (rest : List Char) :
    readItem previous c rest = .ok (.token kind, rest) := by
  have hc : isBlank c = false ∧ c ≠ '/' := by
    unfold TokenKind.ofMark? at hk
    split at hk
    all_goals first
      | cases hk; done
      | exact ⟨by decide, by decide⟩
  rw [readItem_of_ne_slash hc.1 hc.2, readToken, hk]

theorem readItem_quoted {quote : Quote} {body : String}
    (h : (TokenKind.quoted quote body).Plain) (previous : Option Char) (tail : List Char) :
    readItem previous quote.char (body.toList ++ quote.char :: tail) =
      .ok (.token (.quoted quote body), tail) := by
  have hc : isBlank quote.char = false ∧ quote.char ≠ '/' ∧
      TokenKind.ofMark? quote.char = none := by
    cases quote <;> decide
  have hbody := splitQuoted_append h (quote_ne_backslash quote) tail
  rw [readItem_of_ne_slash hc.1 hc.2.1, readToken, hc.2.2, quote_of_char]
  simp only [hbody, String.ofList_toList]

theorem readName_of_plain {kind : String → TokenKind} {problem : Problem} {name : String}
    (hne : name ≠ "") (h : splitWord name.toList = (name.toList, [])) (ht : Ends tail) :
    readName kind problem (name.toList ++ tail) = .ok (.token (kind name), tail) := by
  rw [readName, splitWord_append_ends _ ht, h, List.nil_append]
  cases hn : name.toList with
  | nil => exact absurd (String.toList_eq_nil_iff.1 hn) hne
  | cons c rest => simp only [← hn, String.ofList_toList]

theorem readItem_word {text : String} {previous : Option Char}
    (h : (TokenKind.word text).Unbroken) (ht : Ends tail)
    (hline : opensLineComment previous (text.toList ++ tail) = false) :
    ∃ c rest, text.toList ++ tail = c :: rest ∧
      readItem previous c rest = .ok (.token (.word text), tail) := by
  obtain ⟨hne, hsplit⟩ := h
  cases hc : text.toList with
  | nil => exact absurd (String.toList_eq_nil_iff.1 hc) hne
  | cons c rest =>
    rw [hc] at hsplit hline
    obtain ⟨hword, hopens, hrest⟩ := splitWord_cons hsplit
    obtain ⟨hblank, hmark, hquote, hdollar, hat⟩ := isWordChar_spec hword
    have hblock := (opens_append previous ht).1.trans hopens
    rw [List.cons_append] at hline
    refine ⟨c, rest ++ tail, rfl, ?_⟩
    rw [readItem_of_not_opens hblank hblock hline, readToken, hmark]
    simp only [hquote, hdollar, hat, if_false, splitWord_append_ends _ ht, hrest,
      List.nil_append]
    rw [← hc, String.ofList_toList]

theorem readItem_of_unbroken {kind : TokenKind} {previous : Option Char} (h : kind.Unbroken)
    (ht : kind.isName → Ends tail)
    (hline : opensLineComment previous (kind.text.toList ++ tail) = false) :
    ∃ c rest, kind.text.toList ++ tail = c :: rest ∧
      readItem previous c rest = .ok (.token kind, tail) := by
  cases kind with
  | word text => exact readItem_word h (ht rfl) hline
  | var name =>
    refine ⟨'$', name.toList ++ tail, by simp [TokenKind.text], ?_⟩
    rw [readItem_of_ne_slash (by decide) (by decide)]
    exact readName_of_plain h.1 h.2 (ht rfl)
  | directive name =>
    refine ⟨'@', name.toList ++ tail, by simp [TokenKind.text], ?_⟩
    rw [readItem_of_ne_slash (by decide) (by decide)]
    exact readName_of_plain h.1 h.2 (ht rfl)
  | quoted quote body =>
    exact ⟨quote.char, body.toList ++ quote.char :: tail, by simp [TokenKind.text],
      readItem_quoted h previous tail⟩
  | ampersand | colon | semicolon | comma | openBrace | closeBrace | openParen | closeParen =>
    exact ⟨_, tail, rfl, readItem_mark rfl previous tail⟩
  | combinator c => cases c <;> exact ⟨_, tail, rfl, readItem_mark rfl previous tail⟩

theorem slashes_of_append {kind : TokenKind} (hne : kind.text ≠ "") (ht : kind.isName → Ends tail)
    (h : ['/', '/'] <+: kind.text.toList ++ tail) : ['/', '/'] <+: kind.text.toList := by
  have hslash : isWordChar '/' = true := by decide
  rcases pair_prefix_append h (by simpa using hne) with hin | hnext
  · exact hin
  · have hword : kind.isWord = true := by
      by_contra hnot
      obtain ⟨rest, hrest⟩ := h
      have hhead := TokenKind.head_of_not_word (by simpa using hnot) '/'
        (show '/' ∈ (kind.text.toList ++ tail).head? by simp [← hrest])
      rw [hslash] at hhead
      cases hhead
    rw [ht (TokenKind.isName_of_isWord hword) '/' hnext] at hslash
    cases hslash

theorem readItem_of_plain {kind : TokenKind} (h : kind.Plain) (ht : kind.isName → Ends tail)
    (previous : Option Char) :
    ∃ c rest, kind.text.toList ++ tail = c :: rest ∧
      readItem previous c rest = .ok (.token kind, tail) := by
  obtain ⟨hunbroken, hslashes⟩ := TokenKind.plain_iff.1 h
  refine readItem_of_unbroken hunbroken ht ?_
  rw [← Bool.not_eq_true]
  intro hopens
  exact hslashes (slashes_of_append hunbroken.text_ne ht (slashes_of_opensLineComment hopens))

end Lexer

/-! Writing lexemes -/

/-- What stands before a place in a text. -/
inductive Gap
  /-- A blank, or nothing at all. -/
  | blank
  /-- A token that a word can follow directly. -/
  | mark
  /-- A token that a word would continue. -/
  | name
  deriving DecidableEq, Repr

def TokenKind.gap (kind : TokenKind) : Gap := if kind.isName then .name else .mark

theorem TokenKind.gap_ne_blank (kind : TokenKind) : kind.gap ≠ .blank := by
  unfold TokenKind.gap
  split <;> simp

theorem TokenKind.isWord_of_not_name {kind : TokenKind} (h : kind.isName = false) :
    kind.isWord = false := by
  by_contra hword
  rw [isName_of_isWord (by simpa using hword)] at h
  cases h

/-- A text spells lexemes: it has their tokens in order, and blanks before those that are spaced.
The gaps are what stands before it and at its end. -/
inductive Spells : Gap → List Lexeme → List Char → Gap → Prop
  | nil (g : Gap) : Spells g [] [] g
  | blank {g last : Gap} {c : Char} {ls : List Lexeme} {cs : List Char} :
      isBlank c → Spells .blank ls cs last → Spells g ls (c :: cs) last
  | token {g last : Gap} {kind : TokenKind} {ls : List Lexeme} {cs : List Char} :
      kind.Plain → (kind.isWord → g ≠ .name) → Spells kind.gap ls cs last →
      Spells g (⟨kind, decide (g = .blank)⟩ :: ls) (kind.text.toList ++ cs) last

namespace Spells

variable {g last final : Gap} {ls ms : List Lexeme} {cs ds : List Char} {kind : TokenKind}

theorem append (h : Spells g ls cs last) (k : Spells last ms ds final) :
    Spells g (ls ++ ms) (cs ++ ds) final := by
  induction h with
  | nil => exact k
  | blank hc _ ih => exact .blank hc (ih k)
  | token hp hw _ ih =>
    rw [List.cons_append, List.append_assoc]
    exact .token hp hw (ih k)

theorem mark (hp : kind.Plain) (hw : kind.isWord = false) (h : Spells kind.gap ls cs last) :
    Spells g (⟨kind, decide (g = .blank)⟩ :: ls) (kind.text.toList ++ cs) last :=
  .token hp (by simp [hw]) h

theorem parted {spaced : Bool} (hp : kind.Plain) (hblank : spaced = false → g ≠ .blank)
    (hname : spaced = false → kind.isWord → g ≠ .name) (h : Spells kind.gap ls cs last) :
    Spells g (⟨kind, spaced⟩ :: ls)
      ((if spaced then [' '] else []) ++ (kind.text.toList ++ cs)) last := by
  cases spaced with
  | true => exact .blank rfl (.token hp (by simp) h)
  | false => simpa [hblank] using Spells.token hp (hname rfl) h

theorem punctuated {blank : Bool} (hp : kind.Plain) (hk : kind.isName = false)
    (h : Spells (if blank then .blank else .mark) ls cs last) :
    Spells g (⟨kind, decide (g = .blank)⟩ :: ls)
      (kind.text.toList ++ ((if blank then [' '] else []) ++ cs)) last := by
  refine .mark hp (TokenKind.isWord_of_not_name hk) ?_
  cases blank with
  | true => exact .blank rfl h
  | false => simpa [TokenKind.gap, hk] using h

theorem ends (h : Spells .name ls cs last) : Ends cs := by
  generalize hg : Gap.name = g at h
  intro c hc
  cases h with
  | nil => cases hc
  | blank hblank =>
    cases hc
    simp [isWordChar, hblank]
  | @token _ _ kind _ _ _ hw _ =>
    subst hg
    have hword : kind.isWord = false := by
      by_contra hnot
      exact hw (by simpa using hnot) rfl
    exact TokenKind.head_of_not_word hword c hc

/-- A text that spells lexemes is read as these. -/
theorem scans (h : Spells g ls cs last) (previous : Option Char) :
    Scans previous (decide (g = .blank)) cs ls := by
  induction h generalizing previous with
  | nil => exact .done
  | @blank g last c ls cs hc _ ih =>
    have hitem : readItem previous c cs = .ok (.blank c, cs) := by rw [readItem, if_pos hc]
    exact .gap hitem (fun kind h => by cases h) (ih _)
  | @token g last kind ls cs hp _ hrest ih =>
    have hends : kind.isName → Ends cs := by
      intro hname
      rw [TokenKind.gap, if_pos hname] at hrest
      exact hrest.ends
    obtain ⟨c, rest, htext, hitem⟩ := readItem_of_plain hp hends previous
    rw [htext]
    rw [decide_eq_false kind.gap_ne_blank] at ih
    exact .token hitem (ih _)

end Spells

/-! The lexemes of a text -/

/-- A word stands directly after no name. -/
def Lexeme.Meets (a b : Lexeme) : Prop :=
  b.spaced = false → b.kind.isWord → a.kind.isName = false

namespace Lexer

variable {cs rest tail : List Char} {c : Char} {previous : Option Char} {kind : TokenKind}

theorem splitWord_self (cs : List Char) :
    splitWord (splitWord cs).1 = ((splitWord cs).1, []) := by
  fun_induction splitWord cs with
  | case1 => rfl
  | case2 c rest hc word tail hw ih =>
    simp only [hw] at ih
    simp only [Bool.and_eq_true, Bool.not_eq_true'] at hc
    have hopens : opensBlockComment (c :: word) = false := by
      have happend := splitWord_append rest
      rw [hw] at happend
      rw [← Bool.not_eq_true, opensBlockComment_iff] at hc ⊢
      intro hpair
      apply hc.2
      rw [← happend]
      exact hpair.trans (List.prefix_append (c :: word) tail)
    rw [splitWord, if_pos (by simp [hc.1, hopens]), ih]
  | case3 => rfl

theorem splitWord_stops (cs : List Char) (hc : c ∈ (splitWord cs).2.head?)
    (hword : isWordChar c = true) : opensBlockComment (splitWord cs).2 = true := by
  fun_induction splitWord cs with
  | case1 => cases hc
  | case2 d rest _ word tail hw ih =>
    simp only [hw] at ih
    exact ih hc
  | case3 d rest hd =>
    cases hc
    simpa [hword] using hd

theorem readToken_of_readItem (h : readItem previous c rest = .ok (.token kind, tail)) :
    readToken c rest = .ok (.token kind, tail) ∧ isBlank c = false ∧
      opensBlockComment (c :: rest) = false := by
  unfold readItem at h
  split at h
  · cases h
  next hblank =>
  split at h
  · split at h <;> cases h
  next hopens =>
  split at h
  · cases h
  · exact ⟨h, by simpa using hblank, by simpa using hopens⟩

theorem plain_of_readName {kind : String → TokenKind} {problem : Problem} {found : TokenKind}
    (h : readName kind problem rest = .ok (.token found, tail)) :
    ∃ name, found = kind name ∧ name ≠ "" ∧ splitWord name.toList = (name.toList, []) ∧
      splitWord rest = (name.toList, tail) := by
  have hself := splitWord_self rest
  unfold readName at h
  split at h
  · cases h
  next name after hne hs =>
  cases h
  rw [hs] at hself
  refine ⟨String.ofList name, rfl, ?_, by simpa using hself, by simpa using hs⟩
  intro hempty
  exact hne (by simpa using congrArg String.toList hempty)

/-- Tokens that are read are unbroken. A name ends where no word character comes next, or a
comment. -/
theorem unbroken_of_readItem (h : readItem previous c rest = .ok (.token kind, tail)) :
    kind.Unbroken ∧ (kind.isName → ∀ d ∈ tail.head?, isWordChar d = true →
      opensBlockComment tail = true) := by
  obtain ⟨h, hblank, hopens⟩ := readToken_of_readItem h
  have hnames : ∀ {kind : String → TokenKind} {problem : Problem} {found : TokenKind},
      readName kind problem rest = .ok (.token found, tail) →
      ∃ name, found = kind name ∧ (name ≠ "" ∧ splitWord name.toList = (name.toList, [])) ∧
        ∀ d ∈ tail.head?, isWordChar d = true → opensBlockComment tail = true := by
    intro kind problem found hn
    obtain ⟨name, hkind, hne, hself, hs⟩ := plain_of_readName hn
    refine ⟨name, hkind, ⟨hne, hself⟩, fun d hd hword => ?_⟩
    have hstops := splitWord_stops rest (by rwa [hs]) hword
    rwa [hs] at hstops
  unfold readToken at h
  split at h
  · next hmark =>
    cases h
    unfold TokenKind.ofMark? at hmark
    split at hmark <;> cases hmark <;> exact ⟨trivial, by simp [TokenKind.isName]⟩
  next hmark =>
  split at h
  · next quote hquote =>
    split at h
    · cases h
    next body after hs =>
    cases h
    rw [← char_of_quote hquote] at hs
    refine ⟨?_, by simp [TokenKind.isName]⟩
    have hbody := splitQuoted_append hs (quote_ne_backslash quote) []
    simpa [TokenKind.Unbroken, TokenKind.Plain] using hbody
  next hquote =>
  split at h
  · obtain ⟨name, rfl, hplain, hstops⟩ := hnames h
    exact ⟨hplain, fun _ => hstops⟩
  next hdollar =>
  split at h
  · obtain ⟨name, rfl, hplain, hstops⟩ := hnames h
    exact ⟨hplain, fun _ => hstops⟩
  next hat =>
  cases h
  have hword : isWordChar c = true := by
    simp [isWordChar, hblank, hmark, hquote, hdollar, hat]
  have hsplit : splitWord (c :: rest) = (c :: (splitWord rest).1, (splitWord rest).2) := by
    rw [splitWord, if_pos (by simp [hword, hopens])]
  have hself := splitWord_self (c :: rest)
  rw [hsplit] at hself
  exact ⟨⟨by simp, by simpa using hself⟩, fun _ d hd hchar => splitWord_stops rest hd hchar⟩

theorem text_of_readItem_token (h : readItem previous c rest = .ok (.token kind, tail)) :
    c :: rest = kind.text.toList ++ tail := by
  obtain ⟨more, htext, rfl⟩ := text_of_readItem h
  rw [show kind.text.toList = c :: more from htext, List.cons_append]

theorem plain_of_readItem (h : readItem previous c rest = .ok (.token kind, tail))
    (hslashes : ¬ ['/', '/'] <+: c :: rest) :
    kind.Plain ∧ (kind.isName → ∀ d ∈ tail.head?, isWordChar d = true →
      opensBlockComment tail = true) := by
  obtain ⟨hunbroken, hstops⟩ := unbroken_of_readItem h
  refine ⟨TokenKind.plain_iff.2 ⟨hunbroken, fun hpair => hslashes ?_⟩, hstops⟩
  rw [text_of_readItem_token h]
  exact hpair.trans (List.prefix_append _ _)

theorem Scans.spaced_head {spaced : Bool} {ls : List Lexeme} (h : Scans previous spaced cs ls)
    (hspaced : spaced = true) : ∀ l ∈ ls.head?, l.spaced = true := by
  induction h with
  | done => simp
  | token => simp [hspaced]
  | gap _ _ _ ih => exact ih rfl

theorem Scans.read_head {spaced : Bool} {ls : List Lexeme} (h : Scans previous spaced cs ls)
    {l : Lexeme} (hl : l ∈ ls.head?) (hspaced : l.spaced = false) :
    ∃ c rest tail, cs = c :: rest ∧ Lexer.readItem previous c rest = .ok (.token l.kind, tail) := by
  cases h with
  | done => cases hl
  | gap _ _ hs =>
    rw [hs.spaced_head rfl l hl] at hspaced
    cases hspaced
  | token hi _ =>
    cases hl
    exact ⟨_, _, _, rfl, hi⟩

theorem Scans.unbroken {spaced : Bool} {ls : List Lexeme} (h : Scans previous spaced cs ls) :
    ∀ l ∈ ls, l.kind.Unbroken := by
  intro l hl
  obtain ⟨_, _, _, _, -, hi⟩ := h.readItem hl
  exact (unbroken_of_readItem hi).1

/-- No lexeme of a text is a word directly after a name: a word that starts where a name ended would
have been part of the name. -/
theorem Scans.meets {spaced : Bool} {ls : List Lexeme} (h : Scans previous spaced cs ls) :
    ls.IsChain Lexeme.Meets := by
  induction h with
  | done => exact .nil
  | gap _ _ _ ih => exact ih
  | @token previous spaced c rest tail kind ls hi hs ih =>
    refine ih.cons fun next hnext hspaced hword => ?_
    obtain ⟨d, later, _, rfl, hread⟩ := hs.read_head hnext hspaced
    have hopens := (readToken_of_readItem hread).2.2
    obtain ⟨e, more, htext, hchar⟩ := head_of_word (unbroken_of_readItem hread).1 hword
    obtain ⟨rfl, -⟩ := List.cons.inj ((text_of_readItem_token hread).trans (by rw [htext]; rfl))
    by_contra hname
    have hcomment := (unbroken_of_readItem hi).2 (by simpa using hname) d rfl hchar
    rw [hopens] at hcomment
    cases hcomment

theorem Scans.plain {spaced : Bool} {ls : List Lexeme} (h : Scans previous spaced cs ls)
    (hslashes : ¬ ['/', '/'] <:+: cs) :
    (∀ l ∈ ls, l.kind.Plain) ∧ ls.IsChain Lexeme.Meets := by
  refine ⟨fun l hl => ?_, h.meets⟩
  obtain ⟨_, _, _, _, hin, hi⟩ := h.readItem hl
  exact (plain_of_readItem hi fun hp => hslashes (hp.isInfix.trans hin.isInfix)).1

end Lexer

/-- Tokens whose texts can be written one after the other as they stand. -/
structure Legible (tokens : List Token) : Prop where
  plain : ∀ t ∈ tokens, t.kind.Plain
  meets : (tokens.map Token.lexeme).IsChain Lexeme.Meets

theorem legible_of_tokenize {source : String} {tokens : Tokens}
    (h : tokenize source = .ok tokens) (hslashes : ¬ ['/', '/'] <:+: source.toList) :
    Legible tokens.list := by
  obtain ⟨hplain, hmeets⟩ := (scans_of_scan h).plain hslashes
  exact ⟨fun t ht => hplain _ (List.mem_map_of_mem ht), hmeets⟩

theorem Legible.part {tokens part : List Token} (h : Legible tokens) (hp : part <:+: tokens) :
    Legible part :=
  ⟨fun t ht => h.plain t (hp.subset ht), List.IsChain.infix h.meets (hp.map _)⟩

theorem Legible.tail {t : Token} {tokens : List Token} (h : Legible (t :: tokens)) :
    Legible tokens :=
  h.part (List.suffix_cons ..).isInfix

theorem Legible.gap_ne_name {t u : Token} {tokens : List Token} (h : Legible (t :: tokens))
    (hu : u ∈ tokens.head?) (hspaced : u.spaced = false) (hword : u.kind.isWord) :
    t.kind.gap ≠ .name := by
  cases tokens with
  | nil => cases hu
  | cons v rest =>
    cases hu
    have hname : t.kind.isName = false := (List.isChain_cons_cons.1 h.meets).1 hspaced hword
    simp [TokenKind.gap, hname]

end NestedStyles
