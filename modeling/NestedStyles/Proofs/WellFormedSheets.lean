import NestedStyles.Proofs.BalancedValues
import NestedStyles.Proofs.RealSelectors
import NestedStyles.Proofs.ValueLayers

/-!
Parsed sheets are well formed. A section is a rule with selectors or a media wrapper with a query,
`&` and the combinators are parts of their own wherever neither quotes nor parentheses hide them,
and all values are in layers.
-/

namespace NestedStyles

/-! Marks in selectors -/

namespace Cursor

variable {cursor : Cursor} {c : Char}

/-- The characters of a text that the scan comes to outside quotes and parentheses. -/
def exposed (cursor : Cursor) : List Char → List Char
  | [] => []
  | c :: cs =>
    if cursor = outside 0 then c :: (cursor.step c).exposed cs else (cursor.step c).exposed cs

theorem exposed_append (cursor : Cursor) (cs ds : List Char) :
    cursor.exposed (cs ++ ds) = cursor.exposed cs ++ (cursor.run cs).exposed ds := by
  induction cs generalizing cursor with
  | nil => rfl
  | cons c cs ih =>
    rw [List.cons_append, exposed, exposed, run_cons, ih]
    split <;> rfl

theorem mem_of_mem_exposed {cs : List Char} (h : c ∈ cursor.exposed cs) : c ∈ cs := by
  induction cs generalizing cursor with
  | nil => exact h
  | cons d cs ih =>
    rw [exposed] at h
    split at h
    · rcases List.mem_cons.1 h with rfl | h
      · exact List.mem_cons_self
      · exact List.mem_cons_of_mem d (ih h)
    · exact List.mem_cons_of_mem d (ih h)

end Cursor

namespace Selector

def marks : List Char := ['&', '>', '+', '~']

/-- A part that shows a mark outside quotes and parentheses is that mark. -/
def Apart (part : String) : Prop :=
  ∀ mark ∈ marks, mark ∈ (Cursor.outside 0).exposed part.toList → part = mark.toString

instance (part : String) : Decidable (Apart part) :=
  List.decidableBAll _ marks

example : Apart ">" ∧ ¬ Apart "a>b" ∧ Apart "a:not(.b > c)" ∧ Apart "[title='a+b']" := by
  decide +kernel

theorem apart_singleton (c : Char) : Apart c.toString := by
  intro mark _ hin
  have hc : mark = c := by simpa using Cursor.mem_of_mem_exposed hin
  rw [hc]

end Selector

def TokenKind.isMark : TokenKind → Bool
  | .ampersand | .combinator _ => true
  | _ => false

/-- The text of the token shows a mark only where the token is that mark outside parentheses. -/
def TokenKind.Hides (kind : TokenKind) : Prop :=
  ∀ depth, ∀ mark ∈ Selector.marks, mark ∈ (Cursor.outside depth).exposed kind.text.toList →
    depth = 0 ∧ kind.isMark

namespace Lexer

variable {cs rest tail body : List Char} {c : Char} {kind : TokenKind}

theorem ofMark_of_mem_marks (h : c ∈ Selector.marks) :
    ∃ kind, TokenKind.ofMark? c = some kind ∧ kind.isMark := by
  simp only [Selector.marks, List.mem_cons, List.not_mem_nil, or_false] at h
  rcases h with rfl | rfl | rfl | rfl <;> exact ⟨_, rfl, rfl⟩

theorem hides_of_plain (h : ∀ c ∈ kind.text.toList, TokenKind.ofMark? c = none) : kind.Hides := by
  intro depth mark hm hin
  obtain ⟨found, hfound, -⟩ := ofMark_of_mem_marks hm
  rw [h mark (Cursor.mem_of_mem_exposed hin)] at hfound
  cases hfound

theorem hides_of_mark (h : TokenKind.ofMark? c = some kind) : kind.Hides := by
  intro depth mark hm hin
  obtain ⟨found, hfound, hmark⟩ := ofMark_of_mem_marks hm
  rw [text_of_mark h] at hin
  obtain rfl : mark = c := List.mem_singleton.1 (Cursor.mem_of_mem_exposed hin)
  obtain rfl : found = kind := by simpa [h] using hfound.symm
  refine ⟨?_, hmark⟩
  -- the mark is the first character, so it is shown at depth zero only
  by_contra hdepth
  simp [Cursor.exposed, hdepth] at hin

theorem exposed_of_splitQuoted {quote : Quote} (h : splitQuoted quote.char cs = some (body, tail))
    (depth : Nat) : (Cursor.quoted depth quote).exposed body = [] := by
  generalize hq : quote.char = q at h
  fun_induction splitQuoted q cs generalizing body with
  | case1 => cases h
  | case2 c rest ih =>
    simp only [Option.map_eq_some_iff, Prod.exists, Prod.mk.injEq] at h
    obtain ⟨inner, _, hinner, rfl, rfl⟩ := h
    simp [Cursor.exposed, Cursor.step, ih hinner]
  | case3 rest _ =>
    cases h
    rfl
  | case4 c rest hescape hne ih =>
    simp only [Option.map_eq_some_iff, Prod.exists, Prod.mk.injEq] at h
    obtain ⟨inner, _, hinner, rfl, rfl⟩ := h
    have hc := ne_backslash_of_splitQuoted hescape hinner
    simp [Cursor.exposed, Cursor.step, hc, hq, hne, ih hinner]

theorem hides_of_splitQuoted {quote : Quote}
    (h : splitQuoted quote.char rest = some (body, tail)) :
    (TokenKind.quoted quote (String.ofList body)).Hides := by
  intro depth mark hm hin
  have hopens : (Cursor.outside depth).step quote.char = .quoted depth quote := by
    cases quote <;> rfl
  have hshown : mark = quote.char := by
    simp only [TokenKind.text, String.toList_append, String.toList_ofList, Char.toString,
      String.toList_singleton, List.append_assoc, Cursor.exposed_append, Cursor.run_cons,
      Cursor.run_nil, hopens, exposed_of_splitQuoted h, run_of_splitQuoted h] at hin
    exact (by simpa [Cursor.exposed, hopens] using hin : depth = 0 ∧ mark = quote.char).2
  have hquote : quote.char ∉ Selector.marks := by cases quote <;> decide
  exact absurd (hshown ▸ hm) hquote

theorem hides_of_readToken (h : readToken c rest = .ok (.token kind, tail)) : kind.Hides := by
  have hword : ∀ {name : List Char}, name = (splitWord rest).1 →
      ∀ d ∈ name, TokenKind.ofMark? d = none := by
    rintro name rfl d hd
    exact (isWordChar_spec (isWordChar_of_mem_splitWord hd)).2.1
  unfold readToken at h
  split at h
  · next hk =>
    cases h
    exact hides_of_mark hk
  next hmark =>
  split at h
  · next quote hq =>
    split at h
    · cases h
    next hs =>
    cases h
    rw [← char_of_quote hq] at hs
    exact hides_of_splitQuoted hs
  split at h
  · obtain ⟨name, rfl, -, -, hsplit⟩ := plain_of_readName h
    apply hides_of_plain
    simpa [TokenKind.text, TokenKind.ofMark?] using hword (congrArg Prod.fst hsplit).symm
  split at h
  · obtain ⟨name, rfl, -, -, hsplit⟩ := plain_of_readName h
    apply hides_of_plain
    simpa [TokenKind.text, TokenKind.ofMark?] using hword (congrArg Prod.fst hsplit).symm
  · cases h
    apply hides_of_plain
    simpa [TokenKind.text, hmark] using hword rfl

end Lexer

open Lexer in
theorem hides_of_tokenize {source : String} {tokens : Tokens} (h : tokenize source = .ok tokens) :
    ∀ t ∈ tokens.list, t.kind.Hides := by
  intro t ht
  obtain ⟨_, c, rest, tail, -, hi⟩ := (scans_of_scan h).readItem (List.mem_map_of_mem ht)
  exact hides_of_readToken (readToken_of_readItem hi).1

namespace SelectorReader

open Selector

variable {tokens : List Token} {t : Token} {depth : Nat} {compound : String}

/-- The first part of a compound, with `depth` parentheses open at its end: it shows no mark. -/
structure Unmarked (depth : Nat) (compound : String) : Prop where
  run : (Cursor.outside 0).run compound.toList = .outside depth
  hidden : ∀ mark ∈ marks, mark ∉ (Cursor.outside 0).exposed compound.toList

theorem Unmarked.empty : Unmarked 0 "" := ⟨rfl, by simp [Cursor.exposed]⟩

theorem Unmarked.apart (h : Unmarked depth compound) : Apart compound :=
  fun mark hm hin => absurd hin (h.hidden mark hm)

theorem Unmarked.append {next : Nat} {text : String} (h : Unmarked depth compound)
    (hrun : (Cursor.outside depth).run text.toList = .outside next)
    (hhidden : ∀ mark ∈ marks, mark ∉ (Cursor.outside depth).exposed text.toList) :
    Unmarked next (compound ++ text) := by
  constructor
  · rw [String.toList_append, Cursor.run_append, h.run, hrun]
  · intro mark hm hin
    rw [String.toList_append, Cursor.exposed_append, h.run] at hin
    rcases List.mem_append.1 hin with hin | hin
    · exact h.hidden mark hm hin
    · exact hhidden mark hm hin

theorem Unmarked.token (h : Unmarked depth compound) (hsound : t.kind.Sound)
    (hhides : t.kind.Hides) (hmark : depth = 0 → ¬ t.kind.isMark) :
    Unmarked (t.kind.depthAfter depth) (compound ++ t.text) := by
  refine h.append (hsound depth) fun mark hm hin => ?_
  obtain ⟨hdepth, hkind⟩ := hhides depth mark hm hin
  exact hmark hdepth hkind

theorem Unmarked.blank (h : Unmarked depth compound) : Unmarked depth (compound ++ " ") := by
  refine h.append rfl fun mark hm hin => ?_
  obtain rfl : mark = ' ' := by simpa using Cursor.mem_of_mem_exposed hin
  exact absurd hm (by decide)

theorem forall_flush {P : String → Prop} {parts : Selector} (hc : P compound)
    (h : ∀ part ∈ parts, P part) : ∀ part ∈ flush compound parts, P part := by
  unfold flush
  split
  · exact h
  · exact List.forall_mem_cons.2 ⟨hc, h⟩

/-- A compound grows by what shows no mark; a mark outside parentheses ends it. -/
theorem apart_partsFrom (hsound : ∀ t ∈ tokens, t.kind.Sound) (hhides : ∀ t ∈ tokens, t.kind.Hides)
    (h : Unmarked depth compound) : ∀ part ∈ partsFrom depth compound tokens, Apart part := by
  fun_induction partsFrom depth compound tokens with
  | case1 => exact forall_flush h.apart (by simp)
  | case2 _ t rest hk ih =>
    have hmark : Apart t.text := by
      rw [Token.text, hk]
      exact apart_singleton '&'
    have hrest := ih (List.forall_mem_cons.1 hsound).2 (List.forall_mem_cons.1 hhides).2 .empty
    exact forall_flush h.apart (List.forall_mem_cons.2 ⟨hmark, hrest⟩)
  | case3 _ t rest c hk ih =>
    have hmark : Apart t.text := by
      rw [Token.text, hk]
      exact apart_singleton c.char
    have hrest := ih (List.forall_mem_cons.1 hsound).2 (List.forall_mem_cons.1 hhides).2 .empty
    exact forall_flush h.apart (List.forall_mem_cons.2 ⟨hmark, hrest⟩)
  | case4 _ t rest _ hamp hcomb _ ih =>
    obtain ⟨ht, hrest⟩ := List.forall_mem_cons.1 hsound
    obtain ⟨ht', hrest'⟩ := List.forall_mem_cons.1 hhides
    have hmark : ¬ t.kind.isMark := by cases hk : t.kind <;> simp_all [TokenKind.isMark]
    refine forall_flush h.apart (ih hrest hrest' ?_)
    simpa using Unmarked.empty.token ht ht' fun _ => hmark
  | case5 _ t rest _ hamp hcomb _ ih =>
    obtain ⟨ht, hrest⟩ := List.forall_mem_cons.1 hsound
    obtain ⟨ht', hrest'⟩ := List.forall_mem_cons.1 hhides
    have hmark : ¬ t.kind.isMark := by cases hk : t.kind <;> simp_all [TokenKind.isMark]
    exact ih hrest hrest' (h.token ht ht' fun _ => hmark)
  | case6 depth _ t rest _ hdepth ih =>
    obtain ⟨ht, hrest⟩ := List.forall_mem_cons.1 hsound
    obtain ⟨ht', hrest'⟩ := List.forall_mem_cons.1 hhides
    refine ih hrest hrest' ?_
    cases t.spaced with
    | true => exact h.blank.token ht ht' fun hzero => absurd hzero hdepth
    | false => simpa using h.token ht ht' fun hzero => absurd hzero hdepth

theorem apart_partsOf (hsound : ∀ t ∈ tokens, t.kind.Sound)
    (hhides : ∀ t ∈ tokens, t.kind.Hides) : ∀ part ∈ partsOf tokens, Apart part := by
  have hparts := apart_partsFrom hsound hhides .empty
  unfold partsOf
  simp only
  split
  · exact fun part hin => hparts part (List.mem_of_mem_tail hin)
  · exact hparts

end SelectorReader

/-! Sections and sheets -/

open SectionReader

variable {stop : Span} {all tokens rest : List Token} {s : Section}

/-- A section itself, whatever is nested in it. -/
structure Section.WellFormed (s : Section) : Prop where
  header : (s.selectors ≠ [] ∧ s.media = none) ∨ (s.selectors = [] ∧ s.media ≠ none)
  selectors : ∀ selector ∈ s.selectors, selector.Real ∧ ∀ part ∈ selector, Selector.Apart part
  extensions : ∀ target ∈ s.extensions, target ≠ ""
  attributes : ∀ a ∈ s.attributes, a.value.Layered .value
  arguments : ∀ r ∈ s.references, ∀ a ∈ r.arguments, a.Layered .item
  query : ∀ query ∈ s.media, query.Layered .value

/-- All that a sheet declares, its sections and those of its templates at every depth. -/
structure Sheet.WellFormed (sheet : Sheet) : Prop where
  declarations : ∀ d ∈ sheet.declarations, d.value.Layered .value
  sections : ∀ s ∈ sheet.sections, ∀ inner : Section, inner.Within s → inner.WellFormed
  templateAttributes : ∀ found ∈ sheet.templates, ∀ a ∈ found.attributes, a.value.Layered .value
  templateSections : ∀ found ∈ sheet.templates, ∀ s ∈ found.sections,
    ∀ inner : Section, inner.Within s → inner.WellFormed

theorem selectors_ne_nil_of_readSelectors {selectors : List Selector}
    (h : readSelectors stop tokens = .ok (selectors, rest)) : selectors ≠ [] := by
  unfold readSelectors at h
  split at h
  split at h
  · cases h
  split at h
  · cases h
  cases h
  simp

theorem Section.OpenedIn.selectors_or_media (h : s.OpenedIn stop all) :
    (s.selectors ≠ [] ∧ s.media = none) ∨ (s.selectors = [] ∧ s.media ≠ none) := by
  obtain ⟨tokens, rest, -, hopens⟩ := h
  cases hopens with
  | media _ hm =>
    obtain ⟨query, hheader⟩ := header_readMedia hm
    have hselectors : s.selectors = [] := congrArg Section.selectors hheader
    have hmedia : s.media = some query := congrArg Section.media hheader
    exact .inr ⟨hselectors, by simp [hmedia]⟩
  | rule _ _ hr =>
    obtain ⟨hheader, hselectors⟩ := header_readRule hr
    have hmedia : s.media = none := congrArg Section.media hheader
    exact .inl ⟨selectors_ne_nil_of_readSelectors hselectors, hmedia⟩

theorem SectionReader.Member.ReadIn.target_ne_empty {target : String}
    (h : (Member.extension target).ReadIn stop all) (htext : ∀ t ∈ all, t.text ≠ "") :
    target ≠ "" := by
  obtain ⟨_, rest, hall, hreads⟩ := h
  cases hreads with
  | @extension t tail _ _ _ hr =>
  have happend := before_append endsTarget tail
  unfold readTarget at hr
  split at hr
  · cases hr
  next words after hne hbefore =>
  split at hr
  · cases hr
  cases hr
  cases words with
  | nil => exact absurd rfl hne
  | cons first words =>
    rw [hbefore] at happend
    have hfirst : first ∈ t :: tail := by simp [← happend]
    intro hempty
    exact htext first (hall.subset hfirst) (String.append_eq_empty_iff.1 hempty).1

/-- What is known of the tokens of every text. -/
structure Tokens.Legal (tokens : Tokens) : Prop where
  text : ∀ t ∈ tokens.list, t.text ≠ ""
  sound : ∀ t ∈ tokens.list, t.kind.Sound
  hides : ∀ t ∈ tokens.list, t.kind.Hides

theorem Section.ReadIn.wellFormed {tokens : Tokens} (ht : tokens.Legal)
    (h : s.ReadIn tokens.stop tokens.list) (ho : s.OpenedIn tokens.stop tokens.list) :
    s.WellFormed := by
  obtain ⟨hattributes, hextensions, hreferences, -, -⟩ := h
  refine ⟨ho.selectors_or_media, fun selector hs => ⟨ho.real ht.text selector hs, ?_⟩,
    ?_, ?_, ?_, ?_⟩
  · obtain ⟨alternative, -, hmem, rfl⟩ := ho.partsOf selector hs
    exact SelectorReader.apart_partsOf (fun t hin => ht.sound t (hmem t hin))
      fun t hin => ht.hides t (hmem t hin)
  · exact fun target hin => (hextensions target hin).target_ne_empty ht.text
  · exact fun a ha => (hattributes a ha).valueReadIn.layered ht.text
  · exact fun r hr => (hreferences r hr).argumentsReadIn.layered ht.text
  · exact fun query hq => (ho.queryReadIn query hq).layered ht.text

theorem Sheet.wellFormed_of_parse {name source : String} {sheet : Sheet}
    (h : Sheet.parse name source = .ok sheet) : sheet.WellFormed := by
  obtain ⟨tokens, ht, hread⟩ := Sheet.readIn_of_parse h
  have hlegal : tokens.Legal :=
    ⟨text_ne_of_tokenize ht, sound_of_tokenize ht, hides_of_tokenize ht⟩
  constructor
  · intro d hd
    obtain ⟨_, after, rest, hall, hr⟩ := hread.declarations d hd
    exact ((readIn_of_readDeclaration hr).mono hall).layered hlegal.text
  · intro s hs inner hin
    obtain ⟨hs, hopened⟩ := hread.sections s hs
    obtain ⟨hinner, hheader⟩ := hs.within hopened hin
    exact hinner.wellFormed hlegal hheader
  · exact fun found hf a ha =>
      (hread.templateAttributes found hf a ha).valueReadIn.layered hlegal.text
  · intro found hf s hs inner hin
    obtain ⟨hs, hopened, -⟩ := hread.templates found hf s hs
    obtain ⟨hinner, hheader⟩ := hs.within hopened hin
    exact hinner.wellFormed hlegal hheader

/-- A template, a rule that calls and extends, and a media wrapper inside the rule. -/
theorem Sheet.wellFormed_of_parse_card :
    let source := "@func m($p) \x7b b \x7b y: '>'; \x7d \x7d .a > b:not(c > d) \x7b " ++
      "@extend .t; @func m(1 2); z: (1, 2)$w; @media print \x7b & q \x7b r: f(s) \x7d \x7d \x7d"
    let wrapper : Section :=
      { nested := [{ selectors := [["q"]], attributes := [⟨"r", .call "f" [.text "s"]⟩] }]
        media := some (.text "print") }
    let rule : Section :=
      { selectors := [[".a", ">", "b:not(c > d)"]]
        attributes := [⟨"z", .list .concat
          [.text "(", .list .comma [.text "1", .text "2"], .text ")", .var "w"]⟩]
        nested := [wrapper]
        extensions := [".t"]
        references := [⟨"m", [.list .space [.text "1", .text "2"]]⟩] }
    let template : Template :=
      { name := "m"
        parameters := ["p"]
        sections := [{ selectors := [["b"]], attributes := [⟨"y", .text "'>'"⟩] }] }
    let sheet : Sheet := { name := "card", templates := [template], sections := [rule] }
    Sheet.parse "card" source = .ok sheet ∧ sheet.WellFormed := by
  intro source wrapper rule template sheet
  have hparse : Sheet.parse "card" source = .ok sheet := by decide +kernel
  exact ⟨hparse, Sheet.wellFormed_of_parse hparse⟩

end NestedStyles
