import NestedStyles.Proofs.RoundTrip
import NestedStyles.Proofs.WholeRules

/-!
Pretty and minified text have the same tokens. Whole texts without comments are split into tokens
wherever they stand, and all that the two layouts differ in are blanks beside a brace, a colon, a
comma or a semicolon.
-/

namespace NestedStyles

open Lexer

/-! Whole texts as tokens -/

namespace Text

/-- Nothing in the text opens a comment. -/
structure CommentFree (cs : List Char) : Prop where
  line : ¬ ['/', '/'] <:+: cs
  block : ¬ ['/', '*'] <:+: cs

variable {cs ds rest : List Char} {c : Char}

theorem CommentFree.part (h : CommentFree cs) (hd : ds <:+: cs) : CommentFree ds :=
  ⟨fun hin => h.line (hin.trans hd), fun hin => h.block (hin.trans hd)⟩

theorem CommentFree.not_opens (h : CommentFree cs) : opensBlockComment cs = false := by
  rw [← Bool.not_eq_true, opensBlockComment_iff]
  exact fun hpair => h.block hpair.isInfix

theorem Whole.of_plain (h : Whole (c :: rest)) (hquote : Quote.of? c = none) (hdollar : c ≠ '$')
    (hat : c ≠ '@') : Whole rest := by
  cases h with
  | char _ _ _ hrest => exact hrest
  | sigil hc =>
    rcases hc with rfl | rfl
    · exact absurd rfl hdollar
    · exact absurd rfl hat
  | quoted =>
    rw [quote_of_char] at hquote
    cases hquote

theorem Whole.splitWord (h : Whole cs) : Whole (splitWord cs).2 := by
  fun_induction Lexer.splitWord cs with
  | case1 => exact .nil
  | case2 c rest hc word tail hw ih =>
    simp only [Bool.and_eq_true] at hc
    obtain ⟨-, -, hquote, hdollar, hat⟩ := isWordChar_spec hc.1
    simp only [hw] at ih
    exact ih (h.of_plain hquote hdollar hat)
  | case3 => exact h

end Text

namespace Lexer

variable {cs ds rest : List Char} {c : Char} {kinds more : List TokenKind} {kind : TokenKind}

theorem readName_of_whole {d : Char} {found : String → TokenKind} {problem : Problem}
    (hd : isWordChar d = true) (hopens : opensBlockComment (d :: cs) = false)
    (h : Text.Whole cs) : ∃ kind tail, readName found problem (d :: cs) = .ok (.token kind, tail) ∧
      Text.Whole tail := by
  have hsplit : splitWord (d :: cs) = (d :: (splitWord cs).1, (splitWord cs).2) := by
    rw [splitWord, if_pos (by simp [hd, hopens])]
  refine ⟨found (String.ofList (d :: (splitWord cs).1)), (splitWord cs).2, ?_, h.splitWord⟩
  simp only [readName, hsplit]

theorem readToken_of_whole (h : Text.Whole (c :: rest)) (hf : Text.CommentFree rest) :
    ∃ kind tail, readToken c rest = .ok (.token kind, tail) ∧ Text.Whole tail := by
  cases h with
  | char hquote hdollar hat hrest =>
    cases hmark : TokenKind.ofMark? c with
    | some kind => exact ⟨kind, rest, by simp [readToken, hmark], hrest⟩
    | none =>
      refine ⟨.word (String.ofList (c :: (splitWord rest).1)), _, ?_, hrest.splitWord⟩
      simp [readToken, hmark, hquote, hdollar, hat]
  | @sigil _ d cs hc hd hcs =>
    have hname : ∀ found problem, ∃ kind tail,
        readName found problem (d :: cs) = .ok (.token kind, tail) ∧ Text.Whole tail :=
      fun _ _ => readName_of_whole hd hf.not_opens hcs
    rcases hc with rfl | rfl
    · simpa [readToken, TokenKind.ofMark?, Quote.of?] using hname .var .namelessVariable
    · simpa [readToken, TokenKind.ofMark?, Quote.of?] using hname .directive .namelessDirective
  | @quoted quote body cs hbody hcs =>
    have hsplit : splitQuoted quote.char (body ++ quote.char :: cs) = some (body, cs) :=
      splitQuoted_append hbody (quote_ne_backslash quote) cs
    have hmark : TokenKind.ofMark? quote.char = none := by cases quote <;> rfl
    refine ⟨.quoted quote (String.ofList body), cs, ?_, hcs⟩
    simp [readToken, hmark, quote_of_char, hsplit]

/-- The text has tokens of these kinds, wherever it stands: after a name it has to start with
something that does not continue the name. -/
def Tells (cs : List Char) (kinds : List TokenKind) : Prop :=
  ∀ g, (g = .name → Ends cs) → ∃ ls last, Spells g ls cs last ∧ ls.map (·.kind) = kinds

theorem Tells.nil : Tells [] [] := fun g _ => ⟨[], g, .nil g, rfl⟩

theorem Tells.blank (h : Tells cs kinds) (hc : Text.isBlank c) : Tells (c :: cs) kinds := by
  intro g _
  obtain ⟨ls, last, hs, hkinds⟩ := h .blank (by simp)
  exact ⟨ls, last, .blank hc hs, hkinds⟩

theorem Tells.token (h : Tells cs kinds) (hp : kind.Plain) (hends : kind.isName → Ends cs) :
    Tells (kind.text.toList ++ cs) (kind :: kinds) := by
  intro g hg
  have hname : kind.gap = .name → Ends cs := by
    intro hgap
    refine hends ?_
    by_contra hnot
    simp [TokenKind.gap, hnot] at hgap
  obtain ⟨ls, last, hs, hkinds⟩ := h kind.gap hname
  refine ⟨_, last, .token hp ?_ hs, by rw [List.map_cons, hkinds]⟩
  -- a word starts with a word character, so it does not stand directly after a name
  intro hword hgap
  obtain ⟨c, more, htext, hchar⟩ := head_of_word (TokenKind.plain_iff.1 hp).1 hword
  have hnot := hg hgap c (by simp [htext])
  rw [hchar] at hnot
  cases hnot

theorem Ends.of_append (h : Ends (cs ++ ds)) : Ends cs := by
  intro c hc
  cases cs with
  | nil => cases hc
  | cons => exact h c hc

theorem Tells.trailing (h : Tells cs kinds) : Tells (cs ++ [' ']) kinds := by
  intro g hg
  obtain ⟨ls, last, hs, hkinds⟩ := h g fun hgap => (hg hgap).of_append
  exact ⟨ls ++ [], .blank, hs.append (.blank rfl (.nil _)), by simpa using hkinds⟩

theorem Tells.punctuate (h : Tells cs kinds) (k : Tells ds more) (kind : TokenKind)
    (hp : kind.Plain) (hk : kind.isName = false) (blank : Bool) :
    Tells (cs ++ (kind.text.toList ++ ((if blank then [' '] else []) ++ ds)))
      (kinds ++ kind :: more) := by
  intro g hg
  obtain ⟨ls, last, hs, rfl⟩ := h g fun hgap => (hg hgap).of_append
  obtain ⟨ms, final, hms, rfl⟩ := k (if blank then .blank else .mark) (by cases blank <;> simp)
  exact ⟨_, final, hs.append (.punctuated hp hk hms), by simp⟩

theorem readItem_of_whole (h : Text.Whole (c :: rest)) (hf : Text.CommentFree (c :: rest))
    (hblank : Text.isBlank c = false) :
    ∃ kind tail, readItem none c rest = .ok (.token kind, tail) ∧ Text.Whole tail := by
  have hrest := hf.part (List.suffix_cons c rest).isInfix
  rw [readItem_eq_readToken hblank (fun hp => hf.block hp.isInfix) fun hp => hf.line hp.isInfix]
  exact readToken_of_whole h hrest

theorem quote_of_blank (h : Text.isBlank c = true) : Quote.of? c = none ∧ c ≠ '$' ∧ c ≠ '@' := by
  refine ⟨?_, ?_, ?_⟩
  · cases hq : Quote.of? c with
    | none => rfl
    | some quote =>
      rw [← char_of_quote hq] at h
      cases quote <;> cases h
  · rintro rfl
    cases h
  · rintro rfl
    cases h

/-- Every whole text without comments is split into tokens. -/
theorem tells_of_whole (h : Text.Whole cs) (hf : Text.CommentFree cs) :
    ∃ kinds, Tells cs kinds := by
  induction hn : cs.length using Nat.strongRecOn generalizing cs with
  | ind n ih =>
  cases cs with
  | nil => exact ⟨[], .nil⟩
  | cons c rest =>
    by_cases hblank : Text.isBlank c = true
    · obtain ⟨hquote, hdollar, hat⟩ := quote_of_blank hblank
      obtain ⟨kinds, hkinds⟩ := ih rest.length (by simp [← hn])
        (h.of_plain hquote hdollar hat) (hf.part (List.suffix_cons c rest).isInfix) rfl
      exact ⟨kinds, hkinds.blank hblank⟩
    · obtain ⟨kind, tail, hitem, htail⟩ := readItem_of_whole h hf (by simpa using hblank)
      obtain ⟨hplain, hstops⟩ := plain_of_readItem hitem fun hp => hf.line hp.isInfix
      obtain ⟨more, htext, rfl⟩ := text_of_readItem hitem
      have hwritten : c :: (more ++ tail) = kind.text.toList ++ tail := by
        rw [show kind.text.toList = c :: more from htext, List.cons_append]
      have hfree : Text.CommentFree tail := hf.part ⟨c :: more, [], by simp⟩
      have hshorter : tail.length < n := by
        simp only [← hn, List.length_cons, List.length_append]
        omega
      obtain ⟨kinds, hkinds⟩ := ih tail.length hshorter htail hfree rfl
      rw [hwritten]
      refine ⟨kind :: kinds, hkinds.token hplain fun hname d hd => ?_⟩
      by_contra hword
      have hcomment := hstops hname d hd (by simpa using hword)
      rw [hfree.not_opens] at hcomment
      cases hcomment

end Lexer

/-! The texts of the output -/

namespace FlatRule

/-- The selectors, attribute names and values that a rule is written with. -/
def texts (content : List Selector × List Attribute) : List (List Char) :=
  content.1.map Selector.chars ++ content.2.flatMap fun a => [a.name.toList, a.value.chars]

variable {content : List Selector × List Attribute}

theorem selector_mem_texts {s : Selector} (h : s ∈ content.1) : s.chars ∈ texts content :=
  List.mem_append_left _ (List.mem_map_of_mem h)

theorem attribute_mem_texts {a : Attribute} (h : a ∈ content.2) :
    a.name.toList ∈ texts content ∧ a.value.chars ∈ texts content :=
  ⟨List.mem_append_right _ (List.mem_flatMap.2 ⟨a, h, by simp⟩),
    List.mem_append_right _ (List.mem_flatMap.2 ⟨a, h, by simp⟩)⟩

theorem whole_texts (hs : ∀ s ∈ content.1, Selector.Whole s)
    (ha : ∀ a ∈ content.2, Attribute.Whole a) : ∀ text ∈ texts content, Text.Whole text := by
  refine List.forall_mem_append.2 ⟨?_, ?_⟩
  · intro text ht
    obtain ⟨s, hin, rfl⟩ := List.mem_map.1 ht
    refine Text.Whole.intercalate Text.joinable_whole.blank ?_
    intro text ht
    obtain ⟨part, hpart, rfl⟩ := List.mem_map.1 ht
    exact hs s hin part hpart
  · intro text ht
    obtain ⟨a, hin, ht⟩ := List.mem_flatMap.1 ht
    rcases List.mem_pair.1 ht with rfl | rfl
    · exact (ha a hin).name
    · exact (ha a hin).value.chars

end FlatRule

namespace Printer

variable {p : Printer} {ls : List Lexeme} {kinds more : List TokenKind} {kind : TokenKind}
  {cs body : List Char}

/-! What is written can be seen -/

/-- The text occurs in what was written. -/
def Shows (p : Printer) (cs : List Char) : Prop := cs <:+: p.text.toList

theorem Shows.write (h : p.Shows cs) (text : String) : (p.write text).Shows cs := by
  unfold Printer.write
  split
  · exact h
  · simp only [Shows, String.toList_append, List.append_assoc]
    exact h.trans (List.infix_append' [] _ _)

theorem shows_write (p : Printer) (text : String) : (p.write text).Shows text.toList := by
  unfold Printer.write
  split
  · next hempty => simp [Shows, hempty]
  · simp only [Shows, String.toList_append]
    exact (List.suffix_append _ _).isInfix

theorem Shows.lineBreak (h : p.Shows cs) : p.lineBreak.Shows cs := by
  simp only [Shows, Printer.lineBreak, String.toList_append]
  exact h.trans (List.prefix_append _ _).isInfix

theorem Shows.softBreak (h : p.Shows cs) : p.softBreak.Shows cs := by
  unfold Printer.softBreak
  split
  · exact h
  · exact h.lineBreak

theorem Shows.writeAttribute (h : p.Shows cs) (a : Attribute) : (p.writeAttribute a).Shows cs := by
  rw [writeAttribute_eq]
  exact (h.write _).softBreak

theorem shows_writeAttribute (p : Printer) (a : Attribute) :
    (p.writeAttribute a).Shows a.name.toList ∧ (p.writeAttribute a).Shows a.value.chars := by
  refine ⟨(((shows_write p a.name).write _).write _).write _ |>.softBreak, ?_⟩
  exact ((shows_write _ a.value.render).write _).softBreak

theorem shows_writeAttributes {as : List Attribute}
    (h : p.Shows cs ∨ ∃ a ∈ as, cs = a.name.toList ∨ cs = a.value.chars) :
    (as.foldl writeAttribute p).Shows cs := by
  induction as generalizing p with
  | nil => simpa using h
  | cons a as ih =>
    refine ih ?_
    rcases h with h | ⟨b, hb, htext⟩
    · exact .inl (h.writeAttribute a)
    rcases List.mem_cons.1 hb with rfl | hb
    · obtain ⟨hname, hvalue⟩ := p.shows_writeAttribute b
      rcases htext with rfl | rfl
      · exact .inl hname
      · exact .inl hvalue
    · exact .inr ⟨b, hb, htext⟩

theorem infix_intercalate {sep text : List Char} {texts : List (List Char)} (h : text ∈ texts) :
    text <:+: sep.intercalate texts := by
  induction texts with
  | nil => cases h
  | cons first rest ih =>
    cases rest with
    | nil =>
      rw [List.mem_singleton.1 h]
      simp
    | cons second later =>
      rw [List.intercalate_cons_cons]
      rcases List.mem_cons.1 h with rfl | h
      · rw [List.append_assoc]
        exact (List.prefix_append _ _).isInfix
      · exact (ih h).trans (List.suffix_append _ _).isInfix

theorem Shows.deeper (h : p.Shows cs) : p.deeper.Shows cs := h

theorem Shows.shallower (h : p.Shows cs) : p.shallower.Shows cs := h

theorem shows_selectorText (p : Printer) {selectors : List Selector} {s : Selector}
    (h : s ∈ selectors) : (p.write (p.selectorText selectors)).Shows s.chars := by
  refine List.IsInfix.trans ?_ (shows_write p (p.selectorText selectors))
  rw [toList_selectorText]
  exact infix_intercalate (List.mem_map_of_mem h)

theorem writeRule_eq (p : Printer) (r : FlatRule) : p.writeRule r =
    (writeChildren (r.attributes.foldl writeAttribute
      ((p.write (p.selectorText r.selectors)).choose " \x7b" "\x7b").softBreak.deeper)
      r.children).shallower.write "\x7d" := by
  cases r
  rfl

mutual
theorem shows_writeRule (p : Printer) : ∀ r : FlatRule,
    (p.Shows cs ∨ ∃ content ∈ r.contents, cs ∈ FlatRule.texts content) → (p.writeRule r).Shows cs
  | ⟨selectors, attributes, children⟩, h => by
    have hopened : ((p.write (p.selectorText selectors)).Shows cs ∨
        ∃ a ∈ attributes, cs = a.name.toList ∨ cs = a.value.chars) ∨
        ∃ content ∈ FlatRule.contentsAll children, cs ∈ FlatRule.texts content := by
      rw [FlatRule.contents, List.exists_mem_cons_iff] at h
      rcases h with h | h | h
      · exact .inl (.inl (h.write _))
      · rcases List.mem_append.1 h with h | h
        · obtain ⟨s, hs, rfl⟩ := List.mem_map.1 h
          exact .inl (.inl (p.shows_selectorText hs))
        · obtain ⟨a, ha, htext⟩ := List.mem_flatMap.1 h
          exact .inl (.inr ⟨a, ha, List.mem_pair.1 htext⟩)
      · exact .inr h
    rw [writeRule_eq]
    refine Shows.write (Shows.shallower ?_) _
    refine shows_writeChildren _ children (hopened.imp_left fun h => ?_)
    exact shows_writeAttributes (h.imp_left fun h => (h.write _).softBreak.deeper)
theorem shows_writeChildren (p : Printer) : ∀ rules : List FlatRule,
    (p.Shows cs ∨ ∃ content ∈ FlatRule.contentsAll rules, cs ∈ FlatRule.texts content) →
      (p.writeChildren rules).Shows cs
  | [], h => by
    rw [writeChildren]
    simpa [FlatRule.contentsAll] using h
  | r :: rest, h => by
    rw [writeChildren]
    refine shows_writeChildren _ rest ?_
    rw [FlatRule.contentsAll] at h
    rcases h with h | ⟨content, hin, htext⟩
    · exact .inl (shows_writeRule p r (.inl h)).softBreak
    · rcases List.mem_append.1 hin with hin | hin
      · exact .inl (shows_writeRule p r (.inr ⟨content, hin, htext⟩)).softBreak
      · exact .inr ⟨content, hin, htext⟩
end

theorem shows_writeRules {rules : List FlatRule}
    (h : p.Shows cs ∨ ∃ content ∈ FlatRule.contentsAll rules, cs ∈ FlatRule.texts content) :
    (p.writeRules rules).Shows cs := by
  induction rules generalizing p with
  | nil => simpa [FlatRule.contentsAll, writeRules] using h
  | cons r rest ih =>
    refine ih ?_
    rw [FlatRule.contentsAll] at h
    rcases h with h | ⟨content, hin, htext⟩
    · exact .inl (shows_writeRule p r (.inl h)).lineBreak.softBreak
    · rcases List.mem_append.1 hin with hin | hin
      · exact .inl (shows_writeRule p r (.inr ⟨content, hin, htext⟩)).lineBreak.softBreak
      · exact .inr ⟨content, hin, htext⟩

/-! What is written is read as tokens -/

/-- Whatever was written before, `f` writes tokens of these kinds, pretty or minified. -/
def Adds (f : Printer → Printer) (kinds : List TokenKind) : Prop :=
  ∀ (p : Printer) (ls : List Lexeme), p.Holds ls →
    ∃ ms, (f p).Holds (ls ++ ms) ∧ ms.map (·.kind) = kinds

theorem Adds.quiet {f : Printer → Printer} (hf : ∀ p ls, Holds p ls → (f p).Holds ls) :
    Adds f [] := by
  intro p ls h
  exact ⟨[], by simpa using hf p ls h, rfl⟩

theorem Adds.comp {f k : Printer → Printer} (hf : Adds f kinds) (hk : Adds k more) :
    Adds (fun p => k (f p)) (kinds ++ more) := by
  intro p ls h
  obtain ⟨ms, hms, rfl⟩ := hf p ls h
  obtain ⟨ns, hns, rfl⟩ := hk _ _ hms
  exact ⟨ms ++ ns, by simpa using hns, by simp⟩

theorem Holds.writeMark {body : String} (h : p.Holds ls) (hb : Tells body.toList kinds)
    (kind : TokenKind) (hp : kind.Plain) (hk : kind.isName = false) :
    ∃ ms, (p.write (body ++ kind.text)).Holds (ls ++ ms) ∧ ms.map (·.kind) = kinds ++ [kind] := by
  have hne : body ++ kind.text ≠ "" := fun hempty =>
    hp.text_ne (String.append_eq_empty_iff.1 hempty).2
  refine h.write hne fun g hg => ?_
  obtain ⟨ms, last, hs, rfl⟩ := hb g fun hname => absurd hname hg
  have hmark : Spells last [⟨kind, decide (last = .blank)⟩] kind.text.toList kind.gap := by
    simpa using Spells.mark hp (TokenKind.isWord_of_not_name hk) (.nil kind.gap)
  refine ⟨ms ++ [⟨kind, decide (last = .blank)⟩], kind.gap, ?_, ?_, by simp⟩
  · simp [TokenKind.gap, hk]
  · rw [String.toList_append]
    exact hs.append hmark

theorem adds_writeAttribute {a : Attribute} (hn : Tells a.name.toList kinds)
    (hv : Tells a.value.chars more) :
    Adds (·.writeAttribute a) (kinds ++ .colon :: more ++ [.semicolon]) := by
  intro p ls h
  have hbody : Tells (a.name ++ (if p.minify then ":" else ": ") ++ a.value.render).toList
      (kinds ++ .colon :: more) := by
    have hcolon := hn.punctuate hv .colon trivial rfl (!p.minify)
    cases hm : p.minify <;> simpa [hm, TokenKind.text, Expr.chars] using hcolon
  obtain ⟨ms, hms, hkinds⟩ := h.writeMark hbody .semicolon trivial rfl
  refine ⟨ms, ?_, hkinds⟩
  simp only [writeAttribute_eq]
  exact hms.softBreak

theorem adds_writeAttributes {as : List Attribute}
    (h : ∀ a ∈ as, (∃ kinds, Tells a.name.toList kinds) ∧ ∃ kinds, Tells a.value.chars kinds) :
    ∃ kinds, Adds (as.foldl writeAttribute ·) kinds := by
  induction as with
  | nil => exact ⟨[], .quiet fun _ _ hp => hp⟩
  | cons a as ih =>
    obtain ⟨⟨⟨names, hnames⟩, ⟨values, hvalues⟩⟩, has⟩ := List.forall_mem_cons.1 h
    obtain ⟨kinds, hkinds⟩ := ih has
    exact ⟨_, (adds_writeAttribute hnames hvalues).comp hkinds⟩

theorem tells_selectors {selectors : List Selector}
    (h : ∀ s ∈ selectors, ∃ kinds, Tells s.chars kinds) :
    ∃ kinds, ∀ p : Printer, Tells (p.selectorText selectors).toList kinds := by
  simp only [toList_selectorText]
  induction selectors with
  | nil => exact ⟨[], fun _ => .nil⟩
  | cons s rest ih =>
    obtain ⟨⟨kinds, hs⟩, hrest⟩ := List.forall_mem_cons.1 h
    cases rest with
    | nil => exact ⟨kinds, fun _ => by simpa using hs⟩
    | cons other others =>
      obtain ⟨more, hmore⟩ := ih hrest
      refine ⟨kinds ++ .comma :: more, fun p => ?_⟩
      have hcomma := hs.punctuate (hmore p) .comma trivial rfl (!p.minify)
      simpa [List.intercalate_cons_cons, TokenKind.text] using hcomma

theorem adds_writeHeader {selectors : List Selector}
    (h : ∀ s ∈ selectors, ∃ kinds, Tells s.chars kinds) :
    ∃ kinds, Adds (fun p => (p.write (p.selectorText selectors)).choose " \x7b" "\x7b") kinds := by
  obtain ⟨kinds, hkinds⟩ := tells_selectors h
  refine ⟨kinds ++ [.openBrace], fun p ls hp => ?_⟩
  have hbody : Tells (p.selectorText selectors ++ if p.minify then "" else " ").toList kinds := by
    rw [String.toList_append]
    cases p.minify with
    | true => simpa using hkinds p
    | false => exact (hkinds p).trailing
  have hbrace : (p.write (p.selectorText selectors)).choose " \x7b" "\x7b" =
      p.write ((p.selectorText selectors ++ if p.minify then "" else " ") ++
        TokenKind.openBrace.text) := by
    rw [choose, write_write, minify_write, String.append_assoc]
    cases p.minify <;> rfl
  simp only [hbrace]
  exact hp.writeMark hbody .openBrace trivial rfl

theorem Adds.writeRule (r : FlatRule) {header members nested : List TokenKind}
    (hh : Adds (fun p => (p.write (p.selectorText r.selectors)).choose " \x7b" "\x7b") header)
    (hm : Adds (r.attributes.foldl writeAttribute ·) members)
    (hn : Adds (·.writeChildren r.children) nested) :
    Adds (·.writeRule r) (header ++ members ++ nested ++ [.closeBrace]) := by
  intro p ls hp
  have hnone : Tells "".toList [] := .nil
  obtain ⟨hs, hheld, rfl⟩ := hh p ls hp
  obtain ⟨as, hheld, rfl⟩ := hm _ _ hheld.softBreak.deeper
  obtain ⟨cs, hheld, rfl⟩ := hn _ _ hheld
  obtain ⟨bs, hheld, hbs⟩ := hheld.shallower.writeMark hnone .closeBrace trivial rfl
  refine ⟨hs ++ as ++ cs ++ bs, ?_, by simp [hbs]⟩
  simp only [writeRule_eq]
  simpa [TokenKind.text] using hheld

mutual
/-- A rule whose texts are split into tokens is written as tokens. -/
theorem adds_writeRule : ∀ r : FlatRule,
    (∀ content ∈ r.contents, ∀ text ∈ FlatRule.texts content, ∃ kinds, Tells text kinds) →
      ∃ kinds, Adds (·.writeRule r) kinds
  | ⟨selectors, attributes, children⟩, h => by
    rw [FlatRule.contents] at h
    obtain ⟨hown, hinside⟩ := List.forall_mem_cons.1 h
    obtain ⟨header, hheader⟩ := adds_writeHeader fun s hs =>
      hown _ (FlatRule.selector_mem_texts hs)
    obtain ⟨members, hmembers⟩ := adds_writeAttributes fun a ha =>
      ⟨hown _ (FlatRule.attribute_mem_texts ha).1, hown _ (FlatRule.attribute_mem_texts ha).2⟩
    obtain ⟨nested, hnested⟩ := adds_writeChildren children hinside
    exact ⟨_, .writeRule ⟨selectors, attributes, children⟩ hheader hmembers hnested⟩
theorem adds_writeChildren : ∀ rules : List FlatRule,
    (∀ content ∈ FlatRule.contentsAll rules, ∀ text ∈ FlatRule.texts content,
      ∃ kinds, Tells text kinds) → ∃ kinds, Adds (·.writeChildren rules) kinds
  | [], _ => ⟨[], .quiet fun p ls hp => by simpa [writeChildren] using hp⟩
  | r :: rest, h => by
    rw [FlatRule.contentsAll] at h
    obtain ⟨hr, hrest⟩ := List.forall_mem_append.1 h
    obtain ⟨kinds, hkinds⟩ := adds_writeRule r hr
    obtain ⟨more, hmore⟩ := adds_writeChildren rest hrest
    have hbreak : Adds softBreak [] := .quiet fun _ _ hp => hp.softBreak
    have hboth := (hkinds.comp hbreak).comp hmore
    exact ⟨_, fun p ls hp => by simpa only [writeChildren] using hboth p ls hp⟩
end

theorem adds_writeRules {rules : List FlatRule}
    (h : ∀ content ∈ FlatRule.contentsAll rules, ∀ text ∈ FlatRule.texts content,
      ∃ kinds, Tells text kinds) : ∃ kinds, Adds (·.writeRules rules) kinds := by
  induction rules with
  | nil => exact ⟨[], .quiet fun p ls hp => hp⟩
  | cons r rest ih =>
    rw [FlatRule.contentsAll] at h
    obtain ⟨hr, hrest⟩ := List.forall_mem_append.1 h
    obtain ⟨kinds, hkinds⟩ := adds_writeRule r hr
    obtain ⟨more, hmore⟩ := ih hrest
    have hbreak : Adds (fun p => p.lineBreak.softBreak) [] :=
      .quiet fun _ _ hp => hp.lineBreak.softBreak
    exact ⟨_, (hkinds.comp hbreak).comp hmore⟩

theorem Adds.tokenize {f : Printer → Printer} (h : Adds f kinds) (minify : Bool) :
    ∃ tokens, tokenize (f { minify := minify }).text = .ok tokens ∧
      tokens.list.map (·.kind) = kinds := by
  have hstart : ({ minify := minify } : Printer).Holds [] :=
    ⟨.blank, by simp, .nil _, fun _ _ => rfl⟩
  obtain ⟨ms, hms, rfl⟩ := h _ _ hstart
  obtain ⟨tokens, htokens, hlexemes⟩ := tokenize_of_holds hms
  exact ⟨tokens, htokens, kinds_of_lexemes hlexemes⟩

end Printer

/-- The pretty and the minified text of a compilation have the same tokens, unless something in the
pretty text could be taken for a comment. -/
theorem css_tokens_eq {sources : Sources} {name source : String} {c : Compilation}
    (h : compileSource (.ofSources sources) name source = .ok c)
    (hline : ¬ ['/', '/'] <:+: (c.css false).toList)
    (hblock : ¬ ['/', '*'] <:+: (c.css false).toList) :
    ∃ pretty minified, tokenize (c.css false) = .ok pretty ∧ tokenize (c.css true) = .ok minified ∧
      pretty.list.map (fun t => (t.kind, t.text)) =
        minified.list.map fun t => (t.kind, t.text) := by
  have htexts : ∀ content ∈ FlatRule.contentsAll c.rules, ∀ text ∈ FlatRule.texts content,
      ∃ kinds, Tells text kinds := by
    intro content hin text htext
    obtain ⟨hselectors, hattributes⟩ := whole_of_compileSource h hin
    have hshown : ({} : Printer).writeRules c.rules |>.Shows text :=
      Printer.shows_writeRules (.inr ⟨content, hin, htext⟩)
    exact tells_of_whole (FlatRule.whole_texts hselectors hattributes text htext)
      (Text.CommentFree.part ⟨hline, hblock⟩ hshown)
  obtain ⟨kinds, hkinds⟩ := Printer.adds_writeRules htexts
  obtain ⟨pretty, hpretty, hp⟩ := hkinds.tokenize false
  obtain ⟨minified, hminified, hm⟩ := hkinds.tokenize true
  refine ⟨pretty, minified, hpretty, hminified, ?_⟩
  have hpairs : ∀ tokens : List Token, tokens.map (fun t => (t.kind, t.text)) =
      (tokens.map (·.kind)).map fun kind => (kind, kind.text) := by
    intro tokens
    rw [List.map_map]
    rfl
  rw [hpairs, hpairs, hp, hm]

/-- Glued selectors, a call in a value, quoted marks, a variable that is not bound and a rule in a
container. -/
theorem css_tokens_eq_imported :
    let sources : Sources :=
      [("base.bss", "$w: 1px; @func box($c)\x7bborder: $w $c; &:after\x7bcontent: 'a;b'\x7d\x7d")]
    let source := "@import base; .a, b>i\x7b@func box(rgb(1,$w)); " ++
      "@media (min-width: $w)\x7bz: '\x7d' $none\x7d\x7d"
    ∃ c, compileSource (.ofSources sources) "main.bss" source = .ok c ∧
      c.css true = "@media (min-width: 1px)\x7b.a,b > i\x7bz:'\x7d' $none;\x7d\x7d\n" ++
        ".a,b > i\x7bborder:1px rgb(1, 1px);\x7d\n.a:after,b > i:after\x7bcontent:'a;b';\x7d\n" ∧
      ¬ ['/', '/'] <:+: (c.css false).toList ∧ ¬ ['/', '*'] <:+: (c.css false).toList ∧
      ∃ pretty minified, tokenize (c.css false) = .ok pretty ∧
        tokenize (c.css true) = .ok minified ∧
        pretty.list.map (fun t => (t.kind, t.text)) =
          minified.list.map fun t => (t.kind, t.text) := by
  intro sources source
  have hrun : ((compileSource (.ofSources sources) "main.bss" source).toOption.map fun c =>
      (c.css true, decide ('/' ∈ (c.css false).toList))) =
      some ("@media (min-width: 1px)\x7b.a,b > i\x7bz:'\x7d' $none;\x7d\x7d\n" ++
        ".a,b > i\x7bborder:1px rgb(1, 1px);\x7d\n.a:after,b > i:after\x7bcontent:'a;b';\x7d\n",
        false) := by
    decide +kernel
  cases hc : compileSource (.ofSources sources) "main.bss" source with
  | error e => simp [hc, Except.toOption] at hrun
  | ok c =>
    simp only [hc, Except.toOption, Option.map_some, Option.some.injEq, Prod.mk.injEq,
      decide_eq_false_iff_not] at hrun
    obtain ⟨hcss, hslash⟩ := hrun
    have hnone : ∀ d, ¬ ['/', d] <:+: (c.css false).toList :=
      fun d hin => hslash (hin.subset (by simp))
    exact ⟨c, rfl, hcss, hnone '/', hnone '*', css_tokens_eq hc (hnone '/') (hnone '*')⟩

end NestedStyles
