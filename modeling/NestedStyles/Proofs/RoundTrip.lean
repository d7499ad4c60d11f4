import NestedStyles.Proofs.HeaderSpelling
import NestedStyles.Proofs.Provenance
import NestedStyles.Printer

/-!
Parsing undoes writing. The rule of a parsed section is written piece by piece, and each piece
spells tokens that the reader takes for what was written: an attribute of the open section, a nested
section, or the block of the whole rule.
-/

namespace NestedStyles

open Lexer SelectorReader SectionReader SheetReader

variable {stop : Span} {all tokens rest : List Token} {s : Section} {p : Printer}
  {ls ms : List Lexeme}

mutual
/-- A section as a rule, with nothing expanded. -/
def Section.toFlatRule : Section → FlatRule
  | ⟨selectors, attributes, nested, _, _, _⟩ => ⟨selectors, attributes, toFlatRules nested⟩
def Section.toFlatRules : List Section → List FlatRule
  | [] => []
  | s :: rest => s.toFlatRule :: toFlatRules rest
end

/-- A section that its rule tells all about: neither it nor a section in it is a media wrapper,
extends or refers to anything, and no attribute has a name with parentheses. -/
structure Section.Writable (s : Section) : Prop where
  selectors : ∀ inner : Section, inner.Within s → inner.selectors ≠ []
  extensions : ∀ inner : Section, inner.Within s → inner.extensions = []
  references : ∀ inner : Section, inner.Within s → inner.references = []
  names : ∀ inner : Section, inner.Within s → ∀ a ∈ inner.attributes,
    '(' ∉ a.name.toList ∧ ')' ∉ a.name.toList

theorem Section.Writable.nested {inner : Section} (h : s.Writable) (hin : inner ∈ s.nested) :
    inner.Writable :=
  ⟨fun i hi => h.selectors i (.nested hin hi), fun i hi => h.extensions i (.nested hin hi),
    fun i hi => h.references i (.nested hin hi), fun i hi => h.names i (.nested hin hi)⟩

/-! What a printer holds -/

theorem Spells.blanks (n : Nat) : Spells .blank [] (List.replicate n ' ') .blank := by
  induction n with
  | zero => exact .nil _
  | succ n ih => exact .blank rfl ih

namespace Printer

@[simp] theorem minify_write (p : Printer) (text : String) : (p.write text).minify = p.minify := by
  unfold write
  split <;> rfl

theorem write_write (p : Printer) (a b : String) : (p.write a).write b = p.write (a ++ b) := by
  by_cases ha : a = ""
  · simp [write, ha]
  · by_cases hb : b = ""
    · simp [write, hb]
    · simp [write, ha, hb, String.append_assoc]

/-- The text spells lexemes, and a word can be written after it. Only after blanks is a line
indented. -/
def Holds (p : Printer) (ls : List Lexeme) : Prop :=
  ∃ g, g ≠ .name ∧ Spells .blank ls p.text.toList g ∧
    (p.lineStart → p.minify = false → g = .blank)

theorem Holds.write {text : String} {told : List Lexeme → Prop} (h : p.Holds ls)
    (hne : text ≠ "") (hs : ∀ g, g ≠ .name → ∃ ms last, last ≠ .name ∧
      Spells g ms text.toList last ∧ told ms) :
    ∃ ms, (p.write text).Holds (ls ++ ms) ∧ told ms := by
  obtain ⟨g, hg, hold, hline⟩ := h
  obtain ⟨ms, last, hlast, hms, htold⟩ := hs g hg
  refine ⟨ms, ⟨last, hlast, ?_, by simp [Printer.write, hne]⟩, htold⟩
  have hmargin : Spells g [] (if p.lineStart && !p.minify then indentation p.indent else "").toList
      g := by
    split
    · next hindent =>
      simp only [Bool.and_eq_true, Bool.not_eq_true'] at hindent
      rw [hline hindent.1 hindent.2, indentation, String.toList_ofList]
      exact .blanks _
    · exact .nil g
  simpa [Printer.write, hne] using (hold.append hmargin).append hms

theorem Holds.lineBreak (h : p.Holds ls) : p.lineBreak.Holds ls := by
  obtain ⟨g, -, hold, -⟩ := h
  have hbreak : Spells g [] ['\n'] .blank := .blank rfl (.nil _)
  exact ⟨.blank, by simp, by simpa [Printer.lineBreak] using hold.append hbreak, fun _ _ => rfl⟩

theorem Holds.softBreak (h : p.Holds ls) : p.softBreak.Holds ls := by
  unfold Printer.softBreak
  split
  · exact h
  · exact h.lineBreak

theorem Holds.deeper (h : p.Holds ls) : p.deeper.Holds ls := h

theorem Holds.shallower (h : p.Holds ls) : p.shallower.Holds ls := h

end Printer

/-! What a block makes of lexemes -/

/-- Inside a block, the lexemes change the open section by `f`. -/
def Grows (ls : List Lexeme) (f : Section → Section) : Prop :=
  ∀ (stop : Span) (current : Section) (outer : List Section) (ts rest : List Token),
    ts.map Token.lexeme = ls →
      readBlock stop current outer (ts ++ rest) = readBlock stop (f current) outer rest

theorem Grows.nothing {f : Section → Section} (hf : ∀ s, f s = s) : Grows [] f := by
  intro stop current outer ts rest hts
  rw [List.map_eq_nil_iff.1 hts, hf]
  rfl

theorem Grows.append {f k : Section → Section} (hf : Grows ls f) (hk : Grows ms k) :
    Grows (ls ++ ms) (k ∘ f) := by
  intro stop current outer ts rest hts
  obtain ⟨us, vs, rfl, hus, hvs⟩ := List.map_eq_append_iff.1 hts
  rw [List.append_assoc, hf stop current outer us _ hus, hk stop _ outer vs _ hvs]
  rfl

theorem readBlock_of_member {m : Member} (h : ReadsMember stop tokens m rest) (current : Section)
    (outer : List Section) :
    readBlock stop current outer tokens =
      match m with
      | .nothing => readBlock stop current outer rest
      | .assign a => readBlock stop (current.addAttribute a) outer rest
      | .extension target => readBlock stop (current.addExtension target) outer rest
      | .reference r => readBlock stop (current.addReference r) outer rest
      | .opening s => readBlock stop s (current :: outer) rest
      | .closing =>
        match outer with
        | [] => .ok (current, rest)
        | parent :: outer => readBlock stop (parent.addNested current) outer rest := by
  have hm := readMember_eq_ok_iff.2 h
  rw [readBlock]
  split
  · next he => simp [hm] at he
  · next he =>
    rw [hm] at he
    cases he
    cases m <;> rfl

/-- The lexemes are a whole block of `s`, where the directives of `keywords` are kept. -/
def Section.Blocks (keywords : List String) (ls : List Lexeme) (s : Section) : Prop :=
  ∀ (stop : Span) (ts rest : List Token), ts.map Token.lexeme = ls →
    ∃ body, OpensBlock stop keywords (ts ++ rest) s.header body ∧
      readBlock stop s.header [] body = .ok (s, rest) ∧
      ∀ parent outer, readBlock stop s.header (parent :: outer) body =
        readBlock stop (parent.addNested s) outer rest

theorem Section.Blocks.grows (h : s.Blocks blockKeywords ls) : Grows ls (·.addNested s) := by
  intro stop current outer ts rest hts
  obtain ⟨body, hopens, -, hnested⟩ := h stop ts rest hts
  rw [readBlock_of_member (.opening hopens)]
  exact hnested current outer

theorem Grows.assign {a : Attribute}
    (h : ∀ (stop : Span) (ts rest : List Token), ts.map Token.lexeme = ls →
      ReadsMember stop (ts ++ rest) (.assign a) rest) : Grows ls (·.addAttribute a) := by
  intro stop current outer ts rest hts
  rw [readBlock_of_member (h stop ts rest hts)]

theorem cons_of_head {ts : List Token} {kind : TokenKind} (hts : ts.map Token.lexeme = ls)
    (hhead : ls.head?.map (·.kind) = some kind) : ∃ u us, ts = u :: us ∧ u.kind = kind := by
  cases ts with
  | nil => simp [← hts] at hhead
  | cons u us =>
    rw [← hts] at hhead
    exact ⟨u, us, rfl, Option.some.inj hhead⟩

/-! Writing -/

namespace Printer

theorem toList_selectorText (p : Printer) (selectors : List Selector) :
    (p.selectorText selectors).toList =
      (',' :: if !p.minify then [' '] else []).intercalate (selectors.map Selector.chars) := by
  have hchars : selectors.map Selector.chars = selectors.map (String.toList ∘ Selector.text) :=
    List.map_congr_left fun s _ => s.toList_text.symm
  rw [hchars, selectorText, String.toList_intercalate, List.map_map]
  cases p.minify <;> rfl

theorem writeAttribute_eq (p : Printer) (a : Attribute) :
    p.writeAttribute a = (p.write (a.name ++ (if p.minify then ":" else ": ") ++
      a.value.render ++ ";")).softBreak := by
  simp only [writeAttribute, choose, write_write, minify_write]

theorem holds_writeAttribute {a : Attribute} (hp : p.Holds ls) (hl : Legible all)
    (ha : (Member.assign a).ReadIn stop all) (hopen : '(' ∉ a.name.toList)
    (hclose : ')' ∉ a.name.toList) :
    ∃ ms, (p.writeAttribute a).Holds (ls ++ ms) ∧ Grows ms (·.addAttribute a) := by
  obtain ⟨tokens, rest, htokens, hreads⟩ := ha
  cases hreads with
  | @assign t tail _ _ hopens hdirective hb hr =>
  rw [writeAttribute_eq]
  suffices h : ∃ ms, (p.write (a.name ++ (if p.minify then ":" else ": ") ++
      a.value.render ++ ";")).Holds (ls ++ ms) ∧ Grows ms (·.addAttribute a) by
    obtain ⟨ms, hms, hgrows⟩ := h
    exact ⟨ms, hms.softBreak, hgrows⟩
  refine hp.write (by simp) ?_
  intro g hg
  obtain ⟨ms, hs, hhead, hread⟩ := spells_readAttribute (!p.minify) hr hb
    (hl.part htokens.isInfix) hopen hclose hg
  refine ⟨ms, .mark, by simp, ?_, .assign ?_⟩
  · cases hm : p.minify <;> simpa [hm, Expr.chars] using hs
  · intro stop ts rest hts
    obtain ⟨hfollows, hagain⟩ := hread stop ts rest hts
    obtain ⟨u, us, rfl, hk⟩ := cons_of_head hts hhead
    exact .assign (hk ▸ hopens) (hk ▸ hdirective) hfollows hagain

theorem holds_writeAttributes {as : List Attribute} (hp : p.Holds ls) (hl : Legible all)
    (has : ∀ a ∈ as, (Member.assign a).ReadIn stop all)
    (hnames : ∀ a ∈ as, '(' ∉ a.name.toList ∧ ')' ∉ a.name.toList) :
    ∃ ms, (as.foldl writeAttribute p).Holds (ls ++ ms) ∧
      Grows ms fun s => { s with attributes := s.attributes ++ as } := by
  induction as generalizing p ls with
  | nil =>
    refine ⟨[], by simpa using hp, .nothing fun s => ?_⟩
    cases s
    simp
  | cons a as ih =>
    obtain ⟨ms, hms, hgrows⟩ := holds_writeAttribute hp hl (has a (by simp))
      (hnames a (by simp)).1 (hnames a (by simp)).2
    obtain ⟨ns, hns, hmore⟩ := ih hms (fun b hb => has b (by simp [hb]))
      fun b hb => hnames b (by simp [hb])
    refine ⟨ms ++ ns, by simpa using hns, ?_⟩
    simpa [Function.comp_def, Section.addAttribute] using hgrows.append hmore

theorem holds_writeChildren {inners : List Section} (hp : p.Holds ls)
    (h : ∀ inner ∈ inners, ∀ (p : Printer) (ls : List Lexeme), p.Holds ls →
      ∃ ms, (p.writeRule inner.toFlatRule).Holds (ls ++ ms) ∧ inner.Blocks blockKeywords ms) :
    ∃ ms, (p.writeChildren (Section.toFlatRules inners)).Holds (ls ++ ms) ∧
      Grows ms fun s => { s with nested := s.nested ++ inners } := by
  induction inners generalizing p ls with
  | nil =>
    refine ⟨[], by simpa [Section.toFlatRules, writeChildren] using hp, .nothing fun s => ?_⟩
    cases s
    simp
  | cons inner inners ih =>
    obtain ⟨ms, hms, hblock⟩ := h inner (by simp) p ls hp
    obtain ⟨ns, hns, hmore⟩ := ih hms.softBreak fun other ho => h other (by simp [ho])
    refine ⟨ms ++ ns, by simpa [Section.toFlatRules, writeChildren] using hns, ?_⟩
    simpa [Function.comp_def, Section.addNested] using hblock.grows.append hmore

theorem holds_writeHeader {keywords : List String} (hp : p.Holds ls) (hl : Legible all)
    (hparent : .ampersand ∉ all.map (·.kind)) (htokens : tokens <:+ all)
    (ho : OpensBlock stop keywords tokens s.header rest) (hne : s.selectors ≠ []) :
    ∃ ms, ((p.write (p.selectorText s.selectors)).choose " \x7b" "\x7b").Holds (ls ++ ms) ∧
      ∀ (stop : Span) (ts rest : List Token), ts.map Token.lexeme = ms →
        OpensBlock stop keywords (ts ++ rest) s.header rest := by
  cases ho with
  | media _ hm =>
    obtain ⟨query, hheader⟩ := header_readMedia hm
    exact absurd (congrArg Section.selectors hheader) hne
  | @rule t tail _ _ hopens hb hr =>
  obtain ⟨hheader, hr⟩ := header_readRule hr
  rw [choose, write_write, minify_write]
  refine hp.write (by cases p.minify <;> simp) ?_
  intro g hg
  obtain ⟨hs, last, hspells, hhead, hread⟩ := spells_readSelectors (!p.minify) hr hb
    (hl.part htokens.isInfix) (fun hin => hparent ((htokens.map _).subset hin)) hg
  obtain ⟨spaced, hbrace⟩ : ∃ spaced, Spells last [⟨.openBrace, spaced⟩]
      (if p.minify then "\x7b" else " \x7b").toList .mark := by
    have hmark : ∀ g, Spells g [⟨.openBrace, decide (g = .blank)⟩] ['\x7b'] .mark := fun g =>
      .mark (show TokenKind.openBrace.Plain from trivial) rfl (.nil _)
    cases p.minify with
    | true => exact ⟨_, hmark last⟩
    | false => exact ⟨_, .blank rfl (hmark .blank)⟩
  refine ⟨hs ++ [⟨.openBrace, spaced⟩], .mark, by simp, ?_, ?_⟩
  · rw [String.toList_append, toList_selectorText]
    exact hspells.append hbrace
  · intro stop ts rest hts
    obtain ⟨us, vs, rfl, hus, hvs⟩ := List.map_eq_append_iff.1 hts
    obtain ⟨b, ws, rfl, hbrace, hws⟩ := List.map_eq_cons_iff.1 hvs
    obtain rfl := List.map_eq_nil_iff.1 hws
    obtain ⟨hfollows, hagain⟩ := hread stop us rest b hus (congrArg Lexeme.kind hbrace)
    obtain ⟨u, us, rfl, hk⟩ := cons_of_head hus hhead
    rw [List.append_assoc, List.singleton_append]
    refine .rule (hk ▸ hopens) hfollows ?_
    have hrule : readRule stop (u :: us ++ b :: rest) =
        .ok ({ selectors := s.header.selectors }, rest) := by
      simp only [readRule, hagain]
    rwa [← hheader] at hrule

theorem writeRule_toFlatRule (p : Printer) (s : Section) : p.writeRule s.toFlatRule =
    (writeChildren (s.attributes.foldl writeAttribute
      ((p.write (p.selectorText s.selectors)).choose " \x7b" "\x7b").softBreak.deeper)
      (Section.toFlatRules s.nested)).shallower.write "\x7d" := by
  cases s
  rfl

/-- A section that was read can be written, and what is written is read as the section. -/
theorem holds_writeRule {keywords : List String} (hs : s.ReadIn stop all) (hl : Legible all)
    (hparent : .ampersand ∉ all.map (·.kind)) (hw : s.Writable) (htokens : tokens <:+ all)
    (ho : OpensBlock stop keywords tokens s.header rest) (hp : p.Holds ls) :
    ∃ ms, (p.writeRule s.toFlatRule).Holds (ls ++ ms) ∧ s.Blocks keywords ms := by
  -- nested sections keep more directives than the outermost one, so `keywords` varies
  induction hs generalizing keywords tokens rest p ls with
  | @block s hattributes _ _ hopened _ ih =>
  obtain ⟨hs, hheld, hopens⟩ :=
    holds_writeHeader hp hl hparent htokens ho (hw.selectors s (.refl s))
  obtain ⟨as, hheld, has⟩ := holds_writeAttributes hheld.softBreak.deeper hl hattributes
    (hw.names s (.refl s))
  have hnested : ∀ inner ∈ s.nested, ∀ (p : Printer) (ls : List Lexeme), p.Holds ls →
      ∃ ms, (p.writeRule inner.toFlatRule).Holds (ls ++ ms) ∧ inner.Blocks blockKeywords ms := by
    intro inner hin p ls hp
    obtain ⟨tokens, rest, htokens, hreads⟩ := hopened inner hin
    cases hreads with
    | opening ho => exact ih inner hin (hw.nested hin) htokens ho hp
  obtain ⟨cs, hheld, hcs⟩ := holds_writeChildren hheld hnested
  have hbrace : ∀ g, g ≠ .name → ∃ ms last, last ≠ .name ∧ Spells g ms "\x7d".toList last ∧
      ∃ spaced, ms = [⟨.closeBrace, spaced⟩] := fun g _ =>
    ⟨_, .mark, by simp, .mark (show TokenKind.closeBrace.Plain from trivial) rfl (.nil _), _, rfl⟩
  obtain ⟨_, hheld, spaced, rfl⟩ := hheld.shallower.write (by simp) hbrace
  refine ⟨hs ++ (as ++ cs ++ [⟨.closeBrace, spaced⟩]), ?_, ?_⟩
  · rw [writeRule_toFlatRule]
    simpa using hheld
  · intro stop ts rest hts
    obtain ⟨us, xs, rfl, hus, hxs⟩ := List.map_eq_append_iff.1 hts
    obtain ⟨vs, ws, rfl, hvs, hws⟩ := List.map_eq_append_iff.1 hxs
    obtain ⟨c, zs, rfl, hc, hzs⟩ := List.map_eq_cons_iff.1 hws
    obtain rfl := List.map_eq_nil_iff.1 hzs
    have hclosing : ReadsMember stop (c :: rest) .closing rest :=
      .closing (congrArg Lexeme.kind hc)
    -- the members are read into the header, which they make the section
    have hbody : ∀ outer, readBlock stop s.header outer (vs ++ c :: rest) =
        readBlock stop s outer (c :: rest) := by
      intro outer
      rw [(has.append hcs) stop s.header outer vs _ hvs]
      have hextensions := hw.extensions s (.refl s)
      have hreferences := hw.references s (.refl s)
      congr 1
      cases s
      simp_all [Section.header]
    refine ⟨vs ++ c :: rest, ?_, ?_, ?_⟩
    · simpa using hopens stop us (vs ++ c :: rest) hus
    · rw [hbody, readBlock_of_member hclosing]
    · intro parent outer
      rw [hbody, readBlock_of_member hclosing]

end Printer

/-! Parsing what is written -/

theorem parent_of_tokenize {source : String} {tokens : Tokens} (h : tokenize source = .ok tokens)
    (hparent : '&' ∉ source.toList) : .ampersand ∉ tokens.list.map (·.kind) := by
  intro hin
  obtain ⟨t, ht, hk⟩ := List.mem_map.1 hin
  refine hparent ((scans_of_scan h).mem_of_mark (List.mem_map_of_mem ht) ?_)
  rw [Token.lexeme, hk]
  rfl

theorem tokenize_of_holds (h : p.Holds ls) :
    ∃ tokens, tokenize p.text = .ok tokens ∧ tokens.list.map Token.lexeme = ls := by
  obtain ⟨g, -, hs, -⟩ := h
  exact scan_of_scans (hs.scans none) .start

theorem parse_of_blocks {name text : String} {tokens : Tokens} (h : tokenize text = .ok tokens)
    (hs : s.Blocks sheetKeywords (tokens.list.map Token.lexeme)) :
    Sheet.parse name text = .ok { name := name, sections := [s] } := by
  obtain ⟨body, hopens, hread, -⟩ := hs tokens.stop tokens.list [] rfl
  rw [List.append_nil] at hopens
  cases hl : tokens.list with
  | nil =>
    rw [hl] at hopens
    cases hopens
  | cons t rest =>
    rw [hl] at hopens
    simp only [Sheet.parse, h, hl]
    rw [readStatements_of_reads (.block hopens hread)]
    simp [readStatements, Statement.addTo]

/-- The rule of a section of a parsed sheet is parsed as a sheet with this section alone, pretty or
minified. -/
theorem parse_writeRule {name source : String} {sheet : Sheet} {root s : Section}
    (hparse : Sheet.parse name source = .ok sheet) (hslashes : ¬ ['/', '/'] <:+: source.toList)
    (hparent : '&' ∉ source.toList)
    (hroot : root ∈ sheet.sections ∨ ∃ t ∈ sheet.templates, root ∈ t.sections)
    (hin : s.Within root) (hw : s.Writable) (minify : Bool) (other : String) :
    Sheet.parse other (({ minify := minify } : Printer).writeRule s.toFlatRule).text =
      .ok { name := other, sections := [s] } := by
  obtain ⟨tokens, htokens, hread⟩ := Sheet.readIn_of_parse hparse
  have hread : root.ReadIn tokens.stop tokens.list ∧ root.OpenedIn tokens.stop tokens.list := by
    rcases hroot with hroot | ⟨t, ht, hroot⟩
    · exact hread.sections root hroot
    · obtain ⟨hreads, hopened, -⟩ := hread.templates t ht root hroot
      exact ⟨hreads, hopened⟩
  obtain ⟨hs, opened, rest, hopened, hopens⟩ := hread.1.within hread.2 hin
  have hstart : ({ minify := minify } : Printer).Holds [] :=
    ⟨.blank, by simp, .nil _, fun _ _ => rfl⟩
  obtain ⟨ms, hheld, hblocks⟩ := Printer.holds_writeRule hs
    (legible_of_tokenize htokens hslashes) (parent_of_tokenize htokens hparent) hw hopened hopens
    hstart
  obtain ⟨written, hwritten, rfl⟩ := tokenize_of_holds hheld
  exact parse_of_blocks hwritten hblocks

/-- A rule inside a media wrapper, with a rule inside it. -/
theorem parse_writeRule_in_wrapper :
    let source := "@media print \x7b .card,a>b \x7b color : f(1,$x  2px) ; " ++
      "b:hover\x7b width:(1 2)em \x7d \x7d \x7d"
    let inner : Section :=
      { selectors := [["b:hover"]]
        attributes := [⟨"width", .list .concat
          [.text "(", .list .space [.text "1", .text "2"], .text ")em"]⟩] }
    let s : Section :=
      { selectors := [[".card"], ["a", ">", "b"]]
        attributes := [⟨"color", .call "f" [.text "1", .list .space [.var "x", .text "2px"]]⟩]
        nested := [inner] }
    let wrapper : Section := { nested := [s], media := some (.text "print") }
    Sheet.parse "card" source = .ok { name := "card", sections := [wrapper] } ∧
      ∀ minify, Sheet.parse "again" (({ minify := minify } : Printer).writeRule s.toFlatRule).text =
        .ok { name := "again", sections := [s] } := by
  intro source inner s wrapper
  have hparse : Sheet.parse "card" source = .ok { name := "card", sections := [wrapper] } := by
    decide +kernel
  have hwithin : ∀ other : Section, other.Within s → other = s ∨ other = inner := by
    intro other h
    rcases h with _ | ⟨hin, h⟩
    · exact .inl rfl
    · obtain rfl := List.mem_singleton.1 hin
      rcases h with _ | ⟨hin, -⟩
      · exact .inr rfl
      · cases hin
  have hw : s.Writable := by
    constructor <;> intro other h <;> rcases hwithin other h with rfl | rfl <;> decide +kernel
  refine ⟨hparse, fun minify => ?_⟩
  exact parse_writeRule hparse (by decide +kernel) (by decide +kernel)
    (.inl (List.mem_singleton_self wrapper)) (.nested (List.mem_singleton_self s) (.refl s)) hw
    minify "again"

end NestedStyles
