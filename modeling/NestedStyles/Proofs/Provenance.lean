import NestedStyles.Sheet.Reader
import NestedStyles.Proofs.CompilePass

/-!
Where the sections of a parsed sheet come from. A section is the header that opened its block and
the members that were read in it, and every header and every member was read at some place in the
tokens of the text.
-/

namespace NestedStyles

open SelectorReader SectionReader SheetReader

variable {stop : Span} {all tokens rest tail : List Token} {t : Token} {s current : Section}
  {outer : List Section}

/-- Directives that mean something of their own inside a block. -/
def blockKeywords : List String := ["extend", "func", "media", "import"]

/-- Directives that mean something of their own outside blocks. -/
def sheetKeywords : List String := ["import", "func", "media"]

/-- The first token of a rule, where the directives of `keywords` are kept for something else. -/
def TokenKind.opensRule (keywords : List String) : TokenKind → Bool
  | .closeBrace | .semicolon | .var _ => false
  | .directive keyword => keyword ∉ keywords
  | _ => true

/-- A section as it was when its block was opened. -/
def Section.header (s : Section) : Section := { selectors := s.selectors, media := s.media }

/-- What stands before a block: the selectors of a rule, or the query of a media wrapper. -/
inductive OpensBlock (stop : Span) (keywords : List String) :
    List Token → Section → List Token → Prop
  | media {t : Token} {tail rest : List Token} {s : Section} : t.kind = .directive "media" →
      readMedia stop tail = .ok (s, rest) → OpensBlock stop keywords (t :: tail) s rest
  | rule {t : Token} {tail rest : List Token} {s : Section} : t.kind.opensRule keywords →
      blockFollows 0 (t :: tail) → readRule stop (t :: tail) = .ok (s, rest) →
      OpensBlock stop keywords (t :: tail) s rest

/-- The members of a block by the tokens they are read from. -/
inductive ReadsMember (stop : Span) : List Token → Member → List Token → Prop
  | closing {t : Token} {tail : List Token} : t.kind = .closeBrace →
      ReadsMember stop (t :: tail) .closing tail
  | nothing {t : Token} {tail : List Token} : t.kind = .semicolon →
      ReadsMember stop (t :: tail) .nothing tail
  | extension {t : Token} {tail rest : List Token} {target : String} :
      t.kind = .directive "extend" → readTarget stop tail = .ok (target, rest) →
      ReadsMember stop (t :: tail) (.extension target) rest
  | reference {t : Token} {tail rest : List Token} {r : Reference} :
      t.kind = .directive "func" → readReference stop tail = .ok (r, rest) →
      ReadsMember stop (t :: tail) (.reference r) rest
  | opening {tokens rest : List Token} {s : Section} :
      OpensBlock stop blockKeywords tokens s rest → ReadsMember stop tokens (.opening s) rest
  | assign {t : Token} {tail rest : List Token} {a : Attribute} :
      t.kind.opensRule blockKeywords → (∀ keyword, t.kind ≠ .directive keyword) →
      blockFollows 0 (t :: tail) = false → readAttribute stop (t :: tail) = .ok (a, rest) →
      ReadsMember stop (t :: tail) (.assign a) rest

/-- The block of a template, whatever stands in it. -/
structure TemplateBlock where
  start : Span
  name : String
  parameters : List String
  body : Section

/-- The block of a template by the tokens it is read from, which follow the directive. -/
inductive ReadsTemplate (stop start : Span) (tokens : List Token) :
    TemplateBlock → List Token → Prop
  | block {name : String} {parameters : List String} {body : Section}
      {named opened members rest : List Token} :
      readTemplateName stop tokens = .ok (name, named) →
      readOptionalParameters stop named = .ok (parameters, opened) →
      Token.expect stop .openBrace .braceAfterTemplate opened = .ok members →
      readBlock stop {} [] members = .ok (body, rest) →
      ReadsTemplate stop start tokens ⟨start, name, parameters, body⟩ rest

/-- The section itself neither extends nor refers to templates, and no media wrapper stands directly
in it. -/
structure Section.Sealed (s : Section) : Prop where
  extensions : s.extensions = []
  references : s.references = []
  selectors : ∀ child ∈ s.nested, child.selectors ≠ []

def TemplateBlock.template (b : TemplateBlock) : Template :=
  ⟨b.name, b.parameters, b.body.attributes, b.body.nested⟩

def TemplateBlock.fault (b : TemplateBlock) : Fault :=
  ⟨b.start, if b.body.extensions = [] ∧ b.body.references = [] then .mediaInTemplate b.name
    else .callsInTemplate b.name⟩

/-- The statements of a sheet by the tokens they are read from. -/
inductive ReadsStatement (stop : Span) : Token → List Token → Statement → List Token → Prop
  | nothing {t : Token} {tail : List Token} : t.kind = .semicolon →
      ReadsStatement stop t tail .nothing tail
  | imports {t : Token} {tail rest : List Token} {names : List String} :
      t.kind = .directive "import" → readImports stop tail = .ok (names, rest) →
      ReadsStatement stop t tail (.imports names) rest
  | declaration {t : Token} {tail rest : List Token} {name : String} {d : Declaration} :
      t.kind = .var name → readDeclaration stop name tail = .ok (d, rest) →
      ReadsStatement stop t tail (.declaration d) rest
  | template {t : Token} {tail rest : List Token} {found : Template} :
      t.kind = .directive "func" → readTemplate stop t.span tail = .ok (found, rest) →
      ReadsStatement stop t tail (.template found) rest
  | block {t : Token} {tail body rest : List Token} {first s : Section} :
      OpensBlock stop sheetKeywords (t :: tail) first body →
      readBlock stop first [] body = .ok (s, rest) → ReadsStatement stop t tail (.block s) rest

theorem readMember_eq_ok_iff {m : Member} :
    readMember stop tokens = .ok (m, rest) ↔ ReadsMember stop tokens m rest := by
  constructor
  · intro h
    unfold readMember at h
    split at h
    · simp at h
    next t tail =>
    split at h
    · next hk =>
      cases h
      exact .closing hk
    · next hk =>
      cases h
      exact .nothing hk
    · next keyword hk =>
      unfold readDirective at h
      split at h
      · next hextend =>
        obtain ⟨target, hr, rfl⟩ := eq_ok_of_map h
        exact .extension (by rw [hk, hextend]) hr
      next hextend =>
      split at h
      · next hfunc =>
        obtain ⟨r, hr, rfl⟩ := eq_ok_of_map h
        exact .reference (by rw [hk, hfunc]) hr
      next hfunc =>
      split at h
      · next hmedia =>
        obtain ⟨s, hr, rfl⟩ := eq_ok_of_map h
        exact .opening (.media (by rw [hk, hmedia]) hr)
      next hmedia =>
      split at h
      · simp at h
      next himport =>
      split at h
      · next hb =>
        obtain ⟨s, hr, rfl⟩ := eq_ok_of_map h
        refine .opening (.rule ?_ hb hr)
        simp [hk, TokenKind.opensRule, blockKeywords, hextend, hfunc, hmedia, himport]
      · simp at h
    · simp at h
    next hclose hsemi hdirective hvar =>
    have hopens : t.kind.opensRule blockKeywords := by
      cases hk : t.kind <;> simp_all [TokenKind.opensRule]
    split at h
    · next hb =>
      obtain ⟨s, hr, rfl⟩ := eq_ok_of_map h
      exact .opening (.rule hopens hb hr)
    · next hb =>
      obtain ⟨a, hr, rfl⟩ := eq_ok_of_map h
      exact .assign hopens hdirective (by simpa using hb) hr
  · intro h
    cases h with
    | closing hk => simp [readMember, hk]
    | nothing hk => simp [readMember, hk]
    | extension hk hr => simp [readMember, hk, readDirective, hr, Except.map]
    | reference hk hr => simp [readMember, hk, readDirective, hr, Except.map]
    | opening h =>
      cases h with
      | media hk hr => simp [readMember, hk, readDirective, hr, Except.map]
      | @rule t tail _ _ ho hb hr =>
        cases hk : t.kind <;>
          simp_all [readMember, readDirective, TokenKind.opensRule, blockKeywords, Except.map]
    | @assign t tail _ _ ho hd hb hr =>
      cases hk : t.kind <;> simp_all [readMember, TokenKind.opensRule, Except.map]

theorem readStatement_eq_ok_iff {statement : Statement} :
    readStatement stop t tail = .ok (statement, rest) ↔
      ReadsStatement stop t tail statement rest := by
  have hsection : ∀ header, readSection stop header = .ok (statement, rest) →
      ∃ first body s, header = .ok (first, body) ∧
        readBlock stop first [] body = .ok (s, rest) ∧ statement = .block s := by
    intro header h
    unfold readSection at h
    split at h
    · simp at h
    next first body =>
    obtain ⟨s, hs, rfl⟩ := eq_ok_of_map h
    exact ⟨first, body, s, rfl, hs, rfl⟩
  constructor
  · intro h
    unfold readStatement at h
    split at h
    · next hk =>
      cases h
      exact .nothing hk
    · next keyword hk =>
      unfold readTopDirective at h
      split at h
      · next himport =>
        obtain ⟨names, hr, rfl⟩ := eq_ok_of_map h
        exact .imports (by rw [hk, himport]) hr
      next himport =>
      split at h
      · next hfunc =>
        obtain ⟨found, hr, rfl⟩ := eq_ok_of_map h
        exact .template (by rw [hk, hfunc]) hr
      next hfunc =>
      split at h
      · next hmedia =>
        obtain ⟨first, body, s, hr, hs, rfl⟩ := hsection _ h
        exact .block (.media (by rw [hk, hmedia]) hr) hs
      next hmedia =>
      split at h
      · next hb =>
        obtain ⟨first, body, s, hr, hs, rfl⟩ := hsection _ h
        refine .block (.rule ?_ hb hr) hs
        simp [hk, TokenKind.opensRule, sheetKeywords, himport, hfunc, hmedia]
      · simp at h
    · next name hk =>
      obtain ⟨d, hr, rfl⟩ := eq_ok_of_map h
      exact .declaration hk hr
    next hsemi hdirective hvar =>
    split at h
    · next hb =>
      obtain ⟨first, body, s, hr, hs, rfl⟩ := hsection _ h
      refine .block (.rule ?_ hb hr) hs
      cases hk : t.kind <;> simp_all [TokenKind.opensRule, blockFollows]
    · simp at h
  · intro h
    cases h with
    | nothing hk => simp [readStatement, hk]
    | imports hk hr => simp [readStatement, hk, readTopDirective, hr, Except.map]
    | declaration hk hr => simp [readStatement, hk, hr, Except.map]
    | template hk hr => simp [readStatement, hk, readTopDirective, hr, Except.map]
    | block h hs =>
      cases h with
      | media hk hr => simp [readStatement, hk, readTopDirective, readSection, hr, hs, Except.map]
      | rule ho hb hr =>
        cases hk : t.kind <;>
          simp_all [readStatement, readTopDirective, readSection, TokenKind.opensRule,
            sheetKeywords, Except.map]

theorem readStatements_of_reads {sheet : Sheet} {statement : Statement}
    (h : ReadsStatement stop t tail statement rest) :
    readStatements stop sheet (t :: tail) = readStatements stop (statement.addTo sheet) rest := by
  have hread := readStatement_eq_ok_iff.2 h
  rw [readStatements]
  split
  · next he => cases he.symm.trans hread
  · next he =>
    cases he.symm.trans hread
    rfl

theorem reads_of_readStatements {sheet parsed : Sheet}
    (h : readStatements stop sheet (t :: tail) = .ok parsed) :
    ∃ statement rest, ReadsStatement stop t tail statement rest ∧
      readStatements stop (statement.addTo sheet) rest = .ok parsed := by
  rw [readStatements] at h
  split at h
  · cases h
  next hread => exact ⟨_, _, readStatement_eq_ok_iff.1 hread, h⟩

theorem header_readRule (h : readRule stop tokens = .ok (s, rest)) :
    s = { selectors := s.selectors } ∧ readSelectors stop tokens = .ok (s.selectors, rest) := by
  unfold readRule at h
  split at h
  · simp at h
  next hs =>
  cases h
  exact ⟨rfl, hs⟩

theorem header_readMedia (h : readMedia stop tokens = .ok (s, rest)) :
    ∃ query, s = { media := some query } := by
  unfold readMedia at h
  split at h
  · simp [Token.fail] at h
  split at h
  · simp at h
  next query _ _ =>
  split at h
  · simp at h
  cases h
  exact ⟨query, rfl⟩

theorem OpensBlock.header {keywords : List String} (h : OpensBlock stop keywords tokens s rest) :
    s.header = s := by
  cases h with
  | media _ hm =>
    obtain ⟨query, rfl⟩ := header_readMedia hm
    rfl
  | rule _ _ hr =>
    rw [(header_readRule hr).1]
    rfl

theorem OpensBlock.brace {keywords : List String} (h : OpensBlock stop keywords tokens s rest) :
    ∃ b, b.kind = .openBrace ∧ b :: rest <:+ tokens := by
  cases h with
  | media _ hm =>
    obtain ⟨b, hb, hrest⟩ := brace_of_readMedia hm
    exact ⟨b, hb, hrest.trans (List.suffix_cons ..)⟩
  | rule _ _ hr => exact brace_of_readRule hr

theorem OpensBlock.suffix {keywords : List String} (h : OpensBlock stop keywords tokens s rest) :
    rest <:+ tokens := by
  obtain ⟨b, -, hrest⟩ := h.brace
  exact (List.suffix_cons b rest).trans hrest

/-- Somewhere in the tokens of a text a block has the member. -/
def SectionReader.Member.ReadIn (stop : Span) (all : List Token) (m : Member) : Prop :=
  ∃ tokens rest, tokens <:+ all ∧ ReadsMember stop tokens m rest

/-- All that stands in the block of a section was read somewhere in the tokens of a text. -/
inductive Section.ReadIn (stop : Span) (all : List Token) : Section → Prop
  | block {s : Section} :
      (∀ a ∈ s.attributes, (Member.assign a).ReadIn stop all) →
      (∀ target ∈ s.extensions, (Member.extension target).ReadIn stop all) →
      (∀ r ∈ s.references, (Member.reference r).ReadIn stop all) →
      (∀ inner ∈ s.nested, (Member.opening inner.header).ReadIn stop all) →
      (∀ inner ∈ s.nested, ReadIn stop all inner) → ReadIn stop all s

namespace Section.ReadIn

theorem header (s : Section) : s.header.ReadIn stop all := by
  constructor <;> intro _ h <;> cases h

theorem addAttribute {a : Attribute} (h : s.ReadIn stop all)
    (ha : (Member.assign a).ReadIn stop all) : (s.addAttribute a).ReadIn stop all := by
  obtain ⟨hattributes, hextensions, hreferences, hopened, hnested⟩ := h
  refine ⟨?_, hextensions, hreferences, hopened, hnested⟩
  intro b hb
  rcases List.mem_append.1 hb with hb | hb
  · exact hattributes b hb
  · rw [List.mem_singleton.1 hb]
    exact ha

theorem addExtension {target : String} (h : s.ReadIn stop all)
    (ht : (Member.extension target).ReadIn stop all) : (s.addExtension target).ReadIn stop all := by
  obtain ⟨hattributes, hextensions, hreferences, hopened, hnested⟩ := h
  refine ⟨hattributes, ?_, hreferences, hopened, hnested⟩
  intro other ho
  rcases List.mem_append.1 ho with ho | ho
  · exact hextensions other ho
  · rw [List.mem_singleton.1 ho]
    exact ht

theorem addReference {r : Reference} (h : s.ReadIn stop all)
    (hr : (Member.reference r).ReadIn stop all) : (s.addReference r).ReadIn stop all := by
  obtain ⟨hattributes, hextensions, hreferences, hopened, hnested⟩ := h
  refine ⟨hattributes, hextensions, ?_, hopened, hnested⟩
  intro other ho
  rcases List.mem_append.1 ho with ho | ho
  · exact hreferences other ho
  · rw [List.mem_singleton.1 ho]
    exact hr

theorem addNested {inner : Section} (h : s.ReadIn stop all)
    (ho : (Member.opening inner.header).ReadIn stop all) (hi : inner.ReadIn stop all) :
    (s.addNested inner).ReadIn stop all := by
  obtain ⟨hattributes, hextensions, hreferences, hopened, hnested⟩ := h
  refine ⟨hattributes, hextensions, hreferences, ?_, ?_⟩
  · intro other hin
    rcases List.mem_append.1 hin with hin | hin
    · exact hopened other hin
    · rw [List.mem_singleton.1 hin]
      exact ho
  · intro other hin
    rcases List.mem_append.1 hin with hin | hin
    · exact hnested other hin
    · rw [List.mem_singleton.1 hin]
      exact hi

end Section.ReadIn

/-- The section whose block is being read and the suspended ones around it. The outermost was
opened with `first`, the others by members. -/
inductive OpenBlocks (stop : Span) (all : List Token) (first : Section) :
    Section → List Section → Prop
  | outermost {s : Section} : s.ReadIn stop all → s.header = first → OpenBlocks stop all first s []
  | inside {s parent : Section} {outer : List Section} : s.ReadIn stop all →
      (Member.opening s.header).ReadIn stop all → OpenBlocks stop all first parent outer →
      OpenBlocks stop all first s (parent :: outer)

theorem OpenBlocks.readIn {first : Section} (h : OpenBlocks stop all first s outer) :
    s.ReadIn stop all := by
  cases h with
  | outermost hs => exact hs
  | inside hs => exact hs

theorem OpenBlocks.grow {first grown : Section} (h : OpenBlocks stop all first s outer)
    (hs : grown.ReadIn stop all) (hheader : grown.header = s.header) :
    OpenBlocks stop all first grown outer := by
  cases h with
  | outermost _ hfirst => exact .outermost hs (hheader.trans hfirst)
  | inside _ hopened hparent => exact .inside hs (hheader ▸ hopened) hparent

/-- What is read as a block is made of members that were read. -/
theorem readIn_of_readBlock {first : Section}
    (h : readBlock stop current outer tokens = .ok (s, rest)) (hall : tokens <:+ all)
    (hopen : OpenBlocks stop all first current outer) :
    s.ReadIn stop all ∧ s.header = first := by
  fun_induction readBlock stop current outer tokens with
  | case1 => cases h
  | case2 current outer tokens tail hm _ _ ih =>
    exact ih h ((past_of_readMember hm).suffix.trans hall) hopen
  | case3 current outer tokens tail a hm _ _ ih =>
    have hmember := readMember_eq_ok_iff.1 hm
    have hgrown := hopen.readIn.addAttribute ⟨tokens, tail, hall, hmember⟩
    exact ih h ((past_of_readMember hm).suffix.trans hall) (hopen.grow hgrown rfl)
  | case4 current outer tokens tail target hm _ _ ih =>
    have hmember := readMember_eq_ok_iff.1 hm
    have hgrown := hopen.readIn.addExtension ⟨tokens, tail, hall, hmember⟩
    exact ih h ((past_of_readMember hm).suffix.trans hall) (hopen.grow hgrown rfl)
  | case5 current outer tokens tail r hm _ _ ih =>
    have hmember := readMember_eq_ok_iff.1 hm
    have hgrown := hopen.readIn.addReference ⟨tokens, tail, hall, hmember⟩
    exact ih h ((past_of_readMember hm).suffix.trans hall) (hopen.grow hgrown rfl)
  | case6 current outer tokens tail inner hm _ _ ih =>
    have hmember := readMember_eq_ok_iff.1 hm
    have hinner : inner.header = inner := by
      cases hmember with
      | opening hopens => exact hopens.header
    have hopened : (Member.opening inner.header).ReadIn stop all :=
      ⟨tokens, tail, hall, by rwa [hinner]⟩
    exact ih h ((past_of_readMember hm).suffix.trans hall)
      (.inside (hinner ▸ .header inner) hopened hopen)
  | case7 current tokens tail hm _ =>
    cases h
    cases hopen with
    | outermost hs hheader => exact ⟨hs, hheader⟩
  | case8 current tokens tail hm _ parent outer _ ih =>
    cases hopen with
    | inside hs hopened hparent =>
      have hgrown := hparent.readIn.addNested hopened hs
      exact ih h ((past_of_readMember hm).suffix.trans hall) (hparent.grow hgrown rfl)

section Templates

variable {start : Span} {b : TemplateBlock}

theorem templateOf_of_sealed (h : b.body.Sealed) :
    templateOf b.start b.name b.parameters b.body = .ok b.template := by
  have hany : (b.body.nested.any fun s => s.selectors.isEmpty) = false := by
    rw [List.any_eq_false]
    intro child hc
    simpa using h.selectors child hc
  simp [templateOf, h.extensions, h.references, hany, TemplateBlock.template]

theorem templateOf_of_not_sealed (h : ¬ b.body.Sealed) :
    templateOf b.start b.name b.parameters b.body = .error b.fault := by
  unfold templateOf TemplateBlock.fault
  by_cases hcalls : b.body.extensions = [] ∧ b.body.references = []
  · have hany : b.body.nested.any fun s => s.selectors.isEmpty := by
      by_contra hnone
      refine h ⟨hcalls.1, hcalls.2, fun child hc hempty => hnone ?_⟩
      exact List.any_eq_true.2 ⟨child, hc, by simp [hempty]⟩
    simp [hcalls, hany]
  · have hmet : (!b.body.extensions.isEmpty || !b.body.references.isEmpty) = true := by
      rw [not_and_or] at hcalls
      simpa using hcalls
    rw [if_pos hmet, if_neg hcalls]

theorem ReadsTemplate.read (h : ReadsTemplate stop start tokens b rest) :
    readTemplate stop start tokens =
      (templateOf b.start b.name b.parameters b.body).map (·, rest) := by
  cases h with
  | block hn hp hc hb => simp [readTemplate, hn, hp, hc, hb]

theorem readTemplate_eq_ok_iff {found : Template} :
    readTemplate stop start tokens = .ok (found, rest) ↔
      ∃ b, ReadsTemplate stop start tokens b rest ∧ b.body.Sealed ∧ found = b.template := by
  constructor
  · intro h
    unfold readTemplate at h
    split at h
    · simp at h
    next name named hn =>
    split at h
    · simp at h
    next parameters opened hp =>
    split at h
    · simp at h
    next members hc =>
    split at h
    · simp at h
    next body after hb =>
    obtain ⟨_, ht, he⟩ := map_eq_ok h
    cases he
    let b : TemplateBlock := ⟨start, name, parameters, body⟩
    refine ⟨b, .block hn hp hc hb, ?_⟩
    by_cases hsealed : b.body.Sealed
    · cases ht.symm.trans (templateOf_of_sealed hsealed)
      exact ⟨hsealed, rfl⟩
    · cases ht.symm.trans (templateOf_of_not_sealed hsealed)
  · rintro ⟨b, hreads, hsealed, rfl⟩
    rw [hreads.read, templateOf_of_sealed hsealed]
    rfl

theorem ReadsTemplate.brace (h : ReadsTemplate stop start tokens b rest) :
    ∃ brace opened, brace.kind = .openBrace ∧ brace :: opened <:+ tokens ∧
      readBlock stop {} [] opened = .ok (b.body, rest) := by
  cases h with
  | block hn hp hc hb =>
    obtain ⟨brace, hk, rfl⟩ := Token.cons_of_expect hc
    exact ⟨brace, _, hk,
      (suffix_of_readOptionalParameters hp).trans (suffix_of_readTemplateName hn), hb⟩

theorem ReadsTemplate.opened (h : ReadsTemplate stop start tokens b rest) :
    ∃ opened, opened <:+ tokens ∧ readBlock stop {} [] opened = .ok (b.body, rest) := by
  obtain ⟨brace, opened, -, hopened, hb⟩ := h.brace
  exact ⟨opened, (List.suffix_cons brace opened).trans hopened, hb⟩

end Templates

theorem header_readBlock {first body : Section} (hfirst : first.header = first)
    (h : readBlock stop first [] tokens = .ok (body, rest)) : body.header = first :=
  (readIn_of_readBlock h (List.suffix_refl _) (.outermost (hfirst ▸ .header _) hfirst)).2

/-- The header of a section was read somewhere in the tokens of a text. Whatever opens a block
inside another one opens one outside as well. -/
def Section.OpenedIn (stop : Span) (all : List Token) (s : Section) : Prop :=
  ∃ tokens rest, tokens <:+ all ∧ OpensBlock stop sheetKeywords tokens s.header rest

theorem OpensBlock.outside (h : OpensBlock stop blockKeywords tokens s rest) :
    OpensBlock stop sheetKeywords tokens s rest := by
  cases h with
  | media hk hm => exact .media hk hm
  | @rule t _ _ _ ho hb hr =>
    refine .rule ?_ hb hr
    cases hk : t.kind <;> simp_all [TokenKind.opensRule, blockKeywords, sheetKeywords]

theorem SectionReader.Member.ReadIn.openedIn (h : (Member.opening s.header).ReadIn stop all) :
    s.OpenedIn stop all := by
  obtain ⟨tokens, rest, hall, hreads⟩ := h
  cases hreads with
  | opening hopens => exact ⟨tokens, rest, hall, hopens.outside⟩

theorem Section.ReadIn.within {inner : Section} (h : s.ReadIn stop all)
    (ho : s.OpenedIn stop all) (hin : inner.Within s) :
    inner.ReadIn stop all ∧ inner.OpenedIn stop all := by
  induction hin with
  | refl => exact ⟨h, ho⟩
  | nested hc _ ih =>
    obtain ⟨-, -, -, hopened, hnested⟩ := h
    exact ih (hnested _ hc) (hopened _ hc).openedIn

/-- All that a sheet declares was read in the tokens of a text, and the sections directly in
templates have selectors. -/
structure Sheet.ReadIn (stop : Span) (all : List Token) (sheet : Sheet) : Prop where
  declarations : ∀ d ∈ sheet.declarations, ∃ name tokens rest, tokens <:+ all ∧
    readDeclaration stop name tokens = .ok (d, rest)
  sections : ∀ s ∈ sheet.sections, s.ReadIn stop all ∧ s.OpenedIn stop all
  templates : ∀ found ∈ sheet.templates, ∀ s ∈ found.sections,
    s.ReadIn stop all ∧ s.OpenedIn stop all ∧ s.selectors ≠ []
  templateAttributes : ∀ found ∈ sheet.templates, ∀ a ∈ found.attributes,
    (Member.assign a).ReadIn stop all

theorem Sheet.ReadIn.addStatement {sheet : Sheet} {statement : Statement}
    (h : sheet.ReadIn stop all) (hr : ReadsStatement stop t tail statement rest)
    (hall : t :: tail <:+ all) : (statement.addTo sheet).ReadIn stop all := by
  have htail : tail <:+ all := (List.suffix_cons t tail).trans hall
  cases hr with
  | nothing => exact ⟨h.declarations, h.sections, h.templates, h.templateAttributes⟩
  | imports => exact ⟨h.declarations, h.sections, h.templates, h.templateAttributes⟩
  | declaration _ hr =>
    refine ⟨?_, h.sections, h.templates, h.templateAttributes⟩
    intro other hin
    rcases List.mem_append.1 hin with hin | hin
    · exact h.declarations other hin
    · rw [List.mem_singleton.1 hin]
      exact ⟨_, tail, rest, htail, hr⟩
  | template _ hr =>
    obtain ⟨b, hread, hsealed, rfl⟩ := readTemplate_eq_ok_iff.1 hr
    obtain ⟨opened, hopened, hb⟩ := hread.opened
    obtain ⟨hassigned, -, -, hopens, hreads⟩ :=
      (readIn_of_readBlock hb (hopened.trans htail) (.outermost (.header {}) rfl)).1
    refine ⟨h.declarations, h.sections, ?_, ?_⟩
    · intro other hin
      rcases List.mem_append.1 hin with hin | hin
      · exact h.templates other hin
      · rw [List.mem_singleton.1 hin]
        intro s hs
        exact ⟨hreads s hs, (hopens s hs).openedIn, hsealed.selectors s hs⟩
    · intro other hin
      rcases List.mem_append.1 hin with hin | hin
      · exact h.templateAttributes other hin
      · rw [List.mem_singleton.1 hin]
        exact hassigned
  | block hopens hb =>
    obtain ⟨hs, hheader⟩ := readIn_of_readBlock hb (hopens.suffix.trans hall)
      (.outermost (hopens.header ▸ .header _) hopens.header)
    refine ⟨h.declarations, ?_, h.templates, h.templateAttributes⟩
    intro other hin
    rcases List.mem_append.1 hin with hin | hin
    · exact h.sections other hin
    · rw [List.mem_singleton.1 hin]
      exact ⟨hs, _, _, hall, hheader ▸ hopens⟩

theorem Sheet.ReadIn.run {sheet parsed : Sheet} (h : sheet.ReadIn stop all) (hall : tokens <:+ all)
    (hr : readStatements stop sheet tokens = .ok parsed) : parsed.ReadIn stop all := by
  fun_induction readStatements stop sheet tokens with
  | case1 sheet =>
    cases hr
    exact h
  | case2 => cases hr
  | case3 sheet t rest statement tail hread _ ih =>
    have hreads := readStatement_eq_ok_iff.1 hread
    exact ih (h.addStatement hreads hall) ((past_of_readStatement hread).suffix.trans hall) hr

theorem Sheet.readIn_of_parse {name source : String} {sheet : Sheet}
    (h : Sheet.parse name source = .ok sheet) :
    ∃ tokens, tokenize source = .ok tokens ∧ sheet.ReadIn tokens.stop tokens.list := by
  unfold Sheet.parse at h
  split at h
  · cases h
  next tokens ht =>
  have hstart : ({ name := name } : Sheet).ReadIn tokens.stop tokens.list := by
    constructor <;> intro _ hin <;> cases hin
  exact ⟨tokens, ht, hstart.run (List.suffix_refl _) h⟩

end NestedStyles
