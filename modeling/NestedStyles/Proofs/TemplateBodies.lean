import NestedStyles.Proofs.Provenance

/-!
What the body of a template may hold. A sheet is refused for the first template whose own members
extend something or refer to a template, or that has a media wrapper directly in it. What stands in
the sections of a template is not looked at.
-/

namespace NestedStyles

open SheetReader

namespace Section

variable {s : Section}

instance (s : Section) : Decidable s.Sealed :=
  decidable_of_iff
    (s.extensions = [] ∧ s.references = [] ∧ ∀ child ∈ s.nested, child.selectors ≠ [])
    ⟨fun ⟨he, hr, hs⟩ => ⟨he, hr, hs⟩, fun ⟨he, hr, hs⟩ => ⟨he, hr, hs⟩⟩

/-- Nothing in the section extends or refers to templates, and no media wrapper stands in it, at any
depth. -/
def Closed (s : Section) : Prop := ∀ inner : Section, inner.Within s → inner.Sealed

theorem closed_iff : s.Closed ↔ s.Sealed ∧ ∀ child ∈ s.nested, child.Closed := by
  constructor
  · intro h
    exact ⟨h s (.refl s), fun child hc inner hin => h inner (.nested hc hin)⟩
  · rintro ⟨hs, hnested⟩ inner hin
    cases hin with
    | refl => exact hs
    | nested hc hin => exact hnested _ hc inner hin

end Section

/-- Statements with the templates among them, up to the tokens that are left. The block of a
template is read whatever stands in it. -/
inductive ReadsTemplates (stop : Span) : List Token → List TemplateBlock → List Token → Prop
  | done (tokens : List Token) : ReadsTemplates stop tokens [] tokens
  | template {t : Token} {tail after rest : List Token} {b : TemplateBlock}
      {blocks : List TemplateBlock} : t.kind = .directive "func" →
      ReadsTemplate stop t.span tail b after → ReadsTemplates stop after blocks rest →
      ReadsTemplates stop (t :: tail) (b :: blocks) rest
  | other {t : Token} {tail after rest : List Token} {statement : Statement}
      {blocks : List TemplateBlock} : t.kind ≠ .directive "func" →
      ReadsStatement stop t tail statement after → ReadsTemplates stop after blocks rest →
      ReadsTemplates stop (t :: tail) blocks rest

section Statements

variable {stop : Span} {t : Token} {tokens tail after rest : List Token} {statement : Statement}
  {b : TemplateBlock} {blocks : List TemplateBlock} {sheet parsed : Sheet}

theorem readStatements_of_error {fault : Fault} (h : readStatement stop t tail = .error fault) :
    readStatements stop sheet (t :: tail) = .error fault := by
  rw [readStatements]
  split
  · next he =>
    cases he.symm.trans h
    rfl
  · next he => cases he.symm.trans h

theorem readStatement_of_func (hk : t.kind = .directive "func") :
    readStatement stop t tail =
      (readTemplate stop t.span tail).map fun (found, rest) => (.template found, rest) := by
  simp [readStatement, hk, readTopDirective]

theorem readStatement_of_not_sealed (hk : t.kind = .directive "func")
    (h : ReadsTemplate stop t.span tail b after) (hb : ¬ b.body.Sealed) :
    readStatement stop t tail = .error b.fault := by
  rw [readStatement_of_func hk, h.read, templateOf_of_not_sealed hb]
  rfl

theorem ReadsStatement.templates_addTo (h : ReadsStatement stop t tail statement after)
    (hk : t.kind ≠ .directive "func") : (statement.addTo sheet).templates = sheet.templates := by
  cases h with
  | template hfunc => exact absurd hfunc hk
  | nothing | imports | declaration | block => rfl

/-- The templates of a sheet are those of the blocks in its text, and these are sealed. -/
theorem templates_of_readStatements (h : readStatements stop sheet tokens = .ok parsed) :
    ∃ blocks, ReadsTemplates stop tokens blocks [] ∧
      parsed.templates = sheet.templates ++ blocks.map (·.template) ∧
      ∀ b ∈ blocks, b.body.Sealed := by
  fun_induction readStatements stop sheet tokens with
  | case1 sheet =>
    cases h
    exact ⟨[], .done [], by simp, by simp⟩
  | case2 => cases h
  | case3 sheet t tail statement after hread _ ih =>
    obtain ⟨blocks, hblocks, htemplates, hsealed⟩ := ih h
    by_cases hk : t.kind = .directive "func"
    · rw [readStatement_of_func hk] at hread
      obtain ⟨found, hfound, rfl⟩ := SectionReader.eq_ok_of_map hread
      obtain ⟨b, hb, hfirst, rfl⟩ := readTemplate_eq_ok_iff.1 hfound
      refine ⟨b :: blocks, .template hk hb hblocks, ?_, List.forall_mem_cons.2 ⟨hfirst, hsealed⟩⟩
      simp [htemplates, Statement.addTo]
    · have hreads := readStatement_eq_ok_iff.1 hread
      refine ⟨blocks, .other hk hreads hblocks, ?_, hsealed⟩
      rw [htemplates, hreads.templates_addTo hk]

theorem readStatements_of_sealed (h : ReadsTemplates stop tokens blocks [])
    (hb : ∀ b ∈ blocks, b.body.Sealed) (sheet : Sheet) :
    ∃ parsed, readStatements stop sheet tokens = .ok parsed := by
  generalize hrest : ([] : List Token) = rest at h
  induction h generalizing sheet with
  | done =>
    subst hrest
    exact ⟨sheet, by rw [readStatements]⟩
  | template hk hread _ ih =>
    obtain ⟨hfirst, hlater⟩ := List.forall_mem_cons.1 hb
    rw [readStatements_of_reads (.template hk (readTemplate_eq_ok_iff.2 ⟨_, hread, hfirst, rfl⟩))]
    exact ih hlater _ hrest
  | other _ hread _ ih =>
    rw [readStatements_of_reads hread]
    exact ih hb _ hrest

theorem readStatements_of_not_sealed {before later : List TemplateBlock}
    (h : ReadsTemplates stop tokens (before ++ b :: later) rest)
    (hbefore : ∀ a ∈ before, a.body.Sealed) (hb : ¬ b.body.Sealed) (sheet : Sheet) :
    readStatements stop sheet tokens = .error b.fault := by
  generalize hblocks : before ++ b :: later = blocks at h
  induction h generalizing before sheet with
  | done => simp at hblocks
  | template hk hread _ ih =>
    cases before with
    | nil =>
      cases hblocks
      exact readStatements_of_error (readStatement_of_not_sealed hk hread hb)
    | cons first others =>
      cases hblocks
      obtain ⟨hfirst, hothers⟩ := List.forall_mem_cons.1 hbefore
      rw [readStatements_of_reads (.template hk (readTemplate_eq_ok_iff.2 ⟨_, hread, hfirst, rfl⟩))]
      exact ih hothers _ rfl
  | other _ hread _ ih =>
    rw [readStatements_of_reads hread]
    exact ih hbefore _ hblocks

end Statements

/-! Templates in a source text -/

/-- The text starts with statements that have these templates among them, and `rest` is left of its
tokens. -/
def TemplatesIn (source : String) (blocks : List TemplateBlock) (rest : List Token) : Prop :=
  ∃ tokens, tokenize source = .ok tokens ∧ ReadsTemplates tokens.stop tokens.list blocks rest

section Texts

variable {name source : String} {blocks before later : List TemplateBlock} {b : TemplateBlock}
  {rest : List Token} {sheet : Sheet}

theorem templatesIn_of_parse (h : Sheet.parse name source = .ok sheet) :
    ∃ blocks, TemplatesIn source blocks [] ∧ sheet.templates = blocks.map (·.template) ∧
      ∀ b ∈ blocks, b.body.Sealed := by
  unfold Sheet.parse at h
  split at h
  · cases h
  next tokens ht =>
  obtain ⟨blocks, hblocks, htemplates, hsealed⟩ := templates_of_readStatements h
  exact ⟨blocks, ⟨tokens, ht, hblocks⟩, by simpa using htemplates, hsealed⟩

theorem parse_of_not_sealed (name : String) (h : TemplatesIn source (before ++ b :: later) rest)
    (hbefore : ∀ a ∈ before, a.body.Sealed) (hb : ¬ b.body.Sealed) :
    Sheet.parse name source = .error b.fault := by
  obtain ⟨tokens, ht, hblocks⟩ := h
  simp only [Sheet.parse, ht]
  exact readStatements_of_not_sealed hblocks hbefore hb _

theorem exists_parse_iff (h : TemplatesIn source blocks []) :
    (∃ sheet, Sheet.parse name source = .ok sheet) ↔ ∀ b ∈ blocks, b.body.Sealed := by
  constructor
  · rintro ⟨sheet, hp⟩
    by_contra hopen
    -- the first block that is not sealed gives the fault
    cases hfound : blocks.find? fun b => ¬ b.body.Sealed with
    | none => exact hopen fun b hin => by simpa using List.find?_eq_none.1 hfound b hin
    | some b =>
      obtain ⟨hb, before, later, rfl, hbefore⟩ := List.find?_eq_some_iff_append.1 hfound
      have herror := parse_of_not_sealed name h (by simpa using hbefore) (by simpa using hb)
      cases hp.symm.trans herror
  · intro hsealed
    obtain ⟨tokens, ht, hblocks⟩ := h
    simp only [Sheet.parse, ht]
    exact readStatements_of_sealed hblocks hsealed _

end Texts

/-- A sheet that is read has templates whose own members neither extend nor call nor open a media
wrapper, and the first template of a text that does so is what the text is refused for. Nothing more
is looked at: where the sections of all templates are closed, the texts that are read are those with
closed templates only. -/
theorem parse_template_bodies (name source : String) :
    (∀ sheet, Sheet.parse name source = .ok sheet →
      ∃ blocks, TemplatesIn source blocks [] ∧ sheet.templates = blocks.map (·.template) ∧
        ∀ b ∈ blocks, b.body.Sealed) ∧
    (∀ before b later rest, TemplatesIn source (before ++ b :: later) rest →
      (∀ a ∈ before, a.body.Sealed) → ¬ b.body.Sealed →
      Sheet.parse name source = .error b.fault) ∧
    (∀ blocks, TemplatesIn source blocks [] →
      ((∃ sheet, Sheet.parse name source = .ok sheet) ↔ ∀ b ∈ blocks, b.body.Sealed)) ∧
    (∀ blocks, TemplatesIn source blocks [] →
      (∀ b ∈ blocks, ∀ child ∈ b.body.nested, child.Closed) →
      ((∃ sheet, Sheet.parse name source = .ok sheet) ↔ ∀ b ∈ blocks, b.body.Closed)) := by
  refine ⟨fun sheet hp => templatesIn_of_parse hp,
    fun before b later rest h hbefore hb => parse_of_not_sealed name h hbefore hb,
    fun blocks h => exists_parse_iff h, fun blocks h hinside => ?_⟩
  rw [exists_parse_iff h]
  refine forall₂_congr fun b hin => ?_
  rw [Section.closed_iff]
  exact (and_iff_left (hinside b hin)).symm

example : Sheet.parse "main.bss" "@func f() \x7b\n  @media print \x7b padding: 0 \x7d\n\x7d" =
    .error ⟨⟨1, 1⟩, .mediaInTemplate "f"⟩ := by
  decide +kernel

/-- An extension in a section of a template is read. -/
theorem extension_in_template_section_read :
    let source := "@func f() \x7b a \x7b @extend .x; \x7d \x7d"
    ∃ sheet, Sheet.parse "main.bss" source = .ok sheet ∧
      ∃ blocks, TemplatesIn source blocks [] ∧ ∃ b ∈ blocks, ¬ b.body.Closed := by
  intro source
  have hrun : (Sheet.parse "main.bss" source).toOption.map (·.templates) =
      some [⟨"f", [], [], [{ selectors := [["a"]], extensions := [".x"] }]⟩] := by
    decide +kernel
  cases hp : Sheet.parse "main.bss" source with
  | error fault => simp [hp, Except.toOption] at hrun
  | ok sheet =>
    obtain ⟨blocks, hblocks, htemplates, -⟩ := templatesIn_of_parse hp
    refine ⟨sheet, rfl, blocks, hblocks, ?_⟩
    simp only [hp, Except.toOption, Option.map_some, Option.some.injEq] at hrun
    rw [htemplates] at hrun
    obtain ⟨b, rfl, hb⟩ := List.map_eq_singleton_iff.1 hrun
    refine ⟨b, List.mem_singleton_self b, fun hclosed => ?_⟩
    have hnested : b.body.nested = [{ selectors := [["a"]], extensions := [".x"] }] :=
      congrArg Template.sections hb
    have hchild := (Section.closed_iff.1 hclosed).2 _ (hnested ▸ List.mem_singleton_self _)
    exact absurd (hchild _ (.refl _)).extensions (by simp)

end NestedStyles
