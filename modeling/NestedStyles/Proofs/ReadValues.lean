import NestedStyles.Proofs.Provenance
import NestedStyles.Proofs.ValueSpelling

/-!
What the values of a sheet have in common. An invariant of the reader of values says what holds of
tokens, of the pieces of an open term and of values, and how each step of the reader keeps it. Where
it holds of the tokens of a text, it holds of every value of the sheet that is parsed from it.
-/

namespace NestedStyles

namespace ExprReader

theorem forall_foldr_joinText {P : Expr → Prop} {es : List Expr}
    (happend : ∀ {s t : String}, P (.text s) → P (.text t) → P (.text (s ++ t)))
    (h : ∀ e ∈ es, P e) : ∀ e ∈ es.foldr joinText [], P e := by
  induction es with
  | nil => simp
  | cons e es ih =>
    obtain ⟨he, hes⟩ := List.forall_mem_cons.1 h
    have hrest := ih hes
    rw [List.foldr_cons]
    generalize es.foldr joinText [] = rest at hrest
    unfold joinText
    split
    · obtain ⟨ht, hrest⟩ := List.forall_mem_cons.1 hrest
      exact List.forall_mem_cons.2 ⟨happend he ht, hrest⟩
    · exact List.forall_mem_cons.2 ⟨he, hrest⟩

/-- Predicates on what the reader of values takes and makes, such that every step keeps them. The
pieces of an open term come with the newest first. -/
structure Invariant where
  token : TokenKind → Prop
  /-- Of the words that are names of calls. -/
  name : String → Prop
  pieces : List Piece → Prop
  value : Expr → Prop
  nil : pieces []
  word : ∀ {text : String} {ps : List Piece}, token (.word text) → pieces ps →
    pieces (.word text :: ps)
  expr : ∀ {e : Expr} {ps : List Piece}, value e → pieces ps → pieces (.expr e :: ps)
  group : ∀ {ps : List Piece} (inner : List Piece), (∀ p ∈ inner, value p.toExpr) → pieces ps →
    pieces (.expr (.text ")") :: inner ++ .expr (.text "(") :: ps)
  called : ∀ {text : String} {ps : List Piece}, pieces (.word text :: ps) → name text ∧ pieces ps
  var : ∀ {x : String}, token (.var x) → value (.var x)
  text : ∀ {kind : TokenKind}, token kind → roleOf kind = .piece → kind ≠ .openParen →
    value (.text kind.text)
  call : ∀ {f : String} {arguments : List Expr}, name f → (∀ a ∈ arguments, value a) →
    value (.call f arguments)
  items : ∀ {es : List Expr}, (∀ e ∈ es, value e) → ∀ separator, value (.collapse separator es)
  term : ∀ {l : Level}, pieces l.pieces → value l.term

variable {inv : Invariant}

structure Level.Has (inv : Invariant) (l : Level) : Prop where
  items : ∀ e ∈ l.items, inv.value e
  terms : ∀ e ∈ l.terms, inv.value e
  pieces : inv.pieces l.pieces

namespace Level

variable {l : Level} {items : List Expr} {found : String}

theorem Has.start : ({} : Level).Has inv := ⟨by simp, by simp, inv.nil⟩

theorem Has.push {p : Piece} (h : l.Has inv) (hp : inv.pieces (p :: l.pieces)) :
    (l.push p).Has inv :=
  ⟨h.items, h.terms, hp⟩

theorem Has.closeTerm (h : l.Has inv) : l.closeTerm.Has inv := by
  by_cases hp : l.pieces = []
  · rw [closeTerm_of_nil hp]
    exact h
  · rw [closeTerm_of_ne hp]
    exact ⟨h.items, List.forall_mem_cons.2 ⟨inv.term h.pieces, h.terms⟩, inv.nil⟩

theorem Has.closeItem (h : l.Has inv) (hi : l.closeItem found = .ok items) :
    ∀ e ∈ items, inv.value e := by
  have hterms := h.closeTerm.terms
  unfold Level.closeItem at hi
  split at hi
  · cases hi
  · cases hi
    intro e he
    rcases List.mem_append.1 he with he | he
    · exact h.items e (List.mem_reverse.1 he)
    · rw [List.mem_singleton.1 he]
      exact inv.items (fun t ht => hterms t (List.mem_reverse.1 ht)) _

end Level

/-- What was read so far has the invariant, and so do the names of the calls that are open. -/
structure State.Has (inv : Invariant) (s : State) : Prop where
  level : s.level.Has inv
  outer : ∀ frame ∈ s.frames, frame.outer.Has inv
  names : ∀ frame ∈ s.frames, ∀ name, frame.opener = .call name → inv.name name

namespace State

variable {s next : State} {t : Token} {items : List Expr} {mode : Mode}

theorem Has.start : ({} : State).Has inv := ⟨.start, by simp, by simp⟩

theorem Has.take (h : s.Has inv) (ht : inv.token t.kind) (hrole : roleOf t.kind = .piece) :
    (s.take t).Has inv := by
  have hlevel : (if t.spaced then s.level.closeTerm else s.level).Has inv := by
    split
    · exact h.level.closeTerm
    · exact h.level
  unfold State.take
  generalize (if t.spaced then s.level.closeTerm else s.level) = level at hlevel
  dsimp only
  split
  · next name pieces hk hp =>
    obtain ⟨hname, hrest⟩ := inv.called (hp ▸ hlevel.pieces)
    refine ⟨.start, ?_, ?_⟩
    · exact List.forall_mem_cons.2 ⟨⟨hlevel.items, hlevel.terms, hrest⟩, h.outer⟩
    · refine List.forall_mem_cons.2 ⟨?_, h.names⟩
      intro other heq
      cases heq
      exact hname
  · refine ⟨.start, List.forall_mem_cons.2 ⟨hlevel, h.outer⟩, ?_⟩
    exact List.forall_mem_cons.2 ⟨by simp, h.names⟩
  · next text hk => exact ⟨hlevel.push (inv.word (hk ▸ ht) hlevel.pieces), h.outer, h.names⟩
  · next name hk =>
    exact ⟨hlevel.push (inv.expr (inv.var (hk ▸ ht)) hlevel.pieces), h.outer, h.names⟩
  · next hopen _ _ _ =>
    have hvalue := inv.text ht hrole hopen
    exact ⟨hlevel.push (inv.expr hvalue hlevel.pieces), h.outer, h.names⟩

theorem Has.comma (h : s.Has inv) (hs : s.comma = .ok next) : next.Has inv := by
  unfold State.comma at hs
  split at hs
  · cases hs
  · next items hi =>
    cases hs
    refine ⟨⟨?_, by simp, inv.nil⟩, h.outer, h.names⟩
    intro e he
    exact h.level.closeItem hi e (List.mem_reverse.1 he)

theorem Has.leave {frame : Frame} {frames : List Frame} (h : s.Has inv)
    (hf : s.frames = frame :: frames) (hi : ∀ e ∈ items, inv.value e) :
    (leave frame frames items).Has inv := by
  have houter := h.outer
  have hnames := h.names
  rw [hf] at houter hnames
  obtain ⟨hframe, houter⟩ := List.forall_mem_cons.1 houter
  obtain ⟨hname, hnames⟩ := List.forall_mem_cons.1 hnames
  unfold State.leave
  split
  · next name hcall =>
    exact ⟨hframe.push (inv.expr (inv.call (hname name hcall) hi) hframe.pieces), houter, hnames⟩
  · cases items with
    | nil =>
      exact ⟨⟨hframe.items, hframe.terms, inv.group [] (by simp) hframe.pieces⟩, houter, hnames⟩
    | cons e es =>
      have hinner : ∀ p ∈ [Piece.expr (.collapse .comma (e :: es))], inv.value p.toExpr := by
        intro p hp
        rw [List.mem_singleton.1 hp]
        exact inv.items hi .comma
      exact ⟨⟨hframe.items, hframe.terms, inv.group _ hinner hframe.pieces⟩, houter, hnames⟩

theorem Has.close (h : s.Has inv) {step : Step} (hs : s.close mode = .ok step) :
    match step with
    | .next next => next.Has inv
    | .finish items => ∀ e ∈ items, inv.value e := by
  unfold State.close at hs
  split at hs
  · obtain ⟨items, hi, rfl⟩ := SectionReader.map_eq_ok hs
    exact h.level.closeItem hi
  · split at hs
    · cases hs
      simp
    · obtain ⟨items, hi, rfl⟩ := SectionReader.map_eq_ok hs
      exact h.level.closeItem hi
  · next frame frames _ hf _ =>
    split at hs
    · cases hs
      exact h.leave hf (by simp)
    · obtain ⟨items, hi, rfl⟩ := SectionReader.map_eq_ok hs
      exact h.leave hf (h.level.closeItem hi)

theorem Has.halt (h : s.Has inv) {found : String} (hs : s.halt mode found = .ok items) :
    ∀ e ∈ items, inv.value e := by
  unfold State.halt at hs
  split at hs
  · cases hs
  next hi =>
  split at hs <;> cases hs
  exact h.level.closeItem hi

end State

theorem values_of_run {mode : Mode} {stop : Span} {s : State} {tokens rest : List Token}
    {items : List Expr} (h : s.Has inv) (ht : ∀ t ∈ tokens, inv.token t.kind)
    (hr : run mode stop s tokens = .ok (items, rest)) : ∀ e ∈ items, inv.value e := by
  fun_induction run mode stop s tokens with
  | case1 => cases hr
  | case2 _ _ hs =>
    cases hr
    exact h.halt hs
  | case3 _ _ _ hrole ih =>
    obtain ⟨hfirst, hrest⟩ := List.forall_mem_cons.1 ht
    exact ih (h.take hfirst hrole) hrest hr
  | case4 => cases hr
  | case5 _ _ _ _ _ hs ih => exact ih (h.comma hs) (List.forall_mem_cons.1 ht).2 hr
  | case6 => cases hr
  | case7 _ _ _ _ _ hs ih => exact ih (h.close hs) (List.forall_mem_cons.1 ht).2 hr
  | case8 _ _ _ _ _ hs =>
    cases hr
    exact h.close hs
  | case9 _ _ _ _ _ hs =>
    cases hr
    exact h.close hs
  | case10 => cases hr
  | case11 _ _ _ _ _ hs =>
    cases hr
    exact h.halt hs

end ExprReader

/-! Where the values of a sheet are read -/

open ExprReader SectionReader SheetReader

variable {inv : Invariant} {stop : Span} {all tokens rest : List Token} {s : Section}

/-- The value was read somewhere in the tokens of a text. -/
def Expr.ReadIn (stop : Span) (all : List Token) (e : Expr) : Prop :=
  ∃ tokens rest, tokens <:+ all ∧ readValue stop tokens = .ok (e, rest)

/-- The arguments were read somewhere in the tokens of a text, or there are none. -/
def ArgumentsReadIn (stop : Span) (all : List Token) (arguments : List Expr) : Prop :=
  arguments = [] ∨ ∃ tokens rest, tokens <:+ all ∧ readArguments stop tokens = .ok (arguments, rest)

theorem Expr.ReadIn.mono {e : Expr} (h : e.ReadIn stop tokens) (hall : tokens <:+ all) :
    e.ReadIn stop all := by
  obtain ⟨inner, tail, hinner, hr⟩ := h
  exact ⟨inner, tail, hinner.trans hall, hr⟩

theorem ArgumentsReadIn.mono {arguments : List Expr} (h : ArgumentsReadIn stop tokens arguments)
    (hall : tokens <:+ all) : ArgumentsReadIn stop all arguments := by
  rcases h with hnone | ⟨inner, tail, hinner, hr⟩
  · exact .inl hnone
  · exact .inr ⟨inner, tail, hinner.trans hall, hr⟩

theorem readIn_of_readMedia (h : readMedia stop tokens = .ok (s, rest)) :
    ∀ query ∈ s.media, query.ReadIn stop tokens := by
  unfold readMedia at h
  split at h
  · cases h
  split at h
  · cases h
  next query tail hv =>
  split at h
  · cases h
  cases h
  intro other hin
  cases hin
  exact ⟨tokens, tail, List.suffix_refl _, hv⟩

theorem readIn_of_readDeclaration {name : String} {d : Declaration}
    (h : readDeclaration stop name tokens = .ok (d, rest)) : d.value.ReadIn stop tokens := by
  unfold readDeclaration at h
  split at h
  · cases h
  next hc =>
  split at h
  · cases h
  next hv =>
  split at h
  · cases h
  cases h
  exact ⟨_, _, Token.suffix_of_expect hc, hv⟩

theorem readIn_of_readAttribute {a : Attribute} (h : readAttribute stop tokens = .ok (a, rest)) :
    a.value.ReadIn stop tokens := by
  unfold readAttribute at h
  split at h
  · cases h
  next hname =>
  simp only at h
  split at h
  · cases h
  next hc =>
  split at h
  · cases h
  next hv =>
  split at h
  · cases h
  cases h
  exact ⟨_, _, (Token.suffix_of_expect hc).trans (suffix_of_before hname), hv⟩

theorem argumentsReadIn_of_readReference {r : Reference}
    (h : readReference stop tokens = .ok (r, rest)) : ArgumentsReadIn stop tokens r.arguments := by
  unfold readReference at h
  split at h
  · cases h
  next hname =>
  split at h
  · cases h
  next harguments =>
  split at h
  · cases h
  cases h
  have htail := suffix_of_readTemplateName hname
  unfold readOptionalArguments at harguments
  split at harguments
  · cases harguments
    exact .inl rfl
  split at harguments
  · exact .inr ⟨_, _, (List.suffix_cons _ _).trans htail, harguments⟩
  · cases harguments
    exact .inl rfl

theorem SectionReader.Member.ReadIn.valueReadIn {a : Attribute}
    (h : (Member.assign a).ReadIn stop all) : a.value.ReadIn stop all := by
  obtain ⟨tokens, rest, hall, hreads⟩ := h
  cases hreads with
  | assign _ _ _ hr => exact (readIn_of_readAttribute hr).mono hall

theorem SectionReader.Member.ReadIn.argumentsReadIn {r : Reference}
    (h : (Member.reference r).ReadIn stop all) : ArgumentsReadIn stop all r.arguments := by
  obtain ⟨tokens, rest, hall, hreads⟩ := h
  cases hreads with
  | reference _ hr =>
    exact (argumentsReadIn_of_readReference hr).mono ((List.suffix_cons _ _).trans hall)

theorem Section.OpenedIn.queryReadIn (h : s.OpenedIn stop all) :
    ∀ query ∈ s.media, query.ReadIn stop all := by
  obtain ⟨tokens, rest, hall, hopens⟩ := h
  have hmedia : s.header.media = s.media := rfl
  rw [← hmedia]
  intro query hin
  cases hopens with
  | media _ hm => exact (readIn_of_readMedia hm query hin).mono ((List.suffix_cons _ _).trans hall)
  | rule _ _ hr =>
    rw [(header_readRule hr).1] at hin
    cases hin

/-! Sheets -/

theorem Expr.ReadIn.value {e : Expr} (h : e.ReadIn stop all) (inv : Invariant)
    (ht : ∀ t ∈ all, inv.token t.kind) : inv.value e := by
  obtain ⟨tokens, rest, hall, hread⟩ := h
  unfold readValue at hread
  split at hread
  · cases hread
  next items _ hr =>
  cases hread
  exact inv.items (values_of_run .start (fun t hin => ht t (hall.subset hin)) hr) .comma

theorem ArgumentsReadIn.values {arguments : List Expr} (h : ArgumentsReadIn stop all arguments)
    (inv : Invariant) (ht : ∀ t ∈ all, inv.token t.kind) : ∀ a ∈ arguments, inv.value a := by
  rcases h with rfl | ⟨tokens, rest, hall, hr⟩
  · simp
  · exact values_of_run .start (fun t hin => ht t (hall.subset hin)) hr

/-- The values of a section itself have the invariant, whatever is nested in it. -/
structure Section.Has (inv : Invariant) (s : Section) : Prop where
  attributes : ∀ a ∈ s.attributes, inv.value a.value
  arguments : ∀ r ∈ s.references, ∀ a ∈ r.arguments, inv.value a
  query : ∀ query ∈ s.media, inv.value query

structure Sheet.Has (inv : Invariant) (sheet : Sheet) : Prop where
  declarations : ∀ d ∈ sheet.declarations, inv.value d.value
  sections : ∀ s ∈ sheet.sections, ∀ inner : Section, inner.Within s → inner.Has inv
  templates : ∀ found ∈ sheet.templates, (∀ a ∈ found.attributes, inv.value a.value) ∧
    ∀ child ∈ found.sections, child.Has inv

theorem SectionReader.Member.ReadIn.value {a : Attribute} (h : (Member.assign a).ReadIn stop all)
    (inv : Invariant) (ht : ∀ t ∈ all, inv.token t.kind) : inv.value a.value :=
  h.valueReadIn.value inv ht

theorem Section.ReadIn.has (h : s.ReadIn stop all) (ho : s.OpenedIn stop all) (inv : Invariant)
    (ht : ∀ t ∈ all, inv.token t.kind) : s.Has inv := by
  obtain ⟨hattributes, -, hreferences, -, -⟩ := h
  constructor
  · exact fun a ha => (hattributes a ha).value inv ht
  · exact fun r hr => (hreferences r hr).argumentsReadIn.values inv ht
  · exact fun query hq => (ho.queryReadIn query hq).value inv ht

theorem Sheet.ReadIn.has {sheet : Sheet} (h : sheet.ReadIn stop all) (inv : Invariant)
    (ht : ∀ t ∈ all, inv.token t.kind) : sheet.Has inv := by
  constructor
  · intro d hd
    obtain ⟨name, tokens, rest, hall, hr⟩ := h.declarations d hd
    exact ((readIn_of_readDeclaration hr).mono hall).value inv ht
  · intro s hs inner hin
    obtain ⟨hread, hopened⟩ := h.sections s hs
    obtain ⟨hinner, hheader⟩ := hread.within hopened hin
    exact hinner.has hheader inv ht
  · intro found hf
    refine ⟨fun a ha => (h.templateAttributes found hf a ha).value inv ht, ?_⟩
    intro child hc
    obtain ⟨hread, hopened, -⟩ := h.templates found hf child hc
    exact hread.has hopened inv ht

end NestedStyles
