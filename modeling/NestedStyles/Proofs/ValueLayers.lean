import NestedStyles.Proofs.ReadValues
import NestedStyles.Proofs.Lexemes

/-!
The layers of values. A value is a comma list of items, an item is a space list of terms, and a
term is a text, a variable, a call or pieces joined without a blank. No list has fewer than two
members, no text is empty, texts that meet in a term are joined, and a list inside a term stands
between the texts with its parentheses. The reader makes values of this kind only.
-/

namespace NestedStyles

namespace Expr

def isText : Expr → Bool
  | .text _ => true
  | _ => false

def isList : Expr → Bool
  | .list .. => true
  | _ => false

/-- A text that ends with an opening parenthesis. -/
def opensGroup : Expr → Bool
  | .text s => s.toList.getLast? = some '('
  | _ => false

/-- A text that starts with a closing parenthesis. -/
def closesGroup : Expr → Bool
  | .text s => s.toList.head? = some ')'
  | _ => false

/-- What two pieces of a term have to satisfy where they meet. -/
structure Meets (a b : Expr) : Prop where
  apart : ¬ (a.isText ∧ b.isText)
  opened : b.isList → a.opensGroup
  closed : a.isList → b.closesGroup

/-- The pieces of a term in order. A list among them has a piece on either side. -/
structure Juxtaposed (pieces : List Expr) : Prop where
  meets : pieces.IsChain Meets
  first : ∀ e ∈ pieces.head?, ¬ e.isList
  last : ∀ e ∈ pieces.getLast?, ¬ e.isList

inductive Layer
  | value
  | item
  | term
  deriving DecidableEq, Repr

/-- The expression is built of layers, the outermost of them being at most the given one. -/
inductive Layered : Layer → Expr → Prop
  | text {layer : Layer} {s : String} : s ≠ "" → Layered layer (.text s)
  | var {layer : Layer} {name : String} : Layered layer (.var name)
  | call {layer : Layer} {name : String} {arguments : List Expr} :
      (∀ a ∈ arguments, Layered .item a) → Layered layer (.call name arguments)
  | concat {layer : Layer} {pieces : List Expr} : 2 ≤ pieces.length → Juxtaposed pieces →
      (∀ e ∈ pieces, Layered .value e) → Layered layer (.list .concat pieces)
  | space {layer : Layer} {terms : List Expr} : layer ≠ .term → 2 ≤ terms.length →
      (∀ e ∈ terms, Layered .term e) → Layered layer (.list .space terms)
  | comma {items : List Expr} : 2 ≤ items.length → (∀ e ∈ items, Layered .item e) →
      Layered .value (.list .comma items)

variable {e : Expr} {es : List Expr}

theorem Layered.item_of_term (h : Layered .term e) : Layered .item e := by
  cases h with
  | text hs => exact .text hs
  | var => exact .var
  | call h => exact .call h
  | concat hlength hpieces h => exact .concat hlength hpieces h
  | space hlayer => exact absurd rfl hlayer

theorem Layered.value_of_item (h : Layered .item e) : Layered .value e := by
  cases h with
  | text hs => exact .text hs
  | var => exact .var
  | call h => exact .call h
  | concat hlength hpieces h => exact .concat hlength hpieces h
  | space _ hlength h => exact .space (by decide) hlength h

theorem Layered.collapse_of {layer : Layer} {separator : Separator} (hne : es ≠ [])
    (hone : ∀ e, es = [e] → Layered layer e)
    (hmany : 2 ≤ es.length → Layered layer (.list separator es)) :
    Layered layer (.collapse separator es) := by
  match es with
  | [] => exact absurd rfl hne
  | [e] => exact hone e rfl
  | _ :: _ :: _ => exact hmany (by simp)

theorem Layered.ofTerms (hne : es ≠ []) (h : ∀ e ∈ es, Layered .term e) :
    Layered .item (.collapse .space es) := by
  refine .collapse_of hne ?_ fun hlength => .space (by decide) hlength h
  rintro e rfl
  exact (h e List.mem_cons_self).item_of_term

theorem Layered.ofItems (hne : es ≠ []) (h : ∀ e ∈ es, Layered .item e) :
    Layered .value (.collapse .comma es) := by
  refine .collapse_of hne ?_ fun hlength => .comma hlength h
  rintro e rfl
  exact (h e List.mem_cons_self).value_of_item

theorem Layered.of_not_isList {layer other : Layer} (h : Layered layer e) (hlist : ¬ e.isList) :
    Layered other e := by
  cases h with
  | text hs => exact .text hs
  | var => exact .var
  | call h => exact .call h
  | concat | space | comma => exact absurd rfl hlist

end Expr

namespace ExprReader

open Expr

/-! The pieces of a term -/

section Pieces

variable {e : Expr} {rest : List Expr} {ps : List Piece}

theorem joinText_ne_nil (e : Expr) (rest : List Expr) : joinText e rest ≠ [] := by
  unfold joinText
  split <;> simp

theorem head_joinText_text (s : String) (rest : List Expr) :
    ∃ t more, joinText (.text s) rest = .text (s ++ t) :: more := by
  match rest with
  | .text t :: more => exact ⟨t, more, rfl⟩
  | [] => exact ⟨"", [], by simp [joinText]⟩
  | .var name :: more => exact ⟨"", .var name :: more, by simp [joinText]⟩
  | .call name arguments :: more => exact ⟨"", .call name arguments :: more, by simp [joinText]⟩
  | .list separator items :: more => exact ⟨"", .list separator items :: more, by simp [joinText]⟩

theorem juxtaposed_joinText (h : Juxtaposed rest) (he : ¬ e.isList) :
    Juxtaposed (joinText e rest) := by
  obtain ⟨hmeets, hfirst, hlast⟩ := h
  unfold joinText
  split
  · next s t more =>
    refine ⟨?_, by simp [isList], ?_⟩
    · cases more with
      | nil => exact .singleton _
      | cons x more =>
        obtain ⟨hnext, hmore⟩ := List.isChain_cons_cons.1 hmeets
        refine List.isChain_cons_cons.2 ⟨⟨hnext.apart, fun hlist => ?_, by simp [isList]⟩, hmore⟩
        -- the second text ends the joined one
        have hopens := hnext.opened hlist
        simp only [opensGroup, decide_eq_true_eq] at hopens ⊢
        rw [String.toList_append, List.getLast?_append, hopens]
        rfl
    · cases more with
      | nil => simp [isList]
      | cons x more => simpa using hlast
  · next hjoin =>
    cases rest with
    | nil => exact ⟨.singleton e, by simpa using he, by simpa using he⟩
    | cons x more =>
      have hx : ¬ x.isList := hfirst x rfl
      refine ⟨List.isChain_cons_cons.2 ⟨⟨?_, fun hlist => absurd hlist hx,
        fun hlist => absurd hlist he⟩, hmeets⟩, by simpa using he, by simpa using hlast⟩
      rintro ⟨hleft, hright⟩
      cases e <;> cases x <;> simp_all [isText]

theorem juxtaposed_group (h : Juxtaposed rest) (value : Expr) :
    Juxtaposed (joinText (.text "(") (joinText value (joinText (.text ")") rest))) := by
  have hclosed := juxtaposed_joinText h (e := .text ")") (by simp [isList])
  by_cases hvalue : value.isList
  · obtain ⟨separator, items, rfl⟩ : ∃ separator items, value = .list separator items := by
      cases value <;> simp_all [isList]
    obtain ⟨t, more, heq⟩ := head_joinText_text ")" rest
    rw [heq] at hclosed ⊢
    have hcloses : (Expr.text (")" ++ t)).closesGroup := by simp [closesGroup]
    refine ⟨?_, by simp [joinText, isList], ?_⟩
    · refine List.isChain_cons_cons.2 ⟨⟨by simp [isText], fun _ => by decide, by simp [isList]⟩, ?_⟩
      exact List.isChain_cons_cons.2
        ⟨⟨by simp [isText], by simp [isList], fun _ => hcloses⟩, hclosed.meets⟩
    · simpa [joinText] using hclosed.last
  · exact juxtaposed_joinText (juxtaposed_joinText hclosed hvalue) (by simp [isList])

/-- The pieces of an open term, the newest first: single ones, and values in parentheses. -/
inductive Pushed : List Piece → Prop
  | nil : Pushed []
  | piece {p : Piece} {ps : List Piece} : ¬ p.toExpr.isList → Layered .value p.toExpr →
      Pushed ps → Pushed (p :: ps)
  | group {value : Expr} {ps : List Piece} : Layered .value value → Pushed ps →
      Pushed (.expr (.text ")") :: .expr value :: .expr (.text "(") :: ps)

theorem Pushed.text {s : String} (hs : s ≠ "") (h : Pushed ps) : Pushed (.expr (.text s) :: ps) :=
  .piece (by simp [Piece.toExpr, isList]) (.text hs) h

theorem Pushed.layered (h : Pushed ps) : ∀ p ∈ ps, Layered .value p.toExpr := by
  induction h with
  | nil => simp
  | piece _ hp _ ih => exact List.forall_mem_cons.2 ⟨hp, ih⟩
  | group hvalue _ ih =>
    have hopen : Layered .value (.text "(") := .text (by decide)
    have hclose : Layered .value (.text ")") := .text (by decide)
    exact List.forall_mem_cons.2 ⟨hclose, List.forall_mem_cons.2
      ⟨hvalue, List.forall_mem_cons.2 ⟨hopen, ih⟩⟩⟩

theorem Pushed.juxtaposed (h : Pushed ps) (hrest : Juxtaposed rest) :
    Juxtaposed ((ps.reverse.map Piece.toExpr).foldr joinText rest) := by
  induction h generalizing rest with
  | nil => exact hrest
  | piece hlist _ _ ih =>
    simpa [List.foldr_append] using ih (juxtaposed_joinText hrest hlist)
  | @group value _ _ _ ih =>
    simpa [List.foldr_append, Piece.toExpr] using ih (juxtaposed_group hrest value)

theorem layered_append {s t : String} (hs : Layered .value (.text s))
    (_ : Layered .value (.text t)) : Layered .value (.text (s ++ t)) := by
  cases hs with
  | text hs => exact .text fun hempty => hs (String.append_eq_empty_iff.1 hempty).1

theorem Pushed.term {l : Level} (h : Pushed l.pieces) (hne : l.pieces ≠ []) :
    Layered .term l.term := by
  have hnone : Juxtaposed [] := ⟨.nil, by simp, by simp⟩
  have hjuxtaposed := h.juxtaposed hnone
  have hlayered : ∀ e ∈ (l.pieces.reverse.map Piece.toExpr).foldr joinText [],
      Layered .value e := by
    refine forall_foldr_joinText layered_append fun e he => ?_
    obtain ⟨p, hp, rfl⟩ := List.mem_map.1 he
    exact h.layered p (List.mem_reverse.1 hp)
  have hsome : (l.pieces.reverse.map Piece.toExpr).foldr joinText [] ≠ [] := by
    cases hes : l.pieces.reverse.map Piece.toExpr with
    | nil => simp_all
    | cons e es => exact joinText_ne_nil _ _
  refine .collapse_of hsome (fun e he => ?_) fun hlength => .concat hlength hjuxtaposed hlayered
  rw [he] at hjuxtaposed hlayered
  exact (hlayered e List.mem_cons_self).of_not_isList (hjuxtaposed.first e rfl)

end Pieces

/-! The reader -/

/-- What was read of a level is in layers. -/
structure Level.Layered (l : Level) : Prop where
  items : ∀ e ∈ l.items, Expr.Layered .item e
  terms : ∀ e ∈ l.terms, Expr.Layered .term e
  pieces : Pushed l.pieces

namespace Level

variable {l : Level} {items : List Expr} {found : String}

theorem Layered.start : ({} : Level).Layered := ⟨by simp, by simp, .nil⟩

theorem Layered.closeTerm (h : l.Layered) : l.closeTerm.Layered := by
  by_cases hp : l.pieces = []
  · rw [closeTerm_of_nil hp]
    exact h
  · rw [closeTerm_of_ne hp]
    exact ⟨h.items, List.forall_mem_cons.2 ⟨h.pieces.term hp, h.terms⟩, .nil⟩

theorem Layered.closeItem (h : l.Layered) (hi : l.closeItem found = .ok items) :
    items ≠ [] ∧ ∀ e ∈ items, Expr.Layered .item e := by
  have hterms := h.closeTerm.terms
  unfold Level.closeItem at hi
  split at hi
  · cases hi
  next hne =>
  cases hi
  refine ⟨by simp, fun e he => ?_⟩
  rcases List.mem_append.1 he with he | he
  · exact h.items e (List.mem_reverse.1 he)
  · rw [List.mem_singleton.1 he]
    refine .ofTerms (by simpa using hne) fun t ht => hterms t (List.mem_reverse.1 ht)

end Level

structure State.Layered (s : State) : Prop where
  level : s.level.Layered
  outer : ∀ frame ∈ s.frames, frame.outer.Layered

namespace State

variable {s next : State} {t : Token} {items : List Expr} {mode : Mode}

theorem Layered.start : ({} : State).Layered := ⟨.start, by simp⟩

theorem Layered.take (h : s.Layered) (ht : t.text ≠ "") : (s.take t).Layered := by
  have hlevel : (if t.spaced then s.level.closeTerm else s.level).Layered := by
    split
    · exact h.level.closeTerm
    · exact h.level
  unfold State.take
  generalize (if t.spaced then s.level.closeTerm else s.level) = level at hlevel
  obtain ⟨hitems, hterms, hpieces⟩ := hlevel
  dsimp only
  split
  · next name pieces _ hp =>
    -- a group never ends with a word, so the word is a piece of its own
    rw [hp] at hpieces
    cases hpieces with
    | piece _ _ hrest =>
      exact ⟨.start, List.forall_mem_cons.2 ⟨⟨hitems, hterms, hrest⟩, h.outer⟩⟩
  · exact ⟨.start, List.forall_mem_cons.2 ⟨⟨hitems, hterms, hpieces⟩, h.outer⟩⟩
  · next text hk =>
    have htext : text ≠ "" := by simpa [Token.text, hk, TokenKind.text] using ht
    exact ⟨⟨hitems, hterms, .piece (by simp [Piece.toExpr, isList]) (.text htext) hpieces⟩, h.outer⟩
  · exact ⟨⟨hitems, hterms, .piece (by simp [Piece.toExpr, isList]) .var hpieces⟩, h.outer⟩
  · exact ⟨⟨hitems, hterms, hpieces.text ht⟩, h.outer⟩

theorem Layered.comma (h : s.Layered) (hs : s.comma = .ok next) : next.Layered := by
  unfold State.comma at hs
  split at hs
  · cases hs
  next items hi =>
  cases hs
  refine ⟨⟨fun e he => ?_, by simp, .nil⟩, h.outer⟩
  exact (h.level.closeItem hi).2 e (List.mem_reverse.1 he)

theorem Layered.leave {frame : Frame} {frames : List Frame} (h : s.Layered)
    (hf : s.frames = frame :: frames) (hi : ∀ e ∈ items, Expr.Layered .item e) :
    (leave frame frames items).Layered := by
  have houter := h.outer
  rw [hf] at houter
  obtain ⟨⟨hitems, hterms, hpieces⟩, houter⟩ := List.forall_mem_cons.1 houter
  unfold State.leave
  split
  · exact ⟨⟨hitems, hterms, .piece (by simp [Piece.toExpr, isList]) (.call hi) hpieces⟩, houter⟩
  · cases items with
    | nil => exact ⟨⟨hitems, hterms, (hpieces.text (by decide)).text (by decide)⟩, houter⟩
    | cons e es => exact ⟨⟨hitems, hterms, .group (.ofItems (by simp) hi) hpieces⟩, houter⟩

/-- A closing parenthesis that ends a value comes after an item of it. -/
theorem Layered.close (h : s.Layered) {step : Step} (hs : s.close mode = .ok step) :
    match step with
    | .next next => next.Layered
    | .finish items => (mode = .value → items ≠ []) ∧ ∀ e ∈ items, Expr.Layered .item e := by
  unfold State.close at hs
  split at hs
  · obtain ⟨items, hi, rfl⟩ := SectionReader.map_eq_ok hs
    obtain ⟨hne, hitems⟩ := h.level.closeItem hi
    exact ⟨fun _ => hne, hitems⟩
  · split at hs
    · cases hs
      simp
    · obtain ⟨items, hi, rfl⟩ := SectionReader.map_eq_ok hs
      obtain ⟨hne, hitems⟩ := h.level.closeItem hi
      exact ⟨fun _ => hne, hitems⟩
  · next frame frames _ hf _ =>
    split at hs
    · cases hs
      exact h.leave hf (by simp)
    · obtain ⟨items, hi, rfl⟩ := SectionReader.map_eq_ok hs
      exact h.leave hf (h.level.closeItem hi).2

theorem Layered.halt (h : s.Layered) {found : String} (hs : s.halt mode found = .ok items) :
    items ≠ [] ∧ ∀ e ∈ items, Expr.Layered .item e := by
  unfold State.halt at hs
  split at hs
  · cases hs
  next hi =>
  split at hs <;> cases hs
  exact h.level.closeItem hi

end State

theorem layered_of_run {mode : Mode} {stop : Span} {s : State} {tokens rest : List Token}
    {items : List Expr} (h : s.Layered) (ht : ∀ t ∈ tokens, t.text ≠ "")
    (hr : run mode stop s tokens = .ok (items, rest)) :
    (mode = .value → items ≠ []) ∧ ∀ e ∈ items, Layered .item e := by
  fun_induction run mode stop s tokens with
  | case1 => cases hr
  | case2 _ _ hs =>
    cases hr
    exact ⟨fun _ => (h.halt hs).1, (h.halt hs).2⟩
  | case3 _ _ _ _ ih =>
    obtain ⟨hfirst, hrest⟩ := List.forall_mem_cons.1 ht
    exact ih (h.take hfirst) hrest hr
  | case4 => cases hr
  | case5 _ _ _ _ _ hs ih => exact ih (h.comma hs) (List.forall_mem_cons.1 ht).2 hr
  | case6 => cases hr
  | case7 _ _ _ _ _ hs ih => exact ih (h.close hs) (List.forall_mem_cons.1 ht).2 hr
  | case8 _ _ _ _ _ hs =>
    cases hr
    exact h.close hs
  | case9 _ _ _ _ _ hs =>
    cases hr
    exact h.close hs
  | case10 => cases hr
  | case11 _ _ _ _ _ hs =>
    cases hr
    exact ⟨fun _ => (h.halt hs).1, (h.halt hs).2⟩

end ExprReader

open ExprReader

variable {stop : Span} {all : List Token}

theorem Expr.ReadIn.layered {e : Expr} (h : e.ReadIn stop all) (ht : ∀ t ∈ all, t.text ≠ "") :
    e.Layered .value := by
  obtain ⟨tokens, rest, hall, hread⟩ := h
  unfold readValue at hread
  split at hread
  · cases hread
  next items _ hr =>
  cases hread
  obtain ⟨hne, hitems⟩ := layered_of_run .start (fun t hin => ht t (hall.subset hin)) hr
  exact .ofItems (hne rfl) hitems

theorem ArgumentsReadIn.layered {arguments : List Expr} (h : ArgumentsReadIn stop all arguments)
    (ht : ∀ t ∈ all, t.text ≠ "") : ∀ a ∈ arguments, Expr.Layered .item a := by
  rcases h with rfl | ⟨tokens, rest, hall, hr⟩
  · simp
  · exact (layered_of_run .start (fun t hin => ht t (hall.subset hin)) hr).2

end NestedStyles
