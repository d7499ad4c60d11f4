import NestedStyles.Proofs.BalancedValues
import NestedStyles.Proofs.RealSelectors

/-!
Texts made of whole tokens. Every quote that such a text opens is closed in it, and every `$` and
`@` has a name after it. Texts of this kind can be joined, so nothing that is made of the tokens of
a sheet by joining, replacing variables and writing calls as text is of another kind.
-/

namespace NestedStyles

open Lexer

namespace Text

/-- No quote is left open in the text, and a word character follows every `$` and `@`. -/
inductive Whole : List Char → Prop
  | nil : Whole []
  | char {c : Char} {cs : List Char} : Quote.of? c = none → c ≠ '$' → c ≠ '@' → Whole cs →
      Whole (c :: cs)
  | sigil {c d : Char} {cs : List Char} : c = '$' ∨ c = '@' → isWordChar d = true → Whole cs →
      Whole (c :: d :: cs)
  | quoted {quote : Quote} {body cs : List Char} :
      splitQuoted quote.char (body ++ [quote.char]) = some (body, []) → Whole cs →
      Whole (quote.char :: body ++ quote.char :: cs)

variable {cs ds : List Char}

theorem Whole.append (h : Whole cs) (k : Whole ds) : Whole (cs ++ ds) := by
  induction h with
  | nil => exact k
  | char hquote hdollar hat _ ih => exact .char hquote hdollar hat ih
  | sigil hc hd _ ih => exact .sigil hc hd ih
  | quoted hbody _ ih =>
    rw [List.append_assoc, List.cons_append]
    exact .quoted hbody ih

theorem Whole.intercalate {sep : List Char} {texts : List (List Char)} (hs : Whole sep)
    (h : ∀ text ∈ texts, Whole text) : Whole (sep.intercalate texts) := by
  induction texts with
  | nil => exact .nil
  | cons text rest ih =>
    obtain ⟨htext, hrest⟩ := List.forall_mem_cons.1 h
    cases rest with
    | nil => simpa using htext
    | cons other others =>
      rw [List.intercalate_cons_cons]
      exact (htext.append hs).append (ih hrest)

def isPlain (cs : List Char) : Bool :=
  cs.all fun c => (Quote.of? c).isNone && c != '$' && c != '@'

theorem whole_of_isPlain (h : isPlain cs = true) : Whole cs := by
  induction cs with
  | nil => exact .nil
  | cons c cs ih =>
    simp only [isPlain, List.all_cons, Bool.and_eq_true, Option.isNone_iff_eq_none,
      bne_iff_ne] at h
    exact .char h.1.1.1 h.1.1.2 h.1.2 (ih h.2)

theorem whole_of_isWordChar (h : ∀ c ∈ cs, isWordChar c = true) : Whole cs := by
  induction cs with
  | nil => exact .nil
  | cons c cs ih =>
    obtain ⟨hc, hcs⟩ := List.forall_mem_cons.1 h
    obtain ⟨-, -, hquote, hdollar, hat⟩ := isWordChar_spec hc
    exact .char hquote hdollar hat (ih hcs)

theorem whole_separator (separator : Separator) : Whole separator.text.toList := by
  apply whole_of_isPlain
  cases separator <;> decide

end Text

/-! Tokens -/

def TokenKind.Whole (kind : TokenKind) : Prop := Text.Whole kind.text.toList

namespace Lexer

variable {rest tail : List Char} {c : Char} {kind : TokenKind}

theorem whole_readName {found : String → TokenKind} {problem : Problem}
    (h : readName found problem rest = .ok (.token kind, tail)) (hc : c = '$' ∨ c = '@') :
    ∃ name : String, kind = found name ∧ Text.Whole (c :: name.toList) := by
  obtain ⟨name, rfl, hne, -, hsplit⟩ := plain_of_readName h
  have hword : ∀ d ∈ name.toList, isWordChar d = true := by
    intro d hd
    have hfirst : (splitWord rest).1 = name.toList := by rw [hsplit]
    exact isWordChar_of_mem_splitWord (hfirst ▸ hd)
  refine ⟨name, rfl, ?_⟩
  cases hn : name.toList with
  | nil => exact absurd (String.toList_eq_nil_iff.1 hn) hne
  | cons d more =>
    rw [hn] at hword
    obtain ⟨hd, hmore⟩ := List.forall_mem_cons.1 hword
    exact .sigil hc hd (Text.whole_of_isWordChar hmore)

theorem whole_of_readToken (h : readToken c rest = .ok (.token kind, tail)) : kind.Whole := by
  unfold readToken at h
  split at h
  · next hk =>
    cases h
    rw [TokenKind.Whole, text_of_mark hk]
    unfold TokenKind.ofMark? at hk
    apply Text.whole_of_isPlain
    split at hk <;> cases hk <;> decide
  next hmark =>
  split at h
  · next quote hq =>
    split at h
    · cases h
    next body _ hs =>
    cases h
    rw [← char_of_quote hq] at hs
    have hbody := splitQuoted_append hs (quote_ne_backslash quote) []
    simpa [TokenKind.Whole, TokenKind.text] using Text.Whole.quoted hbody .nil
  next hquote =>
  split at h
  · next hc =>
    obtain ⟨name, rfl, hname⟩ := whole_readName h (.inl hc)
    simpa [TokenKind.Whole, TokenKind.text, hc] using hname
  next hdollar =>
  split at h
  · next hc =>
    obtain ⟨name, rfl, hname⟩ := whole_readName h (.inr hc)
    simpa [TokenKind.Whole, TokenKind.text, hc] using hname
  next hat =>
  cases h
  have hword : Text.Whole (splitWord rest).1 :=
    Text.whole_of_isWordChar fun _ hd => isWordChar_of_mem_splitWord hd
  simpa [TokenKind.Whole, TokenKind.text] using Text.Whole.char hquote hdollar hat hword

end Lexer

theorem whole_of_tokenize {source : String} {tokens : Tokens} (h : tokenize source = .ok tokens) :
    ∀ t ∈ tokens.list, t.kind.Whole := by
  intro t ht
  obtain ⟨_, c, rest, tail, -, hi⟩ := (scans_of_scan h).readItem (List.mem_map_of_mem ht)
  exact whole_of_readToken (readToken_of_readItem hi).1

/-! Expressions -/

namespace Expr

/-- The texts and names that the expression is written with are whole. -/
inductive Whole : Expr → Prop
  | text {s : String} : Text.Whole s.toList → Whole (.text s)
  | var {name : String} : Text.Whole ('$' :: name.toList) → Whole (.var name)
  | call {name : String} {arguments : List Expr} : Text.Whole name.toList →
      (∀ a ∈ arguments, Whole a) → Whole (.call name arguments)
  | list {separator : Separator} {items : List Expr} : (∀ e ∈ items, Whole e) →
      Whole (.list separator items)

theorem whole_intercalate {sep : List Char} (hs : Text.Whole sep) {es : List Expr}
    (h : ∀ e ∈ es, Text.Whole e.chars) : Text.Whole (sep.intercalate (es.map chars)) := by
  refine hs.intercalate fun text ht => ?_
  obtain ⟨e, he, rfl⟩ := List.mem_map.1 ht
  exact h e he

theorem whole_chars_call {name : String} {arguments : List Expr} (hn : Text.Whole name.toList)
    (h : ∀ a ∈ arguments, Text.Whole a.chars) :
    Text.Whole (Expr.call name arguments).chars := by
  have hopen : Text.Whole ['('] := Text.whole_of_isPlain (by decide)
  have hclose : Text.Whole [')'] := Text.whole_of_isPlain (by decide)
  rw [chars_call, ← List.singleton_append]
  exact (hn.append (hopen.append (whole_intercalate (Text.whole_separator .comma) h))).append hclose

theorem Whole.chars {e : Expr} (h : e.Whole) : Text.Whole e.chars := by
  induction h with
  | text h =>
    rw [chars_text]
    exact h
  | var h =>
    rw [chars_var]
    exact h
  | call hn _ ih => exact whole_chars_call hn ih
  | list _ ih =>
    rw [chars_list]
    exact whole_intercalate (Text.whole_separator _) ih

theorem Whole.collapse {items : List Expr} (h : ∀ e ∈ items, e.Whole) (separator : Separator) :
    (Expr.collapse separator items).Whole := by
  match items with
  | [e] => exact h e List.mem_cons_self
  | [] | _ :: _ :: _ => exact .list h

end Expr

/-- Calls with whole names and arguments have whole values. -/
def Evaluator.Whole (calls : Evaluator) : Prop :=
  ∀ name arguments, Text.Whole name.toList → (∀ a ∈ arguments, Expr.Whole a) →
    (calls name arguments).Whole

theorem Evaluator.whole_written : Evaluator.written.Whole := by
  intro name arguments hn h
  exact .text (Expr.whole_chars_call hn fun a ha => (h a ha).chars)

def Scope.Whole (s : Scope) : Prop :=
  ∀ binding ∈ s.bindings ++ s.outer.flatten, binding.2.Whole

namespace Expr

variable {calls : Evaluator} {onVar : String → Trace → Expr × Trace} {scope : Scope}

mutual
theorem Whole.traverse (hcalls : calls.Whole)
    (hvar : ∀ m, (Expr.var m).Whole → ∀ trace, (onVar m trace).1.Whole) :
    ∀ e : Expr, e.Whole → ∀ trace, (Expr.traverse calls onVar e trace).1.Whole
  | .text _, h, _ => h
  | .var m, h, trace => hvar m h trace
  | .call name arguments, .call hn h, trace =>
    hcalls name _ hn (Whole.traverseAll hcalls hvar arguments h trace)
  | .list _ items, .list h, trace => .list (Whole.traverseAll hcalls hvar items h trace)
theorem Whole.traverseAll (hcalls : calls.Whole)
    (hvar : ∀ m, (Expr.var m).Whole → ∀ trace, (onVar m trace).1.Whole) :
    ∀ es : List Expr, (∀ e ∈ es, e.Whole) → ∀ trace,
      ∀ e ∈ (Expr.traverseAll calls onVar es trace).1, e.Whole
  | [], _, _ => by simp [Expr.traverseAll]
  | e :: rest, h, trace => by
    obtain ⟨he, hrest⟩ := List.forall_mem_cons.1 h
    exact List.forall_mem_cons.2
      ⟨Whole.traverse hcalls hvar e he trace, Whole.traverseAll hcalls hvar rest hrest _⟩
end

theorem whole_resolve (hcalls : calls.Whole) (hs : scope.Whole) {budget : Nat}
    {resolving : List String} {name : String} (h : (Expr.var name).Whole) (trace : Trace) :
    (resolve calls budget scope resolving name trace).1.Whole := by
  induction budget generalizing scope resolving name trace with
  | zero => exact h
  | succ budget ih =>
    rw [resolve]
    by_cases hin : name ∈ resolving
    · rw [if_pos hin]
      exact h
    · rw [if_neg hin]
      cases hl : scope.lookup name with
      | none => exact h
      | some found =>
        obtain ⟨value, home⟩ := found
        obtain ⟨hpart, hbound⟩ := Scope.lookup_eq_some hl
        have hhome : home.Whole := fun binding hb => hs binding (hpart.subset hb)
        have hvalue : value.Whole := hhome _ (List.mem_append_left _ hbound)
        exact Whole.traverse hcalls (fun m hm trace => ih hhome hm trace) value hvalue trace

theorem Whole.eval (hcalls : calls.Whole) (hs : scope.Whole) {e : Expr} (h : e.Whole) :
    (e.eval calls scope).1.Whole :=
  Whole.traverse hcalls (fun _ hm trace => whole_resolve hcalls hs hm trace) e h {}

end Expr

/-! Sheets -/

namespace ExprReader

theorem whole_append {s t : String} (hs : (Expr.text s).Whole) (ht : (Expr.text t).Whole) :
    (Expr.text (s ++ t)).Whole := by
  cases hs with
  | text hs =>
    cases ht with
    | text ht =>
      have hboth := hs.append ht
      rw [← String.toList_append] at hboth
      exact .text hboth

/-- The reader makes whole values of whole tokens. -/
def wholeValues : Invariant where
  token := TokenKind.Whole
  name text := Text.Whole text.toList
  pieces ps := ∀ p ∈ ps, p.toExpr.Whole
  value := Expr.Whole
  nil := by simp
  word htext hps := List.forall_mem_cons.2 ⟨.text htext, hps⟩
  expr he hps := List.forall_mem_cons.2 ⟨he, hps⟩
  group {ps} inner hinner hps := by
    have hopen : (Expr.text "(").Whole := .text (Text.whole_of_isPlain (by decide))
    have hclose : (Expr.text ")").Whole := .text (Text.whole_of_isPlain (by decide))
    refine List.forall_mem_append.2 ⟨?_, List.forall_mem_cons.2 ⟨hopen, hps⟩⟩
    exact List.forall_mem_cons.2 ⟨hclose, hinner⟩
  called h := by
    obtain ⟨hname, hrest⟩ := List.forall_mem_cons.1 h
    cases hname with
    | text hname => exact ⟨hname, hrest⟩
  var hx := .var (by simpa [TokenKind.Whole, TokenKind.text] using hx)
  text hkind _ _ := .text hkind
  call := .call
  items := .collapse
  term {l} h := by
    refine .collapse (forall_foldr_joinText whole_append fun e he => ?_) _
    obtain ⟨p, hp, rfl⟩ := List.mem_map.1 he
    exact h p (List.mem_reverse.1 hp)

end ExprReader

theorem Text.joinable_whole : Joinable fun text => Text.Whole text.toList where
  blank := Text.whole_of_isPlain (by decide)
  append ha hb := by
    rw [String.toList_append]
    exact ha.append hb

def Selector.Whole (s : Selector) : Prop := ∀ part ∈ s, Text.Whole part.toList

structure Attribute.Whole (a : Attribute) : Prop where
  name : Text.Whole a.name.toList
  value : a.value.Whole

/-- All that is written in a section itself is whole, whatever is nested in it. -/
structure Section.Whole (s : Section) : Prop where
  selectors : ∀ selector ∈ s.selectors, selector.Whole
  attributes : ∀ a ∈ s.attributes, a.Whole
  arguments : ∀ r ∈ s.references, ∀ a ∈ r.arguments, a.Whole
  query : ∀ query ∈ s.media, query.Whole

structure Template.Whole (t : Template) : Prop where
  attributes : ∀ a ∈ t.attributes, a.Whole
  sections : ∀ child ∈ t.sections, child.Whole

/-- All that is written in a sheet is whole. -/
structure Sheet.Whole (sheet : Sheet) : Prop where
  declarations : ∀ d ∈ sheet.declarations, d.value.Whole
  sections : ∀ s ∈ sheet.sections, ∀ inner : Section, inner.Within s → inner.Whole
  templates : ∀ t ∈ sheet.templates, t.Whole

section Sheets

open SectionReader

variable {stop : Span} {all tokens rest : List Token}

theorem Token.whole_joined (h : ∀ t ∈ tokens, t.kind.Whole) :
    Text.Whole (Token.joined tokens).toList := by
  have hfollowed : ∀ ts : List Token, (∀ t ∈ ts, t.kind.Whole) →
      Text.Whole (Token.joined.followed ts).toList := by
    intro ts hts
    induction ts with
    | nil => exact .nil
    | cons t ts ih =>
      obtain ⟨ht, hts⟩ := List.forall_mem_cons.1 hts
      have hblank : Text.Whole (if t.spaced then " " else "").toList := by
        split
        · exact Text.joinable_whole.blank
        · exact .nil
      simp only [Token.joined.followed, String.toList_append]
      exact (hblank.append ht).append (ih hts)
  cases tokens with
  | nil => exact .nil
  | cons t ts =>
    obtain ⟨ht, hts⟩ := List.forall_mem_cons.1 h
    rw [Token.joined, String.toList_append]
    exact Text.Whole.append ht (hfollowed ts hts)

theorem whole_name_of_readAttribute {a : Attribute} (ht : ∀ t ∈ tokens, t.kind.Whole)
    (h : readAttribute stop tokens = .ok (a, rest)) : Text.Whole a.name.toList := by
  unfold readAttribute at h
  split at h
  · cases h
  next words tail hne hname =>
  simp only at h
  split at h
  · cases h
  split at h
  · cases h
  split at h
  · cases h
  cases h
  have happend := before_append endsName tokens
  rw [hname] at happend
  exact Token.whole_joined fun t hin => ht t (happend ▸ List.mem_append_left _ hin)

theorem SectionReader.Member.ReadIn.whole {a : Attribute} (h : (Member.assign a).ReadIn stop all)
    (ht : ∀ t ∈ all, t.kind.Whole) : a.Whole := by
  refine ⟨?_, h.value ExprReader.wholeValues ht⟩
  obtain ⟨tokens, rest, hall, hreads⟩ := h
  cases hreads with
  | assign _ _ _ hr => exact whole_name_of_readAttribute (fun t hin => ht t (hall.subset hin)) hr

theorem Section.ReadIn.whole {s : Section} (h : s.ReadIn stop all) (ho : s.OpenedIn stop all)
    (ht : ∀ t ∈ all, t.kind.Whole) : s.Whole := by
  have hvalues := h.has ho ExprReader.wholeValues ht
  refine ⟨ho.parts Text.joinable_whole ht, ?_, hvalues.arguments, hvalues.query⟩
  obtain ⟨hattributes, -⟩ := h
  exact fun a ha => (hattributes a ha).whole ht

theorem Sheet.whole_of_parse {name source : String} {sheet : Sheet}
    (h : Sheet.parse name source = .ok sheet) : sheet.Whole := by
  obtain ⟨tokens, htokens, hread⟩ := Sheet.readIn_of_parse h
  have ht := whole_of_tokenize htokens
  refine ⟨(hread.has ExprReader.wholeValues ht).declarations, ?_, ?_⟩
  · intro s hs inner hin
    obtain ⟨hs, hopened⟩ := hread.sections s hs
    obtain ⟨hinner, hheader⟩ := hs.within hopened hin
    exact hinner.whole hheader ht
  · intro t hin
    refine ⟨fun a ha => (hread.templateAttributes t hin a ha).whole ht, ?_⟩
    intro child hc
    obtain ⟨hchild, hopened, -⟩ := hread.templates t hin child hc
    exact hchild.whole hopened ht

end Sheets

end NestedStyles
