import NestedStyles.Proofs.ReadValues
import NestedStyles.Proofs.Resolution

/-!
Values are balanced. Their texts close every parenthesis and every quote that they open, so what
stands after a value is read as if the value were not there. The reader makes balanced values only,
and evaluation replaces variables and calls by such.
-/

namespace NestedStyles

/-! Balanced texts -/

/-- Where the scan of a text is: outside quotes at a depth of parentheses, or between quotes, there
also after a backslash. -/
inductive Cursor
  | outside (depth : Nat)
  | quoted (depth : Nat) (quote : Quote)
  | escaped (depth : Nat) (quote : Quote)
  deriving DecidableEq, Repr

namespace Cursor

def step : Cursor → Char → Cursor
  | outside depth, c =>
    if c = '(' then outside (depth + 1)
    else if c = ')' then outside (depth - 1)
    else
      match Quote.of? c with
      | some quote => quoted depth quote
      | none => outside depth
  | quoted depth quote, c =>
    if c = '\\' then escaped depth quote
    else if c = quote.char then outside depth
    else quoted depth quote
  | escaped depth quote, _ => quoted depth quote

def run (cursor : Cursor) (cs : List Char) : Cursor := cs.foldl step cursor

@[simp] theorem run_nil (cursor : Cursor) : cursor.run [] = cursor := rfl

@[simp] theorem run_cons (cursor : Cursor) (c : Char) (cs : List Char) :
    cursor.run (c :: cs) = (cursor.step c).run cs := rfl

@[simp] theorem run_append (cursor : Cursor) (cs ds : List Char) :
    cursor.run (cs ++ ds) = (cursor.run cs).run ds := by
  simp [run]

end Cursor

namespace Text

/-- The text takes a scan outside quotes from every depth to the one that `shift` gives. -/
def Shifts (cs : List Char) (shift : Nat → Nat) : Prop :=
  ∀ depth, (Cursor.outside depth).run cs = .outside (shift depth)

/-- The text leaves a scan outside quotes where it was. -/
def Balanced (cs : List Char) : Prop := Shifts cs fun depth => depth

variable {cs ds : List Char} {shift next : Nat → Nat}

theorem Shifts.append (h : Shifts cs shift) (k : Shifts ds next) :
    Shifts (cs ++ ds) fun depth => next (shift depth) := by
  intro depth
  rw [Cursor.run_append, h, k]

theorem Balanced.append (h : Balanced cs) (k : Balanced ds) : Balanced (cs ++ ds) :=
  Shifts.append h k

theorem Balanced.flatMap {α : Type} {xs : List α} {f : α → List Char}
    (h : ∀ x ∈ xs, Balanced (f x)) : Balanced (xs.flatMap f) := by
  induction xs with
  | nil => exact fun _ => rfl
  | cons x xs ih =>
    obtain ⟨hx, hxs⟩ := List.forall_mem_cons.1 h
    rw [List.flatMap_cons]
    exact hx.append (ih hxs)

theorem Balanced.of_shifts (h : Balanced cs) (hc : Shifts cs shift) (hd : Shifts ds shift) :
    Balanced ds := by
  intro depth
  have hsame : Cursor.outside (shift depth) = .outside depth := (hc depth).symm.trans (h depth)
  rw [hd, hsame]

theorem balanced_of_plain (h : ∀ c ∈ cs, c ≠ '(' ∧ c ≠ ')' ∧ Quote.of? c = none) :
    Balanced cs := by
  intro depth
  induction cs with
  | nil => rfl
  | cons c cs ih =>
    obtain ⟨⟨hopen, hclose, hquote⟩, hcs⟩ := List.forall_mem_cons.1 h
    rw [Cursor.run_cons, Cursor.step, if_neg hopen, if_neg hclose, hquote]
    exact ih hcs

theorem Balanced.parens (h : Balanced cs) : Balanced ('(' :: cs ++ [')']) := by
  intro depth
  have hinside : (Cursor.outside (depth + 1)).run cs = .outside (depth + 1) := h _
  simp [Cursor.step, hinside]

theorem balanced_separator (separator : Separator) : Balanced separator.text.toList := by
  apply balanced_of_plain
  cases separator <;> simp [Separator.text, Quote.of?]

theorem Balanced.intercalate {sep : List Char} {texts : List (List Char)} (hs : Balanced sep)
    (h : ∀ text ∈ texts, Balanced text) : Balanced (sep.intercalate texts) := by
  induction texts with
  | nil => exact fun _ => rfl
  | cons text rest ih =>
    obtain ⟨htext, hrest⟩ := List.forall_mem_cons.1 h
    cases rest with
    | nil => simpa using htext
    | cons other others =>
      rw [List.intercalate_cons_cons]
      exact (htext.append hs).append (ih hrest)

end Text

/-! Tokens -/

/-- The text of a token opens and closes parentheses as the token does. -/
def TokenKind.Sound (kind : TokenKind) : Prop :=
  Text.Shifts kind.text.toList fun depth => kind.depthAfter depth

namespace Lexer

variable {cs rest tail body : List Char} {c : Char} {kind : TokenKind}

theorem balanced_of_isWordChar (h : ∀ c ∈ cs, isWordChar c = true) : Text.Balanced cs := by
  apply Text.balanced_of_plain
  intro c hc
  obtain ⟨-, hmark, hquote, -⟩ := isWordChar_spec (h c hc)
  refine ⟨?_, ?_, hquote⟩ <;> rintro rfl <;> cases hmark

theorem isWordChar_of_mem_splitWord (hc : c ∈ (splitWord cs).1) : isWordChar c = true := by
  fun_induction splitWord cs with
  | case1 => cases hc
  | case2 d rest hd word tail hw ih =>
    simp only [hw] at ih
    simp only [Bool.and_eq_true] at hd
    rcases List.mem_cons.1 hc with rfl | hc
    · exact hd.1
    · exact ih hc
  | case3 => cases hc

theorem run_of_splitQuoted {quote : Quote} (h : splitQuoted quote.char cs = some (body, tail))
    (depth : Nat) : (Cursor.quoted depth quote).run body = .quoted depth quote := by
  generalize hq : quote.char = q at h
  fun_induction splitQuoted q cs generalizing body with
  | case1 => cases h
  | case2 c rest ih =>
    simp only [Option.map_eq_some_iff, Prod.exists, Prod.mk.injEq] at h
    obtain ⟨inner, _, hinner, rfl, rfl⟩ := h
    simp [Cursor.step, ih hinner]
  | case3 rest _ =>
    cases h
    rfl
  | case4 c rest hescape hne ih =>
    simp only [Option.map_eq_some_iff, Prod.exists, Prod.mk.injEq] at h
    obtain ⟨inner, _, hinner, rfl, rfl⟩ := h
    have hc := ne_backslash_of_splitQuoted hescape hinner
    simp [Cursor.step, hc, hq, hne, ih hinner]

theorem sound_of_mark (h : TokenKind.ofMark? c = some kind) : kind.Sound := by
  intro depth
  rw [text_of_mark h]
  unfold TokenKind.ofMark? at h
  split at h <;> cases h <;> rfl

theorem sound_of_splitQuoted {quote : Quote} (h : splitQuoted quote.char rest = some (body, tail)) :
    (TokenKind.quoted quote (String.ofList body)).Sound := by
  intro depth
  have hopens : (Cursor.outside depth).step quote.char = .quoted depth quote := by
    cases quote <;> rfl
  have hcloses : (Cursor.quoted depth quote).step quote.char = .outside depth := by
    cases quote <;> rfl
  simp [TokenKind.text, hopens, run_of_splitQuoted h, hcloses, TokenKind.depthAfter]

theorem balanced_splitWord (rest : List Char) : Text.Balanced (splitWord rest).1 :=
  balanced_of_isWordChar fun _ hc => isWordChar_of_mem_splitWord hc

theorem balanced_readName {found : String → TokenKind} {problem : Problem}
    (h : readName found problem rest = .ok (.token kind, tail)) :
    ∃ name : String, kind = found name ∧ Text.Balanced name.toList := by
  obtain ⟨name, rfl, -, -, hsplit⟩ := plain_of_readName h
  have hword := balanced_splitWord rest
  rw [hsplit] at hword
  exact ⟨name, rfl, hword⟩

theorem sound_of_readToken (h : readToken c rest = .ok (.token kind, tail)) : kind.Sound := by
  unfold readToken at h
  split at h
  · next hk =>
    cases h
    exact sound_of_mark hk
  next hmark =>
  split at h
  · next quote hq =>
    split at h
    · cases h
    · next body _ hs =>
      cases h
      rw [← char_of_quote hq] at hs
      exact sound_of_splitQuoted hs
  next hquote =>
  have hfirst : Text.Balanced [c] := by
    refine Text.balanced_of_plain (List.forall_mem_singleton.2 ⟨?_, ?_, hquote⟩)
    · rintro rfl
      cases hmark
    · rintro rfl
      cases hmark
  split at h
  · next hc =>
    obtain ⟨name, rfl, hname⟩ := balanced_readName h
    have htext : (TokenKind.var name).text.toList = [c] ++ name.toList := by
      simp [TokenKind.text, hc]
    rw [TokenKind.Sound, htext]
    exact hfirst.append hname
  split at h
  · next hc =>
    obtain ⟨name, rfl, hname⟩ := balanced_readName h
    have htext : (TokenKind.directive name).text.toList = [c] ++ name.toList := by
      simp [TokenKind.text, hc]
    rw [TokenKind.Sound, htext]
    exact hfirst.append hname
  · cases h
    have htext : (TokenKind.word (String.ofList (c :: (splitWord rest).1))).text.toList =
        [c] ++ (splitWord rest).1 := by
      simp [TokenKind.text]
    rw [TokenKind.Sound, htext]
    exact hfirst.append (balanced_splitWord rest)

end Lexer

open Lexer in
theorem sound_of_tokenize {source : String} {tokens : Tokens} (h : tokenize source = .ok tokens) :
    ∀ t ∈ tokens.list, t.kind.Sound := by
  intro t ht
  obtain ⟨_, c, rest, tail, -, hi⟩ := (scans_of_scan h).readItem (List.mem_map_of_mem ht)
  exact sound_of_readToken (readToken_of_readItem hi).1

/-! Expressions -/

namespace Expr

/-- No text of the expression ends between quotes, and the arguments of its calls are balanced. -/
inductive Tidy : Expr → Prop
  | text {s : String} {shift : Nat → Nat} : Text.Shifts s.toList shift → Tidy (.text s)
  | var {name : String} : Text.Balanced (Expr.var name).chars → Tidy (.var name)
  | call {name : String} {arguments : List Expr} : Text.Balanced name.toList →
      (∀ a ∈ arguments, Tidy a) → (∀ a ∈ arguments, Text.Balanced a.chars) →
      Tidy (.call name arguments)
  | list {separator : Separator} {items : List Expr} : (∀ e ∈ items, Tidy e) →
      Tidy (.list separator items)

/-- The text of the expression is balanced, and stays so when parts of it are replaced. -/
structure Balanced (e : Expr) : Prop where
  tidy : e.Tidy
  text : Text.Balanced e.chars

theorem Balanced.ofText {s : String} (h : Text.Balanced s.toList) :
    (Expr.text s).Balanced := by
  refine ⟨.text h, ?_⟩
  rw [chars_text]
  exact h

theorem Balanced.ofVar {name : String} (h : Text.Balanced (Expr.var name).chars) :
    (Expr.var name).Balanced :=
  ⟨.var h, h⟩

theorem balanced_chars_call {name : String} {arguments : List Expr}
    (hn : Text.Balanced name.toList) (h : ∀ a ∈ arguments, Text.Balanced a.chars) :
    Text.Balanced (Expr.call name arguments).chars := by
  rw [chars_call, List.append_assoc]
  refine hn.append (Text.Balanced.parens ?_)
  exact Text.Balanced.intercalate (Text.balanced_separator .comma) (by simpa using h)

theorem Balanced.ofCall {name : String} {arguments : List Expr}
    (hn : Text.Balanced name.toList) (h : ∀ a ∈ arguments, a.Balanced) :
    (Expr.call name arguments).Balanced :=
  ⟨.call hn (fun a ha => (h a ha).tidy) fun a ha => (h a ha).text,
    balanced_chars_call hn fun a ha => (h a ha).text⟩

theorem chars_list (separator : Separator) (items : List Expr) :
    (Expr.list separator items).chars = separator.text.toList.intercalate (items.map chars) := by
  simp only [chars, render, renderAll_eq_map, String.toList_intercalate, List.map_map]
  rfl

theorem Tidy.collapse {items : List Expr} (h : ∀ e ∈ items, e.Tidy) (separator : Separator) :
    (Expr.collapse separator items).Tidy := by
  match items with
  | [e] => exact h e List.mem_cons_self
  | [] | _ :: _ :: _ => exact .list h

theorem Balanced.ofItems {items : List Expr} (h : ∀ e ∈ items, e.Balanced)
    (separator : Separator) : (Expr.collapse separator items).Balanced := by
  refine ⟨.collapse (fun e he => (h e he).tidy) separator, ?_⟩
  rw [chars_collapse]
  refine Text.Balanced.intercalate (Text.balanced_separator separator) ?_
  intro text ht
  obtain ⟨e, he, rfl⟩ := List.mem_map.1 ht
  exact (h e he).text

/-- A tidy expression that can stand in the place of another one: what is around it is scanned as
before. -/
def Replaces (e other : Expr) : Prop :=
  other.Tidy ∧ ∃ shift, Text.Shifts e.chars shift ∧ Text.Shifts other.chars shift

theorem Replaces.balanced {e other : Expr} (h : Replaces e other) (he : Text.Balanced e.chars) :
    other.Balanced := by
  obtain ⟨htidy, shift, hold, hnew⟩ := h
  exact ⟨htidy, he.of_shifts hold hnew⟩

theorem Replaces.of_balanced {e other : Expr} (he : Text.Balanced e.chars) (h : other.Balanced) :
    Replaces e other :=
  ⟨h.tidy, _, he, h.text⟩

theorem Replaces.tidy_all {es others : List Expr} (h : List.Forall₂ Replaces es others) :
    ∀ other ∈ others, other.Tidy := by
  induction h with
  | nil => simp
  | cons hhead _ ih => exact List.forall_mem_cons.2 ⟨hhead.1, ih⟩

theorem Replaces.balanced_all {es others : List Expr} (h : List.Forall₂ Replaces es others)
    (he : ∀ e ∈ es, Text.Balanced e.chars) : ∀ other ∈ others, other.Balanced := by
  induction h with
  | nil => simp
  | cons hhead _ ih =>
    obtain ⟨hfirst, hrest⟩ := List.forall_mem_cons.1 he
    exact List.forall_mem_cons.2 ⟨hhead.balanced hfirst, ih hrest⟩

theorem Replaces.intercalate {es others : List Expr} (h : List.Forall₂ Replaces es others)
    {sep : List Char} (hs : Text.Balanced sep) :
    ∃ shift, Text.Shifts (sep.intercalate (es.map chars)) shift ∧
      Text.Shifts (sep.intercalate (others.map chars)) shift := by
  induction h with
  | nil => exact ⟨_, fun _ => rfl, fun _ => rfl⟩
  | @cons e other rest more hhead htail ih =>
    obtain ⟨-, shift, hold, hnew⟩ := hhead
    obtain ⟨next, hrest, hmore⟩ := ih
    cases htail with
    | nil => exact ⟨shift, by simpa using hold, by simpa using hnew⟩
    | cons =>
      simp only [List.map_cons, List.intercalate_cons_cons] at hrest hmore ⊢
      exact ⟨_, (hold.append hs).append hrest, (hnew.append hs).append hmore⟩

end Expr

def Evaluator.Balanced (calls : Evaluator) : Prop :=
  ∀ name arguments, Text.Balanced name.toList → (∀ a ∈ arguments, Expr.Balanced a) →
    (calls name arguments).Balanced

theorem Evaluator.balanced_written : Evaluator.written.Balanced := by
  intro name arguments hn h
  exact .ofText (Expr.balanced_chars_call hn fun a ha => (h a ha).text)

namespace Expr

variable {calls : Evaluator} {onVar : String → Trace → Expr × Trace} {scope : Scope}

mutual
theorem Tidy.traverse (hcalls : calls.Balanced)
    (hvar : ∀ m, Text.Balanced (Expr.var m).chars → ∀ trace, (onVar m trace).1.Balanced) :
    ∀ e : Expr, e.Tidy → ∀ trace, Replaces e (Expr.traverse calls onVar e trace).1
  | .text _, .text h, _ => ⟨.text h, _, by simpa using h, by simpa [Expr.traverse] using h⟩
  | .var m, .var h, trace => .of_balanced h (hvar m h trace)
  | .call name arguments, .call hn htidy h, trace => by
    have hall := Tidy.traverseAll hcalls hvar arguments htidy trace
    exact .of_balanced (balanced_chars_call hn h) (hcalls name _ hn (Replaces.balanced_all hall h))
  | .list separator items, .list h, trace => by
    have hall := Tidy.traverseAll hcalls hvar items h trace
    have hshift := Replaces.intercalate hall (Text.balanced_separator separator)
    rw [← chars_list, ← chars_list] at hshift
    exact ⟨.list (Replaces.tidy_all hall), hshift⟩
theorem Tidy.traverseAll (hcalls : calls.Balanced)
    (hvar : ∀ m, Text.Balanced (Expr.var m).chars → ∀ trace, (onVar m trace).1.Balanced) :
    ∀ es : List Expr, (∀ e ∈ es, e.Tidy) → ∀ trace,
      List.Forall₂ Replaces es (Expr.traverseAll calls onVar es trace).1
  | [], _, _ => .nil
  | e :: rest, h, trace => by
    obtain ⟨he, hrest⟩ := List.forall_mem_cons.1 h
    exact .cons (Tidy.traverse hcalls hvar e he trace) (Tidy.traverseAll hcalls hvar rest hrest _)
end

end Expr

def Scope.Balanced (s : Scope) : Prop :=
  ∀ binding ∈ s.bindings ++ s.outer.flatten, binding.2.Balanced

namespace Expr

variable {calls : Evaluator} {scope : Scope}

theorem balanced_resolve (hcalls : calls.Balanced) (hs : scope.Balanced) {budget : Nat}
    {resolving : List String} {name : String} (h : Text.Balanced (Expr.var name).chars)
    (trace : Trace) : (resolve calls budget scope resolving name trace).1.Balanced := by
  induction budget generalizing scope resolving name trace with
  | zero => exact .ofVar h
  | succ budget ih =>
    rw [resolve]
    by_cases hin : name ∈ resolving
    · rw [if_pos hin]
      exact .ofVar h
    · rw [if_neg hin]
      cases hl : scope.lookup name with
      | none => exact .ofVar h
      | some found =>
        obtain ⟨value, home⟩ := found
        obtain ⟨hpart, hbound⟩ := Scope.lookup_eq_some hl
        have hhome : home.Balanced := fun binding hb => hs binding (hpart.subset hb)
        have hvalue : value.Balanced := hhome _ (List.mem_append_left _ hbound)
        refine Replaces.balanced ?_ hvalue.text
        exact Tidy.traverse hcalls (fun m hm trace => ih hhome hm trace) value hvalue.tidy trace

theorem Balanced.eval (hcalls : calls.Balanced) (hs : scope.Balanced) {e : Expr}
    (h : e.Balanced) : (e.eval calls scope).1.Balanced := by
  refine Replaces.balanced ?_ h.text
  exact Tidy.traverse hcalls (fun m hm trace => balanced_resolve hcalls hs hm trace) e h.tidy {}

end Expr

/-! The reader of values -/

namespace ExprReader

/-- Pieces, the newest first, in which every parenthesis has its partner. -/
inductive Paired : List Piece → Prop
  | nil : Paired []
  | piece {p : Piece} {ps : List Piece} : p.toExpr.Balanced → Paired ps → Paired (p :: ps)
  | group {ps : List Piece} (inner : List Piece) : (∀ p ∈ inner, p.toExpr.Balanced) → Paired ps →
      Paired (.expr (.text ")") :: inner ++ .expr (.text "(") :: ps)

theorem Paired.balanced {ps : List Piece} (h : Paired ps) :
    Text.Balanced (ps.reverse.flatMap Piece.chars) ∧ ∀ p ∈ ps, p.toExpr.Tidy := by
  induction h with
  | nil => exact ⟨fun _ => rfl, by simp⟩
  | @piece p ps hp _ ih =>
    constructor
    · rw [List.reverse_cons, List.flatMap_append, List.flatMap_singleton]
      exact ih.1.append hp.text
    · exact List.forall_mem_cons.2 ⟨hp.tidy, ih.2⟩
  | @group ps inner hinner _ ih =>
    have hopen : Text.Shifts "(".toList fun depth => depth + 1 := fun _ => rfl
    have hclose : Text.Shifts ")".toList fun depth => depth - 1 := fun _ => rfl
    constructor
    · have hbody : Text.Balanced (inner.reverse.flatMap Piece.chars) :=
        .flatMap fun p hp => (hinner p (List.mem_reverse.1 hp)).text
      have htext : (Piece.expr (.text ")") :: inner ++ .expr (.text "(") :: ps).reverse.flatMap
          Piece.chars = ps.reverse.flatMap Piece.chars ++
            ('(' :: inner.reverse.flatMap Piece.chars ++ [')']) := by
        simp
      rw [htext]
      exact ih.1.append hbody.parens
    · intro p hp
      rw [List.cons_append, List.mem_cons, List.mem_append, List.mem_cons] at hp
      rcases hp with rfl | hp | rfl | hp
      · exact .text hclose
      · exact (hinner p hp).tidy
      · exact .text hopen
      · exact ih.2 p hp

theorem tidy_append {s t : String} (hs : (Expr.text s).Tidy) (ht : (Expr.text t).Tidy) :
    (Expr.text (s ++ t)).Tidy := by
  cases hs with
  | text hs =>
    cases ht with
    | text ht =>
      have hboth := hs.append ht
      rw [← String.toList_append] at hboth
      exact .text hboth

theorem Paired.value {l : Level} (h : Paired l.pieces) : l.term.Balanced := by
  obtain ⟨htext, htidy⟩ := h.balanced
  constructor
  · refine .collapse (forall_foldr_joinText tidy_append ?_) _
    intro e he
    obtain ⟨p, hp, rfl⟩ := List.mem_map.1 he
    exact htidy p (List.mem_reverse.1 hp)
  · rw [Level.chars_term]
    exact htext

/-- The reader makes balanced values of sound tokens. -/
def balancedValues : Invariant where
  token := TokenKind.Sound
  name text := Text.Balanced text.toList
  pieces := Paired
  value := Expr.Balanced
  nil := .nil
  word htext hps := .piece (.ofText htext) hps
  expr he hps := .piece he hps
  group inner hinner hps := .group inner hinner hps
  called h := by
    -- a group never ends with a word, so the word is a piece of its own
    cases h with
    | piece hname hrest =>
      have htext := hname.text
      rw [Piece.toExpr, Expr.chars_text] at htext
      exact ⟨htext, hrest⟩
  var {x} hx := by
    have htext : (Expr.var x).chars = (TokenKind.var x).text.toList := by
      simp [TokenKind.text]
    exact .ofVar (htext ▸ hx)
  text {kind} hkind hrole hopen := by
    refine .ofText ?_
    cases kind with
    | openParen => exact absurd rfl hopen
    | closeParen => cases hrole
    | _ => exact hkind
  call := .ofCall
  items := .ofItems
  term := Paired.value

end ExprReader

/-- The values of declared variables and the queries of media wrappers, at every depth, are
balanced. -/
structure Sheet.Balanced (sheet : Sheet) : Prop where
  declarations : ∀ d ∈ sheet.declarations, d.value.Balanced
  queries : ∀ s ∈ sheet.sections, ∀ inner : Section, inner.Within s →
    ∀ query ∈ inner.media, query.Balanced

theorem Sheet.balanced_of_parse {name source : String} {sheet : Sheet}
    (h : Sheet.parse name source = .ok sheet) : sheet.Balanced := by
  obtain ⟨tokens, htokens, hread⟩ := Sheet.readIn_of_parse h
  have hvalues := hread.has ExprReader.balancedValues (sound_of_tokenize htokens)
  exact ⟨hvalues.declarations, fun s hs inner hin => (hvalues.sections s hs inner hin).query⟩

end NestedStyles
