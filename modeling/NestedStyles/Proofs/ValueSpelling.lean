import NestedStyles.Proofs.Spelling
import NestedStyles.Section.Reader

/-!
Values are read again from their text. While a value is read, the text of what was read so far is
known from the state: the open levels of parentheses with their items, terms and pieces. Every token
adds its own text to it, after a blank where a new term starts, and that spacing is all the reader
looks at.
-/

namespace NestedStyles

/-! Tokens between which nothing ends -/

/-- No token outside parentheses satisfies `stops`, and all parentheses are closed in the end. -/
def clear (stops : TokenKind → Bool) : (depth : Nat) → List TokenKind → Bool
  | depth, [] => depth = 0
  | depth, kind :: rest =>
    !(depth = 0 && stops kind) && clear stops (kind.depthAfter depth) rest

/-- Tokens that decide whether a block follows. -/
def endsHeader : TokenKind → Bool
  | .openBrace | .semicolon | .closeBrace => true
  | _ => false

theorem endsHeader_eq_false {kind : TokenKind} : endsHeader kind = false ↔
    kind ≠ .openBrace ∧ kind ≠ .semicolon ∧ kind ≠ .closeBrace := by
  cases kind <;> simp [endsHeader]

theorem blockFollows_cons {t : Token} {depth : Nat} (h : depth = 0 → endsHeader t.kind = false)
    (rest : List Token) : SelectorReader.blockFollows depth (t :: rest) =
      SelectorReader.blockFollows (t.kind.depthAfter depth) rest := by
  have hends : ¬ (depth = 0 ∧ (t.kind = .semicolon ∨ t.kind = .closeBrace)) := by
    rintro ⟨hd, hk | hk⟩
    · exact (endsHeader_eq_false.1 (h hd)).2.1 hk
    · exact (endsHeader_eq_false.1 (h hd)).2.2 hk
  rw [SelectorReader.blockFollows,
    if_neg fun hopen => (endsHeader_eq_false.1 (h hopen.1)).1 hopen.2, if_neg hends]

theorem blockFollows_append {ts : List Token} {depth : Nat}
    (h : clear endsHeader depth (ts.map (·.kind))) (rest : List Token) :
    SelectorReader.blockFollows depth (ts ++ rest) = SelectorReader.blockFollows 0 rest := by
  induction ts generalizing depth with
  | nil =>
    have hdepth : depth = 0 := by simpa [clear] using h
    rw [hdepth, List.nil_append]
  | cons t ts ih =>
    simp only [List.map_cons, clear, Bool.and_eq_true, Bool.not_eq_true', Bool.and_eq_false_imp,
      decide_eq_true_eq] at h
    rw [List.cons_append, blockFollows_cons h.1, ih h.2]

/-! The text of what was read -/

theorem intercalate_concat (sep : List Char) (xs : List (List Char)) (x : List Char) :
    sep.intercalate (xs ++ [x]) = xs.flatMap (· ++ sep) ++ x := by
  induction xs with
  | nil => simp
  | cons y ys ih =>
    cases ys with
    | nil => simp
    | cons z zs => simp_all [List.intercalate_cons_cons]

def Expr.chars (e : Expr) : List Char := e.render.toList

@[simp] theorem Expr.chars_text (text : String) : (Expr.text text).chars = text.toList := by
  simp [chars, render]

@[simp] theorem Expr.chars_var (name : String) : (Expr.var name).chars = '$' :: name.toList := by
  simp [chars, render]

theorem Expr.chars_call (name : String) (arguments : List Expr) :
    (Expr.call name arguments).chars =
      name.toList ++ '(' :: [',', ' '].intercalate (arguments.map Expr.chars) ++ [')'] := by
  have hchars : arguments.map chars = arguments.map (String.toList ∘ render) := rfl
  rw [hchars]
  simp [chars, render]

theorem Expr.chars_collapse (separator : Separator) (items : List Expr) :
    (Expr.collapse separator items).chars =
      separator.text.toList.intercalate (items.map Expr.chars) := by
  have hlist : ∀ items : List Expr, (Expr.list separator items).chars =
      separator.text.toList.intercalate (items.map Expr.chars) := by
    intro items
    simp only [chars, render, renderAll_eq_map, String.toList_intercalate, List.map_map]
    rfl
  match items with
  | [e] => simp [collapse]
  | [] => exact hlist []
  | _ :: _ :: _ => exact hlist _

namespace ExprReader

def Piece.chars (p : Piece) : List Char := p.toExpr.chars

@[simp] theorem Piece.chars_word (text : String) : (Piece.word text).chars = text.toList := rfl

@[simp] theorem Piece.chars_expr (e : Expr) : (Piece.expr e).chars = e.chars := rfl

theorem flatMap_foldr_joinText (es : List Expr) :
    (es.foldr joinText []).flatMap Expr.chars = es.flatMap Expr.chars := by
  have hjoin : ∀ (e : Expr) (rest : List Expr),
      (joinText e rest).flatMap Expr.chars = e.chars ++ rest.flatMap Expr.chars := by
    intro e rest
    unfold joinText
    split
    · simp [Expr.chars, Expr.render]
    · rfl
  induction es with
  | nil => rfl
  | cons e es ih => rw [List.foldr_cons, hjoin, ih, List.flatMap_cons]

namespace Level

variable {l : Level} {items : List Expr} {found : String}

/-- What was read of a level. Items are followed by commas and ended terms by blanks. -/
def chars (l : Level) : List Char :=
  l.items.reverse.flatMap (fun e => e.chars ++ [',', ' ']) ++
    l.terms.reverse.flatMap (fun e => e.chars ++ [' ']) ++ l.pieces.reverse.flatMap Piece.chars

@[simp] theorem chars_empty : ({} : Level).chars = [] := rfl

@[simp] theorem chars_push (l : Level) (p : Piece) : (l.push p).chars = l.chars ++ p.chars := by
  simp [chars, push]

theorem closeTerm_of_nil (h : l.pieces = []) : l.closeTerm = l := by
  simp [closeTerm, h]

/-- The term that an open term will be. -/
def term (l : Level) : Expr :=
  .collapse .concat ((l.pieces.reverse.map Piece.toExpr).foldr joinText [])

theorem closeTerm_of_ne (h : l.pieces ≠ []) :
    l.closeTerm = { l with terms := l.term :: l.terms, pieces := [] } := by
  unfold closeTerm term
  split
  · next hnil => exact absurd hnil h
  · rfl

theorem chars_term (l : Level) : l.term.chars = l.pieces.reverse.flatMap Piece.chars := by
  have hflat : ∀ es : List (List Char), List.intercalate [] es = es.flatten := by
    intro es
    induction es with
    | nil => rfl
    | cons e rest ih =>
      cases rest with
      | nil => simp
      | cons => rw [List.intercalate_cons_cons, ih]; simp
  rw [term, Expr.chars_collapse, show Separator.concat.text.toList = [] from rfl, hflat,
    ← List.flatMap_def, flatMap_foldr_joinText, List.flatMap_map]
  rfl

theorem chars_closeTerm (h : l.pieces ≠ []) : l.closeTerm.chars = l.chars ++ [' '] := by
  rw [closeTerm_of_ne h]
  simp [chars, chars_term]

theorem closeItem_eq (h : l.pieces ≠ []) (found : String) :
    l.closeItem found =
      .ok (l.items.reverse ++ [.collapse .space (l.term :: l.terms).reverse]) := by
  rw [closeItem, closeTerm_of_ne h]

theorem closeItem_congr (h : l.closeItem found = .ok items) (other : String) :
    l.closeItem other = .ok items := by
  unfold closeItem at *
  split at h
  · cases h
  · exact h

theorem pieces_of_closeItem (hterms : l.pieces = [] → l.terms = [])
    (h : l.closeItem found = .ok items) : l.pieces ≠ [] := by
  intro hp
  rw [closeItem, closeTerm_of_nil hp, hterms hp] at h
  cases h

theorem chars_closeItem (h : l.pieces ≠ []) (hi : l.closeItem found = .ok items) :
    [',', ' '].intercalate (items.map Expr.chars) = l.chars := by
  rw [closeItem_eq h] at hi
  cases hi
  rw [List.map_append, List.map_singleton, intercalate_concat, Expr.chars_collapse,
    show Separator.space.text.toList = [' '] from rfl, List.reverse_cons, List.map_append,
    List.map_singleton, intercalate_concat, chars_term]
  simp [chars, List.flatMap_map, -List.map_reverse]

end Level

/-- What was read of the level around a parenthesis, and the parenthesis. -/
def Frame.chars (f : Frame) : List Char :=
  match f.opener with
  | .call name => (f.outer.push (.word name)).chars ++ ['(']
  | .group => (f.outer.push (.expr (.text "("))).chars

def State.chars (s : State) : List Char :=
  s.frames.reverse.flatMap Frame.chars ++ s.level.chars

namespace State

variable {s : State} {t u : Token}

/-- Whether a token starts a new term after another one. -/
def parts (s : State) (t : Token) : Bool := t.spaced && !s.level.pieces.isEmpty

theorem chars_take (s : State) (t : Token) :
    (s.take t).chars = s.chars ++ (if s.parts t then [' '] else []) ++ t.kind.text.toList := by
  have hlevel : (if t.spaced then s.level.closeTerm else s.level).chars =
      s.level.chars ++ if s.parts t then [' '] else [] := by
    unfold parts
    cases hp : s.level.pieces with
    | nil => simp [Level.closeTerm_of_nil hp]
    | cons => cases t.spaced <;> simp [Level.chars_closeTerm, hp]
  have hstate : (s.take t).chars = s.frames.reverse.flatMap Frame.chars ++
      (if t.spaced then s.level.closeTerm else s.level).chars ++ t.kind.text.toList := by
    unfold take
    generalize (if t.spaced then s.level.closeTerm else s.level) = level
    dsimp only
    split
    · next name pieces hk hp =>
      have hpush : ({ level with pieces := pieces } : Level).push (.word name) = level := by
        rw [Level.push, ← hp]
      simp [chars, Frame.chars, hpush, hk, TokenKind.text]
    · next hk _ => simp [chars, Frame.chars, hk, TokenKind.text]
    · next text hk => simp [chars, hk, TokenKind.text]
    · next name hk => simp [chars, hk, TokenKind.text]
    · simp [chars]
  rw [hstate, hlevel]
  simp [chars]

/-- The reader looks at a blank only where a term is open. -/
theorem take_congr (hkind : u.kind = t.kind)
    (hspaced : s.level.pieces ≠ [] → u.spaced = t.spaced) : s.take u = s.take t := by
  by_cases hp : s.level.pieces = []
  · simp [take, hkind, Level.closeTerm_of_nil hp]
  · simp [take, hkind, hspaced hp]

theorem frames_take (s : State) (t : Token) (hrole : roleOf t.kind = .piece) :
    (s.take t).frames.length = t.kind.depthAfter s.frames.length := by
  unfold take
  dsimp only
  split
  · next hk _ => simp [hk, TokenKind.depthAfter]
  · next hk _ => simp [hk, TokenKind.depthAfter]
  all_goals cases hk : t.kind <;> simp_all [roleOf, TokenKind.depthAfter]

theorem pieces_take (s : State) (t : Token) (hrole : t.kind ≠ .openParen) :
    (s.take t).level.pieces ≠ [] := by
  unfold take
  dsimp only
  split <;> simp_all [Level.push]

theorem take_openParen (s : State) (t : Token) (hk : t.kind = .openParen) :
    (s.take t).level = {} := by
  unfold take
  rw [hk]
  dsimp only
  split <;> first | rfl | contradiction

theorem chars_leave (frame : Frame) (frames : List Frame) (items : List Expr) :
    (leave frame frames items).chars = frames.reverse.flatMap Frame.chars ++ frame.chars ++
      [',', ' '].intercalate (items.map Expr.chars) ++ [')'] := by
  unfold leave
  split
  · next name hcall => simp [chars, Frame.chars, hcall, Expr.chars_call]
  · next hgroup =>
    cases items with
    | nil => simp [chars, Frame.chars, hgroup]
    | cons e es => simp [chars, Frame.chars, hgroup, Expr.chars_collapse, Separator.text]

theorem comma_eq {s' : State} (hterms : s.level.pieces = [] → s.level.terms = [])
    (h : s.comma = .ok s') : s'.chars = s.chars ++ [',', ' '] ∧ s'.frames = s.frames ∧
      s'.level.pieces = [] ∧ s'.level.terms = [] := by
  unfold comma at h
  split at h
  · cases h
  next items hi =>
  cases h
  have hpieces := Level.pieces_of_closeItem hterms hi
  rw [Level.closeItem_eq hpieces] at hi
  cases hi
  refine ⟨?_, rfl, rfl, rfl⟩
  simp [chars, Level.chars, Expr.chars_collapse, Separator.text, Level.chars_term,
    intercalate_concat, List.flatMap_map, -List.map_reverse]

theorem close_eq {mode : Mode} {s' : State} (hterms : s.level.pieces = [] → s.level.terms = [])
    (h : s.close mode = .ok (.next s')) : s'.chars = s.chars ++ [')'] ∧
      s.frames.length = s'.frames.length + 1 ∧ s'.level.pieces ≠ [] := by
  have hleave : ∀ {frame : Frame} {frames : List Frame} {items : List Expr},
      s.frames = frame :: frames → s.level.chars = [',', ' '].intercalate (items.map Expr.chars) →
      (leave frame frames items).chars = s.chars ++ [')'] ∧
        s.frames.length = (leave frame frames items).frames.length + 1 ∧
        (leave frame frames items).level.pieces ≠ [] := by
    intro frame frames items hframes hlevel
    refine ⟨?_, ?_, ?_⟩
    · rw [chars_leave, chars, hframes, hlevel]
      simp
    · unfold leave
      split <;> simp [hframes]
    · unfold leave
      split <;> simp [Level.push]
  unfold close at h
  split at h
  · cases hi : s.level.closeItem ")" <;> simp [hi, Except.map] at h
  · split at h
    · cases h
    · cases hi : s.level.closeItem ")" <;> simp [hi, Except.map] at h
  next frame frames _ hframes =>
  split at h
  · next hempty =>
    cases h
    refine hleave hframes ?_
    simp only [Level.isEmpty, Bool.and_eq_true, List.isEmpty_iff] at hempty
    simp [Level.chars, hempty.1.1, hempty.1.2, hempty.2]
  · cases hi : s.level.closeItem ")" with
    | error => simp [hi, Except.map] at h
    | ok items =>
      simp only [hi, Except.map, Except.ok.injEq, Step.next.injEq] at h
      rw [← h]
      exact hleave hframes (Level.chars_closeItem (Level.pieces_of_closeItem hterms hi) hi).symm

/-- The tokens `ls` are all that is missing of the text of `items` after what `s` has read, and the
reader takes them from `s` to `items`. -/
structure Misses (s : State) (g : Gap) (items : List Expr) (ls : List Lexeme) (cs : List Char)
    (last : Gap) : Prop where
  text : [',', ' '].intercalate (items.map Expr.chars) = s.chars ++ cs
  spells : Spells g ls cs last
  clear : clear endsHeader s.frames.length (ls.map (·.kind))
  reads : ∀ (stop : Span) (ts rest : List Token) (t : Token), ts.map Token.lexeme = ls →
    t.kind = .semicolon → run .value stop s (ts ++ t :: rest) = .ok (items, t :: rest)

variable {g last : Gap} {items : List Expr} {ls : List Lexeme} {cs : List Char}

theorem Misses.nothing {found : String} (hterms : s.level.pieces = [] → s.level.terms = [])
    (hframes : s.frames = []) (hi : s.level.closeItem found = .ok items) :
    s.Misses g items [] [] g := by
  have hpieces := Level.pieces_of_closeItem hterms hi
  refine ⟨?_, .nil g, by simp [hframes, NestedStyles.clear], ?_⟩
  · rw [Level.chars_closeItem hpieces hi]
    simp [chars, hframes]
  · intro stop ts rest t hts ht
    rw [List.map_eq_nil_iff.1 hts, List.nil_append, run, ht]
    simp [roleOf, halt, Level.closeItem_congr hi, hframes]

theorem Misses.piece (hrole : roleOf t.kind = .piece) (hplain : t.kind.Plain)
    (hopen : s.level.pieces ≠ [] → g ≠ .blank)
    (hword : t.kind.isWord → s.parts t = false → g ≠ .name)
    (h : (s.take t).Misses t.kind.gap items ls cs last) :
    ∃ spaced blanks, s.Misses g items (⟨t.kind, spaced⟩ :: ls)
      (blanks ++ t.kind.text.toList ++ cs) last := by
  have hends : endsHeader t.kind = false := by
    cases hk : t.kind <;> simp_all [roleOf, endsHeader]
  have hclear : NestedStyles.clear endsHeader s.frames.length (t.kind :: ls.map (·.kind)) := by
    simpa [NestedStyles.clear, hends, frames_take s t hrole] using h.clear
  have hreads : ∀ spaced, (s.level.pieces ≠ [] → spaced = t.spaced) →
      ∀ (stop : Span) (ts rest : List Token) (after : Token),
        ts.map Token.lexeme = ⟨t.kind, spaced⟩ :: ls → after.kind = .semicolon →
        run .value stop s (ts ++ after :: rest) = .ok (items, after :: rest) := by
    intro spaced hspaced stop ts rest after hts hafter
    obtain ⟨u, us, rfl, hu, hus⟩ := List.map_eq_cons_iff.1 hts
    have hkind : u.kind = t.kind := congrArg Lexeme.kind hu
    have hflag : u.spaced = spaced := congrArg Lexeme.spaced hu
    have htake : s.take u = s.take t := take_congr hkind fun hp => hflag.trans (hspaced hp)
    simp [run, hkind, hrole, htake, h.reads stop us rest after hus hafter]
  have htext := h.text
  rw [chars_take] at htext
  cases hp : s.parts t with
  | true =>
    have hspaced : t.spaced = true := (Bool.and_eq_true_iff.1 hp).1
    refine ⟨true, [' '], by simpa [hp] using htext, ?_, hclear, hreads _ fun _ => hspaced.symm⟩
    exact .blank rfl (.token hplain (by simp) h.spells)
  | false =>
    refine ⟨decide (g = .blank), [], by simpa [hp] using htext, ?_, hclear, hreads _ ?_⟩
    · exact .token hplain (fun hw => hword hw hp) h.spells
    · intro hpieces
      have hspaced : t.spaced = false := by simpa [parts, hpieces] using hp
      simp [hspaced, hopen hpieces]

theorem Misses.comma {s' : State} (hterms : s.level.pieces = [] → s.level.terms = [])
    (hc : s.comma = .ok s') (h : s'.Misses .blank items ls cs last) :
    s.Misses g items (⟨.comma, decide (g = .blank)⟩ :: ls) (',' :: ' ' :: cs) last := by
  obtain ⟨hchars, hframes, -⟩ := comma_eq hterms hc
  refine ⟨by simp [h.text, hchars], .mark trivial rfl (.blank rfl h.spells), ?_, ?_⟩
  · simpa [NestedStyles.clear, endsHeader, TokenKind.depthAfter, hframes] using h.clear
  · intro stop ts rest t hts ht
    obtain ⟨u, us, rfl, hu, hus⟩ := List.map_eq_cons_iff.1 hts
    have hk : u.kind = .comma := congrArg Lexeme.kind hu
    simp [run, hk, roleOf, hc, h.reads stop us rest t hus ht]

theorem Misses.close {s' : State} (hterms : s.level.pieces = [] → s.level.terms = [])
    (hc : s.close .value = .ok (.next s')) (h : s'.Misses .mark items ls cs last) :
    s.Misses g items (⟨.closeParen, decide (g = .blank)⟩ :: ls) (')' :: cs) last := by
  obtain ⟨hchars, hframes, -⟩ := close_eq hterms hc
  refine ⟨by simp [h.text, hchars], .mark trivial rfl h.spells, ?_, ?_⟩
  · simpa [NestedStyles.clear, endsHeader, TokenKind.depthAfter, hframes] using h.clear
  · intro stop ts rest t hts ht
    obtain ⟨u, us, rfl, hu, hus⟩ := List.map_eq_cons_iff.1 hts
    have hk : u.kind = .closeParen := congrArg Lexeme.kind hu
    simp [run, hk, roleOf, hc, h.reads stop us rest t hus ht]

/-- How the gap before the next token fits what was read: an open term cannot be parted from it by
accident, and a word that it starts with does not continue a name. -/
structure Fits (s : State) (g : Gap) (tokens : List Token) : Prop where
  terms : s.level.pieces = [] → s.level.terms = []
  fresh : s.level.pieces = [] → g ≠ .name
  joined : s.level.pieces ≠ [] → g ≠ .blank
  word : ∀ t ∈ tokens.head?, t.spaced = false → t.kind.isWord → s.level.pieces ≠ [] → g ≠ .name

theorem Fits.take {tokens : List Token} (h : Legible (t :: tokens)) :
    (s.take t).Fits t.kind.gap tokens := by
  by_cases hk : t.kind = .openParen
  · have hlevel := take_openParen s t hk
    exact ⟨by simp [hlevel], by simp [hk, TokenKind.gap, TokenKind.isName],
      fun _ => t.kind.gap_ne_blank, fun u hu hs hw _ => h.gap_ne_name hu hs hw⟩
  · have hpieces := pieces_take s t hk
    exact ⟨fun hp => absurd hp hpieces, fun hp => absurd hp hpieces,
      fun _ => t.kind.gap_ne_blank, fun u hu hs hw _ => h.gap_ne_name hu hs hw⟩

theorem Fits.comma {s' : State} {tokens : List Token} (h : s.Fits g tokens)
    (hc : s.comma = .ok s') (tail : List Token) : s'.Fits .blank tail := by
  obtain ⟨-, -, hpieces, hterms⟩ := comma_eq h.terms hc
  exact ⟨fun _ => hterms, by simp, fun hp => absurd hpieces hp, by simp⟩

theorem Fits.close {mode : Mode} {s' : State} {tokens : List Token} (h : s.Fits g tokens)
    (hc : s.close mode = .ok (.next s')) (tail : List Token) : s'.Fits .mark tail := by
  obtain ⟨-, -, hpieces⟩ := close_eq h.terms hc
  exact ⟨fun hp => absurd hp hpieces, by simp, by simp, by simp⟩

theorem closeItem_of_halt {found : String} (h : s.halt .value found = .ok items) :
    s.level.closeItem found = .ok items ∧ s.frames = [] := by
  unfold halt at h
  split at h
  · cases h
  next hi =>
  split at h
  · next hframes _ =>
    cases h
    exact ⟨hi, hframes⟩
  all_goals simp_all

theorem closeItem_of_close (h : s.close .value = .ok (.finish items)) :
    s.level.closeItem ")" = .ok items ∧ s.frames = [] := by
  unfold close at h
  split at h
  · next hframes =>
    cases hi : s.level.closeItem ")" <;> simp_all [Except.map]
  · contradiction
  · split at h
    · cases h
    · cases hi : s.level.closeItem ")" <;> simp [hi, Except.map] at h

end State

/-- From every state, what is missing of a value can be written. -/
theorem misses_of_run {stop : Span} {s : State} {tokens rest : List Token} {g : Gap}
    {items : List Expr} (h : run .value stop s tokens = .ok (items, rest)) (hl : Legible tokens)
    (hf : s.Fits g tokens) : ∃ ls cs last, s.Misses g items ls cs last := by
  -- along the run: what is missing before a token is its lexeme and what is missing after it, and
  -- only the gap in front changes
  fun_induction run .value stop s tokens generalizing g with
  | case1 => cases h
  | case2 s items hi =>
    cases h
    obtain ⟨hi, hframes⟩ := State.closeItem_of_halt hi
    exact ⟨[], [], g, .nothing hf.terms hframes hi⟩
  | case3 s t tokens hrole ih =>
    obtain ⟨ls, cs, last, hm⟩ := ih h hl.tail (.take hl)
    have hword : t.kind.isWord → s.parts t = false → g ≠ .name := by
      intro hw hp
      by_cases hpieces : s.level.pieces = []
      · exact hf.fresh hpieces
      · exact hf.word t rfl (by simpa [State.parts, hpieces] using hp) hw hpieces
    obtain ⟨spaced, blanks, hm⟩ := hm.piece hrole (hl.plain t (by simp)) hf.joined hword
    exact ⟨_, _, last, hm⟩
  | case4 => cases h
  | case5 s t tokens hrole s' hc ih =>
    obtain ⟨ls, cs, last, hm⟩ := ih h hl.tail (hf.comma hc tokens)
    exact ⟨_, _, last, hm.comma hf.terms hc⟩
  | case6 => cases h
  | case7 s t tokens hrole s' hc ih =>
    obtain ⟨ls, cs, last, hm⟩ := ih h hl.tail (hf.close hc tokens)
    exact ⟨_, _, last, hm.close hf.terms hc⟩
  | case8 s t tokens hrole items hc =>
    cases h
    obtain ⟨hi, hframes⟩ := State.closeItem_of_close hc
    exact ⟨[], [], g, .nothing hf.terms hframes hi⟩
  | case9 => simp_all
  | case10 => cases h
  | case11 s t tokens hrole items hi =>
    cases h
    obtain ⟨hi, hframes⟩ := State.closeItem_of_halt hi
    exact ⟨[], [], g, .nothing hf.terms hframes hi⟩

end ExprReader

open ExprReader

theorem spells_readValue {stop : Span} {tokens rest : List Token} {e : Expr}
    (h : readValue stop tokens = .ok (e, rest)) (hl : Legible tokens) {g : Gap}
    (hg : g ≠ .name) :
    ∃ ls last, Spells g ls e.chars last ∧ clear endsHeader 0 (ls.map (·.kind)) ∧
      ∀ (stop : Span) (ts rest : List Token) (t : Token), ts.map Token.lexeme = ls →
        t.kind = .semicolon → readValue stop (ts ++ t :: rest) = .ok (e, t :: rest) := by
  unfold readValue at h
  split at h
  · cases h
  next items tail hr =>
  cases h
  obtain ⟨ls, cs, last, hm⟩ := misses_of_run hr hl
    (g := g) ⟨fun _ => rfl, fun _ => hg, fun hp => absurd rfl hp, fun _ _ _ _ hp => absurd rfl hp⟩
  refine ⟨ls, last, ?_, hm.clear, ?_⟩
  · have htext := hm.text
    rw [← show Separator.comma.text.toList = [',', ' '] from rfl, ← Expr.chars_collapse] at htext
    rw [htext]
    exact hm.spells
  · intro stop ts rest t hts ht
    simp only [readValue, hm.reads stop ts rest t hts ht]

end NestedStyles
