import NestedStyles.Proofs.ValueSpelling
import NestedStyles.Sheet.Reader

/-!
Selectors and attribute names are read again from their text. A blank is written between the parts
of a selector, and a combinator is a part of its own with or without blanks around it.
-/

namespace NestedStyles

variable {g last : Gap} {tokens words rest : List Token} {t : Token}

/-! The parts of a selector -/

def Selector.chars (s : Selector) : List Char := [' '].intercalate (s.map String.toList)

theorem Selector.toList_text (s : Selector) : s.text.toList = s.chars := by
  simp [text, chars, String.toList_intercalate]

theorem Selector.chars_cons (part : String) (parts : Selector) :
    Selector.chars (part :: parts) =
      part.toList ++ if parts = [] then [] else ' ' :: parts.chars := by
  cases parts <;> simp [chars]

namespace SelectorReader

/-- The tokens `ls` are all that is missing of the text of a selector after the compound that is
open, and they are read as the same parts as `tokens`. -/
structure Misses (depth : Nat) (compound : String) (tokens : List Token) (g : Gap)
    (ls : List Lexeme) (cs : List Char) (last : Gap) : Prop where
  text : (partsFrom depth compound tokens).chars = compound.toList ++ cs
  spells : Spells g ls cs last
  kinds : ls.map (·.kind) = tokens.map (·.kind)
  reads : ∀ ts : List Token, ts.map Token.lexeme = ls →
    partsFrom depth compound ts = partsFrom depth compound tokens

def isPart : TokenKind → Bool
  | .ampersand | .combinator _ => true
  | _ => false

theorem isPart_iff {kind : TokenKind} :
    isPart kind ↔ kind = .ampersand ∨ ∃ c, kind = .combinator c := by
  cases kind <;> simp [isPart]

theorem partsFrom_part (h : isPart t.kind) (compound : String) (tokens : List Token) :
    partsFrom 0 compound (t :: tokens) = flush compound (t.text :: partsFrom 0 "" tokens) := by
  rw [partsFrom, if_pos rfl]
  obtain hk | ⟨c, hk⟩ := isPart_iff.1 h <;> rw [hk]

theorem partsFrom_outside (h : isPart t.kind = false) (compound : String) (tokens : List Token) :
    partsFrom 0 compound (t :: tokens) =
      if t.spaced then flush compound (partsFrom (t.kind.depthAfter 0) t.text tokens)
      else partsFrom (t.kind.depthAfter 0) (compound ++ t.text) tokens := by
  rw [partsFrom, if_pos rfl]
  split
  · next hk => simp [hk, isPart] at h
  · next hk => simp [hk, isPart] at h
  · rfl

theorem partsFrom_inside {depth : Nat} (h : depth ≠ 0) (compound : String) (tokens : List Token) :
    partsFrom depth compound (t :: tokens) = partsFrom (t.kind.depthAfter depth)
      (compound ++ (if t.spaced then " " else "") ++ t.text) tokens := by
  rw [partsFrom, if_neg h]

/-- One more token in front. What the reader makes of it shows in the parts that follow. -/
theorem Misses.cons {depth depth' : Nat} {compound compound' : String} {g' : Gap} {spaced : Bool}
    {ls : List Lexeme} {cs ds : List Char} {f : Selector → Selector}
    (h : Misses depth' compound' tokens g' ls cs last)
    (hread : ∀ u : Token, u.kind = t.kind → u.spaced = spaced ∨ u.spaced = t.spaced →
      ∀ us, partsFrom depth compound (u :: us) = f (partsFrom depth' compound' us))
    (htext : (f (partsFrom depth' compound' tokens)).chars = compound.toList ++ ds)
    (hspells : Spells g (⟨t.kind, spaced⟩ :: ls) ds last) :
    Misses depth compound (t :: tokens) g (⟨t.kind, spaced⟩ :: ls) ds last := by
  have hsame := hread t rfl (.inr rfl) tokens
  refine ⟨by rw [hsame, htext], hspells, by simp [h.kinds], ?_⟩
  intro ts hts
  obtain ⟨u, us, rfl, hu, hus⟩ := List.map_eq_cons_iff.1 hts
  have hflag : u.spaced = spaced := congrArg Lexeme.spaced hu
  rw [hsame, hread u (congrArg Lexeme.kind hu) (.inl hflag), h.reads us hus]

theorem Misses.inside {depth : Nat} {compound : String} {ls : List Lexeme} {cs : List Char}
    (hd : depth ≠ 0) (hp : t.kind.Plain) (hblank : g ≠ .blank)
    (hname : t.spaced = false → t.kind.isWord → g ≠ .name)
    (h : Misses (t.kind.depthAfter depth) (compound ++ (if t.spaced then " " else "") ++ t.text)
      tokens t.kind.gap ls cs last) :
    ∃ ls cs last, Misses depth compound (t :: tokens) g ls cs last := by
  refine ⟨⟨t.kind, t.spaced⟩ :: ls, _, last, h.cons (f := id) ?_ ?_
    (.parted hp (fun _ => hblank) hname h.spells)⟩
  · intro u hk hs us
    have hspaced : u.spaced = t.spaced := hs.elim id id
    rw [partsFrom_inside hd, hspaced, hk, Token.text, hk]
    rfl
  · rw [id, h.text]
    cases t.spaced <;> simp [Token.text]

theorem Misses.part {compound : String} (hpart : isPart t.kind)
    (h : ∀ g', g' ≠ .name → ∃ ls cs last, Misses 0 "" tokens g' ls cs last) :
    ∃ ls cs last, Misses 0 compound (t :: tokens) g ls cs last := by
  have hkind : t.kind.Plain ∧ t.kind.isWord = false ∧ t.kind.gap ≠ .name := by
    obtain hk | ⟨c, hk⟩ := isPart_iff.1 hpart <;> rw [hk] <;>
      exact ⟨trivial, rfl, by simp [TokenKind.gap, TokenKind.isName]⟩
  obtain ⟨g', ls, cs, tail, last, hm, htail, hs⟩ : ∃ g' ls cs tail last,
      Misses 0 "" tokens g' ls cs last ∧
      tail = (if partsFrom 0 "" tokens = [] then [] else ' ' :: (partsFrom 0 "" tokens).chars) ∧
      Spells t.kind.gap ls tail last := by
    by_cases hnil : partsFrom 0 "" tokens = []
    · obtain ⟨ls, cs, last, hm⟩ := h t.kind.gap hkind.2.2
      have hcs : cs = [] := by simpa [hnil, Selector.chars] using hm.text
      exact ⟨_, ls, cs, [], last, hm, by rw [if_pos hnil], hcs ▸ hm.spells⟩
    · obtain ⟨ls, cs, last, hm⟩ := h .blank (by simp)
      exact ⟨_, ls, cs, ' ' :: cs, last, hm, by simp [hnil, hm.text], .blank rfl hm.spells⟩
  have hread : ∀ u : Token, u.kind = t.kind → ∀ us, partsFrom 0 compound (u :: us) =
      flush compound (t.text :: partsFrom 0 "" us) := by
    intro u hk us
    rw [partsFrom_part (hk ▸ hpart), Token.text, hk, Token.text]
  by_cases hc : compound = ""
  · refine ⟨⟨t.kind, decide (g = .blank)⟩ :: ls, _, last,
      hm.cons (f := fun parts => flush compound (t.text :: parts))
        (fun u hk _ => hread u hk) ?_ (.mark hkind.1 hkind.2.1 hs)⟩
    simp [flush, hc, Selector.chars_cons, htail, Token.text]
  · refine ⟨⟨t.kind, true⟩ :: ls, _, last,
      hm.cons (f := fun parts => flush compound (t.text :: parts))
        (fun u hk _ => hread u hk) ?_ (.parted hkind.1 (by simp) (by simp) hs)⟩
    simp [flush, hc, Selector.chars_cons, htail, Token.text]

/-- A token outside parentheses continues the open compound, or starts one after a blank. -/
theorem Misses.outside {compound : String} (hpart : isPart t.kind = false) (hp : t.kind.Plain)
    (hfresh : compound = "" → g ≠ .name) (hjoined : compound ≠ "" → g ≠ .blank)
    (hname : compound ≠ "" → t.spaced = false → t.kind.isWord → g ≠ .name)
    (h : ∀ compound', compound' ≠ "" →
      ∃ ls cs last, Misses (t.kind.depthAfter 0) compound' tokens t.kind.gap ls cs last) :
    ∃ ls cs last, Misses 0 compound (t :: tokens) g ls cs last := by
  have hfold : t.kind.text = t.text := rfl
  have hread : ∀ u : Token, u.kind = t.kind → ∀ us, partsFrom 0 compound (u :: us) =
      if u.spaced then flush compound (partsFrom (t.kind.depthAfter 0) t.text us)
      else partsFrom (t.kind.depthAfter 0) (compound ++ t.text) us := by
    intro u hk us
    rw [partsFrom_outside (hk ▸ hpart), Token.text, hk, hfold]
  have htext : t.text ≠ "" := hp.text_ne
  by_cases hc : compound = ""
  · obtain ⟨ls, cs, last, hm⟩ := h t.text htext
    refine ⟨⟨t.kind, decide (g = .blank)⟩ :: ls, _, last, hm.cons (f := id) ?_ ?_
      (.token hp (fun _ => hfresh hc) hm.spells)⟩
    · intro u hk _ us
      subst hc
      simp [hread u hk, flush]
    · simp [hm.text, hc, hfold]
  · cases hs : t.spaced with
    | true =>
      obtain ⟨ls, cs, last, hm⟩ := h t.text htext
      have hne : partsFrom (t.kind.depthAfter 0) t.text tokens ≠ [] := by
        intro hnil
        have hchars := hm.text
        simp [hnil, Selector.chars, htext] at hchars
      refine ⟨⟨t.kind, true⟩ :: ls, _, last, hm.cons (f := flush compound) ?_ ?_
        (.parted hp (by simp) (by simp) hm.spells)⟩
      · intro u hk hspaced us
        have hu : u.spaced = true := by simpa [hs] using hspaced
        rw [hread u hk, if_pos hu]
      · simp [flush, hc, Selector.chars_cons, hne, hm.text, hfold]
    | false =>
      obtain ⟨ls, cs, last, hm⟩ := h (compound ++ t.text) (by simp [hc])
      refine ⟨⟨t.kind, false⟩ :: ls, _, last, hm.cons (f := id) ?_ ?_
        (.parted hp (fun _ => hjoined hc) (fun _ => hname hc hs) hm.spells)⟩
      · intro u hk hspaced us
        have hu : u.spaced = false := by simpa [hs] using hspaced
        simp [hread u hk, hu]
      · simp [hm.text, hfold]

theorem misses_of_parts {depth : Nat} {compound : String} (hl : Legible tokens)
    (hfresh : compound = "" → depth = 0 ∧ g ≠ .name) (hjoined : compound ≠ "" → g ≠ .blank)
    (hword : compound ≠ "" → ∀ t ∈ tokens.head?, t.spaced = false → t.kind.isWord → g ≠ .name) :
    ∃ ls cs last, Misses depth compound tokens g ls cs last := by
  induction tokens generalizing depth compound g with
  | nil =>
    refine ⟨[], [], g, ?_, .nil g, rfl, ?_⟩
    · by_cases hc : compound = "" <;> simp [partsFrom, flush, hc, Selector.chars]
    · intro ts hts
      rw [List.map_eq_nil_iff.1 hts]
  | cons t tokens ih =>
    have hplain := hl.plain t (by simp)
    -- after a token of a compound, the compound is not empty
    have hnext : ∀ depth' compound', compound' ≠ "" →
        ∃ ls cs last, Misses depth' compound' tokens t.kind.gap ls cs last :=
      fun depth' compound' hc => ih hl.tail (fun hnil => absurd hnil hc)
        (fun _ => t.kind.gap_ne_blank) fun _ u hu hs hw => hl.gap_ne_name hu hs hw
    by_cases hd : depth = 0
    · subst hd
      cases hpart : isPart t.kind with
      | true =>
        exact Misses.part hpart fun g' hg' =>
          ih hl.tail (fun _ => ⟨rfl, hg'⟩) (by simp) (by simp)
      | false =>
        exact Misses.outside hpart hplain (fun hc => (hfresh hc).2) hjoined
          (fun hc => hword hc t rfl) (hnext _)
    · have hc : compound ≠ "" := fun hc => hd (hfresh hc).1
      obtain ⟨ls, cs, last, hm⟩ := hnext (t.kind.depthAfter depth)
        (compound ++ (if t.spaced then " " else "") ++ t.text) (by simp [hc])
      exact hm.inside hd hplain (hjoined hc) (hword hc t rfl)

/-! The alternatives of a rule -/

/-- Tokens that end an alternative, or the statement that holds it. -/
def endsAlternative : TokenKind → Bool
  | .comma | .openBrace | .semicolon | .closeBrace => true
  | _ => false

theorem endsAlternative_eq_false {kind : TokenKind} :
    endsAlternative kind = false ↔ kind ≠ .comma ∧ endsHeader kind = false := by
  cases kind <;> simp [endsAlternative, endsHeader]

theorem clear_endsHeader {depth : Nat} {kinds : List TokenKind}
    (h : clear endsAlternative depth kinds) : clear endsHeader depth kinds := by
  induction kinds generalizing depth with
  | nil => exact h
  | cons kind kinds ih =>
    simp only [clear, Bool.and_eq_true, Bool.not_eq_true', Bool.and_eq_false_imp] at h ⊢
    exact ⟨fun hd => (endsAlternative_eq_false.1 (h.1 hd)).2, ih h.2⟩

theorem alternatives_append {ts : List Token} {depth : Nat}
    (h : clear endsAlternative depth (ts.map (·.kind))) (rest : List Token) :
    alternatives depth (ts ++ rest) =
      (ts ++ (alternatives 0 rest).1, (alternatives 0 rest).2.1, (alternatives 0 rest).2.2) := by
  induction ts generalizing depth with
  | nil =>
    have hdepth : depth = 0 := by simpa [clear] using h
    rw [hdepth, List.nil_append, List.nil_append]
  | cons t ts ih =>
    simp only [List.map_cons, clear, Bool.and_eq_true, Bool.not_eq_true', Bool.and_eq_false_imp,
      decide_eq_true_eq] at h
    have hopen : ¬ (depth = 0 ∧ t.kind = .openBrace) := fun hopen =>
      (endsHeader_eq_false.1 (endsAlternative_eq_false.1 (h.1 hopen.1)).2).1 hopen.2
    have hcomma : ¬ (depth = 0 ∧ t.kind = .comma) := fun hcomma =>
      (endsAlternative_eq_false.1 (h.1 hcomma.1)).1 hcomma.2
    rw [List.cons_append, alternatives, if_neg hopen, if_neg hcomma, ih h.2]
    rfl

theorem clear_alternatives {depth : Nat} (h : blockFollows depth tokens) :
    clear endsAlternative depth ((alternatives depth tokens).1.map (·.kind)) ∧
      ∀ a ∈ (alternatives depth tokens).2.1, clear endsAlternative 0 (a.map (·.kind)) := by
  fun_induction alternatives depth tokens with
  | case1 => cases h
  | case2 depth t rest hopen => simp [clear, hopen.1]
  | case3 depth t rest hopen hcomma current later tail heq ih =>
    simp only [heq] at ih
    obtain ⟨rfl, hk⟩ := hcomma
    have hrest : blockFollows 0 rest := by
      simpa [blockFollows, hk, TokenKind.depthAfter] using h
    simpa [clear] using ih hrest
  | case4 depth t rest hopen hcomma current later tail heq ih =>
    simp only [heq] at ih
    rw [blockFollows, if_neg hopen] at h
    split at h
    · cases h
    next hend =>
    obtain ⟨hcurrent, hlater⟩ := ih h
    refine ⟨?_, hlater⟩
    have hkind : depth = 0 → endsAlternative t.kind = false := fun hd =>
      endsAlternative_eq_false.2 ⟨fun hk => hcomma ⟨hd, hk⟩, endsHeader_eq_false.2
        ⟨fun hk => hopen ⟨hd, hk⟩, fun hk => hend ⟨hd, .inl hk⟩, fun hk => hend ⟨hd, .inr hk⟩⟩⟩
    simpa [clear, hcurrent, imp_iff_not_or] using hkind

theorem infix_of_alternatives (depth : Nat) (tokens : List Token) :
    (alternatives depth tokens).1 <+: tokens ∧
      ∀ a ∈ (alternatives depth tokens).2.1, a <:+: tokens := by
  fun_induction alternatives depth tokens with
  | case1 => simp
  | case2 => simp
  | case3 depth t rest _ _ current later tail heq ih =>
    simp only [heq] at ih
    refine ⟨List.nil_prefix, ?_⟩
    intro a ha
    rcases List.mem_cons.1 ha with rfl | ha
    · exact ih.1.isInfix.trans (List.suffix_cons ..).isInfix
    · exact (ih.2 a ha).trans (List.suffix_cons ..).isInfix
  | case4 depth t rest _ _ current later tail heq ih =>
    simp only [heq] at ih
    exact ⟨by simpa using ih.1, fun a ha => (ih.2 a ha).trans (List.suffix_cons ..).isInfix⟩

/-- Tokens that can be written as one alternative. -/
structure Alternative (a : List Token) : Prop where
  legible : Legible a
  nonempty : a ≠ []
  noParent : .ampersand ∉ a.map (·.kind)
  clear : clear endsAlternative 0 (a.map (·.kind))

theorem partsOf_of_head {a : List Token} (h : a.head?.map (·.kind) ≠ some .ampersand) :
    partsOf a = partsFrom 0 "" a := by
  have hstart : startsWithSpacedParent a = false := by
    unfold startsWithSpacedParent
    split
    · next first second rest =>
      have hfirst : first.kind ≠ .ampersand := fun hk => h (by simp [hk])
      simp [hfirst]
    · rfl
  simp [partsOf, hstart]

theorem partsOf_eq {a : List Token} (h : .ampersand ∉ a.map (·.kind)) :
    partsOf a = partsFrom 0 "" a := by
  refine partsOf_of_head fun hhead => h ?_
  rw [← List.head?_map] at hhead
  exact List.mem_of_head? hhead

structure Alternates (ts a : List Token) : Prop where
  parts : partsOf ts = partsOf a
  nonempty : ts ≠ []
  clear : clear endsAlternative 0 (ts.map (·.kind))

theorem spells_partsOf {a : List Token} (h : Alternative a) (hg : g ≠ .name) :
    ∃ ls last, Spells g ls (partsOf a).chars last ∧ ls.map (·.kind) = a.map (·.kind) ∧
      ∀ ts : List Token, ts.map Token.lexeme = ls → Alternates ts a := by
  obtain ⟨ls, cs, last, hm⟩ : ∃ ls cs last, Misses 0 "" a g ls cs last :=
    misses_of_parts h.legible (fun _ => ⟨rfl, hg⟩) (by simp) (by simp)
  have htext : (partsOf a).chars = cs := by
    rw [partsOf_eq h.noParent, hm.text]
    rfl
  refine ⟨ls, last, htext ▸ hm.spells, hm.kinds, ?_⟩
  intro ts hts
  have hkinds : ts.map (·.kind) = a.map (·.kind) := (kinds_of_lexemes hts).trans hm.kinds
  refine ⟨?_, ?_, hkinds ▸ h.clear⟩
  · rw [partsOf_eq (hkinds ▸ h.noParent), partsOf_eq h.noParent, hm.reads ts hts]
  · rintro rfl
    exact h.nonempty (List.map_eq_nil_iff.1 hkinds.symm)

theorem spells_alternatives (blank : Bool) {first : List Token} {later : List (List Token)}
    (h : ∀ a ∈ first :: later, Alternative a) (hg : g ≠ .name) :
    ∃ ls last, Spells g ls ((',' :: if blank then [' '] else []).intercalate
        ((first :: later).map fun a => (partsOf a).chars)) last ∧
      ls.head?.map (·.kind) = first.head?.map (·.kind) ∧
      ∀ (ts rest : List Token) (t : Token), ts.map Token.lexeme = ls → t.kind = .openBrace →
        blockFollows 0 (ts ++ t :: rest) ∧
        ∃ first' later', alternatives 0 (ts ++ t :: rest) = (first', later', t :: rest) ∧
          (first' :: later').map partsOf = (first :: later).map partsOf ∧
          [] ∉ first' :: later' := by
  induction later generalizing first g with
  | nil =>
    obtain ⟨ls, last, hs, hkinds, hread⟩ := spells_partsOf (h first (by simp)) hg
    refine ⟨ls, last, by simpa using hs, ?_, ?_⟩
    · rw [← List.head?_map, ← List.head?_map, hkinds]
    · intro ts rest t hts ht
      obtain ⟨hparts, hne, hclear⟩ := hread ts hts
      refine ⟨?_, ts, [], ?_, by simp [hparts], by simp [hne.symm]⟩
      · rw [blockFollows_append (clear_endsHeader hclear)]
        simp [blockFollows, ht]
      · rw [alternatives_append hclear]
        simp [alternatives, ht]
  | cons second later ih =>
    have ha := h first (by simp)
    obtain ⟨ls, mid, hs, hkinds, hread⟩ := spells_partsOf ha hg
    obtain ⟨ms, last, hms, -, hlater⟩ := ih (fun a hin => h a (List.mem_cons_of_mem first hin))
      (show (if blank then Gap.blank else Gap.mark) ≠ .name by cases blank <;> simp)
    have hcomma : TokenKind.comma.Plain := trivial
    refine ⟨ls ++ ⟨.comma, decide (mid = .blank)⟩ :: ms, last, ?_, ?_, ?_⟩
    · have happend := hs.append (hms.punctuated hcomma rfl)
      simpa [List.intercalate_cons_cons, TokenKind.text] using happend
    · obtain ⟨t, rest, rfl⟩ := List.exists_cons_of_ne_nil ha.nonempty
      obtain ⟨l, ls, rfl, hl, -⟩ := List.map_eq_cons_iff.1 hkinds
      simp [hl]
    · intro ts rest t hts ht
      obtain ⟨us, vs, rfl, hus, hvs⟩ := List.map_eq_append_iff.1 hts
      obtain ⟨u, vs, rfl, hu, hvs⟩ := List.map_eq_cons_iff.1 hvs
      obtain ⟨hparts, hne, hclear⟩ := hread us hus
      obtain ⟨hfollows, first', later', halts, hsame, hempty⟩ := hlater vs rest t hvs ht
      have hk : u.kind = .comma := congrArg Lexeme.kind hu
      rw [List.append_assoc, List.cons_append]
      refine ⟨?_, us, first' :: later', ?_, by simp [hparts, hsame], by simp_all⟩
      · rw [blockFollows_append (clear_endsHeader hclear)]
        simpa [blockFollows, hk, TokenKind.depthAfter] using hfollows
      · rw [alternatives_append hclear]
        simp [alternatives, hk, halts]

end SelectorReader

open SelectorReader

theorem alternative_of_readSelectors {stop : Span} {selectors : List Selector}
    (h : readSelectors stop tokens = .ok (selectors, rest)) (hb : blockFollows 0 tokens)
    (hl : Legible tokens) (hparent : .ampersand ∉ tokens.map (·.kind)) :
    ∃ first later, selectors = (first :: later).map partsOf ∧ first <+: tokens ∧
      ∀ a ∈ first :: later, Alternative a := by
  obtain ⟨hfirst, hlater⟩ := clear_alternatives hb
  obtain ⟨hstart, hinside⟩ := infix_of_alternatives 0 tokens
  unfold readSelectors at h
  split at h
  next first later after halts =>
  rw [halts] at hfirst hlater hstart hinside
  split at h
  · cases h
  next hempty =>
  split at h
  · cases h
  cases h
  refine ⟨first, later, rfl, hstart, ?_⟩
  intro a ha
  have hpart : a <:+: tokens ∧ clear endsAlternative 0 (a.map (·.kind)) := by
    rcases List.mem_cons.1 ha with rfl | ha
    · exact ⟨hstart.isInfix, hfirst⟩
    · exact ⟨hinside a ha, hlater a ha⟩
  refine ⟨hl.part hpart.1, ?_, fun hin => hparent ((hpart.1.map _).subset hin), hpart.2⟩
  rintro rfl
  exact hempty (List.any_eq_true.2 ⟨[], ha, rfl⟩)

/-- The selectors of a rule are read again from their text. -/
theorem spells_readSelectors {stop : Span} {selectors : List Selector} (blank : Bool)
    (h : readSelectors stop tokens = .ok (selectors, rest)) (hb : blockFollows 0 tokens)
    (hl : Legible tokens) (hparent : .ampersand ∉ tokens.map (·.kind)) (hg : g ≠ .name) :
    ∃ ls last, Spells g ls ((',' :: if blank then [' '] else []).intercalate
        (selectors.map Selector.chars)) last ∧
      ls.head?.map (·.kind) = tokens.head?.map (·.kind) ∧
      ∀ (stop : Span) (ts rest : List Token) (t : Token), ts.map Token.lexeme = ls →
        t.kind = .openBrace → blockFollows 0 (ts ++ t :: rest) ∧
          readSelectors stop (ts ++ t :: rest) = .ok (selectors, rest) := by
  obtain ⟨first, later, rfl, hstart, halt⟩ := alternative_of_readSelectors h hb hl hparent
  obtain ⟨ls, last, hs, hhead, hread⟩ := spells_alternatives blank halt hg
  refine ⟨ls, last, by rwa [List.map_map], ?_, ?_⟩
  · obtain ⟨t, more, rfl⟩ := List.exists_cons_of_ne_nil (halt first (by simp)).nonempty
    obtain ⟨after, rfl⟩ := hstart
    rw [hhead]
    rfl
  · intro stop ts rest t hts ht
    obtain ⟨hfollows, first', later', halts, hsame, hempty⟩ := hread ts rest t hts ht
    have hany : (first' :: later').any List.isEmpty = false := by
      rw [← Bool.not_eq_true, List.any_eq_true]
      rintro ⟨a, ha, hnil⟩
      exact hempty (List.isEmpty_iff.1 hnil ▸ ha)
    refine ⟨hfollows, ?_⟩
    simp only [readSelectors, halts, hany, Token.expect, ht, if_true, hsame]
    rfl

/-! Attribute names -/

namespace Token

theorem toList_followed (t : Token) (words : List Token) : (joined.followed (t :: words)).toList =
    (if t.spaced then [' '] else []) ++ (t.kind.text.toList ++ (joined.followed words).toList) := by
  cases hs : t.spaced <;> simp [joined.followed, hs, Token.text]

theorem followed_congr {ts us : List Token} (h : ts.map Token.lexeme = us.map Token.lexeme) :
    joined.followed ts = joined.followed us := by
  induction us generalizing ts with
  | nil => rw [List.map_eq_nil_iff.1 h]
  | cons u us ih =>
    obtain ⟨t, ts, rfl, ht, hts⟩ := List.map_eq_cons_iff.1 h
    have hkind : t.kind = u.kind := congrArg Lexeme.kind ht
    have hspaced : t.spaced = u.spaced := congrArg Lexeme.spaced ht
    simp [joined.followed, Token.text, hkind, hspaced, ih hts]

theorem spells_followed (h : Legible (t :: words)) :
    ∃ last, Spells t.kind.gap (words.map Token.lexeme) (joined.followed words).toList last := by
  induction words generalizing t with
  | nil => exact ⟨_, .nil _⟩
  | cons u words ih =>
    obtain ⟨last, hs⟩ := ih h.tail
    refine ⟨last, ?_⟩
    rw [toList_followed]
    exact .parted (h.tail.plain u (by simp)) (fun _ => t.kind.gap_ne_blank)
      (fun hs hw => h.gap_ne_name rfl hs hw) hs

theorem spells_joined (h : Legible words) (hne : words ≠ []) (hg : g ≠ .name) :
    ∃ ls last, Spells g ls (joined words).toList last ∧ ls.map (·.kind) = words.map (·.kind) ∧
      ∀ ts : List Token, ts.map Token.lexeme = ls → joined ts = joined words := by
  obtain ⟨t, words, rfl⟩ := List.exists_cons_of_ne_nil hne
  obtain ⟨last, hs⟩ := spells_followed h
  refine ⟨⟨t.kind, decide (g = .blank)⟩ :: words.map Token.lexeme, last, ?_, ?_, ?_⟩
  · rw [joined, String.toList_append]
    exact .token (h.plain t (by simp)) (fun _ => hg) hs
  · simp [Token.lexeme]
  · intro ts hts
    obtain ⟨u, us, rfl, hu, hus⟩ := List.map_eq_cons_iff.1 hts
    have hkind : u.kind = t.kind := congrArg Lexeme.kind hu
    simp [joined, Token.text, hkind, followed_congr hus]

theorem mem_joined {c : Char} (ht : t ∈ words) (hc : c ∈ t.kind.text.toList) :
    c ∈ (joined words).toList := by
  have hfollowed : ∀ {words : List Token}, t ∈ words → c ∈ (joined.followed words).toList := by
    intro words hin
    induction words with
    | nil => cases hin
    | cons u words ih =>
      rw [toList_followed]
      rcases List.mem_cons.1 hin with rfl | hin
      · simp [hc]
      · simp [ih hin]
  cases words with
  | nil => cases ht
  | cons u words =>
    rw [joined, String.toList_append]
    rcases List.mem_cons.1 ht with rfl | ht
    · exact List.mem_append_left _ hc
    · exact List.mem_append_right _ (hfollowed ht)

end Token

namespace SectionReader

variable {p : TokenKind → Bool}

theorem before_ends (h : ∀ t ∈ words, p t.kind = false) (ht : p t.kind) (rest : List Token) :
    before p (words ++ t :: rest) = (words, t :: rest) := by
  induction words with
  | nil => simp [before, ht]
  | cons u words ih =>
    have hu := h u (by simp)
    simp [before, hu, ih fun t hin => h t (by simp [hin])]

theorem not_ends_of_before (h : before p tokens = (words, rest)) :
    ∀ t ∈ words, p t.kind = false := by
  fun_induction before p tokens generalizing words with
  | case1 => simp_all
  | case2 => simp_all
  | case3 t tokens hp taken tail heq ih =>
    cases h
    simpa [hp] using ih heq

theorem clear_name (h : before endsName tokens = (words, rest)) (hb : blockFollows 0 tokens = false)
    (hopen : .openParen ∉ words.map (·.kind)) (hclose : .closeParen ∉ words.map (·.kind)) :
    clear endsHeader 0 (words.map (·.kind)) := by
  fun_induction before endsName tokens generalizing words with
  | case1 =>
    cases h
    rfl
  | case2 =>
    cases h
    rfl
  | case3 t tokens hp taken tail heq ih =>
    cases h
    simp only [List.map_cons, List.mem_cons, not_or] at hopen hclose
    have hends : endsHeader t.kind = false := by
      refine endsHeader_eq_false.2 ⟨?_, ?_, ?_⟩ <;> intro hk <;>
        simp [hk, endsName, blockFollows] at hp hb
    have hdepth : t.kind.depthAfter 0 = 0 := by
      unfold TokenKind.depthAfter
      split
      · next hk => exact absurd hk.symm hopen.1
      · rfl
      · rfl
    rw [blockFollows_cons fun _ => hends, hdepth] at hb
    simpa [clear, hends, hdepth] using ih heq hb hopen.2 hclose.2

end SectionReader

open SectionReader

theorem parts_of_readAttribute {stop : Span} {a : Attribute}
    (h : readAttribute stop tokens = .ok (a, rest)) :
    ∃ words colon values tail, before endsName tokens = (words, colon :: values) ∧ words ≠ [] ∧
      tokens = words ++ colon :: values ∧ a.name = Token.joined words ∧
      readValue stop values = .ok (a.value, tail) := by
  have happend := before_append endsName tokens
  unfold readAttribute at h
  split at h
  · cases h
  next words after hne hbefore =>
  rw [hbefore] at happend
  dsimp only at h
  split at h
  · cases h
  next values hcolon =>
  obtain ⟨colon, -, rfl⟩ := Token.cons_of_expect hcolon
  split at h
  · cases h
  next value tail hvalue =>
  split at h
  · cases h
  cases h
  exact ⟨words, colon, values, tail, hbefore, hne, happend.symm, rfl, hvalue⟩

theorem readAttribute_of_parts {stop : Span} {c d : Token} {values : List Token} {e : Expr}
    (hne : words ≠ []) (hwords : ∀ t ∈ words, endsName t.kind = false) (hc : c.kind = .colon)
    (hv : readValue stop values = .ok (e, d :: rest)) (hd : d.kind = .semicolon) :
    readAttribute stop (words ++ c :: values) = .ok (⟨Token.joined words, e⟩, rest) := by
  have hends : endsName c.kind := by
    rw [hc]
    rfl
  obtain ⟨t, more, rfl⟩ := List.exists_cons_of_ne_nil hne
  rw [readAttribute, before_ends hwords hends]
  simp [Token.expect, hc, hv, Token.endStatement, hd]

theorem spells_readAttribute {stop : Span} {a : Attribute} (blank : Bool)
    (h : readAttribute stop tokens = .ok (a, rest)) (hb : blockFollows 0 tokens = false)
    (hl : Legible tokens) (hopen : '(' ∉ a.name.toList) (hclose : ')' ∉ a.name.toList)
    (hg : g ≠ .name) :
    ∃ ls, Spells g ls (a.name.toList ++ (':' :: (if blank then [' '] else []) ++
        (a.value.chars ++ [';']))) .mark ∧
      ls.head?.map (·.kind) = tokens.head?.map (·.kind) ∧
      ∀ (stop : Span) (ts rest : List Token), ts.map Token.lexeme = ls →
        blockFollows 0 (ts ++ rest) = false ∧ readAttribute stop (ts ++ rest) = .ok (a, rest) := by
  obtain ⟨words, colon, values, tail, hbefore, hne, rfl, hname, hvalue⟩ := parts_of_readAttribute h
  have hparens : .openParen ∉ words.map (·.kind) ∧ .closeParen ∉ words.map (·.kind) := by
    rw [hname] at hopen hclose
    constructor <;> intro hin <;> obtain ⟨t, ht, hk⟩ := List.mem_map.1 hin
    · exact hopen (Token.mem_joined ht (by simp [hk, TokenKind.text]))
    · exact hclose (Token.mem_joined ht (by simp [hk, TokenKind.text]))
  obtain ⟨ns, mid, hns, hnames, hjoined⟩ :=
    Token.spells_joined (hl.part (List.prefix_append ..).isInfix) hne hg
  obtain ⟨vs, last, hvs, hvclear, hread⟩ := spells_readValue hvalue
    (hl.part ((List.suffix_cons ..).trans (List.suffix_append ..)).isInfix)
    (show (if blank then Gap.blank else Gap.mark) ≠ .name by cases blank <;> simp)
  have hsemi : Spells last [⟨.semicolon, decide (last = .blank)⟩] [';'] .mark :=
    .mark (show TokenKind.semicolon.Plain from trivial) rfl (.nil _)
  refine ⟨ns ++ (⟨.colon, decide (mid = .blank)⟩ ::
    (vs ++ [⟨.semicolon, decide (last = .blank)⟩])), ?_, ?_, ?_⟩
  · rw [hname]
    exact hns.append (.punctuated (show TokenKind.colon.Plain from trivial) rfl (hvs.append hsemi))
  · obtain ⟨t, more, rfl⟩ := List.exists_cons_of_ne_nil hne
    obtain ⟨l, ls, rfl, hl, -⟩ := List.map_eq_cons_iff.1 hnames
    simp [hl]
  · intro stop ts rest hts
    obtain ⟨us, ws, rfl, hus, hws⟩ := List.map_eq_append_iff.1 hts
    obtain ⟨c, ws, rfl, hc, hws⟩ := List.map_eq_cons_iff.1 hws
    obtain ⟨xs, ys, rfl, hxs, hys⟩ := List.map_eq_append_iff.1 hws
    obtain ⟨d, zs, rfl, hd, hzs⟩ := List.map_eq_cons_iff.1 hys
    obtain rfl := List.map_eq_nil_iff.1 hzs
    have hkc : c.kind = .colon := congrArg Lexeme.kind hc
    have hkd : d.kind = .semicolon := congrArg Lexeme.kind hd
    have husk : us.map (·.kind) = words.map (·.kind) := (kinds_of_lexemes hus).trans hnames
    rw [← kinds_of_lexemes hxs] at hvclear
    have hends : ∀ t ∈ us, endsName t.kind = false := by
      intro t ht
      have hin : t.kind ∈ words.map (·.kind) := husk ▸ List.mem_map_of_mem ht
      obtain ⟨w, hw, hk⟩ := List.mem_map.1 hin
      rw [← hk]
      exact not_ends_of_before hbefore w hw
    have hune : us ≠ [] := by
      rintro rfl
      exact hne (List.map_eq_nil_iff.1 husk.symm)
    simp only [List.append_assoc, List.cons_append, List.nil_append]
    constructor
    · rw [blockFollows_append (husk ▸ clear_name hbefore hb hparens.1 hparens.2)]
      simp [blockFollows, hkc, TokenKind.depthAfter, blockFollows_append hvclear, hkd]
    · rw [readAttribute_of_parts hune hends hkc (hread stop xs rest d hxs hkd) hkd, hjoined us hus,
        ← hname]

end NestedStyles
