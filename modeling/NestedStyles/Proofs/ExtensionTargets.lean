import NestedStyles.Proofs.Locality
import NestedStyles.Proofs.MediaConjunction
import NestedStyles.Proofs.RealSelectors
import NestedStyles.Proofs.RoundTrip

/-!
What an extension names. A target is spelled like the selector it names, but read by a reader of its
own: its tokens are joined as they stand, while those of a selector are split at commas and put
together to compounds. A selector of one part comes out the same both ways, with whatever comments,
blanks, quotes and parentheses it is written, so its rule is registered under what the extension
looks for.
-/

namespace NestedStyles

open Lexer SelectorReader SectionReader SheetReader

variable {stop : Span} {tokens ts us rest more : List Token} {b t : Token} {selector : Selector}
  {part : String} {ls : List Lexeme}

/-! Selectors of one part -/

namespace SelectorReader

theorem followed_of_partsFrom {depth : Nat} {compound : String}
    (h : partsFrom depth compound tokens = [part]) (hc : compound ≠ "")
    (htext : ∀ t ∈ tokens, t.text ≠ "") : compound ++ Token.joined.followed tokens = part := by
  induction tokens generalizing depth compound with
  | nil => simpa [partsFrom, flush, hc, Token.joined.followed] using h
  | cons t tokens ih =>
    obtain ⟨ht, hothers⟩ := List.forall_mem_cons.1 htext
    have hflush : ∀ parts, parts ≠ [] → flush compound parts ≠ [part] := by
      intro parts hparts
      simp [flush, hc, hparts]
    by_cases hd : depth = 0
    · subst hd
      cases hpart : isPart t.kind with
      | true =>
        rw [partsFrom_part hpart] at h
        exact absurd h (hflush _ (by simp))
      | false =>
        rw [partsFrom_outside hpart] at h
        cases hs : t.spaced with
        | true =>
          rw [hs, if_pos rfl] at h
          exact absurd h (hflush _ (partsFrom_ne_nil hothers _ _ (.inl ht)))
        | false =>
          rw [hs, if_neg (by simp)] at h
          rw [← ih h (by simp [hc]) hothers]
          simp [Token.joined.followed, hs, String.append_assoc]
    · rw [partsFrom_inside hd] at h
      rw [← ih h (by simp [hc]) hothers]
      simp [Token.joined.followed, String.append_assoc]

theorem joined_of_partsOf (h : partsOf tokens = [part])
    (hhead : tokens.head?.map (·.kind) ≠ some .ampersand) (htext : ∀ t ∈ tokens, t.text ≠ "") :
    Token.joined tokens = part := by
  rw [partsOf_of_head hhead] at h
  cases tokens with
  | nil => cases h
  | cons t tokens =>
    obtain ⟨ht, hothers⟩ := List.forall_mem_cons.1 htext
    cases hpart : isPart t.kind with
    | true =>
      -- a combinator that is the only part has no token after it
      rw [partsFrom_part hpart] at h
      obtain ⟨rfl, hnil⟩ := List.cons.inj h
      have hlast : tokens = [] := by
        by_contra hne
        exact partsFrom_ne_nil hothers 0 "" (.inr hne) hnil
      simp [hlast, Token.joined, Token.joined.followed]
    | false =>
      rw [partsFrom_outside hpart] at h
      have hfirst : partsFrom (t.kind.depthAfter 0) t.text tokens = [part] := by
        simpa [flush] using h
      exact followed_of_partsFrom hfirst ht hothers

theorem partsFrom_congr (h : us.map Token.lexeme = ts.map Token.lexeme) (depth : Nat)
    (compound : String) : partsFrom depth compound us = partsFrom depth compound ts := by
  induction ts generalizing us depth compound with
  | nil => rw [List.map_eq_nil_iff.1 h]
  | cons t ts ih =>
    obtain ⟨u, us, rfl, hu, hus⟩ := List.map_eq_cons_iff.1 h
    have hkind : u.kind = t.kind := congrArg Lexeme.kind hu
    have hspaced : u.spaced = t.spaced := congrArg Lexeme.spaced hu
    simp only [partsFrom, Token.text, hkind, hspaced, ih hus]

theorem partsOf_congr (h : us.map Token.lexeme = ts.map Token.lexeme) :
    partsOf us = partsOf ts := by
  have hstart : startsWithSpacedParent us = startsWithSpacedParent ts := by
    rcases ts with _ | ⟨t, _ | ⟨u, ts⟩⟩ <;> rcases us with _ | ⟨t', _ | ⟨u', us⟩⟩ <;>
      simp_all [startsWithSpacedParent, Token.lexeme]
  rw [partsOf, partsOf, partsFrom_congr h, hstart]

theorem append_of_alternatives {depth : Nat} {first tail : List Token}
    (h : alternatives depth tokens = (first, [], tail)) : first ++ tail = tokens := by
  fun_induction alternatives depth tokens generalizing first with
  | case1 =>
    cases h
    rfl
  | case2 =>
    cases h
    rfl
  | case3 => cases h
  | case4 depth t rest _ _ current later after heq ih =>
    cases h
    rw [List.cons_append, ih heq]

end SelectorReader

/-! The header of a rule with one selector -/

/-- Before a brace, the tokens are the whole header of a rule outside blocks with this selector. -/
structure Heads (selector : Selector) (ts : List Token) : Prop where
  opens : ∃ t tail, ts = t :: tail ∧ t.kind.opensRule sheetKeywords
  clear : clear endsAlternative 0 (ts.map (·.kind))
  parts : partsOf ts = selector

namespace Heads

theorem congr (h : Heads selector ts) (hsame : us.map Token.lexeme = ts.map Token.lexeme) :
    Heads selector us := by
  have hkinds : us.map (·.kind) = ts.map (·.kind) := by
    rw [kinds_of_lexemes hsame, List.map_map]
    rfl
  refine ⟨?_, hkinds ▸ h.clear, (partsOf_congr hsame).trans h.parts⟩
  obtain ⟨t, tail, rfl, hopens⟩ := h.opens
  obtain ⟨u, us, rfl, hkind, -⟩ := List.map_eq_cons_iff.1 hkinds
  exact ⟨u, us, rfl, hkind ▸ hopens⟩

theorem word {text : String} (hk : t.kind = .word text) (hne : text ≠ "") :
    Heads [text] [t] := by
  refine ⟨⟨t, [], rfl, by rw [hk]; rfl⟩, by rw [List.map_singleton, hk]; rfl, ?_⟩
  simp [partsOf, startsWithSpacedParent, partsFrom, hk, flush, Token.text, TokenKind.text, hne]

theorem readRule (h : Heads selector ts) (hb : b.kind = .openBrace) (stop : Span)
    (rest : List Token) :
    SectionReader.readRule stop (ts ++ b :: rest) = .ok ({ selectors := [selector] }, rest) := by
  have halternatives : alternatives 0 (ts ++ b :: rest) = (ts, [], b :: rest) := by
    rw [alternatives_append h.clear]
    simp [alternatives, hb]
  have hempty : ts.isEmpty = false := by
    obtain ⟨t, tail, rfl, -⟩ := h.opens
    rfl
  simp [SectionReader.readRule, readSelectors, halternatives, hempty, Token.expect, hb, h.parts]

theorem opensBlock (h : Heads selector ts) (hb : b.kind = .openBrace) (stop : Span)
    (rest : List Token) :
    OpensBlock stop sheetKeywords (ts ++ b :: rest) { selectors := [selector] } rest := by
  have hread := h.readRule hb stop rest
  have hfollows : blockFollows 0 (ts ++ b :: rest) := by
    rw [blockFollows_append (clear_endsHeader h.clear)]
    simp [blockFollows, hb]
  obtain ⟨t, tail, rfl, hopens⟩ := h.opens
  exact .rule hopens hfollows hread

end Heads

theorem heads_of_opensBlock {s : Section} {body : List Token}
    (h : OpensBlock stop sheetKeywords tokens s body) (hs : s.selectors = [selector])
    (htokens : tokens = ts ++ b :: more) (hts : ∀ t ∈ ts, t.kind ≠ .openBrace)
    (hmore : ∀ t ∈ more, t.kind ≠ .openBrace) : Heads selector ts := by
  cases h with
  | media _ hm =>
    obtain ⟨query, rfl⟩ := header_readMedia hm
    cases hs
  | @rule t tail _ _ hopens hfollows hr =>
    obtain ⟨-, hr⟩ := header_readRule hr
    have hclear := (clear_alternatives hfollows).1
    rw [hs] at hr
    unfold readSelectors at hr
    split at hr
    next first later after halternatives =>
    rw [halternatives] at hclear
    split at hr
    · cases hr
    next hempty =>
    split at hr
    · cases hr
    next hbrace =>
    obtain ⟨c, hc, rfl⟩ := Token.cons_of_expect hbrace
    simp only [List.map_cons, Except.ok.injEq, Prod.mk.injEq, List.cons.injEq,
      List.map_eq_nil_iff] at hr
    obtain ⟨⟨hparts, rfl⟩, rfl⟩ := hr
    have happend := append_of_alternatives halternatives
    have hfirst : first = ts := by
      rw [htokens] at happend
      exact ((List.append_cons_inj_of_notMem (fun hin => hts c hin hc)
        (fun hin => hmore c hin hc)).1 happend.symm).1.symm
    subst hfirst
    refine ⟨?_, hclear, hparts⟩
    cases first with
    | nil => simp at hempty
    | cons u first =>
      cases happend
      exact ⟨t, first, rfl, hopens⟩

/-! Statements -/

theorem suffix_of_notMem {v : List Token} (h : t :: v <:+ ts ++ rest) (ht : t ∉ ts) :
    t :: v <:+ rest := by
  induction ts with
  | nil => exact h
  | cons u ts ih =>
    obtain ⟨hne, hnot⟩ := not_or.1 (fun hin => ht (List.mem_cons.2 hin))
    rcases List.suffix_cons_iff.1 h with heq | h
    · exact absurd (List.cons.inj heq).1 hne
    · exact ih h hnot

/-- The tokens before a brace neither end a statement nor open a block. What comes after a token
that does one of these comes after the brace. -/
theorem suffix_of_ends {v : List Token} (h : t :: v <:+ ts ++ b :: more)
    (hts : ∀ t ∈ ts, endsHeader t.kind = false) (ht : endsHeader t.kind) :
    v <:+ more ∧ (t.kind ≠ b.kind → t :: v <:+ more) := by
  have hnot : t ∉ ts := by
    intro hin
    rw [hts t hin] at ht
    cases ht
  rcases List.suffix_cons_iff.1 (suffix_of_notMem h hnot) with heq | hin
  · obtain ⟨rfl, rfl⟩ := List.cons.inj heq
    exact ⟨List.suffix_refl _, fun hne => absurd rfl hne⟩
  · exact ⟨(List.suffix_cons t v).trans hin, fun _ => hin⟩

theorem suffix_of_ended {last : List Token} (h : Token.endStatement last = .ok rest)
    (hlast : last <:+ ts ++ b :: more) (hts : ∀ t ∈ ts, endsHeader t.kind = false)
    (hb : b.kind = .openBrace) : rest <:+ more := by
  unfold Token.endStatement at h
  split at h
  · cases h
    exact List.nil_suffix
  · split at h
    · next hk =>
      cases h
      exact (suffix_of_ends hlast hts (by rw [hk]; rfl)).1
    · next hk =>
      cases h
      exact (suffix_of_ends hlast hts (by rw [hk]; rfl)).2 (by simp [hk, hb])
    · cases h

theorem ReadsStatement.past_brace {tail : List Token} {statement : Statement}
    (h : ReadsStatement stop t tail statement rest) (heq : t :: tail = ts ++ b :: more)
    (hts : ∀ t ∈ ts, endsHeader t.kind = false) (hb : b.kind = .openBrace) : rest <:+ more := by
  have hstart : t :: tail <:+ ts ++ b :: more := heq ▸ List.suffix_refl _
  have hall : ∀ {v : List Token}, v <:+ tail → v <:+ ts ++ b :: more :=
    fun hv => (hv.trans (List.suffix_cons t tail)).trans hstart
  cases h with
  | nothing hk => exact (suffix_of_ends hstart hts (by rw [hk]; rfl)).1
  | imports _ hr =>
    obtain ⟨last, hlast, hended⟩ := ended_of_readImports hr
    exact suffix_of_ended hended (hall hlast) hts hb
  | declaration _ hr =>
    obtain ⟨last, hlast, hended⟩ := ended_of_readDeclaration hr
    exact suffix_of_ended hended (hall hlast) hts hb
  | template _ hr =>
    obtain ⟨_, hreads, -⟩ := readTemplate_eq_ok_iff.1 hr
    obtain ⟨brace, opened, hk, hopened, hbody⟩ := hreads.brace
    exact (suffix_of_readBlock hbody).trans
      (suffix_of_ends (hall hopened) hts (by rw [hk]; rfl)).1
  | block hopens hbody =>
    obtain ⟨brace, hk, hopened⟩ := hopens.brace
    exact (suffix_of_readBlock hbody).trans
      (suffix_of_ends (hopened.trans hstart) hts (by rw [hk]; rfl)).1

theorem sections_of_readStatements {sheet parsed : Sheet}
    (h : readStatements stop sheet tokens = .ok parsed) :
    ∃ later, parsed.sections = sheet.sections ++ later ∧
      ((∀ t ∈ tokens, t.kind ≠ .openBrace) → later = []) := by
  fun_induction readStatements stop sheet tokens with
  | case1 sheet =>
    cases h
    exact ⟨[], by simp, fun _ => rfl⟩
  | case2 => cases h
  | case3 sheet t tail statement after hread _ ih =>
    have hreads := readStatement_eq_ok_iff.1 hread
    obtain ⟨later, hsections, hnone⟩ := ih h
    have hafter : (∀ u ∈ t :: tail, u.kind ≠ .openBrace) → later = [] :=
      fun hall => hnone fun u hu => hall u ((past_of_readStatement hread).suffix.subset hu)
    cases hreads with
    | @block _ _ _ s hopens _ =>
      refine ⟨s :: later, by simpa [Statement.addTo] using hsections, fun hall => ?_⟩
      obtain ⟨brace, hk, hin⟩ := hopens.brace
      exact absurd hk (hall brace (hin.subset (by simp)))
    | nothing | imports | declaration | template => exact ⟨later, hsections, hafter⟩

theorem heads_of_readStatements {sheet parsed : Sheet} (hsheet : sheet.sections = [])
    (h : readStatements stop sheet (ts ++ b :: more) = .ok parsed)
    (hsections : parsed.sections.map (·.selectors) = [[selector]])
    (hts : ∀ t ∈ ts, endsHeader t.kind = false) (hb : b.kind = .openBrace)
    (hmore : ∀ t ∈ more, t.kind ≠ .openBrace) : Heads selector ts := by
  obtain ⟨t, tail, htokens⟩ := List.exists_cons_of_ne_nil (show ts ++ b :: more ≠ [] by simp)
  rw [htokens] at h
  obtain ⟨statement, after, hreads, hrun⟩ := reads_of_readStatements h
  have hafter := hreads.past_brace htokens.symm hts hb
  obtain ⟨later, hgrown, hnone⟩ := sections_of_readStatements hrun
  rw [hgrown, hnone fun u hu => hmore u (hafter.subset hu), List.append_nil] at hsections
  cases hreads with
  | @block _ _ _ s hopens hbody =>
    have hselectors : s.selectors = [selector] := by
      simpa [Statement.addTo, hsheet] using hsections
    refine heads_of_opensBlock hopens ?_ htokens.symm
      (fun u hu => (endsHeader_eq_false.1 (hts u hu)).1) hmore
    rw [← header_readBlock hopens.header hbody]
    exact hselectors
  | nothing | imports | declaration | template => simp [Statement.addTo, hsheet] at hsections

theorem Heads.sections {sheet parsed : Sheet} (h : Heads selector ts) (hb : b.kind = .openBrace)
    (hrun : readStatements stop sheet (ts ++ b :: more) = .ok parsed) :
    ∃ first later, parsed.sections = sheet.sections ++ first :: later ∧
      first.selectors = [selector] := by
  have hread := h.readRule hb stop more
  obtain ⟨t, tail, rfl, hopens⟩ := h.opens
  obtain ⟨statement, after, hreads, hrun⟩ := reads_of_readStatements hrun
  obtain ⟨later, hsections, -⟩ := sections_of_readStatements hrun
  cases hreads with
  | nothing hk | imports hk | declaration hk | template hk =>
    simp [hk, TokenKind.opensRule, sheetKeywords] at hopens
  | @block _ _ _ s hblock hbody =>
    refine ⟨s, later, by simpa [Statement.addTo] using hsections, ?_⟩
    have hheader := header_readBlock hblock.header hbody
    cases hblock with
    | media hk => simp [hk, TokenKind.opensRule, sheetKeywords] at hopens
    | rule _ _ hr =>
      cases hr.symm.trans hread
      exact congrArg Section.selectors hheader

/-! Texts -/

namespace Lexer

variable {previous last : Option Char} {spaced held : Bool} {cs : List Char}

theorem Scans.endsHeader (h : Scans previous spaced cs ls)
    (hplain : ∀ c ∈ cs, c ≠ ';' ∧ c ≠ '{' ∧ c ≠ '}') : ∀ l ∈ ls, endsHeader l.kind = false := by
  intro l hl
  have hmark : ∀ {kind : TokenKind} {c : Char}, kind.text = c.toString → l.kind = kind → c ∈ cs :=
    fun htext hk => h.mem_of_mark hl (hk ▸ htext)
  refine endsHeader_eq_false.2 ⟨fun hk => ?_, fun hk => ?_, fun hk => ?_⟩
  · exact (hplain '{' (hmark rfl hk)).2.1 rfl
  · exact (hplain ';' (hmark rfl hk)).1 rfl
  · exact (hplain '}' (hmark rfl hk)).2.2 rfl

theorem Passes.scans (h : Passes previous spaced cs ls last held) :
    Scans previous spaced cs ls := by
  simpa using (h [] ls (by simp [Ends])).2 ⟨[], by simp, .done⟩

theorem scans_brace_iff : Scans previous spaced (' ' :: '{' :: cs) ls ↔
    ∃ later, ls = ⟨.openBrace, true⟩ :: later ∧ Scans (some '{') false cs later := by
  have hblank : readItem previous ' ' ('{' :: cs) = .ok (.blank ' ', '{' :: cs) := rfl
  rw [scans_gap_iff hblank (by simp), scans_token_iff (readItem_mark rfl _ _)]
  rfl

end Lexer

theorem tokens_of_passes {spelled text : String} {tokens : Tokens} {last : Option Char}
    {held : Bool} (h : Passes none true spelled.toList ls last held)
    (htokens : tokenize (spelled ++ " \x7b" ++ text) = .ok tokens) :
    ∃ ts b more, tokens.list = ts ++ b :: more ∧ ts.map Token.lexeme = ls ∧ b.kind = .openBrace ∧
      Scans (some '{') false text.toList (more.map Token.lexeme) := by
  have hscans := scans_of_scan htokens
  rw [String.toList_append, String.toList_append, List.append_assoc] at hscans
  obtain ⟨ms, hlexemes, hms⟩ := (h _ _ (by simp [Ends]; decide)).1 hscans
  obtain ⟨after, rfl, hafter⟩ := scans_brace_iff.1 hms
  obtain ⟨ts, vs, hlist, hts, hvs⟩ := List.map_eq_append_iff.1 hlexemes
  obtain ⟨b, more, rfl, hb, rfl⟩ := List.map_eq_cons_iff.1 hvs
  exact ⟨ts, b, more, hlist, hts, congrArg Lexeme.kind hb, hafter⟩

/-- A text that was read as a rule with one selector and an empty block is read alike with any end,
and its tokens are the header of such a rule. -/
theorem heads_of_parse {name spelled : String} {sheet : Sheet}
    (hplain : ∀ c ∈ spelled.toList, c ≠ ';' ∧ c ≠ '{' ∧ c ≠ '}')
    (hparse : Sheet.parse name (spelled ++ " \x7b \x7d") = .ok sheet)
    (hsections : sheet.sections.map (·.selectors) = [[selector]]) :
    ∃ ls last held, Passes none true spelled.toList ls last held ∧
      ∀ ts : List Token, ts.map Token.lexeme = ls → Heads selector ts := by
  unfold Sheet.parse at hparse
  split at hparse
  · cases hparse
  next tokens htokens =>
  have hpad : Inert [' ', '{', ' ', '}'] := ⟨by simp [Ends]; decide, by simp [Quote.of?]⟩
  rcases (scans_of_scan htokens).passes hpad (String.toList_append ..) with
    ⟨ls, last, held, hpasses⟩ | hswallowed
  · have htext : spelled ++ " \x7b \x7d" = spelled ++ " \x7b" ++ " \x7d" := by
      rw [String.append_assoc]
      rfl
    obtain ⟨ts, b, more, hlist, hts, hb, hmore⟩ := tokens_of_passes hpasses (htext ▸ htokens)
    rw [hlist] at hparse
    have hheads : Heads selector ts := by
      refine heads_of_readStatements rfl hparse hsections ?_ hb ?_
      · intro t ht
        exact hpasses.scans.endsHeader hplain t.lexeme (hts ▸ List.mem_map_of_mem ht)
      · intro t ht hk
        have hin : '{' ∈ [' ', '}'] := hmore.mem_of_mark (List.mem_map_of_mem ht)
          (show t.kind.text = _ from hk ▸ rfl)
        simp at hin
    exact ⟨ls, last, held, hpasses, fun us hus => hheads.congr (hus.trans hts.symm)⟩
  · -- a comment has taken in the braces, so that no block was opened
    obtain ⟨later, hgrown, hnone⟩ := sections_of_readStatements hparse
    have hlater : later = [] := hnone fun t ht => (endsHeader_eq_false.1
      (hswallowed.endsHeader hplain t.lexeme (List.mem_map_of_mem ht))).1
    simp [hgrown, hlater] at hsections

theorem sections_of_parse {name spelled text : String} {sheet : Sheet} {last : Option Char}
    {held : Bool} (h : Passes none true spelled.toList ls last held)
    (hheads : ∀ ts : List Token, ts.map Token.lexeme = ls → Heads selector ts)
    (hparse : Sheet.parse name (spelled ++ " \x7b" ++ text) = .ok sheet) :
    ∃ first later, sheet.sections = first :: later ∧ first.selectors = [selector] := by
  unfold Sheet.parse at hparse
  split at hparse
  · cases hparse
  next tokens htokens =>
  obtain ⟨ts, b, more, hlist, hts, hb, -⟩ := tokens_of_passes h htokens
  rw [hlist] at hparse
  exact (hheads ts hts).sections hb hparse

theorem readTarget_of_words {d : Token} (hne : ts ≠ [])
    (hts : ∀ t ∈ ts, endsHeader t.kind = false) (hd : d.kind = .semicolon) :
    readTarget stop (ts ++ d :: rest) = .ok (Token.joined ts, rest) := by
  have hwords : ∀ t ∈ ts, endsTarget t.kind = false := by
    intro t ht
    have hends := hts t ht
    cases hk : t.kind <;> simp_all [endsTarget, endsHeader]
  have hsemicolon : endsTarget d.kind := by
    rw [hd]
    rfl
  obtain ⟨t, tail, rfl⟩ := List.exists_cons_of_ne_nil hne
  rw [readTarget, before_ends hwords hsemicolon]
  simp [Token.endStatement, hd]

theorem readStatements_of_extension {x e d c : Token} {text : String} (hx : x.kind = .word text)
    (htext : text ≠ "") (hb : b.kind = .openBrace) (he : e.kind = .directive "extend")
    (hne : ts ≠ []) (hts : ∀ t ∈ ts, endsHeader t.kind = false) (hd : d.kind = .semicolon)
    (hc : c.kind = .closeBrace) (sheet : Sheet) :
    readStatements stop sheet (x :: b :: e :: (ts ++ [d, c])) = .ok
      { sheet with sections := sheet.sections ++
          [{ selectors := [[text]], extensions := [Token.joined ts] }] } := by
  have hopens : OpensBlock stop sheetKeywords (x :: b :: e :: (ts ++ [d, c]))
      { selectors := [[text]] } (e :: (ts ++ [d, c])) :=
    (Heads.word hx htext).opensBlock hb stop _
  have hblock : readBlock stop { selectors := [[text]] } [] (e :: (ts ++ [d, c])) =
      .ok ({ selectors := [[text]], extensions := [Token.joined ts] }, []) := by
    rw [readBlock_of_member (.extension he (readTarget_of_words hne hts hd))]
    exact readBlock_of_member (.closing hc) _ _
  rw [readStatements_of_reads (.block hopens hblock), readStatements]
  rfl

theorem parse_extension {spelled : String} {last : Option Char} {held : Bool}
    (h : Passes none true spelled.toList ls last held) (hne : ls ≠ [])
    (hends : ∀ l ∈ ls, endsHeader l.kind = false) (other : String) :
    ∃ ts : List Token, ts.map Token.lexeme = ls ∧
      Sheet.parse other (".x \x7b @extend " ++ spelled ++ "; \x7d") = .ok
        { name := other,
          sections := [{ selectors := [[".x"]], extensions := [Token.joined ts] }] } := by
  have hend : Scans last held [';', ' ', '}'] [⟨.semicolon, held⟩, ⟨.closeBrace, true⟩] :=
    .token rfl (.gap rfl (by simp) (.token rfl .done))
  have htarget : Scans (some ' ') true (spelled.toList ++ [';', ' ', '}'])
      (ls ++ [⟨.semicolon, held⟩, ⟨.closeBrace, true⟩]) :=
    scans_after_blank_iff.2 ((h _ _ (by simp [Ends]; decide)).2 ⟨_, rfl, hend⟩)
  have hscans : Scans none true (".x \x7b @extend " ++ spelled ++ "; \x7d").toList
      (⟨.word ".x", true⟩ :: ⟨.openBrace, true⟩ :: ⟨.directive "extend", true⟩ ::
        (ls ++ [⟨.semicolon, held⟩, ⟨.closeBrace, true⟩])) := by
    rw [String.toList_append, String.toList_append, List.append_assoc]
    exact .token rfl (.gap rfl (by simp) (.token rfl (.gap rfl (by simp)
      (.token rfl (.gap rfl (by simp) htarget)))))
  obtain ⟨tokens, htokens, hlexemes⟩ := tokenize_of_scans hscans
  obtain ⟨x, xs, hlist, hx, hxs⟩ := List.map_eq_cons_iff.1 hlexemes
  obtain ⟨b, bs, rfl, hb, hbs⟩ := List.map_eq_cons_iff.1 hxs
  obtain ⟨e, es, rfl, he, hes⟩ := List.map_eq_cons_iff.1 hbs
  obtain ⟨ts, ds, rfl, hts, hds⟩ := List.map_eq_append_iff.1 hes
  obtain ⟨d, cs, rfl, hd, hcs⟩ := List.map_eq_cons_iff.1 hds
  obtain ⟨c, zs, rfl, hc, hzs⟩ := List.map_eq_cons_iff.1 hcs
  obtain rfl := List.map_eq_nil_iff.1 hzs
  refine ⟨ts, hts, ?_⟩
  have htne : ts ≠ [] := by
    rintro rfl
    exact hne hts.symm
  simp only [Sheet.parse, htokens, hlist]
  exact readStatements_of_extension (congrArg Lexeme.kind hx) (by decide) (congrArg Lexeme.kind hb)
    (congrArg Lexeme.kind he) htne (fun t ht => hends t.lexeme (hts ▸ List.mem_map_of_mem ht))
    (congrArg Lexeme.kind hd) (congrArg Lexeme.kind hc) { name := other }

/-! Registration -/

namespace Session

theorem suffix_targets_emit (s : Session) (y : Yield) : s.targets <:+ (s.emit y).targets := by
  cases y with
  | rule path selectors origin =>
    obtain ⟨-, -, -, -, -, htargets, -⟩ := s.place_frame path
      ⟨selectors, origin.attributes, origin.extensions, origin.references⟩
    simp only [emit, register_eq, htargets]
    split <;> exact List.suffix_append ..
  | host path selectors wrapper =>
    obtain ⟨-, -, -, -, -, htargets, -⟩ := s.place_frame (some path)
      { selectors := selectors, attributes := wrapper.attributes }
    rw [emit, htargets]
  | events met => exact List.suffix_refl _

theorem suffix_targets_emitAll (s : Session) (ys : List Yield) :
    s.targets <:+ (s.emitAll ys).targets := by
  induction ys generalizing s with
  | nil => exact List.suffix_refl _
  | cons y ys ih => exact (s.suffix_targets_emit y).trans (ih _)

/-- A rule that comes first in a sheet and has one selector of one part is registered under it when
the sheet is merged, with the number that the next rule gets. -/
theorem registered_of_merge {sheet : Sheet} {first : Section} {later : List Section}
    (hsections : sheet.sections = first :: later) (hfirst : first.selectors = [[part]])
    (s : Session) : (part, s.table.size) :: s.targets <:+ (s.merge sheet).targets := by
  obtain ⟨-, -, -, htable, htargets⟩ := s.declared_frame sheet
  rw [merge]
  generalize sheet.declarations.foldl declare (sheet.templates.foldl addTemplate s) = u at *
  have hrule : (u.emit (.rule none [[part]] first)).targets =
      (part, u.table.size) :: u.targets := by
    simp only [emit, register_eq]
    split <;> simp [registrations, place]
  rw [expandAll_eq_emitAll, hsections, flattenAll, flatten_of_rule (by simp [hfirst]), hfirst,
    ← htargets, ← htable, ← hrule]
  exact suffix_targets_emitAll ..

end Session

/-- An extension names the selector that its target is spelled like. If a text is the header of a
rule with a selector of one part, then as a target it is read as this part, and whatever block
follows the text, merging the sheet registers the rule under this part. -/
theorem extension_names_selector {name spelled part : String} {sheet : Sheet}
    (hplain : ∀ c ∈ spelled.toList, c ≠ ';' ∧ c ≠ '{' ∧ c ≠ '}')
    (hparent : ∀ tokens, tokenize spelled = .ok tokens →
      tokens.list.head?.map (·.kind) ≠ some .ampersand)
    (hparse : Sheet.parse name (spelled ++ " \x7b \x7d") = .ok sheet)
    (hsections : sheet.sections.map (·.selectors) = [[[part]]]) :
    (∀ other, Sheet.parse other (".x \x7b @extend " ++ spelled ++ "; \x7d") = .ok
      { name := other, sections := [{ selectors := [[".x"]], extensions := [part] }] }) ∧
    ∀ other text found, Sheet.parse other (spelled ++ " \x7b" ++ text) = .ok found →
      ∃ first later, found.sections = first :: later ∧ first.selectors = [[part]] ∧
        ∀ s : Session, (part, s.table.size) :: s.targets <:+ (s.merge found).targets := by
  obtain ⟨ls, last, held, hpasses, hheads⟩ := heads_of_parse hplain hparse hsections
  have hscans := hpasses.scans
  constructor
  · intro other
    obtain ⟨alone, halone, hsame⟩ := tokenize_of_scans hscans
    have hne : ls ≠ [] := by
      rintro rfl
      obtain ⟨t, tail, hnil, -⟩ := (hheads [] rfl).opens
      cases hnil
    obtain ⟨ts, hts, htarget⟩ := parse_extension hpasses hne (hscans.endsHeader hplain) other
    have hhead : ts.head?.map (·.kind) ≠ some .ampersand := by
      have hkinds : ts.map (·.kind) = alone.list.map (·.kind) :=
        (kinds_of_lexemes hts).trans (kinds_of_lexemes hsame).symm
      rw [← List.head?_map, hkinds, List.head?_map]
      exact hparent alone halone
    have htexts : ∀ t ∈ ts, t.text ≠ "" := fun t ht =>
      (hscans.unbroken t.lexeme (hts ▸ List.mem_map_of_mem ht)).text_ne
    rw [htarget, joined_of_partsOf (hheads ts hts).parts hhead htexts]
  · intro other text found hfound
    obtain ⟨first, later, hgrown, hfirst⟩ := sections_of_parse hpasses hheads hfound
    exact ⟨first, later, hgrown, hfirst, Session.registered_of_merge hgrown hfirst⟩

/-- A target with comments around it and inside it, a quoted parenthesis, and blanks and a comma
between parentheses. -/
theorem extension_names_selector_in_parentheses :
    let spelled := "/* a */li:not(.a,/**/ '(' (b  c)) // d\n"
    let part := "li:not(.a, '(' (b c))"
    let list : Sheet :=
      { name := "list"
        sections := [{ selectors := [[part]], attributes := [⟨"color", .text "red"⟩] }] }
    Sheet.parse "list" (spelled ++ " \x7b" ++ " color: red; \x7d") = .ok list ∧
      Sheet.parse "x" (".x \x7b @extend " ++ spelled ++ "; \x7d") = .ok
        { name := "x", sections := [{ selectors := [[".x"]], extensions := [part] }] } ∧
      ∀ s : Session, (part, s.table.size) :: s.targets <:+ (s.merge list).targets := by
  intro spelled part list
  have hfirst : (tokenize spelled).toOption.bind (fun tokens => tokens.list.head?.map (·.kind)) =
      some (.word "li") := by
    decide +kernel
  have hparent : ∀ tokens, tokenize spelled = .ok tokens →
      tokens.list.head?.map (·.kind) ≠ some .ampersand := by
    intro tokens htokens
    rw [htokens] at hfirst
    simp only [Except.toOption, Option.bind_some] at hfirst
    simp [hfirst]
  have hparse : Sheet.parse "list" (spelled ++ " \x7b \x7d") = .ok
      { name := "list", sections := [{ selectors := [[part]] }] } := by
    decide +kernel
  have hlist : Sheet.parse "list" (spelled ++ " \x7b" ++ " color: red; \x7d") = .ok list := by
    decide +kernel
  have hmarks : spelled.toList.all fun c => c ≠ ';' ∧ c ≠ '{' ∧ c ≠ '}' := by
    decide +kernel
  have hplain : ∀ c ∈ spelled.toList, c ≠ ';' ∧ c ≠ '{' ∧ c ≠ '}' :=
    fun c hc => of_decide_eq_true (List.all_eq_true.1 hmarks c hc)
  obtain ⟨htarget, hregistered⟩ := extension_names_selector hplain hparent hparse rfl
  obtain ⟨_, _, -, -, hmerged⟩ := hregistered "list" " color: red; \x7d" list hlist
  exact ⟨hlist, htarget "x", hmerged⟩

end NestedStyles
