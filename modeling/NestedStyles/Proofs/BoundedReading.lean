import NestedStyles.Proofs.Lexemes
import NestedStyles.Proofs.PositionReader

/-!
Reading by position ends, as the readers of lists do. No position leaves the tokens, no loop goes
around more often than there are tokens left and once more, and no impossible branch is taken: the
look-ahead for a block and the loop over its selectors count parentheses alike, so the loop stops at
the brace.
-/

namespace NestedStyles

namespace PositionReader

open SelectorReader SectionReader SheetReader

variable {tokens : Tokens} {pos : Nat} {rest : List Token} {t : Token}

/-! Loops -/

theorem agrees_before {n : Nat} (p : TokenKind → Bool) (h : tokens.At pos rest)
    (hn : rest.length < n) :
    (before p n tokens pos).Agrees tokens (.ok (SectionReader.before p rest)) := by
  induction rest generalizing n pos with
  | nil =>
    obtain _ | n := n
    · simp at hn
    rw [before, current_bind h]
    exact ⟨pos, rfl, h⟩
  | cons t rest ih =>
    obtain _ | n := n
    · simp at hn
    rw [before, current_bind h]
    simp only [List.head?_cons, SectionReader.before]
    split
    · exact ⟨pos, rfl, h⟩
    · obtain ⟨after, hdone, hat⟩ := ih h.next (by simpa using hn)
      rw [skip_bind h, bind_done hdone]
      exact ⟨after, rfl, hat⟩

theorem alternatives_done {n depth : Nat} (h : tokens.At pos rest) (hn : rest.length < n)
    (hblock : SelectorReader.blockFollows depth rest) :
    ∃ first later brace tail after,
      SelectorReader.alternatives depth rest = (first, later, brace :: tail) ∧
      brace.kind = .openBrace ∧ tokens.At after (brace :: tail) ∧
      alternatives n depth tokens pos = .done (first, later) after := by
  induction rest generalizing n pos depth with
  | nil => cases hblock
  | cons t rest ih =>
    obtain _ | n := n
    · simp at hn
    rw [alternatives, current_bind h]
    unfold SelectorReader.blockFollows at hblock
    simp only [List.head?_cons, SelectorReader.alternatives]
    split at hblock
    · next hbrace =>
      rw [if_pos hbrace, if_pos hbrace]
      exact ⟨[], [], t, rest, pos, rfl, hbrace.2, h, rfl⟩
    next hbrace =>
    split at hblock
    · cases hblock
    obtain ⟨first, later, brace, tail, after, heq, hkind, hat, hdone⟩ :=
      ih h.next (by simpa using hn) hblock
    rw [if_neg hbrace, if_neg hbrace]
    -- the look-ahead does not know of commas, but a comma leaves the depth as it is
    by_cases hcomma : depth = 0 ∧ t.kind = .comma
    · have hdepth : t.kind.depthAfter depth = depth := by
        rw [hcomma.2]
        rfl
      rw [hdepth] at heq hdone
      rw [if_pos hcomma, if_pos hcomma, skip_bind h, bind_done hdone, heq]
      exact ⟨[], first :: later, brace, tail, after, rfl, hkind, hat, rfl⟩
    · rw [if_neg hcomma, if_neg hcomma, skip_bind h, bind_done hdone, heq]
      exact ⟨t :: first, later, brace, tail, after, rfl, hkind, hat, rfl⟩

/-- With a parenthesis open at the end of the text the loop would never come back, so no rule may be
read where no block follows. -/
theorem alternatives_endless {depth : Nat} (h : tokens.At pos []) (hdepth : depth ≠ 0) (n : Nat) :
    alternatives n depth tokens pos = .broken .endless := by
  induction n with
  | zero => rfl
  | succ n ih =>
    rw [alternatives, current_bind h]
    dsimp only [List.head?_nil]
    rw [if_neg hdepth, bind_done (skip_end h), ih]

example : rule 9 ⟨[⟨.word "a", .start, true⟩, ⟨.openParen, .start, false⟩], .start⟩ 0 =
    .broken .endless := by
  decide

theorem agrees_items {n : Nat} {mode : ExprReader.Mode} {s : ExprReader.State}
    (h : tokens.At pos rest) (hn : rest.length < n) :
    (items mode n s tokens pos).Agrees tokens (ExprReader.run mode tokens.stop s rest) := by
  induction rest generalizing n pos s with
  | nil =>
    obtain _ | n := n
    · simp at hn
    rw [items, current_bind h]
    simp only [List.head?_nil, ExprReader.run]
    cases s.halt mode "" with
    | error problem => exact follows_fail problem _ _ h
    | ok found => exact ⟨pos, rfl, h⟩
  | cons t rest ih =>
    obtain _ | n := n
    · simp at hn
    have hlater : ∀ s, (items mode n s tokens (pos + 1)).Agrees tokens
        (ExprReader.run mode tokens.stop s rest) := fun s => ih h.next (by simpa using hn)
    rw [items, current_bind h]
    simp only [List.head?_cons, ExprReader.run]
    cases ExprReader.roleOf t.kind with
    | piece =>
      simp only [skip_bind h]
      exact hlater _
    | comma =>
      cases s.comma with
      | error problem => exact follows_fail problem _ _ h
      | ok s =>
        simp only [skip_bind h]
        exact hlater s
    | close =>
      cases s.close mode with
      | error problem => exact follows_fail problem _ _ h
      | ok step =>
        cases step with
        | next s =>
          simp only [skip_bind h]
          exact hlater s
        | finish found =>
          cases mode with
          | value => exact ⟨pos, rfl, h⟩
          | arguments =>
            simp only [skip_bind h]
            exact ⟨pos + 1, rfl, h.next⟩
    | halt =>
      cases s.halt mode t.text with
      | error problem => exact follows_fail problem _ _ h
      | ok found => exact ⟨pos, rfl, h⟩

theorem stripped_text (quote : Quote) (body : String) :
    stripped (TokenKind.quoted quote body).text = pure body := by
  have hlength : ¬ (TokenKind.quoted quote body).text.length < 2 := by
    simp [TokenKind.text, String.length_append]
  rw [stripped, if_neg hlength]
  simp [TokenKind.text]

theorem importName_eq (t : Token) : importName t =
    match importName? t.kind with
    | none => failWith ⟨t.span, .expectedImport⟩
    | some name => pure name := by
  unfold importName
  cases hk : t.kind with
  | quoted quote body =>
    rw [Token.text, hk, stripped_text]
    rfl
  | _ => rfl

theorem agrees_imports {n : Nat} (h : tokens.At pos rest) (hn : rest.length < n) :
    (imports n tokens pos).Agrees tokens (readImports tokens.stop rest) := by
  induction n generalizing rest pos with
  | zero => simp at hn
  | succ n ih =>
    cases rest with
    | nil =>
      rw [imports, advance_bind_nil h]
      exact follows_fail _ _ _ h
    | cons t rest =>
      rw [imports, advance_bind h, readImports]
      simp only [importName_eq]
      cases importName? t.kind with
      | none => rfl
      | some name =>
        show ((accept .comma >>= _) tokens (pos + 1)).Agrees tokens _
        cases rest with
        | nil =>
          rw [bind_done (accept_other h.next (by simp)), if_neg Bool.false_ne_true]
          exact agrees_ended h.next [name]
        | cons separator rest =>
          have hlength : rest.length < n := by
            simp only [List.length_cons] at hn
            omega
          simp only
          split
          · next hcomma =>
            rw [bind_done (accept_eq h.next hcomma), if_pos rfl]
            refine agrees_bind (ih h.next.next hlength) (fun _ hr => by rw [hr]) ?_
            intro names after rest hr hat
            rw [hr]
            exact ⟨after, rfl, hat⟩
          · next hcomma =>
            rw [bind_done (accept_other h.next (by simpa using hcomma)), if_neg Bool.false_ne_true]
            exact agrees_ended h.next [name]

theorem accept_comma (h : tokens.At pos rest) :
    ∃ found after, accept .comma tokens pos = .done found after ∧
      tokens.At after (skipComma rest) := by
  cases rest with
  | nil => exact ⟨_, pos, accept_other h (by simp), h⟩
  | cons t rest =>
    rw [skipComma]
    split
    · next hcomma => exact ⟨_, pos + 1, accept_eq h hcomma, h.next⟩
    · next hcomma => exact ⟨_, pos, accept_other h (by simpa using hcomma), h⟩

theorem accept_default (h : tokens.At pos rest) :
    ∃ after, accept (.word ExprReader.defaultFlag) tokens pos = .done (readDefault rest).1 after ∧
      tokens.At after (readDefault rest).2 := by
  cases rest with
  | nil => exact ⟨pos, accept_other h (by simp), h⟩
  | cons t rest =>
    rw [readDefault]
    split
    · next hflag => exact ⟨pos + 1, accept_eq h hflag, h.next⟩
    · next hflag => exact ⟨pos, accept_other h (by simpa using hflag), h⟩

theorem agrees_parameters {n : Nat} (h : tokens.At pos rest) (hn : rest.length < n) :
    (parameters n tokens pos).Agrees tokens (readParameters tokens.stop rest) := by
  induction n generalizing rest pos with
  | zero => simp at hn
  | succ n ih =>
    unfold readParameters
    cases rest with
    | nil =>
      rw [parameters, bind_done (accept_other h (by simp)), if_neg Bool.false_ne_true,
        takeKind_bind_nil h]
      exact follows_fail _ _ _ h
    | cons t rest =>
      have hlength : rest.length < n := by simpa using hn
      rw [parameters]
      by_cases hclose : t.kind = .closeParen
      · rw [bind_done (accept_eq h hclose), if_pos rfl]
        simp only [hclose]
        exact ⟨pos + 1, rfl, h.next⟩
      rw [bind_done (accept_other h (by simpa using hclose)), if_neg Bool.false_ne_true,
        takeKind_bind h]
      dsimp only
      cases hk : t.kind with
      | closeParen => exact absurd hk hclose
      | var name =>
        obtain ⟨_, after, hcomma, hat⟩ := accept_comma h.next
        have hskipped := (suffix_of_skipComma rest).length_le
        dsimp only
        rw [bind_done hcomma]
        refine agrees_bind (ih hat (by omega)) (fun _ hr => by rw [hr]) ?_
        intro names after rest hr hat
        rw [hr]
        exact ⟨after, rfl, hat⟩
      | _ => exact follows_fail _ _ _ h.next

/-! Members of blocks -/

section

variable {rounds : Nat}

theorem follows_value (hr : tokens.list.length < rounds) :
    Follows tokens (value rounds) (readValue tokens.stop) := by
  intro pos rest h
  unfold readValue value
  refine agrees_bind (agrees_items h (h.length_lt hr)) (fun _ hrun => by rw [hrun]) ?_
  intro items after rest hrun hat
  rw [hrun]
  exact ⟨after, rfl, hat⟩

theorem follows_target (hr : tokens.list.length < rounds) :
    Follows tokens (target rounds) (readTarget tokens.stop) := by
  intro pos rest h
  obtain ⟨after, hdone, hat⟩ := agrees_before endsTarget h (h.length_lt hr)
  rw [target, bind_done hdone, readTarget]
  rcases hb : SectionReader.before endsTarget rest with ⟨words, tail⟩
  rw [hb] at hat
  cases words with
  | nil => exact follows_fail _ _ _ hat
  | cons word words => exact agrees_ended hat _

theorem follows_templateName : Follows tokens templateName (readTemplateName tokens.stop) := by
  intro pos rest h
  rw [templateName]
  cases rest with
  | nil =>
    rw [takeKind_bind_nil h]
    exact follows_fail _ _ _ h
  | cons t rest =>
    rw [takeKind_bind h, readTemplateName]
    cases t.kind with
    | word name => exact ⟨pos + 1, rfl, h.next⟩
    | _ => exact follows_fail _ _ _ h.next

theorem follows_optionalArguments (hr : tokens.list.length < rounds) :
    Follows tokens (optionalArguments rounds) (readOptionalArguments tokens.stop) := by
  intro pos rest h
  rw [optionalArguments]
  cases rest with
  | nil =>
    rw [bind_done (accept_other h (by simp))]
    exact ⟨pos, rfl, h⟩
  | cons t rest =>
    rw [readOptionalArguments]
    by_cases hopen : t.kind = .openParen
    · rw [bind_done (accept_eq h hopen), if_pos rfl, hopen]
      exact agrees_items h.next (h.next.length_lt hr)
    · rw [bind_done (accept_other h (by simpa using hopen)), if_neg Bool.false_ne_true]
      cases hk : t.kind <;> first | exact absurd hk hopen | exact ⟨pos, rfl, h⟩

theorem follows_reference (hr : tokens.list.length < rounds) :
    Follows tokens (reference rounds) (readReference tokens.stop) := by
  intro pos rest h
  rw [reference, readReference]
  refine agrees_bind (follows_templateName _ _ h) (fun _ hn => by rw [hn]) ?_
  intro name pos rest hn h
  rw [hn]
  refine agrees_bind (follows_optionalArguments hr _ _ h) (fun _ ha => by simp only [ha]) ?_
  intro arguments pos rest ha h
  simp only [ha]
  exact agrees_ended h _

theorem follows_media (hr : tokens.list.length < rounds) :
    Follows tokens (media rounds) (readMedia tokens.stop) := by
  intro pos rest h
  rw [media, kind_bind h, readMedia]
  split
  · exact follows_fail _ _ _ h
  refine agrees_bind (follows_value hr _ _ h) (fun _ hv => by rw [hv]) ?_
  intro query pos rest hv h
  rw [hv]
  refine (passes_expect _ _).bind h (fun _ he => by simp only [he]) ?_
  intro pos tail he h
  simp only [he]
  exact ⟨pos, rfl, h⟩

theorem agrees_rule (hr : tokens.list.length < rounds) (h : tokens.At pos rest)
    (hblock : SelectorReader.blockFollows 0 rest) :
    (rule rounds tokens pos).Agrees tokens (readRule tokens.stop rest) := by
  obtain ⟨first, later, brace, tail, after, heq, hbrace, hat, hdone⟩ :=
    alternatives_done h (h.length_lt hr) hblock
  rw [rule, bind_done hdone, readRule, readSelectors, heq]
  dsimp only
  rw [kind_bind hat, if_neg (by simp [hbrace])]
  split
  · exact follows_fail _ _ _ hat
  · rw [skip_bind hat]
    simp only [Token.expect, if_pos hbrace]
    exact ⟨after + 1, rfl, hat.next⟩

theorem follows_assignment (hr : tokens.list.length < rounds) :
    Follows tokens (assignment rounds) (readAttribute tokens.stop) := by
  intro pos rest h
  obtain ⟨after, hdone, hat⟩ := agrees_before endsName h (h.length_lt hr)
  rw [assignment, bind_done hdone, readAttribute]
  rcases hb : SectionReader.before endsName rest with ⟨words, tail⟩
  rw [hb] at hat
  cases words with
  | nil => exact follows_fail _ _ _ hat
  | cons word words =>
    dsimp only
    rw [if_neg (by simp)]
    refine (passes_expect _ _).bind hat (fun _ he => by simp only [he]) ?_
    intro pos rest he h
    simp only [he]
    refine agrees_bind (follows_value hr _ _ h) (fun _ hv => by simp only [hv]) ?_
    intro value pos rest hv h
    simp only [hv]
    exact agrees_ended h _

theorem agrees_directive (hr : tokens.list.length < rounds) (h : tokens.At pos (t :: rest))
    (keyword : String) : (directive rounds keyword tokens pos).Agrees tokens
      (readDirective tokens.stop t keyword rest) := by
  rw [directive, readDirective]
  split
  · rw [skip_bind h]
    exact agrees_map (follows_target hr _ _ h.next) _
  split
  · rw [skip_bind h]
    exact agrees_map (follows_reference hr _ _ h.next) _
  split
  · rw [skip_bind h]
    exact agrees_map (follows_media hr _ _ h.next) _
  split
  · exact follows_fail _ _ _ h
  rw [blockFollows_bind h]
  split
  · next hblock => exact agrees_map (agrees_rule hr h hblock) _
  · exact follows_fail _ _ _ h

theorem follows_member (hr : tokens.list.length < rounds) :
    Follows tokens (member rounds) (readMember tokens.stop) := by
  intro pos rest h
  rw [member, kind_bind h]
  cases rest with
  | nil => exact follows_fail _ _ _ h
  | cons t rest =>
    have hother : (ruleOrAssignment rounds tokens pos).Agrees tokens
        (if SelectorReader.blockFollows 0 (t :: rest) then
          (readRule tokens.stop (t :: rest)).map fun found => (.opening found.1, found.2)
        else
          (readAttribute tokens.stop (t :: rest)).map fun found => (.assign found.1, found.2)) := by
      rw [ruleOrAssignment, blockFollows_bind h]
      split
      · next hblock => exact agrees_map (agrees_rule hr h hblock) _
      · exact agrees_map (follows_assignment hr _ _ h) _
    rw [readMember]
    simp only [List.head?_cons, Option.map_some]
    cases hk : t.kind with
    | closeBrace =>
      simp only [skip_bind h]
      exact ⟨pos + 1, rfl, h.next⟩
    | semicolon =>
      simp only [skip_bind h]
      exact ⟨pos + 1, rfl, h.next⟩
    | directive keyword => exact agrees_directive hr h keyword
    | var name => exact follows_fail _ _ _ h
    | _ => exact hother

theorem member_done {n : Nat} {m : Member} {tail : List Token}
    (hr : tokens.list.length < rounds) (h : tokens.At pos rest) (hn : rest.length < n + 1)
    (hm : readMember tokens.stop rest = .ok (m, tail)) :
    ∃ after, member rounds tokens pos = .done m after ∧ tokens.At after tail ∧
      tail.length < n := by
  have hlength := (past_of_readMember hm).length_lt
  have hmember := follows_member hr _ _ h
  rw [hm] at hmember
  obtain ⟨after, hdone, hat⟩ := hmember
  exact ⟨after, hdone, hat, by omega⟩

theorem agrees_block (hr : tokens.list.length < rounds) {n : Nat} {s : Section}
    {outer : List Section} (h : tokens.At pos rest) (hn : rest.length < n) :
    (block rounds n s outer tokens pos).Agrees tokens (readBlock tokens.stop s outer rest) := by
  fun_induction readBlock tokens.stop s outer rest generalizing n pos with
  | case1 s outer rest fault hm =>
    obtain _ | n := n
    · simp at hn
    have hmember := follows_member hr _ _ h
    rw [hm] at hmember
    unfold block
    exact bind_failed hmember
  | case2 _ _ _ _ hm _ _ ih | case3 _ _ _ _ _ hm _ _ ih | case4 _ _ _ _ _ hm _ _ ih
  | case5 _ _ _ _ _ hm _ _ ih | case6 _ _ _ _ _ hm _ _ ih | case8 _ _ _ hm _ _ _ _ ih =>
    obtain _ | n := n
    · simp at hn
    obtain ⟨after, hdone, hat, hlength⟩ := member_done hr h hn hm
    unfold block
    rw [bind_done hdone]
    exact ih hat hlength
  | case7 _ _ _ hm =>
    obtain _ | n := n
    · simp at hn
    obtain ⟨after, hdone, hat, -⟩ := member_done hr h hn hm
    unfold block
    rw [bind_done hdone]
    exact ⟨after, rfl, hat⟩

/-! Statements -/

theorem agrees_declaration {name : String} (hr : tokens.list.length < rounds)
    (h : tokens.At pos (t :: rest)) (hvar : t.kind = .var name) :
    (declaration rounds tokens pos).Agrees tokens (readDeclaration tokens.stop name rest) := by
  rw [declaration, takeKind_bind h, hvar, readDeclaration]
  refine (passes_expect _ _).bind h.next (fun _ he => by rw [he]) ?_
  intro pos rest he h
  rw [he]
  refine agrees_bind (follows_value hr _ _ h) (fun _ hv => by simp only [hv]) ?_
  intro value pos rest hv h
  simp only [hv]
  obtain ⟨after, hdone, hat⟩ := accept_default h
  rw [bind_done hdone]
  exact agrees_ended hat _

theorem follows_optionalParameters (hr : tokens.list.length < rounds) :
    Follows tokens (optionalParameters rounds) (readOptionalParameters tokens.stop) := by
  intro pos rest h
  rw [optionalParameters]
  cases rest with
  | nil =>
    rw [bind_done (accept_other h (by simp))]
    exact ⟨pos, rfl, h⟩
  | cons t rest =>
    rw [readOptionalParameters]
    split
    · next hopen =>
      rw [bind_done (accept_eq h hopen), if_pos rfl]
      exact agrees_parameters h.next (h.next.length_lt hr)
    · next hopen =>
      rw [bind_done (accept_other h (by simpa using hopen)), if_neg Bool.false_ne_true]
      exact ⟨pos, rfl, h⟩

theorem follows_template (hr : tokens.list.length < rounds) (start : Span) :
    Follows tokens (template rounds start) (readTemplate tokens.stop start) := by
  intro pos rest h
  rw [template, readTemplate]
  refine agrees_bind (follows_templateName _ _ h) (fun _ hn => by rw [hn]) ?_
  intro name pos rest hn h
  rw [hn]
  refine agrees_bind (follows_optionalParameters hr _ _ h) (fun _ hp => by simp only [hp]) ?_
  intro parameters pos rest hp h
  simp only [hp]
  refine (passes_expect _ _).bind h (fun _ he => by simp only [he]) ?_
  intro pos rest he h
  simp only [he]
  refine agrees_bind (agrees_block hr h (h.length_lt hr)) (fun _ hb => by simp only [hb]) ?_
  intro body pos rest hb h
  simp only [hb]
  cases templateOf start name parameters body with
  | error fault => rfl
  | ok found => exact ⟨pos, rfl, h⟩

theorem agrees_opened {header : PositionReader Section} {reading : Reading Section}
    (hr : tokens.list.length < rounds) (hh : (header tokens pos).Agrees tokens reading) :
    (opened rounds header tokens pos).Agrees tokens (readSection tokens.stop reading) := by
  refine agrees_bind hh (fun _ hs => by rw [hs]; rfl) ?_
  intro s pos rest hs h
  rw [hs]
  exact agrees_map (agrees_block hr h (h.length_lt hr)) _

theorem agrees_topDirective (hr : tokens.list.length < rounds) (h : tokens.At pos (t :: rest))
    (keyword : String) : (topDirective rounds t keyword tokens pos).Agrees tokens
      (readTopDirective tokens.stop t keyword rest) := by
  rw [topDirective, readTopDirective]
  split
  · rw [skip_bind h]
    exact agrees_map (agrees_imports h.next (h.next.length_lt hr)) _
  split
  · rw [skip_bind h]
    exact agrees_map (follows_template hr _ _ _ h.next) _
  split
  · rw [skip_bind h]
    exact agrees_opened hr (follows_media hr _ _ h.next)
  rw [blockFollows_bind h]
  split
  · next hblock => exact agrees_opened hr (agrees_rule hr h hblock)
  · exact follows_fail _ _ _ h

theorem agrees_statement (hr : tokens.list.length < rounds) (h : tokens.At pos (t :: rest)) :
    (statement rounds t tokens pos).Agrees tokens (readStatement tokens.stop t rest) := by
  have hother : (openedRule rounds tokens pos).Agrees tokens
      (if SelectorReader.blockFollows 0 (t :: rest) then
        readSection tokens.stop (readRule tokens.stop (t :: rest))
      else .error ⟨t.span, .attributeOutsideSelector⟩) := by
    rw [openedRule, blockFollows_bind h]
    split
    · next hblock => exact agrees_opened hr (agrees_rule hr h hblock)
    · exact follows_fail _ _ _ h
  rw [statement, readStatement]
  cases hk : t.kind with
  | semicolon =>
    simp only [skip_bind h]
    exact ⟨pos + 1, rfl, h.next⟩
  | directive keyword => exact agrees_topDirective hr h keyword
  | var name => exact agrees_map (agrees_declaration hr h hk) _
  | _ => exact hother

/-- All statements are read, up to the end of the text. -/
theorem statements_eq (hr : tokens.list.length < rounds) {n : Nat} {sheet : Sheet}
    (h : tokens.At pos rest) (hn : rest.length < n) :
    statements rounds n sheet tokens pos =
      match readStatements tokens.stop sheet rest with
      | .error fault => .failed fault
      | .ok sheet => .done sheet tokens.list.length := by
  fun_induction readStatements tokens.stop sheet rest generalizing n pos with
  | case1 sheet =>
    obtain _ | n := n
    · simp at hn
    rw [statements, current_bind h, h.atEnd]
    rfl
  | case2 sheet t rest fault hs =>
    obtain _ | n := n
    · simp at hn
    have hstatement := agrees_statement hr h
    rw [hs] at hstatement
    rw [statements, current_bind h]
    exact bind_failed hstatement
  | case3 sheet t rest st tail hs _ ih =>
    obtain _ | n := n
    · simp at hn
    have hstatement := agrees_statement hr h
    rw [hs] at hstatement
    obtain ⟨after, hdone, hat⟩ := hstatement
    rw [statements, current_bind h]
    dsimp only [List.head?_cons]
    rw [bind_done hdone]
    exact ih hat (by simp only [List.length_cons] at hn; omega)

end

end PositionReader

/-! Sheets -/

theorem Lexer.Scans.length_le {previous : Option Char} {spaced : Bool} {cs : List Char}
    {lexemes : List Lexeme} (h : Lexer.Scans previous spaced cs lexemes) :
    lexemes.length ≤ cs.length := by
  induction h with
  | done => simp
  | token hi _ ih =>
    have htail := Lexer.length_readItem hi
    simp only [List.length_cons]
    omega
  | gap hi _ _ ih =>
    have htail := Lexer.length_readItem hi
    simp only [List.length_cons]
    omega

theorem length_of_tokenize {source : String} {tokens : Tokens}
    (h : tokenize source = .ok tokens) : tokens.list.length ≤ source.length := by
  have hlength := (Lexer.scans_of_scan h).length_le
  rwa [List.length_map, String.length_toList] at hlength

/-- For every text, reading by position ends without breaking down, when every loop may go around
once for each character and once more. It ends with a fault of the text, or with a sheet after it
has moved over all tokens, and the fault or the sheet is that of the parser. -/
theorem Sheet.parseByPosition_ends (name source : String) :
    (∃ fault, Sheet.parse name source = .error fault ∧
      ∀ rounds, source.length < rounds → Sheet.parseByPosition rounds name source = .failed fault) ∨
    ∃ sheet tokens, Sheet.parse name source = .ok sheet ∧ tokenize source = .ok tokens ∧
      ∀ rounds, source.length < rounds →
        Sheet.parseByPosition rounds name source = .done sheet tokens.list.length := by
  unfold Sheet.parse Sheet.parseByPosition
  cases ht : tokenize source with
  | error fault => exact .inl ⟨fault, rfl, fun _ _ => rfl⟩
  | ok tokens =>
    have hstatements : ∀ rounds, source.length < rounds →
        PositionReader.statements rounds rounds { name := name } tokens 0 =
          match SheetReader.readStatements tokens.stop { name := name } tokens.list with
          | .error fault => .failed fault
          | .ok sheet => .done sheet tokens.list.length := by
      intro rounds hr
      have hlength := length_of_tokenize ht
      exact PositionReader.statements_eq (by omega) (.start tokens) (by omega)
    dsimp only
    cases hread : SheetReader.readStatements tokens.stop { name := name } tokens.list with
    | error fault =>
      simp only [hread] at hstatements
      exact .inl ⟨fault, rfl, hstatements⟩
    | ok sheet =>
      simp only [hread] at hstatements
      exact .inr ⟨sheet, tokens, rfl, rfl, hstatements⟩

end NestedStyles
