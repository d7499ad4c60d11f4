import NestedStyles.Sheet.Reader

/-!
Reading by position. The readers take the tokens that are left as a list. Here they go over all
tokens with a position, and whatever can go wrong on the way is an outcome of its own: a position
outside the tokens, a loop that does not end, and a branch that nothing should lead to. Looking for
a token at the end of the text is no error, but nothing moves on from there, so a loop that does not
stop at the end goes around forever.
-/

namespace NestedStyles

/-- Why reading by position breaks down. -/
inductive Breakdown
  | outside
  | endless
  | impossible
  deriving DecidableEq, Repr

/-- How reading by position ends: with a value at a position, with a fault of the text, or not
properly. -/
inductive Outcome (α : Type)
  | done (value : α) (pos : Nat)
  | failed (fault : Fault)
  | broken (why : Breakdown)
  deriving DecidableEq, Repr

/-- A reader that starts at a position in the tokens of a text. -/
def PositionReader (α : Type) : Type := Tokens → Nat → Outcome α

namespace PositionReader

open SelectorReader SectionReader SheetReader

variable {α β : Type}

instance : Monad PositionReader where
  pure a := fun _ pos => .done a pos
  bind w f := fun tokens pos =>
    match w tokens pos with
    | .done a pos => f a tokens pos
    | .failed fault => .failed fault
    | .broken why => .broken why

def broken (why : Breakdown) : PositionReader α := fun _ _ => .broken why

def failWith (fault : Fault) : PositionReader α := fun _ _ => .failed fault

/-! Single tokens -/

def stop : PositionReader Span := fun tokens pos => .done tokens.stop pos

def current : PositionReader (Option Token) := fun tokens pos =>
  if pos ≤ tokens.list.length then .done tokens.list[pos]? pos else .broken .outside

def kind : PositionReader (Option TokenKind) := do
  return (← current).map (·.kind)

/-- Moves to the next token. At the end of the text the position stays. -/
def skip : PositionReader Unit := fun tokens pos =>
  if pos < tokens.list.length then .done () (pos + 1)
  else if pos = tokens.list.length then .done () pos
  else .broken .outside

def advance : PositionReader (Option Token) := do
  let t ← current
  skip
  return t

def takeKind : PositionReader (Option TokenKind) := do
  return (← advance).map (·.kind)

def accept (kind : TokenKind) : PositionReader Bool := do
  if (← PositionReader.kind) = some kind then
    skip
    return true
  else return false

def fail (problem : Problem) : PositionReader α := do
  match ← current with
  | some t => failWith ⟨t.span, problem⟩
  | none => failWith ⟨← stop, problem⟩

def expect (kind : TokenKind) (what : Expectation) : PositionReader Unit := do
  match ← current with
  | some t => if t.kind = kind then skip else fail (.expected what t.text)
  | none => fail (.expected what "")

def endStatement : PositionReader Unit := do
  match ← current with
  | none => return
  | some t =>
    match t.kind with
    | .semicolon => skip
    | .closeBrace => return
    | _ => fail (.expected .semicolon t.text)

/-- Looks ahead for a brace, over the tokens from the position on. -/
def blockFollows : PositionReader Bool := fun tokens pos =>
  if pos ≤ tokens.list.length then
    .done (SelectorReader.blockFollows 0 (tokens.list.drop pos)) pos
  else .broken .outside

/-! Loops. The number that each one takes is how often it may still go around. -/

def before (p : TokenKind → Bool) : Nat → PositionReader (List Token)
  | 0 => broken .endless
  | rounds + 1 => do
    match ← current with
    | none => return []
    | some t =>
      if p t.kind then return []
      else
        skip
        return t :: (← before p rounds)

/-- At the end of the text this loop stops outside parentheses only. -/
def alternatives : Nat → Nat → PositionReader (List Token × List (List Token))
  | 0, _ => broken .endless
  | rounds + 1, depth => do
    match ← current with
    | none =>
      if depth = 0 then return ([], [])
      else
        skip
        alternatives rounds depth
    | some t =>
      if depth = 0 ∧ t.kind = .openBrace then return ([], [])
      else if depth = 0 ∧ t.kind = .comma then
        skip
        let (first, later) ← alternatives rounds depth
        return ([], first :: later)
      else
        skip
        let (first, later) ← alternatives rounds (t.kind.depthAfter depth)
        return (t :: first, later)

def items (mode : ExprReader.Mode) : Nat → ExprReader.State → PositionReader (List Expr)
  | 0, _ => broken .endless
  | rounds + 1, s => do
    match ← current with
    | none =>
      match s.halt mode "" with
      | .error problem => fail problem
      | .ok items => return items
    | some t =>
      match ExprReader.roleOf t.kind with
      | .piece =>
        skip
        items mode rounds (s.take t)
      | .comma =>
        match s.comma with
        | .error problem => fail problem
        | .ok s =>
          skip
          items mode rounds s
      | .close =>
        match s.close mode with
        | .error problem => fail problem
        | .ok (.next s) =>
          skip
          items mode rounds s
        | .ok (.finish items) =>
          match mode with
          | .value => return items
          | .arguments =>
            skip
            return items
      | .halt =>
        match s.halt mode t.text with
        | .error problem => fail problem
        | .ok items => return items

/-- Strips the quotes of a quoted text, which has to be long enough to have them. -/
def stripped (text : String) : PositionReader String :=
  if text.length < 2 then broken .outside
  else return String.ofList text.toList.tail.dropLast

def importName (t : Token) : PositionReader String :=
  match t.kind with
  | .word name => return name
  | .quoted .. => stripped t.text
  | _ => failWith ⟨t.span, .expectedImport⟩

def imports : Nat → PositionReader (List String)
  | 0 => broken .endless
  | rounds + 1 => do
    match ← advance with
    | none => fail .expectedImport
    | some t =>
      let name ← importName t
      if ← accept .comma then return name :: (← imports rounds)
      else
        endStatement
        return [name]

def parameters : Nat → PositionReader (List String)
  | 0 => broken .endless
  | rounds + 1 => do
    if ← accept .closeParen then return []
    else
      match ← takeKind with
      | some (.var name) =>
        let _ ← accept .comma
        return name :: (← parameters rounds)
      | _ => fail .expectedParameter

/-! Members of blocks. All loops may go around equally often. -/

section

variable (rounds : Nat)

def value : PositionReader Expr := do
  return .collapse .comma (← items .value rounds {})

def target : PositionReader String := do
  let words ← before endsTarget rounds
  if words = [] then fail .expectedTarget
  else
    endStatement
    return Token.joined words

def templateName : PositionReader String := do
  match ← takeKind with
  | some (.word name) => return name
  | _ => fail .expectedTemplateName

def optionalArguments : PositionReader (List Expr) := do
  if ← accept .openParen then items .arguments rounds {} else return []

def reference : PositionReader Reference := do
  let name ← templateName
  let arguments ← optionalArguments rounds
  endStatement
  return ⟨name, arguments⟩

def media : PositionReader Section := do
  if (← kind) = some .openBrace then fail .expectedQuery
  else
    let query ← value rounds
    expect .openBrace .braceAfterQuery
    return { media := some query }

/-- Whatever leads here has seen the brace that opens the block, so the loop has to stop there. -/
def rule : PositionReader Section := do
  let (first, later) ← alternatives rounds 0
  if (← kind) ≠ some .openBrace then broken .impossible
  else if (first :: later).any List.isEmpty then fail .missingSelector
  else
    skip
    return { selectors := (first :: later).map partsOf }

def assignment : PositionReader Attribute := do
  let words ← before endsName rounds
  if words = [] then fail .expectedAttributeName
  else
    expect .colon (.colonAfterAttribute (Token.joined words))
    let value ← value rounds
    endStatement
    return ⟨Token.joined words, value⟩

def directive (keyword : String) : PositionReader Member := do
  if keyword = "extend" then
    skip
    return .extension (← target rounds)
  else if keyword = "func" then
    skip
    return .reference (← reference rounds)
  else if keyword = "media" then
    skip
    return .opening (← media rounds)
  else if keyword = "import" then fail .nestedImport
  else if ← blockFollows then return .opening (← rule rounds)
  else fail (.unsupportedStatement keyword)

def ruleOrAssignment : PositionReader Member := do
  if ← blockFollows then return .opening (← rule rounds)
  else return .assign (← assignment rounds)

def member : PositionReader Member := do
  match ← kind with
  | none => fail .unclosedBlock
  | some .closeBrace =>
    skip
    return .closing
  | some .semicolon =>
    skip
    return .nothing
  | some (.directive keyword) => directive rounds keyword
  | some (.var _) => fail .nestedVariable
  | some _ => ruleOrAssignment rounds

def block : Nat → Section → List Section → PositionReader Section
  | 0, _, _ => broken .endless
  | left + 1, s, outer => do
    match ← member rounds with
    | .nothing => block left s outer
    | .assign a => block left (s.addAttribute a) outer
    | .extension target => block left (s.addExtension target) outer
    | .reference r => block left (s.addReference r) outer
    | .opening inner => block left inner (s :: outer)
    | .closing =>
      match outer with
      | [] => return s
      | parent :: outer => block left (parent.addNested s) outer

/-! Statements -/

/-- Whatever leads here has seen a variable. -/
def declaration : PositionReader Declaration := do
  match ← takeKind with
  | some (.var name) =>
    expect .colon .colonAfterVariable
    let value ← value rounds
    let isDefault ← accept (.word ExprReader.defaultFlag)
    endStatement
    return ⟨name, value, isDefault⟩
  | _ => broken .impossible

def optionalParameters : PositionReader (List String) := do
  if ← accept .openParen then parameters rounds else return []

def template (start : Span) : PositionReader Template := do
  let name ← templateName
  let parameters ← optionalParameters rounds
  expect .openBrace .braceAfterTemplate
  let body ← block rounds rounds {} []
  match templateOf start name parameters body with
  | .error fault => failWith fault
  | .ok template => return template

def opened (header : PositionReader Section) : PositionReader Statement := do
  let s ← header
  return .block (← block rounds rounds s [])

def topDirective (t : Token) (keyword : String) : PositionReader Statement := do
  if keyword = "import" then
    skip
    return .imports (← imports rounds)
  else if keyword = "func" then
    skip
    return .template (← template rounds t.span)
  else if keyword = "media" then
    skip
    opened rounds (media rounds)
  else if ← blockFollows then opened rounds (rule rounds)
  else fail (.unsupportedStatement keyword)

def openedRule : PositionReader Statement := do
  if ← blockFollows then opened rounds (rule rounds)
  else fail .attributeOutsideSelector

def statement (t : Token) : PositionReader Statement := do
  match t.kind with
  | .semicolon =>
    skip
    return .nothing
  | .directive keyword => topDirective rounds t keyword
  | .var _ => return .declaration (← declaration rounds)
  | _ => openedRule rounds

def statements : Nat → Sheet → PositionReader Sheet
  | 0, _ => broken .endless
  | left + 1, sheet => do
    match ← current with
    | none => return sheet
    | some t => statements left ((← statement rounds t).addTo sheet)

end

end PositionReader

/-- Reads a sheet by position, with a bound on how often every loop goes around. -/
def Sheet.parseByPosition (rounds : Nat) (name source : String) : Outcome Sheet :=
  match tokenize source with
  | .error fault => .failed fault
  | .ok tokens => PositionReader.statements rounds rounds { name := name } tokens 0

/-! Positions and what is left -/

/-- The position is one of the tokens or their end, and `rest` are the tokens from there on. -/
structure Tokens.At (tokens : Tokens) (pos : Nat) (rest : List Token) : Prop where
  inside : pos ≤ tokens.list.length
  drop : tokens.list.drop pos = rest

namespace Tokens.At

variable {tokens : Tokens} {pos : Nat} {rest : List Token} {t : Token}

theorem start (tokens : Tokens) : tokens.At 0 tokens.list := ⟨Nat.zero_le _, rfl⟩

theorem get (h : tokens.At pos rest) : tokens.list[pos]? = rest.head? := by
  rw [← h.drop, List.head?_drop]

theorem length (h : tokens.At pos rest) : rest.length = tokens.list.length - pos := by
  rw [← h.drop, List.length_drop]

theorem length_lt {rounds : Nat} (h : tokens.At pos rest) (hr : tokens.list.length < rounds) :
    rest.length < rounds := by
  have hlength := h.length
  omega

theorem next (h : tokens.At pos (t :: rest)) : tokens.At (pos + 1) rest := by
  have hlength := h.length
  have hinside := h.inside
  simp only [List.length_cons] at hlength
  refine ⟨by omega, ?_⟩
  rw [← List.drop_drop, h.drop]
  rfl

theorem atEnd (h : tokens.At pos []) : pos = tokens.list.length := by
  have hlength := h.length
  have hinside := h.inside
  simp only [List.length_nil] at hlength
  omega

end Tokens.At

/-- Reading by position ended as the reader of a list did, at the tokens which that one left. -/
def Outcome.Agrees {α : Type} (tokens : Tokens) (outcome : Outcome α) : Reading α → Prop
  | .error fault => outcome = .failed fault
  | .ok (a, rest) => ∃ pos, outcome = .done a pos ∧ tokens.At pos rest

namespace PositionReader

open SelectorReader SectionReader SheetReader

variable {α β : Type} {tokens : Tokens} {pos : Nat} {rest : List Token} {t : Token}

/-- Wherever it starts, the reader by position ends as the reader of a list does. -/
def Follows (tokens : Tokens) (w : PositionReader α) (read : List Token → Reading α) : Prop :=
  ∀ pos rest, tokens.At pos rest → (w tokens pos).Agrees tokens (read rest)

def Passes (tokens : Tokens) (w : PositionReader Unit)
    (read : List Token → Except Fault (List Token)) : Prop :=
  Follows tokens w fun rest => (read rest).map fun rest => ((), rest)

theorem bind_done {w : PositionReader α} {f : α → PositionReader β} {a : α} {next : Nat}
    (h : w tokens pos = .done a next) : (w >>= f) tokens pos = f a tokens next := by
  simp only [bind, h]

theorem bind_failed {w : PositionReader α} {f : α → PositionReader β} {fault : Fault}
    (h : w tokens pos = .failed fault) : (w >>= f) tokens pos = .failed fault := by
  simp only [bind, h]

/-- A reader that goes on after another one fails where the first one fails, and ends as the whole
reader of a list does from where the first one ends. -/
theorem agrees_bind {w : PositionReader α} {f : α → PositionReader β} {reading : Reading α}
    {result : Reading β} (hw : (w tokens pos).Agrees tokens reading)
    (hfault : ∀ fault, reading = .error fault → result = .error fault)
    (hnext : ∀ a after rest, reading = .ok (a, rest) → tokens.At after rest →
      (f a tokens after).Agrees tokens result) : ((w >>= f) tokens pos).Agrees tokens result := by
  cases reading with
  | error fault =>
    rw [hfault fault rfl]
    exact bind_failed hw
  | ok found =>
    obtain ⟨after, hdone, hat⟩ := hw
    rw [bind_done hdone]
    exact hnext _ _ _ rfl hat

theorem agrees_map {w : PositionReader α} {reading : Reading α}
    (hw : (w tokens pos).Agrees tokens reading) (f : α → β) :
    ((do return f (← w)) tokens pos).Agrees tokens
      (reading.map fun (a, rest) => (f a, rest)) := by
  refine agrees_bind hw (fun fault hr => ?_) fun a after rest hr hat => ?_
  · rw [hr]
    rfl
  · rw [hr]
    exact ⟨after, rfl, hat⟩

theorem Passes.bind {w : PositionReader Unit} {v : PositionReader β}
    {read : List Token → Except Fault (List Token)} {result : Reading β}
    (hw : Passes tokens w read) (h : tokens.At pos rest)
    (hfault : ∀ fault, read rest = .error fault → result = .error fault)
    (hnext : ∀ after tail, read rest = .ok tail → tokens.At after tail →
      (v tokens after).Agrees tokens result) :
    ((do w; v) tokens pos).Agrees tokens result := by
  refine agrees_bind (hw pos rest h) (fun fault hr => ?_) fun _ after tail hr hat => ?_
  · cases hread : read rest <;> simp only [hread] at hr <;> cases hr
    exact hfault fault hread
  · cases hread : read rest <;> simp only [hread] at hr <;> cases hr
    exact hnext after tail hread hat

/-! Single tokens -/

theorem current_bind {f : Option Token → PositionReader β} (h : tokens.At pos rest) :
    (current >>= f) tokens pos = f rest.head? tokens pos := by
  apply bind_done
  rw [current, if_pos h.inside, h.get]

theorem kind_bind {f : Option TokenKind → PositionReader β} (h : tokens.At pos rest) :
    (kind >>= f) tokens pos = f (rest.head?.map (·.kind)) tokens pos := by
  apply bind_done
  rw [kind, current_bind h]
  rfl

theorem skip_eq (h : tokens.At pos (t :: rest)) : skip tokens pos = .done () (pos + 1) := by
  have hlength := h.length
  simp only [List.length_cons] at hlength
  rw [skip, if_pos (by omega)]

theorem skip_end (h : tokens.At pos []) : skip tokens pos = .done () pos := by
  have hend := h.atEnd
  rw [skip, if_neg (by omega), if_pos hend]

theorem skip_bind {f : Unit → PositionReader β} (h : tokens.At pos (t :: rest)) :
    (skip >>= f) tokens pos = f () tokens (pos + 1) :=
  bind_done (skip_eq h)

theorem follows_fail (problem : Problem) :
    Follows tokens (fail problem : PositionReader α) fun rest =>
      Token.fail tokens.stop rest problem := by
  intro pos rest h
  rw [fail, current_bind h]
  cases rest <;> rfl

theorem passes_expect (kind : TokenKind) (what : Expectation) :
    Passes tokens (expect kind what) (Token.expect tokens.stop kind what) := by
  intro pos rest h
  rw [expect, current_bind h]
  cases rest with
  | nil => exact follows_fail _ _ _ h
  | cons t rest =>
    simp only [List.head?_cons, Token.expect]
    split
    · exact ⟨pos + 1, skip_eq h, h.next⟩
    · exact follows_fail _ _ _ h

theorem passes_endStatement : Passes tokens endStatement Token.endStatement := by
  intro pos rest h
  rw [endStatement, current_bind h]
  cases rest with
  | nil => exact ⟨pos, rfl, h⟩
  | cons t rest =>
    simp only [List.head?_cons, Token.endStatement]
    cases t.kind with
    | semicolon => exact ⟨pos + 1, skip_eq h, h.next⟩
    | closeBrace => exact ⟨pos, rfl, h⟩
    | _ => exact follows_fail _ _ _ h

theorem agrees_ended (h : tokens.At pos rest) (a : α) :
    ((do endStatement; return a) tokens pos).Agrees tokens
      (match Token.endStatement rest with
      | .error fault => .error fault
      | .ok rest => .ok (a, rest)) := by
  refine passes_endStatement.bind h (fun _ hr => by rw [hr]) fun after tail hr hat => ?_
  rw [hr]
  exact ⟨after, rfl, hat⟩

theorem accept_eq {kind : TokenKind} (h : tokens.At pos (t :: rest)) (hkind : t.kind = kind) :
    accept kind tokens pos = .done true (pos + 1) := by
  rw [accept, kind_bind h, if_pos (by simp [hkind]), skip_bind h]
  rfl

theorem accept_other {kind : TokenKind} (h : tokens.At pos rest)
    (hkind : ∀ t ∈ rest.head?, t.kind ≠ kind) : accept kind tokens pos = .done false pos := by
  rw [accept, kind_bind h, if_neg]
  · rfl
  · simpa [Option.map_eq_some_iff] using hkind

theorem advance_bind {f : Option Token → PositionReader β} (h : tokens.At pos (t :: rest)) :
    (advance >>= f) tokens pos = f (some t) tokens (pos + 1) := by
  apply bind_done
  rw [advance, current_bind h, skip_bind h]
  rfl

theorem advance_bind_nil {f : Option Token → PositionReader β} (h : tokens.At pos []) :
    (advance >>= f) tokens pos = f none tokens pos := by
  apply bind_done
  rw [advance, current_bind h, bind_done (skip_end h)]
  rfl

theorem takeKind_bind {f : Option TokenKind → PositionReader β} (h : tokens.At pos (t :: rest)) :
    (takeKind >>= f) tokens pos = f (some t.kind) tokens (pos + 1) := by
  apply bind_done
  rw [takeKind, advance_bind h]
  rfl

theorem takeKind_bind_nil {f : Option TokenKind → PositionReader β} (h : tokens.At pos []) :
    (takeKind >>= f) tokens pos = f none tokens pos := by
  apply bind_done
  rw [takeKind, advance_bind_nil h]
  rfl

theorem blockFollows_bind {f : Bool → PositionReader β} (h : tokens.At pos rest) :
    (blockFollows >>= f) tokens pos = f (SelectorReader.blockFollows 0 rest) tokens pos := by
  apply bind_done
  rw [blockFollows, if_pos h.inside, h.drop]

end PositionReader

end NestedStyles
