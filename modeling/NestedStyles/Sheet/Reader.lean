import NestedStyles.Section.Reader
import NestedStyles.Token.Lexer

/-!
Reading whole sheets, one statement at a time.
-/

namespace NestedStyles.SheetReader

open SelectorReader SectionReader

inductive Statement
  | nothing
  | imports (names : List String)
  | declaration (d : Declaration)
  | template (t : Template)
  | block (s : Section)
  deriving DecidableEq, Repr

def Statement.addTo (sheet : Sheet) : Statement → Sheet
  | nothing => sheet
  | imports names => { sheet with imports := sheet.imports ++ names }
  | declaration d => { sheet with declarations := sheet.declarations ++ [d] }
  | template t => { sheet with templates := sheet.templates ++ [t] }
  | block s => { sheet with sections := sheet.sections ++ [s] }

def importName? : TokenKind → Option String
  | .word name => some name
  | .quoted _ body => some body
  | _ => none

/-- Names with commas between them, and the end of the statement. -/
def readImports (stop : Span) : List Token → Reading (List String)
  | [] => .error ⟨stop, .expectedImport⟩
  | t :: rest =>
    match importName? t.kind with
    | none => .error ⟨t.span, .expectedImport⟩
    | some name =>
      match rest with
      | [] => .ok ([name], [])
      | separator :: rest =>
        if separator.kind = .comma then
          match readImports stop rest with
          | .error fault => .error fault
          | .ok (names, rest) => .ok (name :: names, rest)
        else
          match Token.endStatement (separator :: rest) with
          | .error fault => .error fault
          | .ok rest => .ok ([name], rest)

/-- The flag that makes a declaration a default, if it stands here. -/
def readDefault : List Token → Bool × List Token
  | [] => (false, [])
  | t :: rest => if t.kind = .word ExprReader.defaultFlag then (true, rest) else (false, t :: rest)

def readDeclaration (stop : Span) (name : String) (tokens : List Token) : Reading Declaration :=
  match Token.expect stop .colon .colonAfterVariable tokens with
  | .error fault => .error fault
  | .ok rest =>
    match readValue stop rest with
    | .error fault => .error fault
    | .ok (value, rest) =>
      match Token.endStatement (readDefault rest).2 with
      | .error fault => .error fault
      | .ok tail => .ok (⟨name, value, (readDefault rest).1⟩, tail)

def skipComma : List Token → List Token
  | [] => []
  | t :: rest => if t.kind = .comma then rest else t :: rest

theorem suffix_of_skipComma (tokens : List Token) : skipComma tokens <:+ tokens := by
  fun_cases skipComma tokens <;> simp

/-- Parameters through the closing parenthesis. The commas between them may be left out. A fault
shows at the token after the one that should be a parameter. -/
def readParameters (stop : Span) : List Token → Reading (List String)
  | [] => .error ⟨stop, .expectedParameter⟩
  | t :: rest =>
    match t.kind with
    | .closeParen => .ok ([], rest)
    | .var name =>
      match readParameters stop (skipComma rest) with
      | .error fault => .error fault
      | .ok (names, tail) => .ok (name :: names, tail)
    | _ => Token.fail stop rest .expectedParameter
termination_by tokens => tokens.length
decreasing_by exact (Token.past_cons _ (suffix_of_skipComma rest)).length_lt

def readOptionalParameters (stop : Span) : List Token → Reading (List String)
  | [] => .ok ([], [])
  | t :: rest => if t.kind = .openParen then readParameters stop rest else .ok ([], t :: rest)

/-- A template from its block. Its own members may neither extend nor refer to templates, and the
sections directly in it must have selectors. -/
def templateOf (start : Span) (name : String) (parameters : List String) (body : Section) :
    Except Fault Template :=
  if !body.extensions.isEmpty || !body.references.isEmpty then
    .error ⟨start, .callsInTemplate name⟩
  else if body.nested.any fun s => s.selectors.isEmpty then
    .error ⟨start, .mediaInTemplate name⟩
  else .ok ⟨name, parameters, body.attributes, body.nested⟩

def readTemplate (stop start : Span) (tokens : List Token) : Reading Template :=
  match readTemplateName stop tokens with
  | .error fault => .error fault
  | .ok (name, rest) =>
    match readOptionalParameters stop rest with
    | .error fault => .error fault
    | .ok (parameters, rest) =>
      match Token.expect stop .openBrace .braceAfterTemplate rest with
      | .error fault => .error fault
      | .ok rest =>
        match readBlock stop {} [] rest with
        | .error fault => .error fault
        | .ok (body, rest) => (templateOf start name parameters body).map (·, rest)

def readSection (stop : Span) (header : Reading Section) : Reading Statement :=
  match header with
  | .error fault => .error fault
  | .ok (s, rest) => (readBlock stop s [] rest).map fun (s, rest) => (.block s, rest)

def readTopDirective (stop : Span) (t : Token) (keyword : String) (rest : List Token) :
    Reading Statement :=
  if keyword = "import" then (readImports stop rest).map fun (names, rest) => (.imports names, rest)
  else if keyword = "func" then
    (readTemplate stop t.span rest).map fun (template, rest) => (.template template, rest)
  else if keyword = "media" then readSection stop (readMedia stop rest)
  else if blockFollows 0 (t :: rest) then readSection stop (readRule stop (t :: rest))
  else .error ⟨t.span, .unsupportedStatement keyword⟩

def readStatement (stop : Span) (t : Token) (rest : List Token) : Reading Statement :=
  match t.kind with
  | .semicolon => .ok (.nothing, rest)
  | .directive keyword => readTopDirective stop t keyword rest
  | .var name => (readDeclaration stop name rest).map fun (d, rest) => (.declaration d, rest)
  | _ =>
    if blockFollows 0 (t :: rest) then readSection stop (readRule stop (t :: rest))
    else .error ⟨t.span, .attributeOutsideSelector⟩

/-! What the readers leave -/

section Rest

variable {stop : Span} {tokens rest : List Token}

theorem ended_of_readImports {names : List String}
    (h : readImports stop tokens = .ok (names, rest)) :
    ∃ last, last <:+ tokens ∧ Token.endStatement last = .ok rest := by
  fun_induction readImports stop tokens generalizing names rest with
  | case1 => cases h
  | case2 => cases h
  | case3 =>
    cases h
    exact ⟨[], List.nil_suffix, rfl⟩
  | case4 => cases h
  | case5 t name _ separator tail _ _ _ hr ih =>
    cases h
    obtain ⟨last, hlast, hended⟩ := ih hr
    exact ⟨last, hlast.trans ((List.suffix_cons _ _).trans (List.suffix_cons _ _)), hended⟩
  | case6 => cases h
  | case7 t name _ separator tail _ _ he =>
    cases h
    exact ⟨_, List.suffix_cons _ _, he⟩

theorem suffix_of_readDefault (tokens : List Token) : (readDefault tokens).2 <:+ tokens := by
  fun_cases readDefault tokens <;> simp

theorem ended_of_readDeclaration {name : String} {d : Declaration}
    (h : readDeclaration stop name tokens = .ok (d, rest)) :
    ∃ last, last <:+ tokens ∧ Token.endStatement last = .ok rest := by
  unfold readDeclaration at h
  split at h
  · cases h
  next hc =>
  split at h
  · cases h
  next hv =>
  split at h
  · cases h
  next he =>
  cases h
  exact ⟨_, (suffix_of_readDefault _).trans ((suffix_of_readValue hv).trans
    (Token.suffix_of_expect hc)), he⟩

theorem suffix_of_readParameters {names : List String}
    (h : readParameters stop tokens = .ok (names, rest)) : rest <:+ tokens := by
  fun_induction readParameters stop tokens generalizing names rest with
  | case1 => cases h
  | case2 =>
    cases h
    exact List.suffix_cons ..
  | case3 => cases h
  | case4 t tail name _ _ _ hr ih =>
    cases h
    exact (ih hr).trans ((suffix_of_skipComma tail).trans (List.suffix_cons t tail))
  | case5 => cases h

theorem suffix_of_readOptionalParameters {names : List String}
    (h : readOptionalParameters stop tokens = .ok (names, rest)) : rest <:+ tokens := by
  unfold readOptionalParameters at h
  split at h
  · cases h
    exact List.suffix_refl _
  split at h
  · exact (suffix_of_readParameters h).trans (List.suffix_cons ..)
  · cases h
    exact List.suffix_refl _

theorem suffix_of_readTemplate {start : Span} {t : Template}
    (h : readTemplate stop start tokens = .ok (t, rest)) : rest <:+ tokens := by
  unfold readTemplate at h
  split at h
  · cases h
  next hn =>
  split at h
  · cases h
  next hp =>
  split at h
  · cases h
  next hc =>
  split at h
  · cases h
  next hb =>
  obtain ⟨_, -, he⟩ := map_eq_ok h
  cases he
  exact ((suffix_of_readBlock hb).trans (Token.suffix_of_expect hc)).trans
    ((suffix_of_readOptionalParameters hp).trans (suffix_of_readTemplateName hn))

theorem suffix_of_readSection {header : Reading Section} {statement : Statement}
    (h : readSection stop header = .ok (statement, rest)) :
    ∃ s tail, header = .ok (s, tail) ∧ rest <:+ tail := by
  unfold readSection at h
  split at h
  · cases h
  next s tail =>
  obtain ⟨_, hb, -⟩ := eq_ok_of_map h
  exact ⟨s, tail, rfl, suffix_of_readBlock hb⟩

theorem past_of_readTopDirective {t : Token} {keyword : String} {statement : Statement}
    (h : readTopDirective stop t keyword tokens = .ok (statement, rest)) :
    Token.Past (t :: tokens) rest := by
  unfold readTopDirective at h
  split at h
  · obtain ⟨names, hr, -⟩ := eq_ok_of_map h
    obtain ⟨last, hlast, hended⟩ := ended_of_readImports hr
    exact Token.past_cons t ((Token.suffix_of_endStatement hended).trans hlast)
  split at h
  · obtain ⟨template, hr, -⟩ := eq_ok_of_map h
    exact Token.past_cons t (suffix_of_readTemplate hr)
  split at h
  · obtain ⟨s, tail, hm, hrest⟩ := suffix_of_readSection h
    obtain ⟨b, -, htail⟩ := brace_of_readMedia hm
    exact Token.past_cons t (hrest.trans ((List.suffix_cons b tail).trans htail))
  split at h
  · obtain ⟨s, tail, hr, hrest⟩ := suffix_of_readSection h
    exact (past_of_readRule hr).trans_suffix hrest
  · cases h

theorem past_of_readStatement {t : Token} {statement : Statement}
    (h : readStatement stop t tokens = .ok (statement, rest)) : Token.Past (t :: tokens) rest := by
  unfold readStatement at h
  split at h
  · cases h
    exact Token.past_cons t (List.suffix_refl _)
  · exact past_of_readTopDirective h
  · obtain ⟨d, hr, -⟩ := eq_ok_of_map h
    obtain ⟨last, hlast, hended⟩ := ended_of_readDeclaration hr
    exact Token.past_cons t ((Token.suffix_of_endStatement hended).trans hlast)
  split at h
  · obtain ⟨s, tail, hr, hrest⟩ := suffix_of_readSection h
    exact (past_of_readRule hr).trans_suffix hrest
  · cases h

end Rest

def readStatements (stop : Span) (sheet : Sheet) (tokens : List Token) : Except Fault Sheet :=
  match tokens with
  | [] => .ok sheet
  | t :: rest =>
    match h : readStatement stop t rest with
    | .error fault => .error fault
    | .ok (statement, tail) =>
      have : tail.length ≤ rest.length := Nat.le_of_lt_succ (past_of_readStatement h).length_lt
      readStatements stop (statement.addTo sheet) tail
termination_by tokens.length

end NestedStyles.SheetReader

namespace NestedStyles

def Sheet.parse (name source : String) : Except Fault Sheet :=
  match tokenize source with
  | .error fault => .error fault
  | .ok tokens => SheetReader.readStatements tokens.stop { name := name } tokens.list

end NestedStyles
