import NestedStyles.Sheet
import NestedStyles.Expr.Reader
import NestedStyles.Selector.Reader

/-!
Reading blocks. A block is a sequence of members; a member that opens a block of its own suspends
the sections around it until that block is closed.
-/

namespace NestedStyles.SectionReader

open SelectorReader

/-- One member of a block, or the brace that closes it. -/
inductive Member
  | nothing
  | assign (a : Attribute)
  | extension (target : String)
  | reference (r : Reference)
  | opening (s : Section)
  | closing
  deriving DecidableEq, Repr

/-- The tokens before the first that satisfies `p`, and the others. -/
def before (p : TokenKind → Bool) : List Token → List Token × List Token
  | [] => ([], [])
  | t :: rest =>
    if p t.kind then ([], t :: rest)
    else
      let (taken, tail) := before p rest
      (t :: taken, tail)

def endsTarget : TokenKind → Bool
  | .semicolon | .closeBrace => true
  | _ => false

def endsName : TokenKind → Bool
  | .colon | .semicolon | .closeBrace => true
  | _ => false

def readTarget (stop : Span) (tokens : List Token) : Reading String :=
  match before endsTarget tokens with
  | ([], rest) => Token.fail stop rest .expectedTarget
  | (target, rest) =>
    match Token.endStatement rest with
    | .error fault => .error fault
    | .ok rest => .ok (Token.joined target, rest)

/-- The name of a template. A fault shows at the token after the one that should be the name. -/
def readTemplateName (stop : Span) : List Token → Reading String
  | [] => .error ⟨stop, .expectedTemplateName⟩
  | t :: rest =>
    match t.kind with
    | .word name => .ok (name, rest)
    | _ => Token.fail stop rest .expectedTemplateName

def readOptionalArguments (stop : Span) : List Token → Reading (List Expr)
  | [] => .ok ([], [])
  | t :: rest =>
    match t.kind with
    | .openParen => readArguments stop rest
    | _ => .ok ([], t :: rest)

def readReference (stop : Span) (tokens : List Token) : Reading Reference :=
  match readTemplateName stop tokens with
  | .error fault => .error fault
  | .ok (name, rest) =>
    match readOptionalArguments stop rest with
    | .error fault => .error fault
    | .ok (arguments, rest) =>
      match Token.endStatement rest with
      | .error fault => .error fault
      | .ok rest => .ok (⟨name, arguments⟩, rest)

def readMedia (stop : Span) (tokens : List Token) : Reading Section :=
  if tokens.head?.map (·.kind) = some .openBrace then Token.fail stop tokens .expectedQuery
  else
    match readValue stop tokens with
    | .error fault => .error fault
    | .ok (query, rest) =>
      match Token.expect stop .openBrace .braceAfterQuery rest with
      | .error fault => .error fault
      | .ok rest => .ok ({ media := some query }, rest)

def readRule (stop : Span) (tokens : List Token) : Reading Section :=
  match readSelectors stop tokens with
  | .error fault => .error fault
  | .ok (selectors, rest) => .ok ({ selectors := selectors }, rest)

def readAttribute (stop : Span) (tokens : List Token) : Reading Attribute :=
  match before endsName tokens with
  | ([], rest) => Token.fail stop rest .expectedAttributeName
  | (words, rest) =>
    let name := Token.joined words
    match Token.expect stop .colon (.colonAfterAttribute name) rest with
    | .error fault => .error fault
    | .ok rest =>
      match readValue stop rest with
      | .error fault => .error fault
      | .ok (value, rest) =>
        match Token.endStatement rest with
        | .error fault => .error fault
        | .ok rest => .ok (⟨name, value⟩, rest)

/-- A directive inside a block. One that is not known here starts a rule, if a block follows. -/
def readDirective (stop : Span) (t : Token) (keyword : String) (rest : List Token) :
    Reading Member :=
  if keyword = "extend" then
    (readTarget stop rest).map fun (target, rest) => (.extension target, rest)
  else if keyword = "func" then (readReference stop rest).map fun (r, rest) => (.reference r, rest)
  else if keyword = "media" then (readMedia stop rest).map fun (s, rest) => (.opening s, rest)
  else if keyword = "import" then .error ⟨t.span, .nestedImport⟩
  else if blockFollows 0 (t :: rest) then
    (readRule stop (t :: rest)).map fun (s, rest) => (.opening s, rest)
  else .error ⟨t.span, .unsupportedStatement keyword⟩

def readMember (stop : Span) : List Token → Reading Member
  | [] => .error ⟨stop, .unclosedBlock⟩
  | t :: rest =>
    match t.kind with
    | .closeBrace => .ok (.closing, rest)
    | .semicolon => .ok (.nothing, rest)
    | .directive keyword => readDirective stop t keyword rest
    | .var _ => .error ⟨t.span, .nestedVariable⟩
    | _ =>
      if blockFollows 0 (t :: rest) then
        (readRule stop (t :: rest)).map fun (s, rest) => (.opening s, rest)
      else (readAttribute stop (t :: rest)).map fun (a, rest) => (.assign a, rest)

theorem map_eq_ok {ε α β : Type} {x : Except ε α} {f : α → β} {b : β} (h : x.map f = .ok b) :
    ∃ a, x = .ok a ∧ f a = b := by
  cases x with
  | error e => cases h
  | ok a =>
    cases h
    exact ⟨a, rfl, rfl⟩

/-! What the readers leave -/

section Rest

variable {stop : Span} {tokens rest : List Token}

theorem eq_ok_of_map {α β : Type} {x : Reading α} {f : α → β} {b : β}
    (h : (x.map fun found : α × List Token => (f found.1, found.2)) = .ok (b, rest)) :
    ∃ a, x = .ok (a, rest) ∧ f a = b := by
  obtain ⟨⟨a, tail⟩, hx, he⟩ := map_eq_ok h
  cases he
  exact ⟨a, hx, rfl⟩

theorem before_append (p : TokenKind → Bool) (tokens : List Token) :
    (before p tokens).1 ++ (before p tokens).2 = tokens := by
  fun_induction before p tokens <;> simp_all

theorem suffix_of_before {p : TokenKind → Bool} {taken : List Token}
    (h : before p tokens = (taken, rest)) : rest <:+ tokens := by
  have happend := before_append p tokens
  rw [h] at happend
  exact ⟨taken, happend⟩

theorem suffix_of_readTarget {target : String}
    (h : readTarget stop tokens = .ok (target, rest)) : rest <:+ tokens := by
  unfold readTarget at h
  split at h
  · cases h
  next hb =>
  split at h
  · cases h
  next he =>
  cases h
  exact (Token.suffix_of_endStatement he).trans (suffix_of_before hb)

theorem suffix_of_readTemplateName {name : String}
    (h : readTemplateName stop tokens = .ok (name, rest)) : rest <:+ tokens := by
  unfold readTemplateName at h
  split at h
  · cases h
  split at h
  · cases h
    exact List.suffix_cons ..
  · cases h

theorem suffix_of_readOptionalArguments {items : List Expr}
    (h : readOptionalArguments stop tokens = .ok (items, rest)) : rest <:+ tokens := by
  unfold readOptionalArguments at h
  split at h
  · cases h
    exact List.suffix_refl _
  split at h
  · exact (ExprReader.suffix_of_run h).trans (List.suffix_cons ..)
  · cases h
    exact List.suffix_refl _

theorem suffix_of_readReference {r : Reference}
    (h : readReference stop tokens = .ok (r, rest)) : rest <:+ tokens := by
  unfold readReference at h
  split at h
  · cases h
  next hn =>
  split at h
  · cases h
  next ha =>
  split at h
  · cases h
  next he =>
  cases h
  exact (Token.suffix_of_endStatement he).trans
    ((suffix_of_readOptionalArguments ha).trans (suffix_of_readTemplateName hn))

theorem brace_of_readMedia {s : Section} (h : readMedia stop tokens = .ok (s, rest)) :
    ∃ b, b.kind = .openBrace ∧ b :: rest <:+ tokens := by
  unfold readMedia at h
  split at h
  · cases h
  split at h
  · cases h
  next hv =>
  split at h
  · cases h
  next hb =>
  obtain ⟨b, hk, rfl⟩ := Token.cons_of_expect hb
  cases h
  exact ⟨b, hk, suffix_of_readValue hv⟩

theorem brace_of_readRule {s : Section} (h : readRule stop tokens = .ok (s, rest)) :
    ∃ b, b.kind = .openBrace ∧ b :: rest <:+ tokens := by
  unfold readRule at h
  split at h
  · cases h
  next hs =>
  cases h
  exact brace_of_readSelectors hs

theorem past_of_readRule {s : Section} (h : readRule stop tokens = .ok (s, rest)) :
    Token.Past tokens rest := by
  obtain ⟨b, -, hrest⟩ := brace_of_readRule h
  exact ⟨b, rest, hrest, List.suffix_refl _⟩

theorem past_of_readAttribute {a : Attribute} (h : readAttribute stop tokens = .ok (a, rest)) :
    Token.Past tokens rest := by
  unfold readAttribute at h
  split at h
  · cases h
  next hb =>
  simp only at h
  split at h
  · cases h
  next hc =>
  split at h
  · cases h
  next hv =>
  split at h
  · cases h
  next he =>
  obtain ⟨colon, -, rfl⟩ := Token.cons_of_expect hc
  cases h
  exact ⟨colon, _, suffix_of_before hb,
    (Token.suffix_of_endStatement he).trans (suffix_of_readValue hv)⟩

theorem past_of_readDirective {t : Token} {keyword : String} {m : Member}
    (h : readDirective stop t keyword tokens = .ok (m, rest)) : Token.Past (t :: tokens) rest := by
  unfold readDirective at h
  split at h
  · obtain ⟨target, hr, -⟩ := eq_ok_of_map h
    exact Token.past_cons t (suffix_of_readTarget hr)
  split at h
  · obtain ⟨r, hr, -⟩ := eq_ok_of_map h
    exact Token.past_cons t (suffix_of_readReference hr)
  split at h
  · obtain ⟨s, hr, -⟩ := eq_ok_of_map h
    obtain ⟨b, -, hrest⟩ := brace_of_readMedia hr
    exact Token.past_cons t ((List.suffix_cons b rest).trans hrest)
  split at h
  · cases h
  split at h
  · obtain ⟨s, hr, -⟩ := eq_ok_of_map h
    exact past_of_readRule hr
  · cases h

theorem past_of_readMember {m : Member} (h : readMember stop tokens = .ok (m, rest)) :
    Token.Past tokens rest := by
  unfold readMember at h
  split at h
  · cases h
  split at h
  · cases h
    exact Token.past_cons _ (List.suffix_refl _)
  · cases h
    exact Token.past_cons _ (List.suffix_refl _)
  · exact past_of_readDirective h
  · cases h
  split at h
  · obtain ⟨s, hr, -⟩ := eq_ok_of_map h
    exact past_of_readRule hr
  · obtain ⟨a, hr, -⟩ := eq_ok_of_map h
    exact past_of_readAttribute hr

end Rest

end NestedStyles.SectionReader

namespace NestedStyles

open SectionReader

/-- The section `current` with the rest of its block, through the brace that closes it. The
sections `outer` are suspended, the innermost first; the result is the outermost one. -/
def readBlock (stop : Span) (current : Section) (outer : List Section) (tokens : List Token) :
    Reading Section :=
  match h : readMember stop tokens with
  | .error fault => .error fault
  | .ok (member, rest) =>
    have : rest.length < tokens.length := (past_of_readMember h).length_lt
    match member with
    | .nothing => readBlock stop current outer rest
    | .assign a => readBlock stop (current.addAttribute a) outer rest
    | .extension target => readBlock stop (current.addExtension target) outer rest
    | .reference r => readBlock stop (current.addReference r) outer rest
    | .opening s => readBlock stop s (current :: outer) rest
    | .closing =>
      match outer with
      | [] => .ok (current, rest)
      | parent :: outer => readBlock stop (parent.addNested current) outer rest
termination_by tokens.length

theorem suffix_of_readBlock {stop : Span} {current : Section} {outer : List Section}
    {tokens rest : List Token} {s : Section}
    (h : readBlock stop current outer tokens = .ok (s, rest)) : rest <:+ tokens := by
  fun_induction readBlock stop current outer tokens with
  | case1 => cases h
  | case2 _ _ _ _ hm _ _ ih | case3 _ _ _ _ _ hm _ _ ih | case4 _ _ _ _ _ hm _ _ ih
  | case5 _ _ _ _ _ hm _ _ ih | case6 _ _ _ _ _ hm _ _ ih | case8 _ _ _ hm _ _ _ _ ih =>
    exact (ih h).trans (past_of_readMember hm).suffix
  | case7 _ _ _ hm =>
    cases h
    exact (past_of_readMember hm).suffix

end NestedStyles
