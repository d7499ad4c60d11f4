import NestedStyles.Session

/-!
Expanding nested sections to flat rules. A section with selectors gives one rule, whose selectors
are its own combined with those of the rule around it. A media wrapper gives none, but sends the
rules of its sections to the container of its media path.
-/

namespace NestedStyles

namespace RuleTable

mutual
/-- Puts a section into the rule `parent` as it is written, with all that is nested in it. -/
def addSection (t : RuleTable) (parent : Nat) : Section → RuleTable
  | ⟨selectors, attributes, nested, extensions, references, _⟩ =>
    addSections (t.pushInto parent ⟨selectors, attributes, extensions, references⟩) t.size nested
def addSections (t : RuleTable) (parent : Nat) : List Section → RuleTable
  | [] => t
  | inner :: rest => addSections (addSection t parent inner) parent rest
end

end RuleTable

namespace Session

/-- Makes a rule the one that extensions find under a selector of one part. -/
def registerUnder (s : Session) (id : Nat) : Selector → Session
  | [part] => { s with targets := (part, id) :: s.targets }
  | _ => s

def register (s : Session) (id : Nat) (selectors : List Selector) : Session :=
  selectors.foldl (fun s selector => s.registerUnder id selector) s

def queryText (s : Session) (media : Option Expr) : String × Session :=
  match media with
  | none => ("", s)
  | some query =>
    match s.eval s.scope query with
    | (value, s) => (value.render, s)

def mediaPath (outer : Option String) (query : String) : String :=
  match outer with
  | none => "@media " ++ query
  | some path => path ++ " and " ++ query

/-- Attributes directly in a media wrapper go to a rule with the selectors around the wrapper. -/
def hostAttributes (s : Session) (path query : String) (outer : List Selector)
    (attributes : List Attribute) : Session :=
  if attributes.isEmpty then s
  else if outer.isEmpty then s.warn (.mediaAttributes query)
  else s.place (some path) { selectors := outer, attributes := attributes }

/-- The selectors of a section inside a rule with the selectors `outer`, or inside none. -/
def combine (selectors : List Selector) (outer : Option (List Selector)) : List Selector :=
  match outer with
  | none => selectors
  | some outer => Selector.cross Selector.nest selectors outer

mutual
/-- Adds the rules of a section. `path` is the media path it stands in, and `outer` holds the
selectors of the rule around it. The body of an at-rule is kept as it is written. -/
def expand (s : Session) (path : Option String) (outer : Option (List Selector)) :
    Section → Session
  | ⟨selectors, attributes, nested, extensions, references, media⟩ =>
    if selectors.isEmpty then
      match s.queryText media with
      | (query, s) =>
        let path := mediaPath path query
        expandAll (s.hostAttributes path query (outer.getD []) attributes) (some path) outer nested
    else
      let combined := combine selectors outer
      let s := s.place path ⟨combined, attributes, extensions, references⟩
      let id := s.table.size - 1
      let s := s.register id combined
      if Selector.isAtRule combined then { s with table := s.table.addSections id nested }
      else expandAll s path (some combined) nested
def expandAll (s : Session) (path : Option String) (outer : Option (List Selector)) :
    List Section → Session
  | [] => s
  | inner :: rest => expandAll (expand s path outer inner) path outer rest
end

end Session

end NestedStyles
