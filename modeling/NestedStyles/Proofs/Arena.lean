import NestedStyles.Proofs.Calls
import NestedStyles.Proofs.Flattening
import NestedStyles.Session.Import

/-!
Sessions whose rules lie in an arena. A rule is stored first and its number is handed on, so a
container is newer than the first rule in it, the rules in the body of an at-rule are newer than
the at-rule, and what stands inside one of them is older than it. Nothing in the types keeps a
number from being out of range, from standing in two places or from standing inside itself.
-/

namespace NestedStyles

namespace Arena

def pushChild (nodes : Array RuleNode) (outer id : Nat) : Array RuleNode :=
  nodes.modify outer fun node => { node with children := node.children ++ [id] }

def modifyRule (nodes : Array RuleNode) (id : Nat) (f : Rule → Rule) : Array RuleNode :=
  nodes.modify id fun node => { node with rule := f node.rule }

mutual
/-- Stores a section as it is written. The sections in it are stored before it. -/
def nestedRule (nodes : Array RuleNode) : Section → Array RuleNode × Nat
  | ⟨selectors, attributes, nested, extensions, references, _⟩ =>
    match nestedRules nodes nested with
    | (nodes, children) =>
      (nodes.push ⟨⟨selectors, attributes, extensions, references⟩, children⟩, nodes.size)
def nestedRules (nodes : Array RuleNode) : List Section → Array RuleNode × List Nat
  | [] => (nodes, [])
  | inner :: rest =>
    match nestedRule nodes inner with
    | (nodes, id) =>
      match nestedRules nodes rest with
      | (nodes, ids) => (nodes, id :: ids)
end

end Arena

structure ArenaSession where
  calls : Evaluator := Evaluator.written
  suffix : String := defaultSuffix
  imported : List String := []
  templates : List (String × Template) := []
  scope : Scope := {}
  nodes : Array RuleNode := #[]
  sections : List Nat := []
  targets : List (String × Nat) := []
  containers : List (String × Nat) := []
  log : List Event := []

namespace ArenaSession

def note (a : ArenaSession) (events : List Event) : ArenaSession :=
  { a with log := a.log ++ events }

def warn (a : ArenaSession) (warning : Warning) : ArenaSession := a.note [.warning warning]

/-- Stores a rule. Its number is the size of the arena before. -/
def alloc (a : ArenaSession) (rule : Rule) : ArenaSession :=
  { a with nodes := a.nodes.push ⟨rule, []⟩ }

def modify (a : ArenaSession) (id : Nat) (f : Rule → Rule) : ArenaSession :=
  { a with nodes := Arena.modifyRule a.nodes id f }

def pushChild (a : ArenaSession) (outer id : Nat) : ArenaSession :=
  { a with nodes := Arena.pushChild a.nodes outer id }

def selectors (a : ArenaSession) (id : Nat) : List Selector :=
  (a.nodes[id]?.map (·.rule.selectors)).getD []

/-! Expanding sections -/

/-- Puts a stored rule into the container of a media path, which is stored when it is first
needed. -/
def addToContainer (a : ArenaSession) (path : String) (id : Nat) : ArenaSession :=
  match a.containers.lookup path with
  | some container => a.pushChild container id
  | none =>
    let container := a.nodes.size
    let a := a.alloc { selectors := [[path]] }
    { a with containers := a.containers ++ [(path, container)] }.pushChild container id

def put (a : ArenaSession) (path : Option String) (id : Nat) : ArenaSession :=
  match path with
  | none => { a with sections := a.sections ++ [id] }
  | some path => a.addToContainer path id

def register (a : ArenaSession) (id : Nat) (selectors : List Selector) : ArenaSession :=
  { a with targets := Session.registrations id selectors ++ a.targets }

def queryText (a : ArenaSession) (media : Option Expr) : String × ArenaSession :=
  match mediaQuery a.calls a.scope media with
  | (query, events) => (query, a.note events)

def hostAttributes (a : ArenaSession) (path query : String) (outer : Option Nat)
    (attributes : List Attribute) : ArenaSession :=
  let selectors := (outer.map a.selectors).getD []
  if attributes.isEmpty then a
  else if selectors.isEmpty then a.warn (.mediaAttributes query)
  else (a.alloc { selectors := selectors, attributes := attributes }).addToContainer path
    a.nodes.size

/-- Stores one section and puts it into the at-rule `id`. -/
def addNested (id : Nat) (a : ArenaSession) (inner : Section) : ArenaSession :=
  match Arena.nestedRule a.nodes inner with
  | (nodes, child) => { a with nodes := nodes }.pushChild id child

mutual
/-- Adds the rules of a section. `outer` is the number of the rule around it. -/
def expand (a : ArenaSession) (path : Option String) (outer : Option Nat) : Section → ArenaSession
  | ⟨selectors, attributes, nested, extensions, references, media⟩ =>
    if selectors.isEmpty then
      match a.queryText media with
      | (query, a) =>
        let path := Session.mediaPath path query
        expandAll (a.hostAttributes path query outer attributes) (some path) outer nested
    else
      let id := a.nodes.size
      let a := (a.alloc ⟨[], attributes, extensions, references⟩).put path id
      let combined := Session.combine selectors (outer.map a.selectors)
      let a := (a.register id combined).modify id fun r => { r with selectors := combined }
      if Selector.isAtRule (a.selectors id) then nested.foldl (addNested id) a
      else expandAll a path (some id) nested
def expandAll (a : ArenaSession) (path : Option String) (outer : Option Nat) :
    List Section → ArenaSession
  | [] => a
  | inner :: rest => expandAll (expand a path outer inner) path outer rest
end

/-! Importing sheets -/

def declare (a : ArenaSession) (d : Declaration) : ArenaSession :=
  if d.isDefault && a.scope.has d.name then a.warn (.redundantVariable d)
  else { a with scope := a.scope.set d.name d.value }

def addTemplate (a : ArenaSession) (t : Template) : ArenaSession :=
  { a with templates := (t.name, t) :: a.templates }

def merge (a : ArenaSession) (sheet : Sheet) : ArenaSession :=
  let a := sheet.templates.foldl addTemplate a
  let a := sheet.declarations.foldl declare a
  a.expandAll none none sheet.sections

abbrev Outcome := ArenaSession × Except Error Unit

def each (step : ArenaSession → String → Outcome) (a : ArenaSession) : List String → Outcome
  | [] => (a, .ok ())
  | name :: rest =>
    match step a name with
    | (a, .error e) => (a, .error e)
    | (a, .ok ()) => each step a rest

def importNameWith (lib : Library) (next : ArenaSession → Sheet → Outcome) (a : ArenaSession)
    (name : String) : Outcome :=
  let file := Text.withEnding name a.suffix
  if file ∈ a.imported then (a.note [.alreadyImported file], .ok ())
  else
    match lib.load file with
    | .error e => (a.note [.unreadable file], .error e)
    | .ok source =>
      match Sheet.parse file source with
      | .error fault => (a, .error (.parse file fault))
      | .ok sheet => next a sheet

def importWithin (lib : Library) : (fuel : Nat) → ArenaSession → Sheet → Outcome
  | 0, a, _ => (a, .ok ())
  | fuel + 1, a, sheet =>
    if sheet.name ∈ a.imported then (a.note [.alreadyImported sheet.name], .ok ())
    else
      let a := { a with imported := sheet.name :: a.imported }
      let a := a.note [.importing sheet.name]
      match each (importNameWith lib (importWithin lib fuel)) a sheet.imports with
      | (a, .error e) => (a, .error e)
      | (a, .ok ()) => (a.merge sheet, .ok ())

def importSheet (lib : Library) (a : ArenaSession) (sheet : Sheet) : Outcome :=
  importWithin lib (lib.depth + 1) a sheet

def importName (lib : Library) (a : ArenaSession) (name : String) : Outcome :=
  importNameWith lib (importSheet lib) a name

/-! Compiling rules -/

/-- The containers come before the other rules. -/
def gather (a : ArenaSession) : ArenaSession :=
  { a with sections := a.containers.map (·.2) ++ a.sections }

def extend (id : Nat) (a : ArenaSession) (target : String) : ArenaSession :=
  match a.targets.lookup target with
  | some found => a.modify found fun r => { r with selectors := a.selectors id ++ r.selectors }
  | none => a.warn (.unknownTarget target (a.selectors id))

def append (a : ArenaSession) (rule : Rule) : ArenaSession :=
  { a.alloc rule with sections := a.sections ++ [a.nodes.size] }

/-- Calls a template: the rule `id` gets attributes, and every section of the template is stored
as a rule. -/
def applyTemplate (a : ArenaSession) (id : Nat) (r : Reference) (t : Template) : ArenaSession :=
  let call := Expansion.ofCall a.calls a.scope (a.selectors id) r t
  let a := a.modify id fun rule => { rule with attributes := rule.attributes ++ call.attributes }
  (call.rules.foldl append a).note call.events

def applyReferences (a : ArenaSession) (id : Nat) : List Reference → ArenaSession
  | [] => a
  | r :: rest =>
    match a.templates.lookup r.name with
    | none => a.warn (.unknownTemplate r.name (a.selectors id))
    | some t => (a.applyTemplate id r t).applyReferences id rest

/-- Evaluates the first attributes of a rule where they stand. -/
def evalFirst (a : ArenaSession) (id count : Nat) : ArenaSession :=
  let own := ((a.nodes[id]?.map (·.rule.attributes)).getD []).take count
  (a.modify id fun r =>
    { r with
      attributes := own.map (·.evaluated a.calls a.scope) ++ r.attributes.drop count }).note
    (own.flatMap (·.met a.calls a.scope))

def compileOne (a : ArenaSession) (id : Nat) : ArenaSession :=
  match a.nodes[id]? with
  | none => a
  | some node =>
    ((node.rule.extensions.foldl (extend id) a).applyReferences id node.rule.references).evalFirst
      id node.rule.attributes.length

/-- Compiling rules one after the other, each with the rules inside it as the arena has them when
the rule itself is compiled. `order` lists the numbers met, each of them that of a rule. -/
inductive Visits : ArenaSession → List Nat → (order : List Nat) → ArenaSession → Prop
  | done (a : ArenaSession) : Visits a [] [] a
  | visit {a b c : ArenaSession} {id : Nat} {node : RuleNode} {rest inside order : List Nat} :
      (a.compileOne id).nodes[id]? = some node →
      Visits (a.compileOne id) node.children inside b →
      Visits b rest order c → Visits a (id :: rest) (id :: inside ++ order) c

/-- Building the output of rules from the inside out. A rule without attributes and without children
that are left is dropped. `order` lists the numbers met, each of them that of a rule, and `dropped`
holds the selectors of the rules that are dropped. -/
inductive Finishes (nodes : Array RuleNode) :
    List Nat → (order : List Nat) → List FlatRule → (dropped : List (List Selector)) → Prop
  | done : Finishes nodes [] [] [] []
  | rule {id : Nat} {node : RuleNode} {rest inside order : List Nat}
      {children rules : List FlatRule} {dropped others : List (List Selector)} :
      nodes[id]? = some node → Finishes nodes node.children inside children dropped →
      Finishes nodes rest order rules others →
      Finishes nodes (id :: rest) (id :: inside ++ order)
        ((if node.rule.attributes.isEmpty && children.isEmpty then []
          else [⟨node.rule.selectors, node.rule.attributes, children⟩]) ++ rules)
        (dropped ++
          (if node.rule.attributes.isEmpty && children.isEmpty then [node.rule.selectors]
            else []) ++ others)

end ArenaSession

end NestedStyles
