import NestedStyles.Session

/-!
Compiling a session. Every rule is visited once: its extensions are resolved, its references give
attributes and rules, and its own attributes are evaluated. Rules without content are left out.
-/

namespace NestedStyles

namespace Session

/-- Puts the selectors of a rule before those of the rule an extension names. -/
def extend (id : Nat) (s : Session) (target : String) : Session :=
  let selectors := s.table.selectors id
  match s.targets.lookup target with
  | some found =>
    let addTo (r : Rule) : Rule := { r with selectors := selectors ++ r.selectors }
    { s with table := s.table.modify found addTo }
  | none => s.warn (.unknownTarget target selectors)

def bind (s : Session) (scope : Scope) : List (String × Expr) → Scope × Session
  | [] => (scope, s)
  | (name, argument) :: rest =>
    match s.eval s.scope argument with
    | (value, s) => s.bind (scope.set name value) rest

/-- The attributes of a template in the scope of a call. Constants stay as they are. -/
def templateAttributes (s : Session) (scope : Scope) : List Attribute → List Attribute × Session
  | [] => ([], s)
  | a :: rest =>
    match if a.value.isConstant then (a.value, s) else s.eval scope a.value with
    | (value, s) =>
      match s.templateAttributes scope rest with
      | (rest, s) => (⟨a.name, value⟩ :: rest, s)

/-- Adds one rule for every section directly in a template. -/
def templateSections (s : Session) (scope : Scope) (callers : List Selector) :
    List Section → Session
  | [] => s
  | inner :: rest =>
    match s.evalAttributes scope inner.attributes with
    | (attributes, s) =>
      let selectors := Selector.cross Selector.apply inner.selectors callers
      let s := s.place none { selectors := selectors, attributes := attributes }
      s.templateSections scope callers rest

/-- The attributes a call of a template gives to the rule `id`. Parameters without an argument
stay unbound. -/
def applyTemplate (s : Session) (id : Nat) (r : Reference) (t : Template) :
    List Attribute × Session :=
  let callers := s.table.selectors id
  let s :=
    if t.parameters.length = r.arguments.length then s
    else s.warn (.argumentCount r.name callers r.arguments.length t.parameters.length)
  match s.bind s.scope.enter (t.parameters.zip r.arguments) with
  | (scope, s) =>
    match s.templateAttributes scope t.attributes with
    | (attributes, s) => (attributes, s.templateSections scope callers t.sections)

/-- The attributes that references give to the rule `id`, up to the first unknown template. -/
def applyReferences (s : Session) (id : Nat) : List Reference → List Attribute × Session
  | [] => ([], s)
  | r :: rest =>
    match s.templates.lookup r.name with
    | none => ([], s.warn (.unknownTemplate r.name (s.table.selectors id)))
    | some t =>
      match s.applyTemplate id r t with
      | (attributes, s) =>
        match s.applyReferences id rest with
        | (others, s) => (attributes ++ others, s)

def compileRule (s : Session) (id : Nat) : Session :=
  match s.table.rule? id with
  | none => s
  | some rule =>
    match (rule.extensions.foldl (extend id) s).applyReferences id rule.references with
    | (generated, s) =>
      match s.evalAttributes s.scope rule.attributes with
      | (own, s) =>
        { s with table := s.table.modify id fun r => { r with attributes := own ++ generated } }

def visitOrder (s : Session) : List Nat := s.roots.flatMap s.table.preorder

def compileRules (s : Session) : Session := s.visitOrder.foldl compileRule s

end Session

structure Compilation where
  rules : List FlatRule
  log : List Event
  deriving DecidableEq, Repr

namespace Compilation

def warnings (c : Compilation) : List Warning := c.log.filterMap Event.warning?

end Compilation

/-- The output of a session: containers, then the other rules, then those that references gave. -/
def Session.compile (s : Session) : Compilation :=
  let s := s.compileRules
  let trees := s.roots.map s.table.tree
  ⟨FlatRule.pruneAll trees, s.log ++ (FlatRule.prunedAll trees).map .pruned⟩

end NestedStyles
