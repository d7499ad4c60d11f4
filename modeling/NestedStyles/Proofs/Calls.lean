import NestedStyles.Proofs.RuleForest
import NestedStyles.Session.Compile

/-!
What evaluating attributes and calling templates does to a session, in one piece: attributes and
rules that depend only on the evaluator, the scope and the templates, and events for the log.
-/

namespace NestedStyles

def Attribute.evaluated (calls : Evaluator) (scope : Scope) (a : Attribute) : Attribute :=
  ⟨a.name, (a.value.eval calls scope).1⟩

/-- An attribute of a template in the scope of a call. A constant stays as it is. -/
def Attribute.instantiated (calls : Evaluator) (scope : Scope) (a : Attribute) : Attribute :=
  if a.value.isConstant then a else a.evaluated calls scope

def Attribute.met (calls : Evaluator) (scope : Scope) (a : Attribute) : List Event :=
  (a.value.eval calls scope).2

namespace Template

/-- The scope of a call: the parameters stand for the values that the arguments have outside. -/
def callScope (t : Template) (calls : Evaluator) (scope : Scope) (arguments : List Expr) : Scope :=
  (t.parameters.zip arguments).foldl
    (fun inner binding => inner.set binding.1 (binding.2.eval calls scope).1) scope.enter

def sectionRule (calls : Evaluator) (inner : Scope) (callers : List Selector)
    (child : Section) : Rule where
  selectors := Selector.cross Selector.apply child.selectors callers
  attributes := child.attributes.map (·.evaluated calls inner)

end Template

/-- What calls of templates give: attributes for the caller, rules, and events. -/
structure Expansion where
  attributes : List Attribute := []
  rules : List Rule := []
  events : List Event := []

namespace Expansion

def append (a b : Expansion) : Expansion :=
  ⟨a.attributes ++ b.attributes, a.rules ++ b.rules, a.events ++ b.events⟩

def ofCall (calls : Evaluator) (scope : Scope) (callers : List Selector) (r : Reference)
    (t : Template) : Expansion :=
  let inner := t.callScope calls scope r.arguments
  { attributes := t.attributes.map (·.instantiated calls inner)
    rules := t.sections.map (Template.sectionRule calls inner callers)
    events :=
      (if t.parameters.length = r.arguments.length then []
        else [.warning (.argumentCount r.name callers r.arguments.length t.parameters.length)]) ++
      (t.parameters.zip r.arguments).flatMap (fun binding => (binding.2.eval calls scope).2) ++
      t.attributes.flatMap (fun a => if a.value.isConstant then [] else a.met calls inner) ++
      t.sections.flatMap fun child => child.attributes.flatMap (·.met calls inner) }

/-- The calls of a rule, up to the first unknown template. -/
def ofReferences (calls : Evaluator) (scope : Scope) (templates : List (String × Template))
    (callers : List Selector) : List Reference → Expansion
  | [] => {}
  | r :: rest =>
    match templates.lookup r.name with
    | none => { events := [.warning (.unknownTemplate r.name callers)] }
    | some t =>
      (ofCall calls scope callers r t).append (ofReferences calls scope templates callers rest)

theorem exists_of_mem_rules {calls : Evaluator} {scope : Scope}
    {templates : List (String × Template)} {callers : List Selector}
    {references : List Reference} {rule : Rule}
    (h : rule ∈ (ofReferences calls scope templates callers references).rules) :
    ∃ r ∈ references, ∃ t, templates.lookup r.name = some t ∧ ∃ child ∈ t.sections,
      rule = Template.sectionRule calls (t.callScope calls scope r.arguments) callers child := by
  induction references with
  | nil => cases h
  | cons r rest ih =>
    cases hl : templates.lookup r.name with
    | none => simp [ofReferences, hl] at h
    | some t =>
      simp only [ofReferences, hl, append] at h
      rcases List.mem_append.1 h with h | h
      · obtain ⟨child, hc, rfl⟩ := List.mem_map.1 h
        exact ⟨r, List.mem_cons_self, t, hl, child, hc, rfl⟩
      · obtain ⟨other, ho, found⟩ := ih h
        exact ⟨other, List.mem_cons_of_mem _ ho, found⟩

end Expansion

namespace Session

variable {s : Session}

def grow (s : Session) (rules : List Rule) (events : List Event) : Session :=
  { s with
    table := rules.foldl RuleTable.push s.table
    top := s.top ++ List.range' s.table.size rules.length
    log := s.log ++ events }

theorem size_foldl_push (rules : List Rule) (t : RuleTable) :
    (rules.foldl RuleTable.push t).size = t.size + rules.length := by
  induction rules generalizing t with
  | nil => rfl
  | cons rule rest ih =>
    rw [List.foldl_cons, ih, RuleTable.size_push, List.length_cons]
    omega

theorem nodes_foldl_push (rules : List Rule) (t : RuleTable) {i : Nat} (h : i < t.size) :
    (rules.foldl RuleTable.push t).nodes[i]? = t.nodes[i]? := by
  induction rules generalizing t with
  | nil => rfl
  | cons rule rest ih =>
    rw [List.foldl_cons, ih _ (by simp; omega), RuleTable.nodes_push_of_lt h]

theorem nodes_grow (rules : List Rule) (events : List Event) {i : Nat} (h : i < s.table.size) :
    (s.grow rules events).table.nodes[i]? = s.table.nodes[i]? :=
  nodes_foldl_push rules s.table h

theorem grow_grow (rules others : List Rule) (events more : List Event) :
    (s.grow rules events).grow others more = s.grow (rules ++ others) (events ++ more) := by
  simp [grow, size_foldl_push, List.foldl_append]

theorem note_eq_grow (events : List Event) : s.note events = s.grow [] events := by
  simp [note, grow]

theorem place_none_eq_grow (rule : Rule) : s.place none rule = s.grow [rule] [] := by
  simp [place, grow]

theorem evalAttributes_eq (scope : Scope) (attributes : List Attribute) :
    s.evalAttributes scope attributes =
      (attributes.map (·.evaluated s.calls scope),
        s.grow [] (attributes.flatMap (·.met s.calls scope))) := by
  induction attributes generalizing s with
  | nil => simp [evalAttributes, grow]
  | cons a rest ih =>
    simp only [evalAttributes, eval, ih, note_eq_grow, grow_grow]
    rfl

theorem bind_eq (inner : Scope) (bindings : List (String × Expr)) :
    s.bind inner bindings =
      (bindings.foldl (fun inner b => inner.set b.1 (b.2.eval s.calls s.scope).1) inner,
        s.grow [] (bindings.flatMap fun b => (b.2.eval s.calls s.scope).2)) := by
  induction bindings generalizing s inner with
  | nil => simp [bind, grow]
  | cons b rest ih =>
    obtain ⟨name, argument⟩ := b
    simp only [bind, eval, ih, note_eq_grow, grow_grow]
    rfl

theorem templateAttributes_eq (scope : Scope) (attributes : List Attribute) :
    s.templateAttributes scope attributes =
      (attributes.map (·.instantiated s.calls scope),
        s.grow [] (attributes.flatMap fun a =>
          if a.value.isConstant then [] else a.met s.calls scope)) := by
  induction attributes generalizing s with
  | nil => simp [templateAttributes, grow]
  | cons a rest ih =>
    by_cases hc : a.value.isConstant
    · simp [templateAttributes, hc, ih, Attribute.instantiated]
    · simp only [templateAttributes, hc, eval, ih, note_eq_grow, grow_grow, List.map_cons,
        List.flatMap_cons, Attribute.instantiated, Bool.false_eq_true, if_false]
      rfl

theorem templateSections_eq (scope : Scope) (callers : List Selector) (sections : List Section) :
    s.templateSections scope callers sections =
      s.grow (sections.map (Template.sectionRule s.calls scope callers))
        (sections.flatMap fun child => child.attributes.flatMap (·.met s.calls scope)) := by
  induction sections generalizing s with
  | nil => simp [templateSections, grow]
  | cons child rest ih =>
    simp only [templateSections, evalAttributes_eq, place_none_eq_grow, ih, grow_grow,
      List.map_cons, List.flatMap_cons, List.append_nil, List.nil_append]
    rfl

theorem applyTemplate_eq (id : Nat) (r : Reference) (t : Template) :
    s.applyTemplate id r t =
      ((Expansion.ofCall s.calls s.scope (s.table.selectors id) r t).attributes,
        s.grow (Expansion.ofCall s.calls s.scope (s.table.selectors id) r t).rules
          (Expansion.ofCall s.calls s.scope (s.table.selectors id) r t).events) := by
  by_cases hl : t.parameters.length = r.arguments.length
  · simp only [applyTemplate, hl, if_true, bind_eq, templateAttributes_eq, templateSections_eq,
      grow_grow, Expansion.ofCall, List.nil_append]
    rfl
  · simp only [applyTemplate, hl, if_false, warn, note_eq_grow, bind_eq, templateAttributes_eq,
      templateSections_eq, grow_grow, Expansion.ofCall, List.nil_append]
    rfl

theorem applyReferences_eq (id : Nat) (h : id < s.table.size) (references : List Reference) :
    s.applyReferences id references =
      ((Expansion.ofReferences s.calls s.scope s.templates (s.table.selectors id)
          references).attributes,
        s.grow
          (Expansion.ofReferences s.calls s.scope s.templates (s.table.selectors id)
            references).rules
          (Expansion.ofReferences s.calls s.scope s.templates (s.table.selectors id)
            references).events) := by
  induction references generalizing s with
  | nil => simp [applyReferences, Expansion.ofReferences, grow]
  | cons r rest ih =>
    cases ht : s.templates.lookup r.name with
    | none => simp [applyReferences, Expansion.ofReferences, ht, warn, note_eq_grow]
    | some t =>
      have hsize : ∀ rules events, id < (s.grow rules events).table.size := by
        intro rules events
        simp only [grow, size_foldl_push]
        omega
      have hselectors : ∀ rules events,
          (s.grow rules events).table.selectors id = s.table.selectors id := by
        intro rules events
        simp [RuleTable.selectors, RuleTable.rule?, nodes_grow rules events h]
      simp only [applyReferences, ht, applyTemplate_eq, ih (hsize _ _), hselectors, grow_grow,
        Expansion.ofReferences, Expansion.append]
      rfl

end Session

end NestedStyles
