import NestedStyles.Proofs.Pruning

/-!
The calls that the pass executes. They are read off the tables as they are before the pass: the
references of every rule, in the order of the visits, up to the first that finds no template. What a
rule passes on to its calls are its selectors with those that extensions put before them, which is
a calculation on lists of selectors. The rules and warnings of the pass that come from calls are
those of the executed calls, one after the other.
-/

namespace NestedStyles

/-- References with the templates that they find, up to the first that finds none. -/
def foundTemplates (templates : List (String × Template)) (references : List Reference) :
    List (Reference × Template) :=
  (references.takeWhile fun r => (templates.lookup r.name).isSome).filterMap fun r =>
    (templates.lookup r.name).map (r, ·)

def firstUnknown (templates : List (String × Template)) (references : List Reference) :
    Option Reference :=
  references.find? fun r => (templates.lookup r.name).isNone

namespace Expansion

variable (calls : Evaluator) (scope : Scope) (templates : List (String × Template))
  (callers : List Selector) (references : List Reference)

theorem rules_eq_flatMap :
    (ofReferences calls scope templates callers references).rules =
      (foundTemplates templates references).flatMap fun found =>
        (ofCall calls scope callers found.1 found.2).rules := by
  induction references with
  | nil => rfl
  | cons r rest ih =>
    cases hl : templates.lookup r.name with
    | none => simp [ofReferences, foundTemplates, hl]
    | some t => simp [ofReferences, foundTemplates, hl, append, ih]

theorem events_eq_flatMap :
    (ofReferences calls scope templates callers references).events =
      (foundTemplates templates references).flatMap (fun found =>
        (ofCall calls scope callers found.1 found.2).events) ++
      (firstUnknown templates references).toList.map fun r =>
        .warning (.unknownTemplate r.name callers) := by
  induction references with
  | nil => rfl
  | cons r rest ih =>
    cases hl : templates.lookup r.name with
    | none => simp [ofReferences, foundTemplates, firstUnknown, hl]
    | some t => simp [ofReferences, foundTemplates, firstUnknown, hl, append, ih]

end Expansion

/-- The second rule of a link gets the selectors that the first one has by then, before its own. -/
def passOn (held : Nat → List Selector) (link : Nat × Nat) : Nat → List Selector :=
  fun i => if i = link.2 then held link.1 ++ held i else held i

def Warning.ofCall? : Warning → Option Warning
  | .unknownTemplate name selectors => some (.unknownTemplate name selectors)
  | .argumentCount name selectors found expected =>
    some (.argumentCount name selectors found expected)
  | _ => none

theorem Warning.ofCall_apart : Warning.ApartFromSections Warning.ofCall? :=
  ⟨fun _ => rfl, fun _ => rfl⟩

structure Call where
  caller : Nat
  reference : Reference
  template : Template
  deriving DecidableEq, Repr

namespace Session

variable {s u : Session} {ys : List Yield} {id : Nat} {order : List Nat}

/-- The extensions of a rule that find one: the rule and the rule that is found. -/
def links (s : Session) (id : Nat) : List (Nat × Nat) :=
  (s.table.extensions id).filterMap fun name => (s.targets.lookup name).map (id, ·)

/-- The selectors of all rules after the extensions of the rules of `order`. -/
def heldAfter (s : Session) (order : List Nat) : Nat → List Selector :=
  (order.flatMap s.links).foldl passOn s.table.selectors

/-- The selectors of a rule when it makes its calls: those that extensions of rules visited before
it and its own extensions put there, and those that it had before the pass. -/
def heldBy (s : Session) (id : Nat) : List Selector := s.heldAfter (s.visitedBefore id ++ [id]) id

def callsOf (s : Session) (id : Nat) : List Call :=
  (foundTemplates s.templates (s.table.references id)).map fun found => ⟨id, found.1, found.2⟩

/-- The calls of all rules in the order of the visits. -/
def executed (s : Session) : List Call := s.visitOrder.flatMap s.callsOf

def scopeOf (s : Session) (c : Call) : Scope :=
  c.template.callScope s.calls s.scope c.reference.arguments

/-- The rules that a call gives: one for every section directly in the template. -/
def rulesOf (s : Session) (c : Call) : List Rule :=
  c.template.sections.map (Template.sectionRule s.calls (s.scopeOf c) (s.heldBy c.caller))

/-- The warning of a call: its arguments are not as many as the parameters. -/
def warningsOf (s : Session) (c : Call) : List Warning :=
  if c.template.parameters.length = c.reference.arguments.length then []
  else
    [.argumentCount c.reference.name (s.heldBy c.caller) c.reference.arguments.length
      c.template.parameters.length]

/-- The warnings of the calls of a rule, and that of its first reference that finds no template. -/
def callWarnings (s : Session) (id : Nat) : List Warning :=
  (s.callsOf id).flatMap s.warningsOf ++
    (firstUnknown s.templates (s.table.references id)).toList.map fun r =>
      .unknownTemplate r.name (s.heldBy id)

/-! Selectors -/

theorem selectors_extendAll {n : Nat} {held : Nat → List Selector} (hn : n ≤ u.table.size)
    (hid : id < n) (h : ∀ i < n, u.table.selectors i = held i) (names : List String) :
    ∀ i < n, (names.foldl (extend id) u).table.selectors i =
      (names.filterMap fun name => (u.targets.lookup name).map (id, ·)).foldl passOn held i := by
  induction names generalizing u held with
  | nil => exact h
  | cons name rest ih =>
    have hkeeps := u.extend_keeps id name
    have hstep : ∀ i < n, (u.extend id name).table.selectors i =
        (((u.targets.lookup name).map (id, ·)).toList.foldl passOn held) i := by
      intro i hi
      rw [extend_selectors u id name (Nat.lt_of_lt_of_le hi hn), h i hi, h id hid]
      cases hl : u.targets.lookup name with
      | none => simp
      | some found => simp [passOn, eq_comm]
    have hrest := ih (Nat.le_trans hn hkeeps.size_le) hstep
    intro i hi
    rw [List.foldl_cons, hrest i hi, hkeeps.targets, ← List.foldl_append, List.filterMap_cons]
    cases u.targets.lookup name <;> rfl

/-- After visits every rule has the selectors that the extensions of the visited rules give it. -/
theorem selectors_visits (hnodup : order.Nodup) (hvalid : ∀ id ∈ order, id < s.table.size) :
    ∀ i < s.table.size, (order.foldl compileRule s).table.selectors i = s.heldAfter order i := by
  induction order using List.reverseRecOn with
  | nil => exact fun i _ => rfl
  | append_singleton order id ih =>
    have hbefore : order.Nodup := (List.nodup_append.1 hnodup).1
    have hvisited : s.Visited order (order.foldl compileRule s) := by
      simpa using (Visited.start s).run order hbefore
    have hid : id < s.table.size := hvalid id (by simp)
    have hheld := ih hbefore fun i hi => hvalid i (by simp [hi])
    have hkeeps := hvisited.keeps
    intro i hi
    rw [List.foldl_append, List.foldl_cons, List.foldl_nil,
      compileRule_selectors _ id (Nat.lt_of_lt_of_le hi hkeeps.size_le), hvisited.extensions hid,
      selectors_extendAll hkeeps.size_le hid hheld _ i hi, hkeeps.targets, heldAfter, heldAfter,
      List.flatMap_append, List.foldl_append, List.flatMap_singleton]
    rfl

theorem selectors_heldBy (h : s.table.Forest s.roots) (hid : id ∈ s.visitOrder) :
    ((s.visitedBefore id ++ [id]).foldl compileRule s).table.selectors id = s.heldBy id := by
  obtain ⟨before, later, horder⟩ := List.append_of_mem hid
  have hnodup : (before ++ id :: later).Nodup := horder ▸ h.nodup
  have hpart : (before ++ [id]).Sublist s.visitOrder := by
    rw [horder]
    simp
  rw [heldBy, visitedBefore_eq h horder]
  refine selectors_visits (hnodup.sublist (by simp)) (fun i hi => ?_) id (h.mem_visits.1 hid)
  exact h.mem_visits.1 (hpart.subset hi)

theorem callers_eq (h : s.table.Forest s.roots) (hid : id ∈ s.visitOrder) :
    ((((s.visitedBefore id).foldl compileRule s).table.extensions id).foldl (extend id)
      ((s.visitedBefore id).foldl compileRule s)).table.selectors id = s.heldBy id := by
  have hsize := (visited_before h hid).keeps.size_le
  have hlt := Nat.lt_of_lt_of_le (h.mem_visits.1 hid) hsize
  rw [← compileRule_selectors _ id hlt, ← selectors_heldBy h hid, List.foldl_append]
  rfl

/-! Rules -/

theorem calledAt_eq (h : s.table.Forest s.roots) (hid : id ∈ s.visitOrder) :
    s.calledAt id = (s.callsOf id).flatMap s.rulesOf := by
  have hvisited := visited_before h hid
  have hkeeps := hvisited.keeps
  rw [calledAt, called, callers_eq h hid, hkeeps.calls, hkeeps.scope, hkeeps.templates,
    hvisited.references (h.mem_visits.1 hid), Expansion.rules_eq_flatMap, callsOf,
    List.flatMap_map]
  rfl

/-- The rules that the pass adds are those of the executed calls. -/
theorem rules_of_executed (h : s.table.Forest s.roots) :
    s.visitOrder.flatMap s.calledAt = s.executed.flatMap s.rulesOf := by
  rw [executed, List.flatMap_assoc]
  exact List.flatMap_congr fun id hid => calledAt_eq h hid

theorem compileRules_gave_executed (h : s.Realizes ys) :
    s.Gave (s.executed.flatMap s.rulesOf) s.compileRules := by
  rw [← rules_of_executed h.forest]
  exact compileRules_gave h

theorem roots_compileRules (h : s.Realizes ys) :
    s.compileRules.roots =
      s.roots ++ List.range' s.table.size (s.executed.flatMap s.rulesOf).length := by
  rw [roots, roots, (compileRules_gave_executed h).top,
    (compileRules_visited h.forest).keeps.containers, List.append_assoc]

theorem rules_compile_executed (h : s.Realizes ys) :
    s.compile.rules = FlatRule.pruneAll (s.roots.map s.compileRules.table.tree) ++
      FlatRule.pruneAll ((s.executed.flatMap s.rulesOf).map Rule.leaf) := by
  have hrules : s.compile.rules =
      FlatRule.pruneAll (s.compileRules.roots.map s.compileRules.table.tree) := rfl
  rw [hrules, roots_compileRules h, List.map_append, FlatRule.pruneAll_append,
    (compileRules_gave_executed h).trees]

/-! Warnings -/

theorem reported_extendAll (u : Session) (id : Nat) (names : List String) :
    reported Warning.ofCall? (names.foldl (extend id) u).log = reported Warning.ofCall? u.log := by
  refine foldl_keeps (g := fun v => reported Warning.ofCall? v.log) (fun v name => ?_) names u
  cases hl : v.targets.lookup name with
  | none =>
    rw [extend_of_none id hl, warn, note, reported_append, reported_warning rfl, List.append_nil]
  | some found => rw [extend_of_some id hl]

theorem reported_ofReferences (s : Session) (id : Nat) :
    reported Warning.ofCall? (Expansion.ofReferences s.calls s.scope s.templates (s.heldBy id)
      (s.table.references id)).events = s.callWarnings id := by
  rw [Expansion.events_eq_flatMap, reported_append, reported_flatMap, callWarnings, callsOf,
    List.flatMap_map]
  congr 1
  · refine List.flatMap_congr fun found _ => ?_
    rw [Warning.ofCall_apart.ofCall, warningsOf]
    rfl
  · cases firstUnknown s.templates (s.table.references id) <;> rfl

theorem reported_visit (h : s.table.Forest s.roots) (hid : id ∈ s.visitOrder) :
    reported Warning.ofCall? (((s.visitedBefore id).foldl compileRule s).compileRule id).log =
      reported Warning.ofCall? ((s.visitedBefore id).foldl compileRule s).log ++
        s.callWarnings id := by
  have hvisited := visited_before h hid
  have hkeeps := hvisited.keeps
  have hlt : id < s.table.size := h.mem_visits.1 hid
  obtain ⟨node, hn⟩ := RuleTable.node_of_lt_size (Nat.lt_of_lt_of_le hlt hkeeps.size_le)
  have hcallers := callers_eq h hid
  have hreferences := hvisited.references hlt
  rw [RuleTable.extensions_of_node hn] at hcallers
  rw [RuleTable.references_of_node hn] at hreferences
  rw [Warning.ofCall_apart.compileRule (RuleTable.rule?_of_node hn), hcallers, hreferences,
    hkeeps.calls, hkeeps.scope, hkeeps.templates, reported_extendAll, reported_ofReferences]

theorem reported_compileRules (h : s.table.Forest s.roots)
    (hlog : reported Warning.ofCall? s.log = []) :
    reported Warning.ofCall? s.compileRules.log = s.visitOrder.flatMap s.callWarnings := by
  -- the pass over a first part of the visits, for every such part
  have hpart : ∀ order later, s.visitOrder = order ++ later →
      reported Warning.ofCall? (order.foldl compileRule s).log =
        order.flatMap s.callWarnings := by
    intro order
    induction order using List.reverseRecOn with
    | nil =>
      intro later _
      exact hlog
    | append_singleton order id ih =>
      intro later horder
      rw [List.append_assoc, List.singleton_append] at horder
      have hvisit := reported_visit h (show id ∈ s.visitOrder by simp [horder])
      rw [visitedBefore_eq h horder, ih (id :: later) horder] at hvisit
      rw [List.foldl_append, List.flatMap_append, List.flatMap_singleton]
      exact hvisit
  exact hpart s.visitOrder [] (by simp)

/-- The rules that the pass adds to the output of any session are those of the executed calls, one
for every section directly in the called template, and the warnings about calls are those of the
executed calls and of the first unknown reference of every rule. The selectors of a caller are
those that it has when the pass comes to it. Scope and templates stay as they are. -/
theorem executed_calls_give_rules (calls : Evaluator) (suffix : String)
    (steps : List ImportStep) :
    let s := steps.foldl after ({ calls := calls, suffix := suffix } : Session)
    let u := s.compileRules
    let rules := s.executed.flatMap s.rulesOf
    u.roots = s.roots ++ List.range' s.table.size rules.length ∧
    (∀ k : Nat, u.table.nodes[s.table.size + k]? = rules[k]?.map fun rule => ⟨rule, []⟩) ∧
    (∀ rule ∈ rules, rule.extensions = [] ∧ rule.references = []) ∧
    s.compile.rules = FlatRule.pruneAll (s.roots.map u.table.tree) ++
      FlatRule.pruneAll (rules.map Rule.leaf) ∧
    (∀ id ∈ s.visitOrder,
      ((s.visitedBefore id ++ [id]).foldl compileRule s).table.selectors id = s.heldBy id) ∧
    s.compile.warnings.filterMap Warning.ofCall? = s.visitOrder.flatMap s.callWarnings ∧
    u.scope = s.scope ∧ u.templates = s.templates := by
  intro s u rules
  have hstart : ({ calls := calls, suffix := suffix } : Session).Reachable :=
    ⟨[], .start calls suffix⟩
  obtain ⟨ys, hs⟩ : s.Reachable := hstart.afterAll steps
  have hrealizes := hs.realizes
  have hforest := hrealizes.forest
  have hkeeps := (compileRules_visited hforest).keeps
  refine ⟨roots_compileRules hrealizes, (compileRules_gave_executed hrealizes).nodes, ?_,
    rules_compile_executed hrealizes, fun id hid => selectors_heldBy hforest hid, ?_,
    hkeeps.scope, hkeeps.templates⟩
  · intro rule hin
    obtain ⟨c, -, hrule⟩ := List.mem_flatMap.1 hin
    obtain ⟨child, -, rfl⟩ := List.mem_map.1 hrule
    exact ⟨rfl, rfl⟩
  · rw [reported_compile]
    exact reported_compileRules hforest (Warning.ofCall_apart.history (fun _ => rfl) hs)

end Session

end NestedStyles
