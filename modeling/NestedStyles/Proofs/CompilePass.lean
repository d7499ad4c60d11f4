import NestedStyles.Proofs.Calls
import NestedStyles.Proofs.History

/-!
The pass over the rules of a session. Every rule is visited once; a visit puts selectors before
those of other rules and settles the attributes of the rule itself, and it adds rules that are not
visited. So the attributes of a rule depend on the rule alone.
-/

namespace NestedStyles

def Reference.attributes (r : Reference) (calls : Evaluator) (scope : Scope)
    (templates : List (String × Template)) : List Attribute :=
  match templates.lookup r.name with
  | none => []
  | some t =>
    t.attributes.map (·.instantiated calls (t.callScope calls scope r.arguments))

/-- The attributes of a rule after the pass: its own ones evaluated, then those of its references
up to the first unknown template. -/
def Rule.settled (rule : Rule) (calls : Evaluator) (scope : Scope)
    (templates : List (String × Template)) : List Attribute :=
  rule.attributes.map (·.evaluated calls scope) ++
    (rule.references.takeWhile fun r => (templates.lookup r.name).isSome).flatMap
      (·.attributes calls scope templates)

theorem Expansion.attributes_ofReferences (calls : Evaluator) (scope : Scope)
    (templates : List (String × Template)) (callers : List Selector)
    (references : List Reference) :
    (Expansion.ofReferences calls scope templates callers references).attributes =
      (references.takeWhile fun r => (templates.lookup r.name).isSome).flatMap
        (·.attributes calls scope templates) := by
  induction references with
  | nil => rfl
  | cons r rest ih =>
    cases ht : templates.lookup r.name with
    | none => simp [Expansion.ofReferences, ht]
    | some t =>
      simp [Expansion.ofReferences, ht, Expansion.append, Expansion.ofCall, ih,
        Reference.attributes]

namespace RuleNode

def changed (node : RuleNode) (more : List Selector) (attributes : List Attribute) : RuleNode where
  rule :=
    { node.rule with selectors := more ++ node.rule.selectors, attributes := attributes }
  children := node.children

def prepend (node : RuleNode) (more : List Selector) : RuleNode :=
  node.changed more node.rule.attributes

theorem changed_changed (node : RuleNode) (more others : List Selector)
    (attributes final : List Attribute) :
    (node.changed more attributes).changed others final = node.changed (others ++ more) final := by
  simp [changed]

theorem prepend_nil (node : RuleNode) : node.prepend [] = node := rfl

theorem prepend_prepend (node : RuleNode) (more others : List Selector) :
    (node.prepend more).prepend others = node.prepend (others ++ more) :=
  node.changed_changed more others _ _

end RuleNode

namespace Session

variable {s u : Session} {id i : Nat} {rule : Rule} {node : RuleNode} {name : String}
  {ys : List Yield}

theorem extend_of_some {found : Nat} (id : Nat) (h : s.targets.lookup name = some found) :
    s.extend id name =
      { s with
        table := s.table.modify found fun r =>
          { r with selectors := s.table.selectors id ++ r.selectors } } := by
  simp [extend, h]

theorem extend_of_none (id : Nat) (h : s.targets.lookup name = none) :
    s.extend id name = s.warn (.unknownTarget name (s.table.selectors id)) := by
  simp [extend, h]

/-- Everything that a visit to a rule keeps but for the log, the selectors, the attributes of the
visited rule and rules that it adds. -/
structure Keeps (s u : Session) : Prop where
  calls : u.calls = s.calls
  scope : u.scope = s.scope
  templates : u.templates = s.templates
  targets : u.targets = s.targets
  containers : u.containers = s.containers
  size_le : s.table.size ≤ u.table.size

theorem Keeps.refl (s : Session) : s.Keeps s := ⟨rfl, rfl, rfl, rfl, rfl, Nat.le_refl _⟩

theorem Keeps.trans {v : Session} (h : s.Keeps u) (k : u.Keeps v) : s.Keeps v :=
  ⟨k.calls.trans h.calls, k.scope.trans h.scope, k.templates.trans h.templates,
    k.targets.trans h.targets, k.containers.trans h.containers,
    Nat.le_trans h.size_le k.size_le⟩

theorem extend_keeps (s : Session) (id : Nat) (name : String) : s.Keeps (s.extend id name) := by
  cases h : s.targets.lookup name with
  | none =>
    rw [extend_of_none id h]
    exact ⟨rfl, rfl, rfl, rfl, rfl, Nat.le_refl _⟩
  | some found =>
    rw [extend_of_some id h]
    exact ⟨rfl, rfl, rfl, rfl, rfl, by simp⟩

theorem extend_nodes (s : Session) (id : Nat) (name : String) (i : Nat) :
    ∃ more, (s.extend id name).table.nodes[i]? = s.table.nodes[i]?.map (·.prepend more) := by
  cases h : s.targets.lookup name with
  | none =>
    rw [extend_of_none id h]
    exact ⟨[], by simp [warn, note, RuleNode.prepend_nil]⟩
  | some found =>
    rw [extend_of_some id h]
    by_cases hi : i = found
    · exact ⟨s.table.selectors id, by rw [RuleTable.nodes_modify, if_pos hi]; rfl⟩
    · exact ⟨[], by simp [RuleTable.nodes_modify, hi, RuleNode.prepend_nil]⟩

theorem extendAll_keeps (s : Session) (id : Nat) (names : List String) :
    s.Keeps (names.foldl (extend id) s) := by
  induction names generalizing s with
  | nil => exact .refl s
  | cons name rest ih => exact (s.extend_keeps id name).trans (ih _)

theorem extendAll_nodes (s : Session) (id : Nat) (names : List String) (i : Nat) :
    ∃ more, (names.foldl (extend id) s).table.nodes[i]? =
      s.table.nodes[i]?.map (·.prepend more) := by
  induction names generalizing s with
  | nil => exact ⟨[], by simp [RuleNode.prepend_nil]⟩
  | cons name rest ih =>
    obtain ⟨more, hmore⟩ := s.extend_nodes id name i
    obtain ⟨others, hothers⟩ := ih (s.extend id name)
    refine ⟨others ++ more, ?_⟩
    rw [List.foldl_cons, hothers, hmore, Option.map_map]
    congr 1
    funext node
    exact node.prepend_prepend more others

theorem compileRule_eq (h : s.table.rule? id = some rule) :
    s.compileRule id =
      (let extended := rule.extensions.foldl (extend id) s
      let calls := Expansion.ofReferences s.calls s.scope s.templates
        (extended.table.selectors id) rule.references
      let grown := extended.grow calls.rules
        (calls.events ++ rule.attributes.flatMap (·.met s.calls s.scope))
      { grown with
        table := grown.table.modify id fun r =>
          { r with attributes := rule.settled s.calls s.scope s.templates } }) := by
  have hkeeps := s.extendAll_keeps id rule.extensions
  have hid : id < (rule.extensions.foldl (extend id) s).table.size :=
    Nat.lt_of_lt_of_le (RuleTable.lt_size_of_rule? h) hkeeps.size_le
  simp only [compileRule, h, applyReferences_eq id hid, evalAttributes_eq, grow_grow,
    List.append_nil, hkeeps.calls, hkeeps.scope, hkeeps.templates,
    Expansion.attributes_ofReferences, Rule.settled]
  simp only [grow, hkeeps.calls, hkeeps.scope]

theorem compileRule_keeps (s : Session) (id : Nat) : s.Keeps (s.compileRule id) := by
  cases h : s.table.rule? id with
  | none =>
    simp only [compileRule, h]
    exact .refl s
  | some rule =>
    have hkeeps := s.extendAll_keeps id rule.extensions
    rw [compileRule_eq h]
    refine ⟨hkeeps.calls, hkeeps.scope, hkeeps.templates, hkeeps.targets, hkeeps.containers, ?_⟩
    have := hkeeps.size_le
    simp only [grow, RuleTable.size_modify, size_foldl_push]
    omega

theorem compileRule_nodes (hn : s.table.nodes[i]? = some node) (id : Nat) :
    ∃ more, (s.compileRule id).table.nodes[i]? =
      some (node.changed more
        (if i = id then node.rule.settled s.calls s.scope s.templates
          else node.rule.attributes)) := by
  cases h : s.table.rule? id with
  | none =>
    have hne : i ≠ id := by
      rintro rfl
      simp [RuleTable.rule?, hn] at h
    exact ⟨[], by simp [compileRule, h, hn, hne, RuleNode.changed]⟩
  | some rule =>
    obtain ⟨more, hmore⟩ := s.extendAll_nodes id rule.extensions i
    have hlt : i < (rule.extensions.foldl (extend id) s).table.size :=
      Nat.lt_of_lt_of_le (RuleTable.lt_size_of_node hn)
        (s.extendAll_keeps id rule.extensions).size_le
    refine ⟨more, ?_⟩
    rw [compileRule_eq h]
    simp only
    rw [RuleTable.nodes_modify, nodes_grow _ _ hlt, hmore, hn]
    by_cases hi : i = id
    · subst hi
      have hrule : node.rule = rule := by simpa [RuleTable.rule?, hn] using h
      simp [RuleNode.prepend, RuleNode.changed, hrule]
    · simp [RuleNode.prepend, hi]

/-- The state of the pass after the rules of `visited`. -/
structure Visited (s : Session) (visited : List Nat) (u : Session) : Prop where
  keeps : s.Keeps u
  nodes : ∀ (i : Nat) (node : RuleNode), s.table.nodes[i]? = some node →
    ∃ more, u.table.nodes[i]? =
      some (node.changed more
        (if i ∈ visited then node.rule.settled s.calls s.scope s.templates
          else node.rule.attributes))

theorem Visited.start (s : Session) : s.Visited [] s := by
  constructor
  · exact .refl s
  · intro i node hn
    exact ⟨[], by simp [hn, RuleNode.changed]⟩

theorem Visited.step {visited : List Nat} (h : s.Visited visited u) (hid : id ∉ visited) :
    s.Visited (visited ++ [id]) (u.compileRule id) := by
  constructor
  · exact h.keeps.trans (u.compileRule_keeps id)
  · intro i node hn
    obtain ⟨more, hmore⟩ := h.nodes i node hn
    obtain ⟨others, hothers⟩ := compileRule_nodes hmore id
    refine ⟨others ++ more, ?_⟩
    rw [hothers, RuleNode.changed_changed, h.keeps.calls, h.keeps.scope, h.keeps.templates]
    -- a rule is settled from its own attributes, since no visit has settled it before
    by_cases hi : i = id
    · subst hi
      simp [hid, Rule.settled, RuleNode.changed]
    · simp [hi, RuleNode.changed]

theorem Visited.run {visited : List Nat} (h : s.Visited visited u) (rest : List Nat)
    (hnodup : (visited ++ rest).Nodup) :
    s.Visited (visited ++ rest) (rest.foldl compileRule u) := by
  induction rest generalizing visited u with
  | nil => simpa using h
  | cons id rest ih =>
    have hid : id ∉ visited := by
      intro hin
      exact (List.nodup_append.1 hnodup).2.2 id hin id (by simp) rfl
    simpa using ih (h.step hid) (by simpa using hnodup)

theorem compileRules_visited (h : s.table.Forest s.roots) :
    s.Visited s.visitOrder s.compileRules :=
  (Visited.start s).run s.visitOrder h.nodup

theorem compileRules_nodes (h : s.table.Forest s.roots) (hn : s.table.nodes[i]? = some node) :
    ∃ more, s.compileRules.table.nodes[i]? =
      some (node.changed more (node.rule.settled s.calls s.scope s.templates)) := by
  obtain ⟨more, hmore⟩ := (compileRules_visited h).nodes i node hn
  have hmem : i ∈ s.visitOrder := h.mem_visits.2 (RuleTable.lt_size_of_node hn)
  rw [if_pos hmem] at hmore
  exact ⟨more, hmore⟩

theorem attributes_compileRules (h : s.table.Forest s.roots) (hr : s.table.rule? id = some rule) :
    (s.compileRules.table.rule? id).map (·.attributes) =
      some (rule.settled s.calls s.scope s.templates) := by
  obtain ⟨node, hn, rfl⟩ := RuleTable.node_of_rule? hr
  obtain ⟨more, hmore⟩ := compileRules_nodes h hn
  rw [RuleTable.rule?_of_node hmore]
  rfl

end Session

theorem Rule.settled_congr {rule other : Rule} {calls : Evaluator} {scope : Scope}
    {templates others : List (String × Template)} (ha : other.attributes = rule.attributes)
    (hr : other.references = rule.references)
    (ht : ∀ name, others.lookup name = templates.lookup name) :
    other.settled calls scope others = rule.settled calls scope templates := by
  unfold Rule.settled Reference.attributes
  simp only [ha, hr, ht]

/-- A section or one nested in it at any depth. -/
inductive Section.Within : Section → Section → Prop
  | refl (outer : Section) : Within outer outer
  | nested {inner child outer : Section} : child ∈ outer.nested → Within inner child →
      Within inner outer

@[elab_as_elim]
theorem Section.induction_nested {motive : Section → Prop}
    (step : ∀ s : Section, (∀ child ∈ s.nested, motive child) → motive s) (s : Section) :
    motive s :=
  step s fun child _ => Section.induction_nested step child
termination_by sizeOf s
decreasing_by
  have hlt := List.sizeOf_lt_of_mem ‹child ∈ s.nested›
  cases s
  simp only [Section.mk.sizeOf_spec] at *
  omega

def Rule.Carries (rule : Rule) (origin : Section) : Prop :=
  rule.attributes = origin.attributes ∧ rule.extensions = origin.extensions ∧
    rule.references = origin.references

inductive RuleTree.Holds (rule : Rule) : RuleTree → Prop
  | root {inside : List RuleTree} : Holds rule ⟨rule, inside⟩
  | inside {outer : Rule} {tree : RuleTree} {inside : List RuleTree} : tree ∈ inside →
      Holds rule tree → Holds rule ⟨outer, inside⟩

/-- A rule comes from the section of a yield or from one that is kept in its body, or it hosts the
attributes of a media wrapper. -/
def Yield.Makes (rule : Rule) : Yield → Prop
  | .rule _ _ origin => ∃ inner, inner.Within origin ∧ rule.Carries inner
  | .host _ _ wrapper =>
    rule.attributes = wrapper.attributes ∧ rule.extensions = [] ∧ rule.references = []
  | .events _ => False

section Origins

variable {rule : Rule} {tree : RuleTree} {y : Yield} {path : Option String}

theorem RuleTree.ofSections_eq_map (nested : List Section) :
    RuleTree.ofSections nested = nested.map RuleTree.ofSection := by
  induction nested with
  | nil => rfl
  | cons inner rest ih => rw [RuleTree.ofSections, ih, List.map_cons]

theorem RuleTree.section_of_holds {origin : Section} (h : (RuleTree.ofSection origin).Holds rule) :
    ∃ inner : Section, inner.Within origin ∧
      rule = ⟨inner.selectors, inner.attributes, inner.extensions, inner.references⟩ := by
  generalize ht : RuleTree.ofSection origin = tree at h
  induction h generalizing origin with
  | root =>
    cases origin
    rw [RuleTree.ofSection] at ht
    cases ht
    exact ⟨_, .refl _, rfl⟩
  | inside hin _ ih =>
    cases origin
    rw [RuleTree.ofSection, RuleTree.ofSections_eq_map] at ht
    cases ht
    obtain ⟨child, hchild, heq⟩ := List.mem_map.1 hin
    obtain ⟨inner, hinner, hrule⟩ := ih heq
    exact ⟨inner, .nested hchild hinner, hrule⟩

theorem Yield.makes_of_holds (hy : y.placed = some (path, tree)) (h : tree.Holds rule) :
    y.Makes rule := by
  cases y with
  | rule _ selectors origin =>
    cases hy
    cases h with
    | root => exact ⟨origin, .refl origin, rfl, rfl, rfl⟩
    | inside hin h =>
      split at hin
      · rw [RuleTree.ofSections_eq_map] at hin
        obtain ⟨child, hchild, rfl⟩ := List.mem_map.1 hin
        obtain ⟨inner, hinner, rfl⟩ := RuleTree.section_of_holds h
        exact ⟨inner, .nested hchild hinner, rfl, rfl, rfl⟩
      · cases hin
  | host _ selectors wrapper =>
    cases hy
    cases h with
    | root => exact ⟨rfl, rfl, rfl⟩
    | inside hin => cases hin
  | events => cases hy

theorem RuleTable.holds_of_mem_preorder {t : RuleTable} {id x : Nat} (h : x ∈ t.preorder id)
    (hr : t.rule? x = some rule) : (t.ruleTree id).Holds rule := by
  induction id using t.induction_inside with
  | step id ih =>
    obtain ⟨node, hn⟩ := node_of_lt_size (lt_size_of_mem_preorder h)
    rw [preorder_of_node hn, List.mem_cons, List.mem_flatMap] at h
    rw [ruleTree_of_node hn]
    rcases h with rfl | ⟨child, hc, hx⟩
    · rw [rule?_of_node hn] at hr
      cases hr
      exact .root
    · exact .inside (List.mem_map_of_mem hc) (ih node hn child hc hx)

namespace Session

variable {s : Session} {ys : List Yield} {id x : Nat}

theorem placed_of_mem_rulesAt (h : s.Realizes ys) (hx : x ∈ s.rulesAt path) :
    ∃ y ∈ ys, y.placed = some (path, s.table.ruleTree x) := by
  have htree : s.table.ruleTree x ∈ treesAt path ys := by
    rw [← h.placed path]
    exact List.mem_map_of_mem hx
  obtain ⟨⟨found, tree⟩, hfound, htree⟩ := List.mem_map.1 htree
  obtain ⟨hfound, hpath⟩ := List.mem_filter.1 hfound
  obtain ⟨y, hy, hplaced⟩ := List.mem_filterMap.1 hfound
  simp only [decide_eq_true_eq] at hpath htree
  exact ⟨y, hy, by rw [hplaced, hpath, htree]⟩

theorem Realizes.placed_rule (h : s.Realizes ys) (hr : s.table.rule? id = some rule) :
    (∃ path ∈ mediaPaths ys, rule = { selectors := [[path]] }) ∨
      ∃ y ∈ ys, ∃ path tree, y.placed = some (path, tree) ∧ tree.Holds rule := by
  have hplaced : ∀ {path x}, x ∈ s.rulesAt path → id ∈ s.table.preorder x →
      ∃ y ∈ ys, ∃ path tree, y.placed = some (path, tree) ∧ tree.Holds rule := by
    intro path x hx hid
    obtain ⟨y, hy, hplaced⟩ := placed_of_mem_rulesAt h hx
    exact ⟨y, hy, path, _, hplaced, RuleTable.holds_of_mem_preorder hid hr⟩
  have hvisited : id ∈ s.roots.flatMap s.table.preorder :=
    h.forest.mem_visits.2 (RuleTable.lt_size_of_rule? hr)
  obtain ⟨root, hroot, hid⟩ := List.mem_flatMap.1 hvisited
  rcases List.mem_append.1 hroot with hroot | hroot
  · obtain ⟨⟨p, c⟩, hc, rfl⟩ := List.mem_map.1 hroot
    have hlookup := h.lookup_container hc
    obtain ⟨node, hn⟩ := RuleTable.node_of_lt_size (h.forest.valid c (mem_roots_of_lookup hlookup))
    rw [RuleTable.preorder_of_node hn, List.mem_cons, List.mem_flatMap] at hid
    rcases hid with rfl | ⟨x, hx, hid⟩
    · rw [h.containers p id hlookup] at hr
      cases hr
      refine .inl ⟨p, ?_, rfl⟩
      rw [← h.paths]
      exact List.mem_map_of_mem hc
    · rw [← rulesAt_of_container hlookup hn] at hx
      exact .inr (hplaced hx hid)
  · have hroot : root ∈ s.rulesAt none := hroot
    exact .inr (hplaced hroot hid)

/-- Every rule of a session is a container or comes from a yield. -/
theorem Realizes.makes (h : s.Realizes ys) (hr : s.table.rule? id = some rule) :
    (∃ path, rule = { selectors := [[path]] }) ∨ ∃ y ∈ ys, y.Makes rule := by
  rcases h.placed_rule hr with ⟨path, -, hrule⟩ | ⟨y, hy, path, tree, hplaced, hholds⟩
  · exact .inl ⟨path, hrule⟩
  · exact .inr ⟨y, hy, Yield.makes_of_holds hplaced hholds⟩

end Session

end Origins

namespace Session

variable {s : Session} {ys : List Yield} {id : Nat} {rule : Rule}

/-- The pass evaluates the own attributes of every rule once and adds the attributes of its calls,
whatever other rules there are. -/
theorem attributes_settled_once (h : History ys s) (hr : s.table.rule? id = some rule) :
    ((∃ path, rule = { selectors := [[path]] }) ∨ ∃ y ∈ ys, y.Makes rule) ∧
    (s.compileRules.table.rule? id).map (·.attributes) =
      some (rule.settled s.calls s.scope s.templates) ∧
    ∀ zs u other rule', History zs u → u.table.rule? other = some rule' →
      rule'.attributes = rule.attributes → rule'.references = rule.references →
      u.calls = s.calls → u.scope = s.scope →
      (∀ name, u.templates.lookup name = s.templates.lookup name) →
      (u.compileRules.table.rule? other).map (·.attributes) =
        (s.compileRules.table.rule? id).map (·.attributes) := by
  have hsettled := attributes_compileRules h.realizes.forest hr
  refine ⟨h.realizes.makes hr, hsettled, ?_⟩
  intro zs u other rule' hu hr' ha href hcalls hscope htemplates
  rw [attributes_compileRules hu.realizes.forest hr', hsettled, hcalls, hscope,
    Rule.settled_congr ha href htemplates]

/-- A call binds its parameter, a constant stays, and the calls end at the unknown template. -/
theorem attributes_settled_once_calls :
    let box : Template :=
      { name := "box", parameters := ["w"]
        attributes := [⟨"border", .list .space [.var "w", .var "c"]⟩, ⟨"display", .text "block"⟩] }
    let origin : Section :=
      { selectors := [[".a"]], attributes := [⟨"color", .var "c"⟩]
        references := [⟨"box", [.text "1px"]⟩, ⟨"none", []⟩, ⟨"box", [.text "2px"]⟩] }
    let s := (({} : Session).addTemplate box).declare ⟨"c", .text "red", false⟩
    let s := s.expand none none origin
    (s.compileRules.table.rule? 0).map (·.attributes) =
      some [⟨"color", .text "red"⟩, ⟨"border", .list .space [.text "1px", .text "red"]⟩,
        ⟨"display", .text "block"⟩] := by
  intro box origin _ s
  have hs : History _ s :=
    (((History.start Evaluator.written defaultSuffix).template box).declare
      ⟨"c", .text "red", false⟩).expand none none origin
  have hr : s.table.rule? 0 =
      some ⟨[[".a"]], origin.attributes, [], origin.references⟩ := by
    decide +kernel
  rw [(attributes_settled_once hs hr).2.1]
  decide +kernel

end Session

end NestedStyles
