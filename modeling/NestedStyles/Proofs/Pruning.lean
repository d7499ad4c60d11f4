import NestedStyles.Proofs.CalledRules

/-!
Which rules the output has, and where. The trees of the containers come first, then those of the
rules outside them, then the rules that calls gave. Pruning leaves out the rules without an
attribute at any depth and keeps all others where they are.
-/

namespace NestedStyles

namespace FlatRule

/-- A rule is the other one or stands inside it, at any depth. -/
inductive Inside : FlatRule → FlatRule → Prop
  | refl (r : FlatRule) : Inside r r
  | child {inner child r : FlatRule} : child ∈ r.children → Inside inner child → Inside inner r

/-- The rule or one inside it has an attribute. -/
def Bears (r : FlatRule) : Prop := ∃ inner : FlatRule, inner.Inside r ∧ inner.attributes ≠ []

/-- The rules that bear something are kept in their places, with what is kept of the rules inside
them. -/
inductive Kept : List FlatRule → List FlatRule → Prop
  | nil : Kept [] []
  | drop {r : FlatRule} {rest kept : List FlatRule} : ¬ r.Bears → Kept rest kept →
      Kept (r :: rest) kept
  | keep {r : FlatRule} {inside rest kept : List FlatRule} : r.Bears → Kept r.children inside →
      Kept rest kept → Kept (r :: rest) ({ r with children := inside } :: kept)

variable {r root : FlatRule} {rules kept : List FlatRule}
  {content : List Selector × List Attribute}

theorem bears_iff : r.Bears ↔ r.attributes ≠ [] ∨ ∃ child ∈ r.children, child.Bears := by
  constructor
  · rintro ⟨inner, hin, ha⟩
    cases hin with
    | refl => exact .inl ha
    | child hc hin => exact .inr ⟨_, hc, inner, hin, ha⟩
  · rintro (ha | ⟨child, hc, inner, hin, ha⟩)
    · exact ⟨r, .refl r, ha⟩
    · exact ⟨inner, .child hc hin, ha⟩

mutual
theorem prune_eq_none_iff : ∀ r : FlatRule, r.prune = none ↔ ¬ r.Bears
  | ⟨selectors, attributes, children⟩ => by
    rw [prune, bears_iff]
    simp [pruneAll_eq_nil_iff children]
theorem pruneAll_eq_nil_iff : ∀ rules : List FlatRule,
    pruneAll rules = [] ↔ ∀ r ∈ rules, ¬ r.Bears
  | [] => by simp [pruneAll]
  | r :: rest => by
    have hr := prune_eq_none_iff r
    have hrest := pruneAll_eq_nil_iff rest
    rw [pruneAll]
    cases hp : r.prune with
    | none => simp [hrest, hr.1 hp]
    | some found => simp [← hr, hp]
end

mutual
theorem kept_of_prune : ∀ r found : FlatRule, r.prune = some found →
    ∃ inside, Kept r.children inside ∧ found = { r with children := inside }
  | ⟨selectors, attributes, children⟩, found, h => by
    rw [prune] at h
    simp only [Option.ite_none_left_eq_some, Option.some.injEq] at h
    exact ⟨_, kept_pruneAll children, h.2.symm⟩
theorem kept_pruneAll : ∀ rules : List FlatRule, Kept rules (pruneAll rules)
  | [] => .nil
  | r :: rest => by
    rw [pruneAll]
    cases hp : r.prune with
    | none => exact .drop ((prune_eq_none_iff r).1 hp) (kept_pruneAll rest)
    | some found =>
      have hbears : r.Bears := by
        by_contra hnot
        rw [(prune_eq_none_iff r).2 hnot] at hp
        cases hp
      obtain ⟨inside, hinside, rfl⟩ := kept_of_prune r found hp
      exact .keep hbears hinside (kept_pruneAll rest)
end

/-! What is kept -/

theorem Kept.ne_nil (h : Kept rules kept) (hr : r ∈ rules) (hb : r.Bears) : kept ≠ [] := by
  induction h with
  | nil => cases hr
  | drop hnot _ ih =>
    rcases List.mem_cons.1 hr with rfl | hr
    · exact absurd hb hnot
    · exact ih hr
  | keep => simp

/-- Every rule that is kept, at any depth, has an attribute or a rule inside it. -/
theorem Kept.filled (h : Kept rules kept) (hroot : root ∈ kept) (hin : r.Inside root) :
    r.attributes ≠ [] ∨ r.children ≠ [] := by
  induction h generalizing root with
  | nil => cases hroot
  | drop _ _ ih => exact ih hroot hin
  | keep hb hinside _ ih ih' =>
    rcases List.mem_cons.1 hroot with rfl | hroot
    · cases hin with
      | refl =>
        rcases bears_iff.1 hb with ha | ⟨child, hc, hchild⟩
        · exact .inl ha
        · exact .inr (hinside.ne_nil hc hchild)
      | child hc hin => exact ih hc hin
    · exact ih' hroot hin

mutual
theorem inside_of_mem_contents : ∀ r : FlatRule, content ∈ r.contents →
    ∃ inner : FlatRule, inner.Inside r ∧ content.2 = inner.attributes
  | ⟨selectors, attributes, children⟩, h => by
    rw [contents] at h
    rcases List.mem_cons.1 h with rfl | h
    · exact ⟨_, .refl _, rfl⟩
    · obtain ⟨child, hc, inner, hin, heq⟩ := inside_of_mem_contentsAll children h
      exact ⟨inner, .child hc hin, heq⟩
theorem inside_of_mem_contentsAll : ∀ rules : List FlatRule, content ∈ contentsAll rules →
    ∃ r ∈ rules, ∃ inner : FlatRule, inner.Inside r ∧ content.2 = inner.attributes
  | [], h => by
    rw [contentsAll] at h
    cases h
  | r :: rest, h => by
    rw [contentsAll] at h
    rcases List.mem_append.1 h with h | h
    · exact ⟨r, List.mem_cons_self, inside_of_mem_contents r h⟩
    · obtain ⟨other, ho, hin⟩ := inside_of_mem_contentsAll rest h
      exact ⟨other, List.mem_cons_of_mem _ ho, hin⟩
end

theorem attributes_of_not_bears (h : ¬ r.Bears) (hc : content ∈ r.contents) : content.2 = [] := by
  obtain ⟨inner, hin, heq⟩ := inside_of_mem_contents r hc
  rw [heq]
  by_contra hne
  exact h ⟨inner, hin, hne⟩

theorem contents_eq (r : FlatRule) :
    r.contents = (r.selectors, r.attributes) :: contentsAll r.children := by
  cases r
  rw [contents]

theorem Kept.sublist (h : Kept rules kept) : (contentsAll kept).Sublist (contentsAll rules) := by
  induction h with
  | nil => exact .slnil
  | drop _ _ ih =>
    rw [contentsAll]
    exact ih.trans (List.sublist_append_right _ _)
  | keep _ _ _ ih ih' =>
    rw [contentsAll, contentsAll, contents_eq, contents_eq]
    exact (ih.cons_cons _).append ih'

theorem Kept.attributed (h : Kept rules kept) :
    (contentsAll kept).filter (fun content => !content.2.isEmpty) =
      (contentsAll rules).filter fun content => !content.2.isEmpty := by
  induction h with
  | nil => rfl
  | @drop r rest kept hnot _ ih =>
    have hnone : r.contents.filter (fun content => !content.2.isEmpty) = [] := by
      refine List.filter_eq_nil_iff.2 fun content hc => ?_
      simp [attributes_of_not_bears hnot hc]
    rw [contentsAll, List.filter_append, hnone, ih, List.nil_append]
  | keep _ _ _ ih ih' =>
    rw [contentsAll, contentsAll, contents_eq, contents_eq, List.filter_append, List.filter_append,
      List.filter_cons, List.filter_cons, ih, ih']

end FlatRule

namespace Session

/-- The output of any session is made of the containers in the order they were made, of the rules
outside them in the order they were found, and of the rules that the pass adds in the order it adds
them. Each of them comes with the rules inside it in order, and exactly the rules that have an
attribute, or one inside them that has, are kept where they stand. -/
theorem rules_compile_kept_in_order (calls : Evaluator) (suffix : String)
    (steps : List ImportStep) :
    let s := steps.foldl after ({ calls := calls, suffix := suffix } : Session)
    let t := s.compileRules.table
    let added := List.range' s.table.size (t.size - s.table.size)
    let trees := (s.containers.map (·.2) ++ s.top ++ added).map t.tree
    (∃ ys, History ys s ∧ s.containers.map (·.1) = mediaPaths ys ∧
      s.top.map s.table.ruleTree = treesAt none ys) ∧
    added.map t.tree = (s.visitOrder.flatMap s.calledAt).map Rule.leaf ∧
    (∀ (id : Nat) (node : RuleNode), s.table.nodes[id]? = some node →
      ∃ compiled : Rule, t.rule? id = some compiled ∧
        t.tree id = ⟨compiled.selectors, compiled.attributes, node.children.map t.tree⟩) ∧
    FlatRule.Kept trees s.compile.rules ∧
    (∀ root ∈ s.compile.rules, ∀ r : FlatRule, r.Inside root →
      r.attributes ≠ [] ∨ r.children ≠ []) ∧
    (FlatRule.contentsAll s.compile.rules).Sublist (FlatRule.contentsAll trees) ∧
    (FlatRule.contentsAll s.compile.rules).filter (fun content => !content.2.isEmpty) =
      (FlatRule.contentsAll trees).filter fun content => !content.2.isEmpty := by
  intro s t added trees
  have hstart : ({ calls := calls, suffix := suffix } : Session).Reachable :=
    ⟨[], .start calls suffix⟩
  obtain ⟨ys, hs⟩ : s.Reachable := hstart.afterAll steps
  have hrealizes := hs.realizes
  have hgave := compileRules_gave hrealizes
  have hadded : added = List.range' s.table.size (s.visitOrder.flatMap s.calledAt).length := by
    simp only [added, t, hgave.size, Nat.add_sub_cancel_left]
  have hroots : s.compileRules.roots = s.containers.map (·.2) ++ s.top ++ added := by
    rw [roots, hgave.top, (compileRules_visited hrealizes.forest).keeps.containers, hadded,
      List.append_assoc]
  have hkept : FlatRule.Kept trees s.compile.rules := by
    have hrules : s.compile.rules = FlatRule.pruneAll trees := by
      rw [compile, hroots]
    rw [hrules]
    exact FlatRule.kept_pruneAll trees
  refine ⟨⟨ys, hs, hrealizes.paths, hrealizes.placed none⟩, ?_, ?_, hkept,
    fun root hroot r hin => hkept.filled hroot hin, hkept.sublist, hkept.attributed⟩
  · rw [hadded]
    exact hgave.trees
  · intro id node hn
    obtain ⟨more, hmore⟩ := compileRules_nodes hrealizes.forest hn
    exact ⟨_, RuleTable.rule?_of_node hmore, RuleTable.tree_of_node hmore⟩

/-! The attributes of the output -/

variable {s : Session} {ys : List Yield} {id : Nat} {rule : Rule}

/-- The attributes are those of a rule, settled with the tables of the session, or those of a
section of a template that a rule calls, evaluated in the scope of the call. -/
def Settles (s : Session) (attributes : List Attribute) : Prop :=
  ∃ id rule, s.table.rule? id = some rule ∧
    (attributes = rule.settled s.calls s.scope s.templates ∨
      ∃ r ∈ rule.references, ∃ t, s.templates.lookup r.name = some t ∧ ∃ child ∈ t.sections,
        attributes = child.attributes.map
          (·.evaluated s.calls (t.callScope s.calls s.scope r.arguments)))

theorem settles_of_mem_calledAt (h : s.Realizes ys) (hid : id ∈ s.visitOrder)
    (hin : rule ∈ s.calledAt id) : s.Settles rule.attributes := by
  have hvisited := visited_before h.forest hid
  have hlt : id < s.table.size := h.forest.mem_visits.1 hid
  obtain ⟨node, hn⟩ := RuleTable.node_of_lt_size hlt
  have hkeeps := hvisited.keeps
  rw [calledAt, called, hvisited.references hlt, hkeeps.calls, hkeeps.scope,
    hkeeps.templates, RuleTable.references_of_node hn] at hin
  obtain ⟨r, hr, t, ht, child, hc, rfl⟩ := Expansion.exists_of_mem_rules hin
  exact ⟨id, node.rule, RuleTable.rule?_of_node hn, .inr ⟨r, hr, t, ht, child, hc, rfl⟩⟩

theorem settles_of_mem_compile (h : s.Realizes ys) {content : List Selector × List Attribute}
    (hin : content ∈ FlatRule.contentsAll s.compile.rules) : s.Settles content.2 := by
  have htrees := (FlatRule.kept_pruneAll _).sublist.subset hin
  have hforest := compileRules_forest h.forest
  rw [RuleTable.contentsAll_trees hforest] at htrees
  obtain ⟨id, hid, rfl⟩ := List.mem_map.1 htrees
  have hlt := hforest.mem_visits.1 hid
  by_cases hold : id < s.table.size
  · obtain ⟨node, hn⟩ := RuleTable.node_of_lt_size hold
    have hr := RuleTable.rule?_of_node hn
    refine ⟨id, node.rule, hr, .inl ?_⟩
    simp only [RuleTable.content, attributes_compileRules h.forest hr, Option.getD_some]
  · have hgave := compileRules_gave h
    have hsize := hgave.size
    obtain ⟨k, rfl⟩ : ∃ k, id = s.table.size + k := ⟨id - s.table.size, by omega⟩
    have hk : k < (s.visitOrder.flatMap s.calledAt).length := by omega
    have hnode := hgave.nodes k
    rw [List.getElem?_eq_getElem hk] at hnode
    obtain ⟨caller, hcaller, hcalled⟩ := List.mem_flatMap.1 (List.getElem_mem hk)
    simp only [RuleTable.content, RuleTable.rule?_of_node hnode]
    exact settles_of_mem_calledAt h hcaller hcalled

end Session

end NestedStyles
