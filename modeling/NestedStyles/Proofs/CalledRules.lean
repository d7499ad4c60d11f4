import NestedStyles.Proofs.Extension
import NestedStyles.Proofs.CompiledTable

/-!
The rules that calls of templates give. They are added outside the containers, after all rules that
were there before the pass, in the order of the visits, and no later visit changes them.
-/

namespace NestedStyles

def Rule.leaf (rule : Rule) : FlatRule where
  selectors := rule.selectors
  attributes := rule.attributes

theorem FlatRule.pruneAll_append (rules others : List FlatRule) :
    pruneAll (rules ++ others) = pruneAll rules ++ pruneAll others := by
  induction rules with
  | nil => rfl
  | cons r rest ih =>
    rw [List.cons_append, pruneAll, pruneAll]
    cases r.prune with
    | none => exact ih
    | some found => rw [ih, List.cons_append]

theorem RuleTable.tree_congr {t u v : RuleTable} {id : Nat} (hid : id < t.size)
    (h : ∀ i ∈ t.preorder id, ∀ node : RuleNode, t.nodes[i]? = some node → ∃ rule other,
      u.nodes[i]? = some ⟨rule, node.children⟩ ∧ v.nodes[i]? = some ⟨other, node.children⟩ ∧
      other.leaf = rule.leaf) :
    v.tree id = u.tree id := by
  induction id using t.induction_inside with
  | step id ih =>
    obtain ⟨node, hn⟩ := node_of_lt_size hid
    obtain ⟨rule, other, hu, hv, hleaf⟩ := h id (mem_preorder_self hid) node hn
    have hinside : node.children.map v.tree = node.children.map u.tree := by
      refine List.map_congr_left fun child hc => ?_
      apply ih node hn child hc (t.later id node hn child hc).2
      intro i hi
      apply h
      rw [preorder_of_node hn]
      exact List.mem_cons_of_mem _ (List.mem_flatMap.2 ⟨child, hc, hi⟩)
    rw [tree_of_node hv, tree_of_node hu]
    simp only [Rule.leaf, FlatRule.mk.injEq] at hleaf
    simp only [hleaf.1, hleaf.2.1, hinside]

def RuleTable.references (t : RuleTable) (id : Nat) : List Reference :=
  ((t.rule? id).map (·.references)).getD []

theorem RuleTable.references_of_rule? {t : RuleTable} {id : Nat} {rule : Rule}
    (h : t.rule? id = some rule) : t.references id = rule.references := by
  simp [references, h]

theorem RuleTable.references_of_node {t : RuleTable} {id : Nat} {node : RuleNode}
    (h : t.nodes[id]? = some node) : t.references id = node.rule.references :=
  references_of_rule? (rule?_of_node h)

namespace Session

variable {s u : Session} {ys : List Yield} {id i : Nat} {rules : List Rule}

/-- The rules that the references of a rule give when the rule is visited now. -/
def called (s : Session) (id : Nat) : List Rule :=
  (Expansion.ofReferences s.calls s.scope s.templates
    (((s.table.extensions id).foldl (extend id) s).table.selectors id)
    (s.table.references id)).rules

/-- The rules that the references of a rule give when the pass comes to it. -/
def calledAt (s : Session) (id : Nat) : List Rule :=
  ((s.visitedBefore id).foldl compileRule s).called id

/-- The output rules of the containers. -/
def inside (s : Session) : List FlatRule :=
  FlatRule.pruneAll ((s.containers.map (·.2)).map s.compileRules.table.tree)

/-- The output rules that are no containers. -/
def outside (s : Session) : List FlatRule :=
  FlatRule.pruneAll (s.compileRules.top.map s.compileRules.table.tree)

theorem nodes_foldl_push_new (rules : List Rule) (t : RuleTable) (k : Nat) :
    (rules.foldl RuleTable.push t).nodes[t.size + k]? = rules[k]?.map fun rule => ⟨rule, []⟩ := by
  induction rules generalizing t k with
  | nil =>
    simp [RuleTable.size]
  | cons rule rest ih =>
    rw [List.foldl_cons]
    cases k with
    | zero =>
      rw [nodes_foldl_push rest _ (by simp)]
      simp [RuleTable.nodes_push]
    | succ k =>
      have hsize : t.size + (k + 1) = (t.push rule).size + k := by
        rw [RuleTable.size_push]
        omega
      rw [hsize, ih, List.getElem?_cons_succ]

theorem nodes_extendAll_of_not_target (h : ∀ name, s.targets.lookup name ≠ some i)
    (names : List String) (id : Nat) :
    (names.foldl (extend id) s).table.nodes[i]? = s.table.nodes[i]? := by
  induction names generalizing s with
  | nil => rfl
  | cons name rest ih =>
    have hstep : (s.extend id name).table.nodes[i]? = s.table.nodes[i]? := by
      cases hl : s.targets.lookup name with
      | none =>
        rw [extend_of_none id hl]
        rfl
      | some found =>
        rw [extend_of_some id hl, RuleTable.nodes_modify, if_neg]
        rintro rfl
        exact h name hl
    rw [List.foldl_cons, ih, hstep]
    rw [(s.extend_keeps id name).targets]
    exact h

theorem extendAll_frame (s : Session) (id : Nat) (names : List String) :
    (names.foldl (extend id) s).table.size = s.table.size ∧
      (names.foldl (extend id) s).top = s.top := by
  induction names generalizing s with
  | nil => exact ⟨rfl, rfl⟩
  | cons name rest ih =>
    rw [List.foldl_cons, (ih _).1, (ih _).2]
    cases hl : s.targets.lookup name with
    | none =>
      rw [extend_of_none id hl]
      exact ⟨rfl, rfl⟩
    | some found =>
      rw [extend_of_some id hl]
      exact ⟨RuleTable.size_modify, rfl⟩

/-- A visit adds the rules that it gives and leaves the rules alone that nothing can find. -/
theorem compileRule_called (h : id < s.table.size) :
    (s.compileRule id).table.size = s.table.size + (s.called id).length ∧
    (s.compileRule id).top = s.top ++ List.range' s.table.size (s.called id).length ∧
    (∀ k : Nat, (s.compileRule id).table.nodes[s.table.size + k]? =
      (s.called id)[k]?.map fun rule => ⟨rule, []⟩) ∧
    ∀ i < s.table.size, i ≠ id → (∀ name, s.targets.lookup name ≠ some i) →
      (s.compileRule id).table.nodes[i]? = s.table.nodes[i]? := by
  obtain ⟨node, hn⟩ := RuleTable.node_of_lt_size h
  have hr := RuleTable.rule?_of_node hn
  have hcalled : s.called id = (Expansion.ofReferences s.calls s.scope s.templates
      ((node.rule.extensions.foldl (extend id) s).table.selectors id)
      node.rule.references).rules := by
    rw [called, RuleTable.extensions_of_node hn, RuleTable.references_of_node hn]
  obtain ⟨hsize, htop⟩ := s.extendAll_frame id node.rule.extensions
  rw [compileRule_eq hr]
  simp only [← hcalled, grow, RuleTable.size_modify, size_foldl_push, RuleTable.nodes_modify, hsize,
    htop, true_and]
  constructor
  · intro k
    rw [if_neg (by omega), ← hsize]
    exact nodes_foldl_push_new (s.called id) _ k
  · intro i hi hne htarget
    rw [if_neg hne, nodes_foldl_push _ _ (by omega), nodes_extendAll_of_not_target htarget]

theorem Visited.references {order : List Nat} (h : s.Visited order u) (hid : id < s.table.size) :
    u.table.references id = s.table.references id := by
  obtain ⟨node, hn⟩ := RuleTable.node_of_lt_size hid
  obtain ⟨more, hmore⟩ := h.nodes id node hn
  rw [RuleTable.references_of_node hn, RuleTable.references_of_node hmore]
  rfl

theorem visited_before (h : s.table.Forest s.roots) (hid : id ∈ s.visitOrder) :
    s.Visited (s.visitedBefore id) ((s.visitedBefore id).foldl compileRule s) := by
  obtain ⟨before, later, horder⟩ := List.append_of_mem hid
  have hnodup : (before ++ id :: later).Nodup := horder ▸ h.nodup
  rw [visitedBefore_eq h horder]
  simpa using (Visited.start s).run before (List.nodup_append.1 hnodup).1

/-- `u` is `s` after visits to rules of `s` that gave the rules `rules`. -/
structure Gave (s : Session) (rules : List Rule) (u : Session) : Prop where
  targets : u.targets = s.targets
  size : u.table.size = s.table.size + rules.length
  top : u.top = s.top ++ List.range' s.table.size rules.length
  nodes : ∀ k : Nat, u.table.nodes[s.table.size + k]? = rules[k]?.map fun rule => ⟨rule, []⟩

theorem Gave.start (s : Session) : s.Gave [] s := by
  refine ⟨rfl, rfl, by simp, ?_⟩
  intro k
  simp [RuleTable.size]

theorem Gave.step (h : s.Gave rules u) (hs : ∀ name found, s.targets.lookup name = some found →
    found < s.table.size) (hid : id < s.table.size) :
    s.Gave (rules ++ u.called id) (u.compileRule id) := by
  have hsize := h.size
  obtain ⟨hsize', htop, hnew, hkept⟩ := compileRule_called (show id < u.table.size by omega)
  constructor
  · rw [(u.compileRule_keeps id).targets, h.targets]
  · rw [hsize', hsize, List.length_append]
    omega
  · rw [htop, h.top, hsize, List.append_assoc, List.length_append, ← List.range'_append_1]
  · intro k
    by_cases hk : k < rules.length
    · rw [hkept _ (by omega) (by omega), h.nodes, List.getElem?_append_left hk]
      -- extensions find rules of `s` only
      intro name hl
      rw [h.targets] at hl
      have := hs name _ hl
      omega
    · have hindex : s.table.size + k = u.table.size + (k - rules.length) := by omega
      rw [hindex, hnew, List.getElem?_append_right (by omega)]

theorem Gave.run (hs : s.Realizes ys) (order later : List Nat)
    (h : s.Gave (order.flatMap s.calledAt) (order.foldl compileRule s))
    (horder : s.visitOrder = order ++ later) :
    s.Gave (s.visitOrder.flatMap s.calledAt) (s.visitOrder.foldl compileRule s) := by
  induction later generalizing order with
  | nil =>
    rw [horder, List.append_nil]
    exact h
  | cons id later ih =>
    have hid : id < s.table.size := by
      apply hs.forest.mem_visits.1
      show id ∈ s.visitOrder
      simp [horder]
    have hcalled : (order.foldl compileRule s).called id = s.calledAt id := by
      rw [calledAt, visitedBefore_eq hs.forest horder]
    have hstep := h.step (fun _ _ hl => hs.lt_size_of_target hl) hid
    rw [hcalled] at hstep
    exact ih (order ++ [id]) (by simpa using hstep) (by simpa using horder)

theorem compileRules_gave (h : s.Realizes ys) :
    s.Gave (s.visitOrder.flatMap s.calledAt) s.compileRules :=
  Gave.run h [] s.visitOrder (.start s) rfl

theorem rules_compile (h : s.Realizes ys) : s.compile.rules = s.inside ++ s.outside := by
  have hcontainers := (compileRules_visited h.forest).keeps.containers
  simp only [compile, roots, inside, outside, List.map_append, FlatRule.pruneAll_append,
    hcontainers]

theorem Gave.trees (h : s.Gave rules u) :
    (List.range' s.table.size rules.length).map u.table.tree = rules.map Rule.leaf := by
  apply List.ext_getElem
  · simp
  intro k hk hk'
  simp only [List.length_map, List.length_range'] at hk
  have hnode := h.nodes k
  rw [List.getElem?_eq_getElem hk] at hnode
  simp only [List.getElem_map, List.getElem_range', Nat.one_mul]
  rw [RuleTable.tree_of_node hnode]
  rfl

/-- Outside the containers stand the rules that were there before the pass, then those that calls
gave. -/
theorem outside_eq (h : s.Realizes ys) :
    s.outside = FlatRule.pruneAll (s.top.map s.compileRules.table.tree) ++
      FlatRule.pruneAll ((s.visitOrder.flatMap s.calledAt).map Rule.leaf) := by
  have hgave := compileRules_gave h
  rw [outside, hgave.top, List.map_append, hgave.trees, FlatRule.pruneAll_append]

end Session

end NestedStyles
