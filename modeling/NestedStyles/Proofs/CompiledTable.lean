import NestedStyles.Proofs.CompilePass

/-!
The table when all rules are compiled. It is still a forest, with the rules of called templates at
its end, so the output holds what every rule has by then once.
-/

namespace NestedStyles

namespace Session

variable {s : Session} {ys : List Yield}

theorem Realizes.lt_size_of_target {name : String} {id : Nat} (h : s.Realizes ys)
    (hl : s.targets.lookup name = some id) : id < s.table.size := by
  obtain ⟨earlier, y, later, path, tree, -, -, -, -, hid⟩ := (h.resolved name id).1 hl
  exact lt_size_of_mem_rulesAt h.forest (List.mem_of_getElem? hid)

theorem modify_forest (h : s.table.Forest s.roots) (id : Nat) (f : Rule → Rule) :
    ({ s with table := s.table.modify id f } : Session).table.Forest
      ({ s with table := s.table.modify id f } : Session).roots :=
  h.modify

theorem extend_forest (h : s.table.Forest s.roots) (id : Nat) (name : String) :
    (s.extend id name).table.Forest (s.extend id name).roots := by
  cases hl : s.targets.lookup name with
  | none =>
    rw [extend_of_none id hl]
    exact h
  | some found =>
    rw [extend_of_some id hl]
    exact modify_forest h found _

theorem grow_forest (h : s.table.Forest s.roots) (rules : List Rule) (events : List Event) :
    (s.grow rules events).table.Forest (s.grow rules events).roots := by
  induction rules generalizing s with
  | nil =>
    rw [← note_eq_grow]
    exact h
  | cons rule rest ih =>
    have hfirst : (s.grow [rule] []).table.Forest (s.grow [rule] []).roots := by
      have hpush : (s.table.push rule).Forest (s.roots ++ [s.table.size]) := h.push
      simpa [grow, roots] using hpush
    have hrest := ih hfirst
    rwa [grow_grow] at hrest

theorem compileRule_forest (h : s.table.Forest s.roots) (id : Nat) :
    (s.compileRule id).table.Forest (s.compileRule id).roots := by
  cases hr : s.table.rule? id with
  | none => simpa [compileRule, hr] using h
  | some rule =>
    have hextended : ∀ (names : List String) (s : Session), s.table.Forest s.roots →
        (names.foldl (extend id) s).table.Forest (names.foldl (extend id) s).roots := by
      intro names
      induction names with
      | nil => exact fun s h => h
      | cons name rest ih => exact fun s h => ih _ (extend_forest h id name)
    rw [compileRule_eq hr]
    exact modify_forest (grow_forest (hextended rule.extensions s h) _ _) id _

theorem compileRules_forest (h : s.table.Forest s.roots) :
    s.compileRules.table.Forest s.compileRules.roots := by
  unfold compileRules
  generalize s.visitOrder = order
  induction order generalizing s with
  | nil => exact h
  | cons id rest ih => exact ih (compileRule_forest h id)

end Session

/-! The output -/

namespace FlatRule

mutual
/-- The selectors and attributes of a rule and of all rules inside it, each before those inside
it. -/
def contents : FlatRule → List (List Selector × List Attribute)
  | ⟨selectors, attributes, children⟩ => (selectors, attributes) :: contentsAll children
def contentsAll : List FlatRule → List (List Selector × List Attribute)
  | [] => []
  | r :: rest => r.contents ++ contentsAll rest
end

theorem contentsAll_eq_flatMap (rules : List FlatRule) :
    contentsAll rules = rules.flatMap contents := by
  induction rules with
  | nil => rfl
  | cons r rest ih => rw [contentsAll, ih, List.flatMap_cons]

end FlatRule

namespace RuleTable

variable {t : RuleTable} {id : Nat} {node : RuleNode}

theorem tree_of_node (h : t.nodes[id]? = some node) :
    t.tree id = ⟨node.rule.selectors, node.rule.attributes, node.children.map t.tree⟩ := by
  rw [tree]
  split
  · next hn => rw [h] at hn; cases hn
  · next found hn =>
    rw [h] at hn
    cases hn
    simp [List.map_subtype]

def content (t : RuleTable) (id : Nat) : List Selector × List Attribute :=
  (t.selectors id, ((t.rule? id).map (·.attributes)).getD [])

theorem contents_tree (t : RuleTable) (h : id < t.size) :
    (t.tree id).contents = (t.preorder id).map t.content := by
  induction id using t.induction_inside with
  | step id ih =>
    obtain ⟨node, hn⟩ := node_of_lt_size h
    have hcontent : t.content id = (node.rule.selectors, node.rule.attributes) := by
      simp [content, selectors, rule?_of_node hn]
    rw [tree_of_node hn, FlatRule.contents, FlatRule.contentsAll_eq_flatMap, preorder_of_node hn,
      List.map_cons, hcontent, List.flatMap_map, List.map_flatMap]
    congr 1
    exact List.flatMap_congr fun child hc => ih node hn child hc (t.later id node hn child hc).2

theorem contentsAll_trees {roots : List Nat} (h : t.Forest roots) :
    FlatRule.contentsAll (roots.map t.tree) = (roots.flatMap t.preorder).map t.content := by
  rw [FlatRule.contentsAll_eq_flatMap, List.flatMap_map, List.map_flatMap]
  exact List.flatMap_congr fun id hid => t.contents_tree (h.valid id hid)

end RuleTable

/-! Imports -/

/-- An import asked of a session, by name or with a sheet that was read before. -/
inductive ImportStep
  | name (lib : Library) (name : String)
  | sheet (lib : Library) (sheet : Sheet)

namespace Session

variable {s : Session}

def after (s : Session) : ImportStep → Session
  | .name lib name => (s.importName lib name).1
  | .sheet lib sheet => (s.importSheet lib sheet).1

theorem Reachable.after (h : s.Reachable) (step : ImportStep) : (s.after step).Reachable := by
  cases step with
  | name lib name => exact reachable_importClosed.importName lib name h
  | sheet lib sheet => exact reachable_importClosed.importSheet lib sheet h

theorem Reachable.afterAll (h : s.Reachable) (steps : List ImportStep) :
    (steps.foldl Session.after s).Reachable := by
  induction steps generalizing s with
  | nil => exact h
  | cons step rest ih => exact ih (h.after step)

end Session

end NestedStyles
