import NestedStyles.Session.Expand
import Mathlib.Data.List.Basic
import Mathlib.Data.List.Nodup
import Mathlib.Data.List.Pairwise
import Mathlib.Data.List.Perm.Basic

/-!
Rule tables as forests. A rule and all that stands inside it is a tree apart from the numbers its
rules have in the table, and every operation that adds a rule puts one new number into the visits
of the rules around it.
-/

namespace NestedStyles

/-- A rule and the rules inside it, without their numbers. -/
structure RuleTree where
  rule : Rule
  inside : List RuleTree := []
  deriving Repr

namespace RuleTree

mutual
def ofSection : Section → RuleTree
  | ⟨selectors, attributes, nested, extensions, references, _⟩ =>
    ⟨⟨selectors, attributes, extensions, references⟩, ofSections nested⟩
def ofSections : List Section → List RuleTree
  | [] => []
  | inner :: rest => ofSection inner :: ofSections rest
end

end RuleTree

namespace RuleTable

variable {t u : RuleTable} {id parent x : Nat} {node : RuleNode} {rule : Rule}

def children (t : RuleTable) (id : Nat) : List Nat := (t.nodes[id]?.map (·.children)).getD []

def ruleTree (t : RuleTable) (id : Nat) : RuleTree :=
  match h : t.nodes[id]? with
  | none => ⟨{}, []⟩
  | some node =>
    ⟨node.rule, node.children.attach.map fun child =>
      have := t.later id node h child.1 child.2
      t.ruleTree child.1⟩
termination_by t.nodes.size - id

theorem lt_size_of_node (h : t.nodes[id]? = some node) : id < t.size :=
  (Array.getElem?_eq_some_iff.1 h).1

theorem node_of_lt_size (h : id < t.size) : ∃ node, t.nodes[id]? = some node :=
  ⟨_, Array.getElem?_eq_getElem h⟩

theorem children_of_node (h : t.nodes[id]? = some node) : t.children id = node.children := by
  simp [children, h]

theorem rule?_of_node (h : t.nodes[id]? = some node) : t.rule? id = some node.rule := by
  simp [rule?, h]

theorem node_of_rule? (h : t.rule? id = some rule) :
    ∃ node, t.nodes[id]? = some node ∧ node.rule = rule := by
  simpa [rule?] using h

theorem lt_size_of_rule? (h : t.rule? id = some rule) : id < t.size := by
  obtain ⟨node, hn, _⟩ := node_of_rule? h
  exact lt_size_of_node hn

theorem selectors_of_rule? (h : t.rule? id = some rule) : t.selectors id = rule.selectors := by
  simp [selectors, h]

theorem preorder_of_node (h : t.nodes[id]? = some node) :
    t.preorder id = id :: node.children.flatMap t.preorder := by
  rw [preorder]
  split
  · next hn => rw [h] at hn; cases hn
  · next found hn =>
    rw [h] at hn
    cases hn
    simp [List.flatMap_subtype]

theorem preorder_of_size_le (h : t.size ≤ id) : t.preorder id = [] := by
  rw [preorder]
  split
  · rfl
  · next node hn => exact absurd (lt_size_of_node hn) (by omega)

theorem ruleTree_of_node (h : t.nodes[id]? = some node) :
    t.ruleTree id = ⟨node.rule, node.children.map t.ruleTree⟩ := by
  rw [ruleTree]
  split
  · next hn => rw [h] at hn; cases hn
  · next found hn =>
    rw [h] at hn
    cases hn
    simp [List.map_subtype]

/-- Rules are reached before those inside them, so a property can be shown from the inside out. -/
theorem induction_inside (t : RuleTable) {P : Nat → Prop}
    (step : ∀ id, (∀ node, t.nodes[id]? = some node → ∀ child ∈ node.children, P child) → P id)
    (id : Nat) : P id := by
  induction h : t.size - id using Nat.strongRecOn generalizing id with
  | ind n ih =>
    apply step
    intro node hn child hc
    have hlater := t.later id node hn child hc
    have hlt := lt_size_of_node hn
    exact ih (t.size - child) (by unfold size at *; omega) child rfl

theorem le_and_lt_size_of_mem_preorder (h : x ∈ t.preorder id) : id ≤ x ∧ x < t.size := by
  induction id using t.induction_inside with
  | step id ih =>
    cases hn : t.nodes[id]? with
    | none =>
      have : t.size ≤ id := by simpa [size] using hn
      simp [preorder_of_size_le this] at h
    | some node =>
      rw [preorder_of_node hn, List.mem_cons, List.mem_flatMap] at h
      rcases h with rfl | ⟨child, hc, hx⟩
      · exact ⟨Nat.le_refl _, lt_size_of_node hn⟩
      · have := t.later id node hn child hc
        have := ih node hn child hc hx
        omega

theorem lt_size_of_mem_preorder (h : x ∈ t.preorder id) : id < t.size := by
  have := le_and_lt_size_of_mem_preorder h
  omega

theorem mem_preorder_self (h : id < t.size) : id ∈ t.preorder id := by
  obtain ⟨node, hn⟩ := node_of_lt_size h
  simp [preorder_of_node hn]

theorem mem_preorder_of_child {child : Nat} (h : x ∈ t.preorder id) (hn : t.nodes[x]? = some node)
    (hc : child ∈ node.children) : child ∈ t.preorder id := by
  induction id using t.induction_inside with
  | step id ih =>
    obtain ⟨outer, ho⟩ := node_of_lt_size (lt_size_of_mem_preorder h)
    rw [preorder_of_node ho, List.mem_cons, List.mem_flatMap] at h ⊢
    rcases h with rfl | ⟨inner, hi, hx⟩
    · rw [ho] at hn
      cases hn
      exact .inr ⟨child, hc, mem_preorder_self (t.later _ _ ho child hc).2⟩
    · exact .inr ⟨inner, hi, ih outer ho inner hi hx⟩

theorem child_of_mem_preorder (h : x ∈ t.preorder id) (hne : x ≠ id) :
    ∃ (outer : Nat) (node : RuleNode), t.nodes[outer]? = some node ∧ x ∈ node.children := by
  induction id using t.induction_inside with
  | step id ih =>
    obtain ⟨node, hn⟩ := node_of_lt_size (lt_size_of_mem_preorder h)
    rw [preorder_of_node hn, List.mem_cons, List.mem_flatMap] at h
    rcases h with rfl | ⟨child, hc, hx⟩
    · exact absurd rfl hne
    · by_cases he : x = child
      · exact ⟨id, node, hn, he ▸ hc⟩
      · exact ih node hn child hc hx he

theorem preorder_ruleTree_congr (hid : id < t.size)
    (h : ∀ i ∈ t.preorder id, u.nodes[i]? = t.nodes[i]?) :
    u.preorder id = t.preorder id ∧ u.ruleTree id = t.ruleTree id := by
  induction id using t.induction_inside with
  | step id ih =>
    obtain ⟨node, hn⟩ := node_of_lt_size hid
    have hu : u.nodes[id]? = some node := by rw [h id (mem_preorder_self hid), hn]
    have hinside : ∀ child ∈ node.children,
        u.preorder child = t.preorder child ∧ u.ruleTree child = t.ruleTree child := by
      intro child hc
      apply ih node hn child hc (t.later id node hn child hc).2
      intro i hi
      apply h
      rw [preorder_of_node hn]
      exact List.mem_cons_of_mem _ (List.mem_flatMap.2 ⟨child, hc, hi⟩)
    constructor
    · rw [preorder_of_node hu, preorder_of_node hn]
      congr 1
      exact List.flatMap_congr fun child hc => (hinside child hc).1
    · rw [ruleTree_of_node hu, ruleTree_of_node hn]
      congr 1
      exact List.map_congr_left fun child hc => (hinside child hc).2

@[simp] theorem size_empty : empty.size = 0 := rfl

@[simp] theorem size_push : (t.push rule).size = t.size + 1 := by
  simp [size, push]

@[simp] theorem size_pushInto : (t.pushInto parent rule).size = t.size + 1 := by
  simp [size, pushInto]

@[simp] theorem size_modify {f : Rule → Rule} : (t.modify id f).size = t.size := by
  simp [size, modify]

theorem nodes_push (i : Nat) :
    (t.push rule).nodes[i]? = if i = t.size then some ⟨rule, []⟩ else t.nodes[i]? := by
  exact Array.getElem?_push

theorem nodes_pushInto (i : Nat) :
    (t.pushInto parent rule).nodes[i]? =
      if i = t.size then some ⟨rule, []⟩
      else if i = parent then
        t.nodes[i]?.map fun node => { node with children := node.children ++ [t.size] }
      else t.nodes[i]? := by
  simp only [pushInto, Array.getElem?_push, Array.size_modify, Array.getElem?_modify,
    eq_comm (a := parent)]
  rfl

theorem nodes_modify {f : Rule → Rule} (i : Nat) :
    (t.modify id f).nodes[i]? =
      if i = id then t.nodes[i]?.map fun node => { node with rule := f node.rule }
      else t.nodes[i]? := by
  simp only [modify, Array.getElem?_modify, eq_comm (a := id)]

theorem nodes_push_of_lt {i : Nat} (h : i < t.size) : (t.push rule).nodes[i]? = t.nodes[i]? := by
  rw [nodes_push, if_neg (by omega)]

theorem nodes_pushInto_of_ne {i : Nat} (h : i < t.size) (hp : i ≠ parent) :
    (t.pushInto parent rule).nodes[i]? = t.nodes[i]? := by
  rw [nodes_pushInto, if_neg (by omega), if_neg hp]

theorem preorder_push_of_lt (h : id < t.size) : (t.push rule).preorder id = t.preorder id := by
  refine (preorder_ruleTree_congr h ?_).1
  intro i hi
  exact nodes_push_of_lt (le_and_lt_size_of_mem_preorder hi).2

theorem preorder_push_size : (t.push rule).preorder t.size = [t.size] := by
  have hn : (t.push rule).nodes[t.size]? = some ⟨rule, []⟩ := by rw [nodes_push, if_pos rfl]
  simp [preorder_of_node hn]

theorem preorder_pushInto_size : (t.pushInto parent rule).preorder t.size = [t.size] := by
  have hn : (t.pushInto parent rule).nodes[t.size]? = some ⟨rule, []⟩ := by
    rw [nodes_pushInto, if_pos rfl]
  simp [preorder_of_node hn]

theorem preorder_modify {f : Rule → Rule} (i : Nat) :
    (t.modify id f).preorder i = t.preorder i := by
  induction i using t.induction_inside with
  | step i ih =>
    cases hn : t.nodes[i]? with
    | none =>
      have hle : t.size ≤ i := by simpa [size] using hn
      rw [preorder_of_size_le hle, preorder_of_size_le (by simpa using hle)]
    | some node =>
      have hinside := fun child hc => ih node hn child hc
      rw [preorder_of_node hn]
      by_cases hi : i = id
      · have hm : (t.modify id f).nodes[i]? = some { node with rule := f node.rule } := by
          rw [nodes_modify, if_pos hi, hn]
          rfl
        rw [preorder_of_node hm, List.flatMap_congr hinside]
      · have hm : (t.modify id f).nodes[i]? = some node := by rw [nodes_modify, if_neg hi, hn]
        rw [preorder_of_node hm, List.flatMap_congr hinside]

private theorem flatMap_perm_of_forall {f g : Nat → List Nat} {ids : List Nat}
    (h : ∀ i ∈ ids, (g i).Perm (f i ++ List.replicate ((f i).count parent) x)) :
    (ids.flatMap g).Perm (ids.flatMap f ++ List.replicate ((ids.flatMap f).count parent) x) := by
  induction ids with
  | nil => simp
  | cons i rest ih =>
    have hi := h i (by simp)
    have hrest := ih fun j hj => h j (List.mem_cons_of_mem _ hj)
    simp only [List.flatMap_cons, List.count_append, List.replicate_add]
    refine (hi.append hrest).trans ?_
    simp only [List.append_assoc]
    refine List.Perm.append_left _ ?_
    simp only [← List.append_assoc]
    exact List.Perm.append_right _ List.perm_append_comm

/-- The new rule is visited once for every visit of the rule it was put into. -/
theorem preorder_pushInto_perm (parent : Nat) (rule : Rule) (h : id < t.size) :
    ((t.pushInto parent rule).preorder id).Perm
      (t.preorder id ++ List.replicate ((t.preorder id).count parent) t.size) := by
  induction id using t.induction_inside with
  | step id ih =>
    obtain ⟨node, hn⟩ := node_of_lt_size h
    have hinside := flatMap_perm_of_forall fun child hc =>
      ih node hn child hc (t.later id node hn child hc).2
    rw [preorder_of_node hn]
    by_cases hp : id = parent
    · have hm : (t.pushInto parent rule).nodes[id]? =
          some { node with children := node.children ++ [t.size] } := by
        rw [nodes_pushInto, if_neg (by omega), if_pos hp, hn]
        rfl
      -- `id` is the parent itself: the new rule is its last child
      rw [preorder_of_node hm, List.flatMap_append, hp, List.count_cons_self,
        List.replicate_succ']
      simp only [List.flatMap_cons, List.flatMap_nil, preorder_pushInto_size, List.append_nil,
        List.cons_append]
      rw [← List.append_assoc]
      exact (hinside.append_right _).cons _
    · have hm : (t.pushInto parent rule).nodes[id]? = some node := by
        rw [nodes_pushInto_of_ne h hp, hn]
      rw [preorder_of_node hm, List.count_cons_of_ne hp, List.cons_append]
      exact hinside.cons _

/-- The rules that `roots` and the rules inside them visit are all rules, each visited once. -/
structure Forest (t : RuleTable) (roots : List Nat) : Prop where
  valid : ∀ id ∈ roots, id < t.size
  visits : (roots.flatMap t.preorder).Perm (List.range t.size)

namespace Forest

variable {roots others : List Nat}

theorem nodup (h : t.Forest roots) : (roots.flatMap t.preorder).Nodup :=
  h.visits.nodup_iff.2 List.nodup_range

theorem mem_visits (h : t.Forest roots) : id ∈ roots.flatMap t.preorder ↔ id < t.size := by
  rw [h.visits.mem_iff, List.mem_range]

theorem perm (h : t.Forest roots) (hp : roots.Perm others) : t.Forest others := by
  constructor
  · intro id hid
    exact h.valid id (hp.mem_iff.2 hid)
  · exact (hp.symm.flatMap_right _).trans h.visits

theorem root_not_child (h : t.Forest roots) (hid : id ∈ roots) {outer : Nat}
    (hn : t.nodes[outer]? = some node) : id ∉ node.children := by
  intro hc
  have hlater := t.later outer node hn id hc
  have hvisit : outer ∈ roots.flatMap t.preorder := h.mem_visits.2 (lt_size_of_node hn)
  obtain ⟨root, hroot, hin⟩ := List.mem_flatMap.1 hvisit
  have hid' : id ∈ t.preorder root := mem_preorder_of_child hin hn hc
  have hne : root ≠ id := by
    have := le_and_lt_size_of_mem_preorder hin
    omega
  -- so two different roots visit `id`
  have hsymm : Std.Symm (Function.onFun List.Disjoint t.preorder) :=
    ⟨fun _ _ hd => List.disjoint_symm hd⟩
  have hdisjoint : List.Disjoint (t.preorder root) (t.preorder id) :=
    (List.nodup_flatMap.1 h.nodup).2.forall hroot hid hne
  exact hdisjoint hid' (mem_preorder_self hlater.2)

theorem root_not_mem_preorder (h : t.Forest roots) (hid : id ∈ roots) (hne : id ≠ x) :
    id ∉ t.preorder x := by
  intro hx
  obtain ⟨outer, node, hn, hc⟩ := child_of_mem_preorder hx hne
  exact h.root_not_child hid hn hc

theorem push (h : t.Forest roots) : (t.push rule).Forest (roots ++ [t.size]) := by
  have hold : roots.flatMap (t.push rule).preorder = roots.flatMap t.preorder :=
    List.flatMap_congr fun id hid => preorder_push_of_lt (h.valid id hid)
  constructor
  · intro id hid
    rcases List.mem_append.1 hid with hid | hid
    · have := h.valid id hid
      simp; omega
    · simp_all
  · rw [List.flatMap_append, hold, size_push, List.range_succ]
    simpa [preorder_push_size] using h.visits.append_right [t.size]

theorem pushInto (h : t.Forest roots) (hp : parent < t.size) :
    (t.pushInto parent rule).Forest roots := by
  constructor
  · intro id hid
    have := h.valid id hid
    simp; omega
  · have hroots : (roots.flatMap (t.pushInto parent rule).preorder).Perm
        (roots.flatMap t.preorder ++
          List.replicate ((roots.flatMap t.preorder).count parent) t.size) :=
      flatMap_perm_of_forall fun id hid => preorder_pushInto_perm parent rule (h.valid id hid)
    have honce : (roots.flatMap t.preorder).count parent = 1 :=
      List.count_eq_one_of_mem h.nodup (h.mem_visits.2 hp)
    rw [honce] at hroots
    rw [size_pushInto, List.range_succ]
    exact hroots.trans (h.visits.append_right _)

theorem modify (h : t.Forest roots) {f : Rule → Rule} : (t.modify id f).Forest roots := by
  constructor
  · simpa using h.valid
  · rw [size_modify, List.flatMap_congr fun id _ => preorder_modify id]
    exact h.visits

end Forest

/-- `u` is `t` with more rules, of which `ids` were put into `parent`, the last ones there. -/
structure Adds (t u : RuleTable) (parent : Nat) (ids : List Nat) : Prop where
  size_le : t.size ≤ u.size
  others : ∀ i < t.size, i ≠ parent → u.nodes[i]? = t.nodes[i]?
  parent_node : u.nodes[parent]? =
    t.nodes[parent]?.map fun node => { node with children := node.children ++ ids }

namespace Adds

variable {v : RuleTable} {ids others : List Nat}

theorem refl (t : RuleTable) (parent : Nat) : t.Adds t parent [] := by
  constructor
  · exact Nat.le_refl _
  · intro i _ _
    rfl
  · simp

theorem pushInto (rule : Rule) (h : parent < t.size) :
    t.Adds (t.pushInto parent rule) parent [t.size] := by
  constructor
  · simp
  · intro i hi hp
    exact nodes_pushInto_of_ne hi hp
  · rw [nodes_pushInto, if_neg (by omega), if_pos rfl]

theorem trans (h : t.Adds u parent ids) (k : u.Adds v parent others) :
    t.Adds v parent (ids ++ others) := by
  constructor
  · exact Nat.le_trans h.size_le k.size_le
  · intro i hi hp
    rw [k.others i (Nat.lt_of_lt_of_le hi h.size_le) hp, h.others i hi hp]
  · rw [k.parent_node, h.parent_node]
    simp [Function.comp_def]

theorem into_new (h : t.Adds u parent ids) (k : u.Adds v x others) (hp : parent < t.size)
    (hx : t.size ≤ x) : t.Adds v parent ids := by
  have hparent : parent ≠ x := by omega
  constructor
  · exact Nat.le_trans h.size_le k.size_le
  · intro i hi hne
    rw [k.others i (Nat.lt_of_lt_of_le hi h.size_le) (by omega), h.others i hi hne]
  · rw [k.others parent (Nat.lt_of_lt_of_le hp h.size_le) hparent, h.parent_node]

theorem ruleTree_eq (h : t.Adds u parent ids) (hid : id < t.size) (hp : parent ∉ t.preorder id) :
    u.preorder id = t.preorder id ∧ u.ruleTree id = t.ruleTree id := by
  apply preorder_ruleTree_congr hid
  intro i hi
  apply h.others i (le_and_lt_size_of_mem_preorder hi).2
  rintro rfl
  exact hp hi

end Adds

mutual
/-- Putting a section into a rule adds one rule to it, with the tree of the section, and this rule
leads to all rules that are new. -/
theorem addSection_adds (t : RuleTable) (parent : Nat) (h : parent < t.size) :
    ∀ inner : Section, t.Adds (t.addSection parent inner) parent [t.size] ∧
      (t.addSection parent inner).ruleTree t.size = RuleTree.ofSection inner ∧
      (List.range t.size ++ (t.addSection parent inner).preorder t.size).Perm
        (List.range (t.addSection parent inner).size) ∧
      t.size < (t.addSection parent inner).size
  | ⟨selectors, attributes, nested, extensions, references, media⟩ => by
    rw [addSection, RuleTree.ofSection]
    have hpush := Adds.pushInto ⟨selectors, attributes, extensions, references⟩ h
    generalize hu : t.pushInto parent ⟨selectors, attributes, extensions, references⟩ = u at hpush
    have hsize : u.size = t.size + 1 := by rw [← hu, size_pushInto]
    have hnode : u.nodes[t.size]? = some ⟨⟨selectors, attributes, extensions, references⟩, []⟩ := by
      rw [← hu, nodes_pushInto, if_pos rfl]
    obtain ⟨ids, hadds, htrees, hnew⟩ := addSections_adds u t.size (by omega) nested
    have hparent := hadds.parent_node
    rw [hnode] at hparent
    refine ⟨hpush.into_new hadds h (Nat.le_refl _), ?_, ?_, ?_⟩
    · rw [ruleTree_of_node hparent]
      simp [htrees]
    · rw [preorder_of_node hparent]
      rw [hsize, List.range_succ, List.append_assoc] at hnew
      simpa using hnew
    · have := hadds.size_le
      omega
theorem addSections_adds (t : RuleTable) (parent : Nat) (h : parent < t.size) :
    ∀ nested : List Section, ∃ ids, t.Adds (t.addSections parent nested) parent ids ∧
      ids.map (t.addSections parent nested).ruleTree = RuleTree.ofSections nested ∧
      (List.range t.size ++ ids.flatMap (t.addSections parent nested).preorder).Perm
        (List.range (t.addSections parent nested).size)
  | [] => by
    rw [addSections, RuleTree.ofSections]
    exact ⟨[], .refl t parent, rfl, by simp⟩
  | inner :: rest => by
    rw [addSections, RuleTree.ofSections]
    obtain ⟨hfirst, htree, hnew, hlt⟩ := addSection_adds t parent h inner
    generalize t.addSection parent inner = u at hfirst htree hnew hlt
    obtain ⟨ids, hrest, htrees, hmore⟩ := addSections_adds u parent (by omega) rest
    -- the tree of the first section lies above `parent`, where the others are added
    obtain ⟨horder, hkeep⟩ := hrest.ruleTree_eq hlt fun hin => by
      have := le_and_lt_size_of_mem_preorder hin
      omega
    refine ⟨t.size :: ids, hfirst.trans hrest, ?_, ?_⟩
    · rw [List.map_cons, hkeep, htree, htrees]
    · rw [List.flatMap_cons, horder, ← List.append_assoc]
      exact (hnew.append_right _).trans hmore
end

mutual
theorem Forest.addSection {roots : List Nat} (t : RuleTable) (parent : Nat) (h : t.Forest roots)
    (hp : parent < t.size) : ∀ inner : Section, (t.addSection parent inner).Forest roots
  | ⟨selectors, attributes, nested, extensions, references, media⟩ => by
    rw [RuleTable.addSection]
    exact Forest.addSections _ t.size (h.pushInto hp) (by simp) nested
theorem Forest.addSections {roots : List Nat} (t : RuleTable) (parent : Nat) (h : t.Forest roots)
    (hp : parent < t.size) : ∀ nested : List Section, (t.addSections parent nested).Forest roots
  | [] => by
    rw [RuleTable.addSections]
    exact h
  | inner :: rest => by
    rw [RuleTable.addSections]
    have hlt := (addSection_adds t parent hp inner).2.2.2
    exact Forest.addSections _ parent (Forest.addSection t parent h hp inner) (by omega) rest
end

end RuleTable

end NestedStyles
