import NestedStyles.Proofs.ArenaForest
import NestedStyles.Proofs.CompiledTable
import Mathlib.Logic.Equiv.Basic

/-!
An arena and a table that hold the same rules under other numbers. Storing a rule keeps the
numbers apart from those of new containers, which are older than their first rule in a table, and of
the bodies of at-rules, where a table has every rule before those inside it.
-/

namespace NestedStyles

/-- Two orders of the same numbers differ by a renumbering of these numbers. -/
theorem exists_renumbering {order others : List Nat} (h : order.Perm others)
    (hnodup : order.Nodup) :
    ∃ π : Equiv.Perm Nat, order.map π = others ∧ ∀ x ∉ order, π x = x := by
  induction h with
  | nil => exact ⟨.refl Nat, rfl, fun _ _ => rfl⟩
  | @cons x rest more _ ih =>
    obtain ⟨hx, hrest⟩ := List.nodup_cons.1 hnodup
    obtain ⟨π, hmap, hfixed⟩ := ih hrest
    refine ⟨π, ?_, fun y hy => hfixed y fun hin => hy (List.mem_cons_of_mem _ hin)⟩
    rw [List.map_cons, hmap, hfixed x hx]
  | swap x y rest =>
    simp only [List.nodup_cons, List.mem_cons, not_or] at hnodup
    obtain ⟨⟨-, hy⟩, hx, -⟩ := hnodup
    refine ⟨Equiv.swap y x, ?_, fun z hz => ?_⟩
    · have hrest : rest.map (Equiv.swap y x) = rest.map id := List.map_congr_left fun z hz =>
        Equiv.swap_apply_of_ne_of_ne (by rintro rfl; exact hy hz) (by rintro rfl; exact hx hz)
      simp [hrest]
    · simp only [List.mem_cons, not_or] at hz
      exact Equiv.swap_apply_of_ne_of_ne hz.1 hz.2.1
  | trans h₁ _ ih₁ ih₂ =>
    obtain ⟨π, hπ, hfixed⟩ := ih₁ hnodup
    obtain ⟨τ, hτ, hfixed'⟩ := ih₂ (h₁.nodup_iff.1 hnodup)
    refine ⟨π.trans τ, ?_, fun x hx => ?_⟩
    · rw [← hτ, ← hπ, List.map_map]
      rfl
    · rw [Equiv.trans_apply, hfixed x hx, hfixed' x fun hin => hx (h₁.mem_iff.2 hin)]

def RuleNode.renumbered (σ : Nat → Nat) (node : RuleNode) : RuleNode :=
  ⟨node.rule, node.children.map σ⟩

namespace Arena

variable {nodes others : Array RuleNode} {t : RuleTable} {ids order more : List Nat}
  {trees : List RuleTree} {id : Nat}

/-! Trees with two numberings -/

namespace Builds

theorem length_eq {ids' : List Nat} (h : Builds nodes ids trees order)
    (k : Builds others ids' trees more) : more.length = order.length := by
  induction h generalizing ids' more with
  | nil =>
    cases k
    rfl
  | cons _ _ _ ihinside ihrest =>
    cases k with
    | cons _ kinside krest => simp [ihinside kinside, ihrest krest]

theorem renumbered {σ : Nat → Nat} {ids' : List Nat} (h : Builds nodes ids trees order)
    (k : Builds others ids' trees (order.map σ)) :
    ids.map σ = ids' ∧ ∀ i ∈ order, others[σ i]? = nodes[i]?.map (·.renumbered σ) := by
  generalize hmore : order.map σ = more at k
  induction h generalizing ids' more with
  | nil =>
    cases k
    exact ⟨rfl, by simp⟩
  | @cons id rule children rest inside order within trees hid hinside _ ihinside ihrest =>
    cases k with
    | cons kid kinside krest =>
      simp only [List.cons_append, List.map_cons, List.map_append, List.cons.injEq] at hmore
      obtain ⟨rfl, happend⟩ := hmore
      have hlength := hinside.length_eq kinside
      obtain ⟨hfirst, hsecond⟩ := List.append_inj happend (by simpa using hlength.symm)
      obtain ⟨hchildren, hwithin⟩ := ihinside _ hfirst kinside
      obtain ⟨hroots, hafter⟩ := ihrest _ hsecond krest
      refine ⟨by rw [List.map_cons, hroots], fun i hi => ?_⟩
      simp only [List.cons_append, List.mem_cons, List.mem_append] at hi
      rcases hi with rfl | hi | hi
      · rw [kid, hid]
        simp [RuleNode.renumbered, hchildren]
      · exact hwithin i hi
      · exact hafter i hi

end Builds

theorem builds_ruleTree (t : RuleTable) (h : id < t.size) :
    Builds t.nodes [id] [t.ruleTree id] (t.preorder id) := by
  induction id using t.induction_inside with
  | step id ih =>
    obtain ⟨node, hn⟩ := RuleTable.node_of_lt_size h
    have hall : ∀ children : List Nat, (∀ child ∈ children, child ∈ node.children) →
        Builds t.nodes children (children.map t.ruleTree) (children.flatMap t.preorder) := by
      intro children
      induction children with
      | nil => exact fun _ => .nil
      | cons child rest ihrest =>
        intro hin
        have hc := hin child (by simp)
        have hfirst := ih node hn child hc (t.later id node hn child hc).2
        exact hfirst.append (ihrest fun c hc => hin c (by simp [hc]))
    have hroot := Builds.cons hn (hall node.children fun _ hc => hc) .nil
    rw [RuleTable.ruleTree_of_node hn, RuleTable.preorder_of_node hn]
    simpa using hroot

/-! The relation -/

/-- The table holds the rules of the arena under other numbers. -/
structure Renumbers (ρ : Equiv.Perm Nat) (nodes : Array RuleNode) (t : RuleTable) : Prop where
  size : t.size = nodes.size
  fixed : ∀ id, nodes.size ≤ id → ρ id = id
  nodes : ∀ id, t.nodes[ρ id]? = nodes[id]?.map (·.renumbered ρ)

namespace Renumbers

variable {ρ : Equiv.Perm Nat} {rule : Rule}

theorem lt_size (h : Renumbers ρ nodes t) (hid : id < nodes.size) : ρ id < nodes.size := by
  by_contra hle
  have hfixed := h.fixed (ρ id) (by omega)
  have heq := ρ.injective hfixed
  omega

theorem eq_size_iff (h : Renumbers ρ nodes t) : ρ id = nodes.size ↔ id = nodes.size := by
  constructor
  · intro heq
    exact ρ.injective (heq.trans (h.fixed _ (Nat.le_refl _)).symm)
  · rintro rfl
    exact h.fixed _ (Nat.le_refl _)

theorem push (h : Renumbers ρ nodes t) : Renumbers ρ (nodes.push ⟨rule, []⟩) (t.push rule) := by
  constructor
  · simp [h.size]
  · intro id hid
    exact h.fixed id (by simp at hid; omega)
  · intro id
    rw [RuleTable.nodes_push, Array.getElem?_push, h.nodes id, h.size]
    simp only [h.eq_size_iff]
    split <;> rfl

theorem modifyRule (h : Renumbers ρ nodes t) (id : Nat) (f : Rule → Rule) :
    Renumbers ρ (modifyRule nodes id f) (t.modify (ρ id) f) := by
  constructor
  · simp [h.size]
  · simpa using h.fixed
  · intro i
    rw [RuleTable.nodes_modify, getElem?_modifyRule, h.nodes i]
    simp only [ρ.injective.eq_iff]
    split
    · simp [Function.comp_def, RuleNode.renumbered]
    · rfl

theorem pushInto (h : Renumbers ρ nodes t) {outer : Nat} (hlt : outer < nodes.size) :
    Renumbers ρ (pushChild (nodes.push ⟨rule, []⟩) outer nodes.size)
      (t.pushInto (ρ outer) rule) := by
  constructor
  · simp [h.size]
  · intro id hid
    exact h.fixed id (by simp at hid; omega)
  · intro id
    have hnew := h.fixed nodes.size (Nat.le_refl _)
    rw [RuleTable.nodes_pushInto, getElem?_pushChild, Array.getElem?_push, h.nodes id, h.size]
    simp only [h.eq_size_iff, ρ.injective.eq_iff]
    by_cases hs : id = nodes.size
    · simp [hs, Nat.ne_of_gt hlt, RuleNode.renumbered]
    · by_cases ho : id = outer
      · simp [ho, Nat.ne_of_lt hlt, Function.comp_def, RuleNode.renumbered, hnew]
      · simp [hs, ho]

variable {roots : List Nat} {ρ' : Equiv.Perm Nat}

theorem map_renumbered (hf : Forest nodes roots) (hρ : ∀ i < nodes.size, ρ' i = ρ i) (i : Nat) :
    nodes[i]?.map (·.renumbered ρ') = nodes[i]?.map (·.renumbered ρ) := by
  cases hn : nodes[i]? with
  | none => rfl
  | some node =>
    have hchildren : node.children.map ρ' = node.children.map ρ :=
      List.map_congr_left fun c hc => hρ c (hf.lt_size_of_child hn hc)
    simp [RuleNode.renumbered, hchildren]

/-- A container is stored after its first rule here and before it there. -/
theorem container (h : Renumbers ρ nodes t) (hf : Forest nodes roots) (container : Rule) :
    Renumbers ((Equiv.swap nodes.size (nodes.size + 1)).trans ρ)
      (pushChild ((nodes.push ⟨rule, []⟩).push ⟨container, []⟩) (nodes.size + 1) nodes.size)
      ((t.push container).pushInto t.size rule) := by
  have hrule : (Equiv.swap nodes.size (nodes.size + 1)).trans ρ nodes.size = nodes.size + 1 := by
    rw [Equiv.trans_apply, Equiv.swap_apply_left, h.fixed _ (by omega)]
  have hcontainer : (Equiv.swap nodes.size (nodes.size + 1)).trans ρ (nodes.size + 1) =
      nodes.size := by
    rw [Equiv.trans_apply, Equiv.swap_apply_right, h.fixed _ (by omega)]
  have hother : ∀ i, i ≠ nodes.size → i ≠ nodes.size + 1 →
      (Equiv.swap nodes.size (nodes.size + 1)).trans ρ i = ρ i := by
    intro i hi hi'
    rw [Equiv.trans_apply, Equiv.swap_apply_of_ne_of_ne hi hi']
  constructor
  · simp [h.size]
  · intro id hid
    simp only [size_pushChild, Array.size_push] at hid
    rw [hother id (by omega) (by omega), h.fixed id (by omega)]
  · intro id
    rw [RuleTable.nodes_pushInto, RuleTable.nodes_push, RuleTable.size_push, getElem?_pushChild,
      Array.getElem?_push, Array.getElem?_push, Array.size_push, h.size]
    by_cases hs : id = nodes.size
    · subst hs
      rw [hrule]
      simp [RuleNode.renumbered]
    · by_cases hs' : id = nodes.size + 1
      · subst hs'
        rw [hcontainer]
        simp [RuleNode.renumbered, h.fixed (nodes.size + 1) (by omega)]
      · have hold : ρ id ≠ nodes.size := fun heq => hs (h.eq_size_iff.1 heq)
        have hold' : ρ id ≠ nodes.size + 1 := by
          intro heq
          rw [← h.fixed (nodes.size + 1) (by omega)] at heq
          exact hs' (ρ.injective heq)
        rw [hother id hs hs', if_neg hold', if_neg hold, if_neg hold, if_neg hs', if_neg hs',
          if_neg hs, h.nodes id]
        refine (map_renumbered hf fun i hi => ?_) id |>.symm
        exact hother i (by omega) (by omega)

/-- The sections inside a section are stored before it here and after it there. -/
theorem exists_nested (h : Renumbers ρ nodes t) (hid : id < nodes.size) (inner : Section) :
    ∃ ρ' : Equiv.Perm Nat, (t.addSection (ρ id) inner).size = (nestedRule nodes inner).1.size ∧
      (∀ i < nodes.size, ρ' i = ρ i) ∧ ρ' (nestedRule nodes inner).2 = t.size ∧
      ∀ i ≥ nodes.size, (t.addSection (ρ id) inner).nodes[ρ' i]? =
        (nestedRule nodes inner).1[i]?.map (·.renumbered ρ') ∧
        ((nestedRule nodes inner).1.size ≤ i → ρ' i = i) := by
  obtain ⟨order, hbuilds, hperm⟩ := (nestedRule_stores nodes inner).new
  have hparent : ρ id < t.size := by
    rw [h.size]
    exact h.lt_size hid
  obtain ⟨-, htree, hblock, hlt⟩ := t.addSection_adds (ρ id) hparent inner
  have hbuilds' := builds_ruleTree _ hlt
  rw [htree] at hbuilds'
  generalize t.addSection (ρ id) inner = u at *
  generalize nestedRule nodes inner = stored at *
  have hsize : u.size = stored.1.size := by
    have hlength := hbuilds.length_eq hbuilds'
    have hl := hperm.length_eq
    have hl' := hblock.length_eq
    simp only [List.length_append, List.length_range, ← h.size] at hl hl'
    omega
  rw [hsize] at hblock
  have horder : order.Perm (u.preorder t.size) := by
    have hboth := hperm.trans hblock.symm
    rw [← h.size] at hboth
    exact (List.perm_append_left_iff _).1 hboth
  have hnodup := List.nodup_append.1 (hperm.nodup_iff.2 List.nodup_range)
  have hnew : ∀ i, i ∈ order ↔ nodes.size ≤ i ∧ i < stored.1.size := by
    intro i
    have hmem := hperm.mem_iff (a := i)
    simp only [List.mem_append, List.mem_range] at hmem
    have hdisjoint := fun hi hin => hnodup.2.2 i (List.mem_range.2 hi) i hin rfl
    grind
  obtain ⟨π, hπ, hfixed⟩ := exists_renumbering horder hnodup.2.1
  have hmap : order.map (π.trans ρ) = u.preorder t.size := by
    rw [← hπ]
    refine List.map_congr_left fun i hi => h.fixed (π i) ?_
    have hin : π i ∈ u.preorder t.size := hπ ▸ List.mem_map_of_mem hi
    rw [← h.size]
    exact (RuleTable.le_and_lt_size_of_mem_preorder hin).1
  rw [← hmap] at hbuilds'
  obtain ⟨hroot, hnodes⟩ := hbuilds.renumbered hbuilds'
  have hother : ∀ i ∉ order, π.trans ρ i = ρ i := fun i hi => congrArg ρ (hfixed i hi)
  refine ⟨π.trans ρ, hsize, fun i hi => hother i fun hin => ?_, List.head_eq_of_cons_eq hroot,
    fun i hi => ?_⟩
  · have := (hnew i).1 hin
    omega
  · by_cases hin : i ∈ order
    · exact ⟨hnodes i hin, fun hle => absurd ((hnew i).1 hin).2 (by omega)⟩
    · have hle : stored.1.size ≤ i := by
        by_contra hlt
        exact hin ((hnew i).2 ⟨hi, by omega⟩)
      have hsame : π.trans ρ i = i := (hother i hin).trans (h.fixed i hi)
      have hold := Nat.le_trans (Nat.le_of_eq hsize) hle
      rw [hsame, Array.getElem?_eq_none hle, Array.getElem?_eq_none hold]
      exact ⟨rfl, fun _ => rfl⟩

theorem addSection (h : Renumbers ρ nodes t) (hf : Forest nodes roots) (hid : id < nodes.size)
    (inner : Section) :
    ∃ ρ' : Equiv.Perm Nat, (∀ i < nodes.size, ρ' i = ρ i) ∧
      Renumbers ρ' (pushChild (nestedRule nodes inner).1 id (nestedRule nodes inner).2)
        (t.addSection (ρ id) inner) := by
  have hstores := nestedRule_stores nodes inner
  have hparent : ρ id < t.size := by
    rw [h.size]
    exact h.lt_size hid
  have hadds := (t.addSection_adds (ρ id) hparent inner).1
  obtain ⟨ρ', hsize, hold, hroot, hnew⟩ := h.exists_nested hid inner
  refine ⟨ρ', hold, by rw [hsize, size_pushChild], ?_, fun i => ?_⟩
  · intro i hi
    rw [size_pushChild] at hi
    exact (hnew i (Nat.le_trans hstores.size_le hi)).2 hi
  · rw [getElem?_pushChild]
    by_cases hi : i < nodes.size
    · rw [hold i hi, hstores.kept i hi]
      by_cases ho : i = id
      · subst ho
        rw [hadds.parent_node, h.nodes i, if_pos rfl, ← map_renumbered hf hold]
        simp [Function.comp_def, RuleNode.renumbered, hroot]
      · have hlt : ρ i < t.size := by
          rw [h.size]
          exact h.lt_size hi
        rw [hadds.others (ρ i) hlt (fun heq => ho (ρ.injective heq)), h.nodes i, if_neg ho,
          map_renumbered hf hold]
    · rw [if_neg (by omega)]
      exact (hnew i (by omega)).1

/-! Visits and output -/

theorem order_eq (h : Renumbers ρ nodes t) (k : Spans nodes ids order) :
    order.map ρ = (ids.map ρ).flatMap t.preorder := by
  induction k with
  | nil => rfl
  | @cons id _ _ _ _ hid _ _ ihinside ihrest =>
    obtain ⟨node, hn, rfl⟩ := Option.map_eq_some_iff.1 hid
    have hnode : t.nodes[ρ id]? = some (node.renumbered ρ) := by rw [h.nodes id, hn]; rfl
    rw [List.cons_append, List.map_cons, List.map_append, ihinside, ihrest, List.map_cons,
      List.flatMap_cons, RuleTable.preorder_of_node hnode]
    rfl

theorem finishes {rules : List FlatRule} {dropped : List (List Selector)}
    (h : Renumbers ρ nodes t) (k : ArenaSession.Finishes nodes ids order rules dropped) :
    rules = FlatRule.pruneAll ((ids.map ρ).map t.tree) ∧
      dropped = FlatRule.prunedAll ((ids.map ρ).map t.tree) := by
  induction k with
  | done => exact ⟨rfl, rfl⟩
  | @rule id node _ _ _ children _ _ _ hn _ _ ihinside ihrest =>
    have hnode : t.nodes[ρ id]? = some (node.renumbered ρ) := by rw [h.nodes id, hn]; rfl
    have htree : t.tree (ρ id) =
        ⟨node.rule.selectors, node.rule.attributes, (node.children.map ρ).map t.tree⟩ :=
      RuleTable.tree_of_node hnode
    obtain ⟨rfl, rfl⟩ := ihinside
    obtain ⟨rfl, rfl⟩ := ihrest
    rw [List.map_cons, List.map_cons, htree, FlatRule.pruneAll, FlatRule.prunedAll, FlatRule.prune,
      FlatRule.pruned]
    refine ⟨?_, rfl⟩
    by_cases hempty : (node.rule.attributes.isEmpty &&
        (FlatRule.pruneAll ((node.children.map ρ).map t.tree)).isEmpty) = true
    · rw [if_pos hempty, if_pos hempty]
      rfl
    · rw [if_neg hempty, if_neg hempty]
      rfl

end Renumbers

end Arena

end NestedStyles
