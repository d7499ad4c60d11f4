import NestedStyles.Proofs.ArenaForest

/-!
Every rule of an arena has one owner. Each step of an import keeps the arena a forest, so the
numbers held anywhere are those of rules, every rule stands in one place and none stands inside
itself. The pass does not change what stands inside a rule; so it ends and compiles every rule once,
and the output is built from every rule once.
-/

namespace NestedStyles

namespace ArenaSession

open Arena (Forest Spans)

variable {a b c : ArenaSession} {id : Nat} {ids order : List Nat}

def roots (a : ArenaSession) : List Nat := a.containers.map (·.2) ++ a.sections

/-- The containers and the rules outside them reach every rule once, and extensions name rules. -/
structure Sound (a : ArenaSession) : Prop where
  forest : Forest a.nodes a.roots
  targets : ∀ entry ∈ a.targets, entry.2 < a.nodes.size

theorem Sound.note (h : a.Sound) (events : List Event) : (a.note events).Sound :=
  ⟨h.forest, h.targets⟩

theorem Sound.modify (h : a.Sound) (id : Nat) (f : Rule → Rule) : (a.modify id f).Sound := by
  constructor
  · exact h.forest.modifyRule
  · simpa [ArenaSession.modify] using h.targets

theorem Sound.register (h : a.Sound) (hid : id < a.nodes.size) (selectors : List Selector) :
    (a.register id selectors).Sound := by
  constructor
  · exact h.forest
  · intro entry hin
    rcases List.mem_append.1 hin with hin | hin
    · rw [Session.registrations, List.mem_reverse, List.mem_filterMap] at hin
      obtain ⟨selector, -, hentry⟩ := hin
      split at hentry
      · cases hentry
        exact hid
      · cases hentry
    · exact h.targets entry hin

theorem put_forest (h : Forest a.nodes (a.roots ++ [id])) (path : Option String) :
    Forest (a.put path id).nodes (a.put path id).roots ∧
      a.nodes.size ≤ (a.put path id).nodes.size ∧ (a.put path id).targets = a.targets := by
  cases path with
  | none => exact ⟨by simpa [put, roots] using h, Nat.le_refl _, rfl⟩
  | some path =>
    cases hl : a.containers.lookup path with
    | some container =>
      obtain ⟨before, after, hs, -⟩ := List.lookup_eq_some_iff.1 hl
      have hroot : container ∈ a.roots := by simp [roots, hs]
      simp only [put, addToContainer, hl, pushChild, Arena.size_pushChild, and_true]
      refine ⟨?_, Nat.le_refl _⟩
      exact h.pushChild (h.lt_size_of_root (List.mem_append_left _ hroot))
        fun inner hinner => h.not_mem_of_root hroot hinner
    | none =>
      simp only [put, addToContainer, hl, pushChild, alloc, Arena.size_pushChild,
        Array.size_push, and_true]
      refine ⟨?_, by omega⟩
      have hstored : Forest (a.alloc { selectors := [[path]] }).nodes
          (a.roots ++ [id] ++ [a.nodes.size]) := Forest.push (by rw [List.append_nil]; exact h)
      have hroots : (a.roots ++ [id] ++ [a.nodes.size]).Perm
          ((a.containers ++ [(path, a.nodes.size)]).map (·.2) ++ a.sections ++ [id]) := by
        simp only [roots, List.map_append, List.map_cons, List.map_nil, List.append_assoc]
        refine List.Perm.append_left _ ?_
        simp only [← List.append_assoc]
        exact List.perm_append_comm
      have hmoved := hstored.perm hroots
      exact hmoved.pushChild (by simp [alloc]) fun inner hinner =>
        hmoved.not_mem_of_root (by simp) hinner

theorem Sound.place (h : a.Sound) (rule : Rule) (path : Option String) :
    ((a.alloc rule).put path a.nodes.size).Sound ∧
      a.nodes.size < ((a.alloc rule).put path a.nodes.size).nodes.size := by
  have hstored : Forest (a.alloc rule).nodes ((a.alloc rule).roots ++ [a.nodes.size]) :=
    Forest.push (by rw [List.append_nil]; exact h.forest)
  obtain ⟨hforest, hle, htargets⟩ := put_forest hstored path
  have hlt : a.nodes.size < ((a.alloc rule).put path a.nodes.size).nodes.size := by
    simp only [alloc, Array.size_push] at hle ⊢
    omega
  refine ⟨⟨hforest, fun entry hin => ?_⟩, hlt⟩
  rw [htargets] at hin
  exact Nat.lt_trans (h.targets entry hin) hlt

theorem Sound.addNested (h : a.Sound) (hid : id < a.nodes.size) (inner : Section) :
    (a.addNested id inner).Sound ∧ id < (a.addNested id inner).nodes.size := by
  have hstores := Arena.nestedRule_stores a.nodes inner
  have hle := hstores.size_le
  have hforest : Forest (a.addNested id inner).nodes a.roots :=
    (hstores.forest h.forest).pushChild (Nat.lt_of_lt_of_le hid hle)
      fun _ hinner => hstores.not_mem hid hinner
  have hsize : (a.addNested id inner).nodes.size = (Arena.nestedRule a.nodes inner).1.size := by
    simp [ArenaSession.addNested, pushChild]
  rw [hsize]
  refine ⟨⟨hforest, fun entry hin => ?_⟩, Nat.lt_of_lt_of_le hid hle⟩
  rw [hsize]
  exact Nat.lt_of_lt_of_le (h.targets entry hin) hle

theorem Sound.body (h : a.Sound) (hid : id < a.nodes.size) (nested : List Section) :
    (nested.foldl (ArenaSession.addNested id) a).Sound := by
  induction nested generalizing a with
  | nil => exact h
  | cons inner rest ih =>
    obtain ⟨hnext, hlt⟩ := h.addNested hid inner
    exact ih hnext hlt

theorem Sound.hostAttributes (h : a.Sound) (path query : String) (outer : Option Nat)
    (attributes : List Attribute) : (a.hostAttributes path query outer attributes).Sound := by
  unfold ArenaSession.hostAttributes
  simp only
  split
  · exact h
  · split
    · exact h.note _
    · exact (h.place _ (some path)).1

mutual
theorem Sound.expand (a : ArenaSession) (h : a.Sound) (path : Option String) (outer : Option Nat) :
    ∀ inner : Section, (a.expand path outer inner).Sound
  | ⟨selectors, attributes, nested, extensions, references, media⟩ => by
    rw [ArenaSession.expand]
    simp only
    split
    · exact Sound.expandAll _ ((h.note _).hostAttributes _ _ outer attributes) _ outer nested
    · obtain ⟨hplaced, hlt⟩ := h.place ⟨[], attributes, extensions, references⟩ path
      generalize (a.alloc ⟨[], attributes, extensions, references⟩).put path a.nodes.size = u at *
      have hrule := (hplaced.register hlt
        (Session.combine selectors (outer.map u.selectors))).modify a.nodes.size
          fun r => { r with selectors := Session.combine selectors (outer.map u.selectors) }
      split
      · exact hrule.body (by simpa [ArenaSession.modify, ArenaSession.register] using hlt) nested
      · exact Sound.expandAll _ hrule path _ nested
theorem Sound.expandAll (a : ArenaSession) (h : a.Sound) (path : Option String)
    (outer : Option Nat) : ∀ nested : List Section, (a.expandAll path outer nested).Sound
  | [] => by
    rw [ArenaSession.expandAll]
    exact h
  | inner :: rest => by
    rw [ArenaSession.expandAll]
    exact Sound.expandAll _ (Sound.expand a h path outer inner) path outer rest
end

theorem Sound.declare (h : a.Sound) (d : Declaration) : (a.declare d).Sound := by
  unfold ArenaSession.declare
  split
  · exact h.note _
  · exact ⟨h.forest, h.targets⟩

theorem Sound.merge (h : a.Sound) (sheet : Sheet) : (a.merge sheet).Sound := by
  have htemplates : (sheet.templates.foldl addTemplate a).Sound :=
    List.foldlRecOn _ _ h fun _ hu _ _ => ⟨hu.forest, hu.targets⟩
  have hdeclared : (sheet.declarations.foldl ArenaSession.declare
      (sheet.templates.foldl addTemplate a)).Sound :=
    List.foldlRecOn _ _ htemplates fun _ hu d _ => hu.declare d
  exact Sound.expandAll _ hdeclared none none sheet.sections

/-! Owners -/

/-- Where numbers of rules stand: among the containers, among the sections or inside a rule. -/
def owners (a : ArenaSession) : List Nat :=
  a.containers.map (·.2) ++ a.sections ++ a.nodes.toList.flatMap (·.children)

/-- Every number is that of a rule, every rule stands in one place, and none stands inside
itself. -/
structure Owned (a : ArenaSession) : Prop where
  valid_sections : ∀ id ∈ a.sections, id < a.nodes.size
  valid_containers : ∀ entry ∈ a.containers, entry.2 < a.nodes.size
  valid_targets : ∀ entry ∈ a.targets, entry.2 < a.nodes.size
  valid_children : ∀ node ∈ a.nodes, ∀ id ∈ node.children, id < a.nodes.size
  once : ∀ id < a.nodes.size, a.owners.count id = 1
  acyclic : ∀ id, ¬ Relation.TransGen
    (fun outer inner => ∃ node : RuleNode, a.nodes[outer]? = some node ∧ inner ∈ node.children)
    id id

theorem flatMap_inside_range (nodes : Array RuleNode) :
    (List.range nodes.size).flatMap (fun i => (Arena.inside? nodes i).getD []) =
      nodes.toList.flatMap (·.children) := by
  obtain ⟨nodes⟩ := nodes
  induction nodes with
  | nil => rfl
  | cons node rest ih =>
    simp only [Arena.inside?, List.getElem?_toArray, List.size_toArray] at ih ⊢
    simp [List.range_succ_eq_map, List.flatMap_map, ih]

theorem Sound.owners_perm (h : a.Sound) : a.owners.Perm (List.range a.nodes.size) := by
  obtain ⟨order, hspans, horder⟩ := h.forest
  have hinside := horder.flatMap_right fun i => (Arena.inside? a.nodes i).getD []
  rw [flatMap_inside_range] at hinside
  exact (hinside.append_left a.roots).symm.trans (hspans.perm_inside.symm.trans horder)

private theorem not_cyclic_of_acc {r : Nat → Nat → Prop} (h : Acc (fun i o => r o i) id) :
    ¬ Relation.TransGen r id id := by
  induction h with
  | intro x _ ih =>
    intro hcycle
    obtain ⟨y, hxy, hyx⟩ := Relation.TransGen.head'_iff.1 hcycle
    exact ih y hxy (Relation.TransGen.tail' hyx hxy)

theorem Sound.owned (h : a.Sound) : a.Owned := by
  have hvalid : ∀ id ∈ a.owners, id < a.nodes.size := fun id hid =>
    List.mem_range.1 (h.owners_perm.mem_iff.1 hid)
  constructor
  · intro id hid
    exact hvalid id (by simp [owners, hid])
  · intro entry hin
    exact hvalid entry.2 (List.mem_append_left _ (List.mem_append_left _ (List.mem_map_of_mem hin)))
  · exact h.targets
  · intro node hn id hid
    refine hvalid id (List.mem_append_right _ (List.mem_flatMap.2 ⟨node, ?_, hid⟩))
    simpa using hn
  · intro id hid
    rw [h.owners_perm.count_eq]
    exact List.count_eq_one_of_mem List.nodup_range (List.mem_range.2 hid)
  · intro id hcycle
    obtain ⟨inner, ⟨node, hn, -⟩, -⟩ := Relation.TransGen.head'_iff.1 hcycle
    obtain ⟨order, hspans, horder⟩ := h.forest
    have hmem : id ∈ order := by
      rw [horder.mem_iff, List.mem_range]
      exact (Array.getElem?_eq_some_iff.1 hn).1
    refine not_cyclic_of_acc (hspans.acc hmem) (Relation.TransGen.mono ?_ _ _ hcycle)
    rintro outer inner ⟨node, hn, hin⟩
    simpa [Arena.inside?, hn] using hin

/-! The pass -/

/-- The rules of an arena are still there, with the same rules inside them, extensions and
references. -/
def Keeps (a b : ArenaSession) : Prop :=
  ∀ (id : Nat) (node : RuleNode), a.nodes[id]? = some node →
    ∃ kept : RuleNode, b.nodes[id]? = some kept ∧ kept.children = node.children ∧
      kept.rule.extensions = node.rule.extensions ∧ kept.rule.references = node.rule.references

theorem Keeps.refl (a : ArenaSession) : a.Keeps a := fun _ node hn => ⟨node, hn, rfl, rfl, rfl⟩

theorem Keeps.trans (h : a.Keeps b) (k : b.Keeps c) : a.Keeps c := by
  intro id node hn
  obtain ⟨mid, hmid, hchildren, hextensions, hreferences⟩ := h id node hn
  obtain ⟨kept, hkept, kchildren, kextensions, kreferences⟩ := k id mid hmid
  exact ⟨kept, hkept, kchildren.trans hchildren, kextensions.trans hextensions,
    kreferences.trans hreferences⟩

/-- A step of the pass keeps the rules with what stands inside them, and the rules it stores are
sections of their own. -/
structure Steps (a b : ArenaSession) : Prop where
  keeps : a.Keeps b
  forest : Forest a.nodes a.sections → Forest b.nodes b.sections

theorem Steps.refl (a : ArenaSession) : a.Steps a := ⟨.refl a, id⟩

theorem Steps.trans (h : a.Steps b) (k : b.Steps c) : a.Steps c :=
  ⟨h.keeps.trans k.keeps, fun hf => k.forest (h.forest hf)⟩

theorem Steps.foldl {α : Type} {f : ArenaSession → α → ArenaSession} (h : ∀ a x, Steps a (f a x))
    (a : ArenaSession) (xs : List α) : a.Steps (xs.foldl f a) := by
  induction xs generalizing a with
  | nil => exact .refl a
  | cons x rest ih => exact (h a x).trans (ih _)

theorem note_steps (a : ArenaSession) (events : List Event) : a.Steps (a.note events) :=
  ⟨.refl a, id⟩

theorem modify_steps (a : ArenaSession) (id : Nat) {f : Rule → Rule}
    (hf : ∀ r, (f r).extensions = r.extensions ∧ (f r).references = r.references) :
    a.Steps (a.modify id f) := by
  constructor
  · intro i node hn
    by_cases hi : i = id
    · refine ⟨{ node with rule := f node.rule }, ?_, rfl, hf node.rule⟩
      subst hi
      simp [ArenaSession.modify, Arena.modifyRule, Array.getElem?_modify, hn]
    · refine ⟨node, ?_, rfl, rfl, rfl⟩
      simpa [ArenaSession.modify, Arena.modifyRule, Array.getElem?_modify, Ne.symm hi] using hn
  · exact fun h => h.modifyRule

theorem append_steps (a : ArenaSession) (rule : Rule) : a.Steps (a.append rule) := by
  constructor
  · intro i node hn
    refine ⟨node, ?_, rfl, rfl, rfl⟩
    have hlt := (Array.getElem?_eq_some_iff.1 hn).1
    simpa [append, alloc, Array.getElem?_push, Nat.ne_of_lt hlt] using hn
  · intro h
    exact Forest.push (by rw [List.append_nil]; exact h)

theorem extend_steps (id : Nat) (a : ArenaSession) (target : String) :
    a.Steps (a.extend id target) := by
  unfold extend
  split
  · exact a.modify_steps _ fun r => ⟨rfl, rfl⟩
  · exact a.note_steps _

theorem applyTemplate_steps (a : ArenaSession) (id : Nat) (r : Reference) (t : Template) :
    a.Steps (a.applyTemplate id r t) := by
  refine (a.modify_steps id ?_).trans ((Steps.foldl append_steps _ _).trans (note_steps _ _))
  exact fun r => ⟨rfl, rfl⟩

theorem applyReferences_steps (a : ArenaSession) (id : Nat) (references : List Reference) :
    a.Steps (a.applyReferences id references) := by
  induction references generalizing a with
  | nil => exact .refl a
  | cons r rest ih =>
    rw [applyReferences]
    split
    · exact a.note_steps _
    · exact (a.applyTemplate_steps id r _).trans (ih _)

theorem evalFirst_steps (a : ArenaSession) (id count : Nat) : a.Steps (a.evalFirst id count) := by
  refine (a.modify_steps id ?_).trans (note_steps _ _)
  exact fun r => ⟨rfl, rfl⟩

theorem compileOne_steps (a : ArenaSession) (id : Nat) : a.Steps (a.compileOne id) := by
  unfold compileOne
  split
  · exact .refl a
  · next node _ =>
    have hextended := Steps.foldl (extend_steps id) a node.rule.extensions
    have hcalled := hextended.trans (applyReferences_steps _ id node.rule.references)
    exact hcalled.trans (evalFirst_steps _ id _)

theorem Visits.steps (h : Visits a ids order b) : a.Steps b := by
  induction h with
  | done a => exact .refl a
  | visit _ _ _ ihinside ihrest => exact ((compileOne_steps _ _).trans ihinside).trans ihrest

theorem Visits.unique {order' : List Nat} {b' : ArenaSession} (h : Visits a ids order b)
    (k : Visits a ids order' b') : order' = order ∧ b' = b := by
  induction h generalizing order' b' with
  | done a =>
    cases k
    exact ⟨rfl, rfl⟩
  | visit hn _ _ ihinside ihrest =>
    cases k with
    | visit kn kinside krest =>
      rw [hn] at kn
      cases kn
      obtain ⟨rfl, rfl⟩ := ihinside kinside
      obtain ⟨rfl, rfl⟩ := ihrest krest
      exact ⟨rfl, rfl⟩

/-- Visits follow what stands inside the rules before the pass, since no visit changes it. -/
theorem exists_visits (h : Spans a.nodes ids order) (k : a.Keeps b) :
    ∃ c, Visits b ids order c := by
  induction h generalizing b with
  | nil => exact ⟨b, .done b⟩
  | @cons id _ _ _ _ hid _ _ ihinside ihrest =>
    obtain ⟨node, hn, rfl⟩ := Option.map_eq_some_iff.1 hid
    have hone := k.trans (b.compileOne_steps id).keeps
    obtain ⟨kept, hkept, hchildren, -⟩ := hone id node hn
    obtain ⟨mid, hmid⟩ := ihinside hone
    obtain ⟨c, hc⟩ := ihrest (hone.trans hmid.steps.keeps)
    rw [← hchildren] at hmid
    exact ⟨c, .visit hkept hmid hc⟩

/-! The output -/

theorem Finishes.unique {nodes : Array RuleNode} {order' : List Nat} {rules rules' : List FlatRule}
    {dropped dropped' : List (List Selector)} (h : Finishes nodes ids order rules dropped)
    (k : Finishes nodes ids order' rules' dropped') :
    order' = order ∧ rules' = rules ∧ dropped' = dropped := by
  induction h generalizing order' rules' dropped' with
  | done =>
    cases k
    exact ⟨rfl, rfl, rfl⟩
  | rule hn _ _ ihinside ihrest =>
    cases k with
    | rule kn kinside krest =>
      rw [hn] at kn
      cases kn
      obtain ⟨rfl, rfl, rfl⟩ := ihinside kinside
      obtain ⟨rfl, rfl, rfl⟩ := ihrest krest
      exact ⟨rfl, rfl, rfl⟩

theorem exists_finishes {nodes : Array RuleNode} (h : Spans nodes ids order) :
    ∃ rules dropped, Finishes nodes ids order rules dropped := by
  induction h with
  | nil => exact ⟨[], [], .done⟩
  | cons hid _ _ ihinside ihrest =>
    obtain ⟨node, hn, rfl⟩ := Option.map_eq_some_iff.1 hid
    obtain ⟨children, dropped, hinside⟩ := ihinside
    obtain ⟨rules, others, hrest⟩ := ihrest
    exact ⟨_, _, .rule hn hinside hrest⟩

end ArenaSession

end NestedStyles
