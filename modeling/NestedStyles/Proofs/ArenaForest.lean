import NestedStyles.Proofs.Arena
import Mathlib.Data.List.Nodup
import Mathlib.Data.List.Perm.Basic
import Mathlib.Logic.Relation

/-!
Arenas as forests. The invariant does not compare numbers, since rules are older or newer than what
stands inside them: the rules reached from some roots, each before those inside it, are all rules of
the arena, each reached once. A stored rule is a root until its number is put into another rule.
-/

namespace NestedStyles

namespace Arena

variable {nodes others : Array RuleNode} {id child outer x : Nat}
  {ids roots rest order more inner : List Nat}

def inside? (nodes : Array RuleNode) (id : Nat) : Option (List Nat) :=
  nodes[id]?.map (·.children)

/-- The rules `ids` and all that stands inside them, each before those inside it. -/
inductive Spans (nodes : Array RuleNode) : List Nat → (order : List Nat) → Prop
  | nil : Spans nodes [] []
  | cons {id : Nat} {children rest inside order : List Nat} : inside? nodes id = some children →
      Spans nodes children inside → Spans nodes rest order →
      Spans nodes (id :: rest) (id :: inside ++ order)

namespace Spans

theorem append (h : Spans nodes ids order) (k : Spans nodes rest more) :
    Spans nodes (ids ++ rest) (order ++ more) := by
  induction h with
  | nil => exact k
  | cons hid hinside _ _ ih =>
    have hall := Spans.cons hid hinside ih
    simpa using hall

theorem split (h : Spans nodes (ids ++ rest) order) :
    ∃ first second, order = first ++ second ∧ Spans nodes ids first ∧ Spans nodes rest second := by
  induction ids generalizing order with
  | nil => exact ⟨[], order, rfl, .nil, h⟩
  | cons id ids ih =>
    cases h with
    | cons hid hinside hrest =>
      obtain ⟨first, second, rfl, hfirst, hsecond⟩ := ih hrest
      exact ⟨_, second, by simp, .cons hid hinside hfirst, hsecond⟩

theorem unique (h : Spans nodes ids order) (k : Spans nodes ids more) : more = order := by
  induction h generalizing more with
  | nil =>
    cases k
    rfl
  | cons hid _ _ ihinside ihrest =>
    cases k with
    | cons kid kinside krest =>
      rw [hid] at kid
      cases kid
      rw [ihinside kinside, ihrest krest]

theorem congr (h : Spans nodes ids order) (k : ∀ i ∈ order, inside? others i = inside? nodes i) :
    Spans others ids order := by
  induction h with
  | nil => exact .nil
  | cons hid _ _ ihinside ihrest =>
    refine .cons ?_ (ihinside fun i hi => k i (by simp [hi]))
      (ihrest fun i hi => k i (by simp [hi]))
    rw [k _ (by simp), hid]

theorem mem_of_root (h : Spans nodes ids order) (hid : id ∈ ids) : id ∈ order := by
  induction h with
  | nil => exact hid
  | cons _ _ _ _ ih =>
    rcases List.mem_cons.1 hid with rfl | hid
    · simp
    · simp [ih hid]

theorem lt_size (h : Spans nodes ids order) (hx : x ∈ order) : x < nodes.size := by
  induction h with
  | nil => cases hx
  | cons hid _ _ ihinside ihrest =>
    simp only [List.cons_append, List.mem_cons, List.mem_append] at hx
    rcases hx with rfl | hx | hx
    · obtain ⟨node, hn, -⟩ := Option.map_eq_some_iff.1 hid
      exact (Array.getElem?_eq_some_iff.1 hn).1
    · exact ihinside hx
    · exact ihrest hx

theorem perm (h : Spans nodes ids order) (p : ids.Perm rest) :
    ∃ more, Spans nodes rest more ∧ order.Perm more := by
  induction p generalizing order with
  | nil => exact ⟨order, h, .refl _⟩
  | cons id _ ih =>
    cases h with
    | cons hid hinside hrest =>
      obtain ⟨more, hmore, hperm⟩ := ih hrest
      exact ⟨_, .cons hid hinside hmore, (hperm.append_left _).cons _⟩
  | swap x y rest =>
    cases h with
    | cons hy hinside h =>
      cases h with
      | cons hx hinner hrest =>
        refine ⟨_, .cons hx hinner (.cons hy hinside hrest), ?_⟩
        rw [List.perm_iff_count]
        intro i
        simp only [List.count_cons, List.cons_append, List.count_append]
        omega
  | trans _ _ ih₁ ih₂ =>
    obtain ⟨more, hmore, hperm⟩ := ih₁ h
    obtain ⟨last, hlast, hperm'⟩ := ih₂ hmore
    exact ⟨last, hlast, hperm.trans hperm'⟩

theorem perm_inside (h : Spans nodes ids order) :
    order.Perm (ids ++ order.flatMap fun i => (inside? nodes i).getD []) := by
  induction h with
  | nil => exact .nil
  | cons hid _ _ ihinside ihrest =>
    rw [List.perm_iff_count] at *
    intro i
    have hi := ihinside i
    have hr := ihrest i
    simp only [List.flatMap_cons, List.flatMap_append, hid, Option.getD_some, List.cons_append,
      List.count_cons, List.count_append] at *
    omega

theorem acc (h : Spans nodes ids order) (hx : x ∈ order) :
    Acc (fun i o => i ∈ (inside? nodes o).getD []) x := by
  induction h generalizing x with
  | nil => cases hx
  | cons hid hinside _ ihinside ihrest =>
    simp only [List.cons_append, List.mem_cons, List.mem_append] at hx
    rcases hx with rfl | hx | hx
    · refine .intro _ fun i hi => ?_
      rw [hid, Option.getD_some] at hi
      exact ihinside (hinside.mem_of_root hi)
    · exact ihinside hx
    · exact ihrest hx

end Spans

/-! Numbers put into rules -/

theorem getElem?_pushChild (outer child i : Nat) :
    (pushChild nodes outer child)[i]? =
      if i = outer then
        nodes[i]?.map fun node => { node with children := node.children ++ [child] }
      else nodes[i]? := by
  simp only [pushChild, Array.getElem?_modify, eq_comm (a := outer)]

theorem getElem?_modifyRule (f : Rule → Rule) (i : Nat) :
    (modifyRule nodes id f)[i]? =
      if i = id then nodes[i]?.map fun node => { node with rule := f node.rule }
      else nodes[i]? := by
  simp only [modifyRule, Array.getElem?_modify, eq_comm (a := id)]

@[simp] theorem size_pushChild : (pushChild nodes outer child).size = nodes.size := by
  simp [pushChild]

theorem inside?_pushChild (i : Nat) :
    inside? (pushChild nodes outer child) i =
      if i = outer then (inside? nodes i).map (· ++ [child]) else inside? nodes i := by
  simp only [inside?, getElem?_pushChild]
  split <;> simp [Function.comp_def]

/-- What the rule `child` leads to is met once more for every time that `outer` is met. -/
theorem Spans.pushChild (h : Spans nodes ids order) (k : Spans nodes [child] inner)
    (hout : outer ∉ inner) :
    ∃ more, Spans (pushChild nodes outer child) ids more ∧
      ∀ x, more.count x = order.count x + order.count outer * inner.count x := by
  have hchild : Spans (Arena.pushChild nodes outer child) [child] inner := by
    refine k.congr fun i hi => ?_
    rw [inside?_pushChild, if_neg]
    rintro rfl
    exact hout hi
  induction h with
  | nil => exact ⟨[], .nil, by simp⟩
  | @cons id children rest inside order hid _ _ ihinside ihrest =>
    obtain ⟨within, hwithin, hcount⟩ := ihinside
    obtain ⟨after, hafter, hcount'⟩ := ihrest
    by_cases ho : id = outer
    · have hnew : inside? (Arena.pushChild nodes outer child) id = some (children ++ [child]) := by
        rw [inside?_pushChild, if_pos ho, hid]
        rfl
      refine ⟨_, .cons hnew (hwithin.append hchild) hafter, fun x => ?_⟩
      simp only [ho, List.cons_append, List.count_cons, List.count_append, hcount, hcount',
        beq_self_eq_true, if_true, Nat.add_mul, Nat.one_mul]
      omega
    · have hold : inside? (Arena.pushChild nodes outer child) id = some children := by
        rw [inside?_pushChild, if_neg ho, hid]
      refine ⟨_, .cons hold hwithin hafter, fun x => ?_⟩
      simp only [ho, List.cons_append, List.count_cons, List.count_append, hcount, hcount',
        beq_iff_eq, if_false, Nat.add_mul, Nat.add_zero]
      omega

theorem inside?_push_of_lt {node : RuleNode} {i : Nat} (h : i < nodes.size) :
    inside? (nodes.push node) i = inside? nodes i := by
  simp [inside?, Array.getElem?_push, Nat.ne_of_lt h]

theorem inside?_modifyRule {f : Rule → Rule} (i : Nat) :
    inside? (modifyRule nodes id f) i = inside? nodes i := by
  simp only [inside?, getElem?_modifyRule]
  split <;> simp [Function.comp_def]

@[simp] theorem size_modifyRule {f : Rule → Rule} : (modifyRule nodes id f).size = nodes.size := by
  simp [modifyRule]

/-- The rules reached from `roots` are all rules of the arena, each reached once. -/
def Forest (nodes : Array RuleNode) (roots : List Nat) : Prop :=
  ∃ order, Spans nodes roots order ∧ order.Perm (List.range nodes.size)

namespace Forest

variable {kids : List Nat} {rule : Rule}

theorem empty : Forest #[] [] := ⟨[], .nil, by simp⟩

theorem perm (h : Forest nodes roots) (p : roots.Perm rest) : Forest nodes rest := by
  obtain ⟨order, hspans, horder⟩ := h
  obtain ⟨more, hmore, hperm⟩ := hspans.perm p
  exact ⟨more, hmore, hperm.symm.trans horder⟩

theorem congr (h : Forest nodes roots) (hsize : others.size = nodes.size)
    (k : ∀ i, inside? others i = inside? nodes i) : Forest others roots := by
  obtain ⟨order, hspans, horder⟩ := h
  exact ⟨order, hspans.congr fun i _ => k i, by rwa [hsize]⟩

theorem modifyRule {f : Rule → Rule} (h : Forest nodes roots) :
    Forest (modifyRule nodes id f) roots :=
  h.congr size_modifyRule fun i => inside?_modifyRule i

theorem push (h : Forest nodes (roots ++ kids)) :
    Forest (nodes.push ⟨rule, kids⟩) (roots ++ [nodes.size]) := by
  obtain ⟨order, hspans, horder⟩ := h
  have hold : Spans (nodes.push ⟨rule, kids⟩) (roots ++ kids) order :=
    hspans.congr fun i hi => inside?_push_of_lt (hspans.lt_size hi)
  obtain ⟨first, second, rfl, hfirst, hsecond⟩ := hold.split
  have hnew : inside? (nodes.push ⟨rule, kids⟩) nodes.size = some kids := by
    simp [inside?]
  refine ⟨_, hfirst.append (.cons hnew hsecond .nil), ?_⟩
  rw [Array.size_push, List.range_succ, List.append_nil]
  refine List.Perm.trans ?_ (horder.append_right [nodes.size])
  rw [List.append_assoc]
  exact List.Perm.append_left first (List.perm_append_singleton _ _).symm

/-- A root is put into a rule that it does not lead to. -/
theorem pushChild (h : Forest nodes (roots ++ [child])) (hlt : outer < nodes.size)
    (hout : ∀ inner, Spans nodes [child] inner → outer ∉ inner) :
    Forest (pushChild nodes outer child) roots := by
  obtain ⟨order, hspans, horder⟩ := h
  obtain ⟨first, inner, rfl, hfirst, hinner⟩ := hspans.split
  have hnotin := hout inner hinner
  have honce : first.count outer = 1 := by
    have hcount := horder.count_eq outer
    rw [List.count_append, List.count_eq_zero.2 hnotin] at hcount
    rw [show first.count outer = _ from hcount]
    exact List.count_eq_one_of_mem List.nodup_range (List.mem_range.2 hlt)
  obtain ⟨more, hmore, hcount⟩ := hfirst.pushChild hinner hnotin
  refine ⟨more, hmore, ?_⟩
  rw [size_pushChild]
  refine List.Perm.trans (List.perm_iff_count.2 fun x => ?_) horder
  rw [hcount, honce, Nat.one_mul, List.count_append]

theorem not_mem_of_root (h : Forest nodes (roots ++ [child])) (hroot : outer ∈ roots)
    (hinner : Spans nodes [child] inner) : outer ∉ inner := by
  obtain ⟨order, hspans, horder⟩ := h
  obtain ⟨first, second, rfl, hfirst, hsecond⟩ := hspans.split
  rw [hsecond.unique hinner]
  intro hin
  have hnodup : (first ++ second).Nodup := horder.nodup_iff.2 List.nodup_range
  exact (List.nodup_append.1 hnodup).2.2 _ (hfirst.mem_of_root hroot) _ hin rfl

theorem lt_size_of_root (h : Forest nodes roots) (hid : id ∈ roots) : id < nodes.size := by
  obtain ⟨order, hspans, -⟩ := h
  exact hspans.lt_size (hspans.mem_of_root hid)

theorem lt_size_of_child {node : RuleNode}
    (h : Forest nodes roots) (hn : nodes[id]? = some node) (hc : child ∈ node.children) :
    child < nodes.size := by
  obtain ⟨order, hspans, horder⟩ := h
  have hid : id ∈ order := by
    rw [horder.mem_iff, List.mem_range]
    exact (Array.getElem?_eq_some_iff.1 hn).1
  refine hspans.lt_size (hspans.perm_inside.mem_iff.2 (List.mem_append_right _ ?_))
  exact List.mem_flatMap.2 ⟨id, hid, by simpa [inside?, hn] using hc⟩

end Forest

/-! Bodies of at-rules -/

/-- The rules `ids` and what stands inside them are these trees. -/
inductive Builds (nodes : Array RuleNode) :
    List Nat → List RuleTree → (order : List Nat) → Prop
  | nil : Builds nodes [] [] []
  | cons {id : Nat} {rule : Rule} {children rest inside order : List Nat}
      {within trees : List RuleTree} : nodes[id]? = some ⟨rule, children⟩ →
      Builds nodes children within inside → Builds nodes rest trees order →
      Builds nodes (id :: rest) (⟨rule, within⟩ :: trees) (id :: inside ++ order)

namespace Builds

variable {trees others' : List RuleTree}

theorem spans (h : Builds nodes ids trees order) : Spans nodes ids order := by
  induction h with
  | nil => exact .nil
  | cons hid _ _ ihinside ihrest => exact .cons (by simp [inside?, hid]) ihinside ihrest

theorem append (h : Builds nodes ids trees order) (k : Builds nodes rest others' more) :
    Builds nodes (ids ++ rest) (trees ++ others') (order ++ more) := by
  induction h with
  | nil => exact k
  | cons hid hinside _ _ ih =>
    have hall := Builds.cons hid hinside ih
    simpa using hall

theorem congr (h : Builds nodes ids trees order) (k : ∀ i ∈ order, others[i]? = nodes[i]?) :
    Builds others ids trees order := by
  induction h with
  | nil => exact .nil
  | cons hid _ _ ihinside ihrest =>
    refine .cons ?_ (ihinside fun i hi => k i (by simp [hi]))
      (ihrest fun i hi => k i (by simp [hi]))
    rw [k _ (by simp), hid]

end Builds

/-- `others` is `nodes` with the rules of these trees and nothing else. -/
structure Stores (nodes others : Array RuleNode) (ids : List Nat) (trees : List RuleTree) :
    Prop where
  kept : ∀ i < nodes.size, others[i]? = nodes[i]?
  new : ∃ order, Builds others ids trees order ∧
    (List.range nodes.size ++ order).Perm (List.range others.size)

theorem Stores.size_le {trees : List RuleTree} (h : Stores nodes others ids trees) :
    nodes.size ≤ others.size := by
  obtain ⟨order, -, hperm⟩ := h.new
  have hlength := hperm.length_eq
  simp only [List.length_append, List.length_range] at hlength
  omega

theorem nestedRules_cons (inner : Section) (rest : List Section) :
    nestedRules nodes (inner :: rest) =
      ((nestedRules (nestedRule nodes inner).1 rest).1,
        (nestedRule nodes inner).2 :: (nestedRules (nestedRule nodes inner).1 rest).2) := by
  rw [nestedRules]

mutual
theorem nestedRule_stores (nodes : Array RuleNode) : ∀ inner : Section,
    Stores nodes (nestedRule nodes inner).1 [(nestedRule nodes inner).2]
      [RuleTree.ofSection inner]
  | ⟨selectors, attributes, nested, extensions, references, media⟩ => by
    rw [nestedRule, RuleTree.ofSection]
    obtain ⟨hkept, order, hbuilds, hperm⟩ := nestedRules_stores nodes nested
    have hle := Stores.size_le ⟨hkept, order, hbuilds, hperm⟩
    generalize nestedRules nodes nested = stored at *
    obtain ⟨within, children⟩ := stored
    let node : RuleNode := ⟨⟨selectors, attributes, extensions, references⟩, children⟩
    have hold : ∀ i < within.size, (within.push node)[i]? = within[i]? := by
      intro i hi
      rw [Array.getElem?_push, if_neg (Nat.ne_of_lt hi)]
    constructor
    · intro i hi
      exact (hold i (Nat.lt_of_lt_of_le hi hle)).trans (hkept i hi)
    · have hnew : (within.push node)[within.size]? = some node := by simp
      have hinside := hbuilds.congr fun i hi => hold i (hbuilds.spans.lt_size hi)
      refine ⟨_, .cons hnew hinside .nil, ?_⟩
      rw [Array.size_push, List.range_succ, List.append_nil]
      exact List.perm_middle.trans ((hperm.cons _).trans (List.perm_append_singleton _ _).symm)
theorem nestedRules_stores (nodes : Array RuleNode) : ∀ nested : List Section,
    Stores nodes (nestedRules nodes nested).1 (nestedRules nodes nested).2
      (RuleTree.ofSections nested)
  | [] => by
    rw [nestedRules, RuleTree.ofSections]
    exact ⟨fun i _ => rfl, [], .nil, by simp⟩
  | inner :: rest => by
    rw [nestedRules_cons, RuleTree.ofSections]
    have hfirst := nestedRule_stores nodes inner
    have hrest := nestedRules_stores (nestedRule nodes inner).1 rest
    obtain ⟨order, hbuilds, hperm⟩ := hfirst.new
    obtain ⟨more, hmore, hperm'⟩ := hrest.new
    constructor
    · intro i hi
      exact (hrest.kept i (Nat.lt_of_lt_of_le hi hfirst.size_le)).trans (hfirst.kept i hi)
    · have hkept := hbuilds.congr fun i hi => hrest.kept i (hbuilds.spans.lt_size hi)
      refine ⟨_, hkept.append hmore, ?_⟩
      rw [← List.append_assoc]
      exact (hperm.append_right more).trans hperm'
end

theorem Stores.forest {trees : List RuleTree} (h : Stores nodes others ids trees)
    (k : Forest nodes roots) : Forest others (roots ++ ids) := by
  obtain ⟨order, hspans, horder⟩ := k
  obtain ⟨more, hbuilds, hperm⟩ := h.new
  have hkept : Spans others roots order := by
    refine hspans.congr fun i hi => ?_
    rw [inside?, inside?, h.kept i (hspans.lt_size hi)]
  exact ⟨_, hkept.append hbuilds.spans, (horder.append_right more).trans hperm⟩

theorem Stores.not_mem {trees : List RuleTree} (h : Stores nodes others ids trees)
    (hlt : outer < nodes.size) (hinner : Spans others ids inner) : outer ∉ inner := by
  obtain ⟨order, hbuilds, hperm⟩ := h.new
  rw [hbuilds.spans.unique hinner]
  intro hin
  have hnodup := hperm.nodup_iff.2 List.nodup_range
  exact (List.nodup_append.1 hnodup).2.2 _ (List.mem_range.2 hlt) _ hin rfl

end Arena

end NestedStyles
