import NestedStyles.FlatRule

/-!
The rules of a session. Rules are numbered as they are made, and a rule can be inside another one;
what stands inside a rule is made after it.
-/

namespace NestedStyles

structure Rule where
  selectors : List Selector := []
  attributes : List Attribute := []
  extensions : List String := []
  references : List Reference := []
  deriving DecidableEq, Repr

/-- A rule and the rules directly inside it. -/
structure RuleNode where
  rule : Rule
  children : List Nat := []
  deriving DecidableEq, Repr

structure RuleTable where
  nodes : Array RuleNode
  later : ∀ (id : Nat) (node : RuleNode), nodes[id]? = some node →
    ∀ child ∈ node.children, id < child ∧ child < nodes.size

namespace RuleTable

def empty : RuleTable where
  nodes := #[]
  later := by simp

def size (t : RuleTable) : Nat := t.nodes.size

def rule? (t : RuleTable) (id : Nat) : Option Rule := t.nodes[id]?.map (·.rule)

def selectors (t : RuleTable) (id : Nat) : List Selector := ((t.rule? id).map (·.selectors)).getD []

/-- Adds a rule that stands in no other. Its number is the size of the table before. -/
def push (t : RuleTable) (rule : Rule) : RuleTable where
  nodes := t.nodes.push ⟨rule, []⟩
  later := by
    intro id node h child hc
    rw [Array.getElem?_push] at h
    split at h
    · simp at h; simp [← h] at hc
    · have := t.later id node h child hc
      simp; omega

def pushInto (t : RuleTable) (parent : Nat) (rule : Rule) : RuleTable where
  nodes := (t.nodes.modify parent fun node =>
    { node with children := node.children ++ [t.nodes.size] }).push ⟨rule, []⟩
  later := by
    intro id node h child hc
    rw [Array.getElem?_push] at h
    split at h
    · simp at h; simp [← h] at hc
    · rw [Array.getElem?_modify] at h
      split at h
      · next hp =>
        simp only [Option.map_eq_some_iff] at h
        obtain ⟨n, hn, rfl⟩ := h
        have hlt : id < t.nodes.size := by
          simpa using (Array.getElem?_eq_some_iff.1 hn).1
        simp only [List.mem_append, List.mem_singleton] at hc
        rcases hc with hc | rfl
        · have := t.later id n hn child hc
          simp; omega
        · simp; omega
      · have := t.later id node h child hc
        simp; omega

def modify (t : RuleTable) (id : Nat) (f : Rule → Rule) : RuleTable where
  nodes := t.nodes.modify id fun node => { node with rule := f node.rule }
  later := by
    intro i node h child hc
    rw [Array.getElem?_modify] at h
    split at h
    · simp only [Option.map_eq_some_iff] at h
      obtain ⟨n, hn, rfl⟩ := h
      simpa using t.later i n hn child hc
    · simpa using t.later i node h child hc

/-- A rule and all that stands inside it, every rule before those inside it. -/
def preorder (t : RuleTable) (id : Nat) : List Nat :=
  match h : t.nodes[id]? with
  | none => []
  | some node =>
    id :: node.children.attach.flatMap fun child =>
      have := t.later id node h child.1 child.2
      t.preorder child.1
termination_by t.nodes.size - id

def tree (t : RuleTable) (id : Nat) : FlatRule :=
  match h : t.nodes[id]? with
  | none => {}
  | some node =>
    ⟨node.rule.selectors, node.rule.attributes,
      node.children.attach.map fun child =>
        have := t.later id node h child.1 child.2
        t.tree child.1⟩
termination_by t.nodes.size - id

end RuleTable

end NestedStyles
