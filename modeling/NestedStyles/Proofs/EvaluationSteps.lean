import NestedStyles.Proofs.Dependencies
import Mathlib.Data.List.Dedup

/-!
Evaluation step by step. An evaluation is taken apart into single pieces of work, with the names
whose values are being evaluated as a stack that is pushed and popped. At every moment the names on
the stack are bound and no two of them are equal; every piece of evaluation that is started comes to
its end, with the stack as it was and with new names only at the end of the reports.
-/

namespace NestedStyles

namespace Evaluation

inductive Task
  | eval (e : Expr) (scope : Scope)
  /-- A call that takes the newest values as its arguments. -/
  | answer (name : String) (count : Nat)
  /-- A list that takes the newest values as its items. -/
  | gather (separator : Separator) (count : Nat)
  /-- The value of the newest name on the stack is evaluated. -/
  | leave
  deriving DecidableEq, Repr

/-- An evaluation at one moment: the work that is left, the next first, the values so far, the
newest first, the stack of the names whose values are being evaluated, and what was met. -/
structure Moment where
  tasks : List Task
  values : List Expr := []
  resolving : List String := []
  trace : Trace := {}
  deriving DecidableEq, Repr

def Moment.next (calls : Evaluator) (m : Moment) : Option Moment :=
  match m.tasks with
  | [] => none
  | .eval e scope :: rest =>
    match e with
    | .text s => some { m with tasks := rest, values := .text s :: m.values }
    | .var name =>
      if name ∈ m.resolving then
        some { m with
          tasks := rest, values := .var name :: m.values, trace := m.trace.addCycle name }
      else
        match scope.lookup name with
        | none =>
          some { m with
            tasks := rest, values := .var name :: m.values, trace := m.trace.addUndefined name }
        | some (value, home) =>
          some { m with
            tasks := .eval value home :: .leave :: rest, resolving := name :: m.resolving }
    | .call name arguments =>
      some { m with
        tasks := arguments.map (.eval · scope) ++ .answer name arguments.length :: rest }
    | .list separator items =>
      some { m with tasks := items.map (.eval · scope) ++ .gather separator items.length :: rest }
  | .answer name count :: rest =>
    some { m with
      tasks := rest
      values := calls name (m.values.take count).reverse :: m.values.drop count }
  | .gather separator count :: rest =>
    some { m with
      tasks := rest
      values := .list separator (m.values.take count).reverse :: m.values.drop count }
  | .leave :: rest => some { m with tasks := rest, resolving := m.resolving.tail }

abbrev Runs (calls : Evaluator) : Moment → Moment → Prop :=
  Relation.ReflTransGen fun m n => m.next calls = some n

variable {calls : Evaluator} {scope : Scope} {resolving : List String}

/-! Every piece of evaluation ends -/

open Expr in
theorem length_traverseAll (calls : Evaluator) (onVar : String → Trace → Expr × Trace)
    (es : List Expr) (trace : Trace) : (traverseAll calls onVar es trace).1.length = es.length := by
  induction es generalizing trace with
  | nil => rfl
  | cons e rest ih => simp [traverseAll, ih]

section Traversal

open Expr

variable {onVar : String → Trace → Expr × Trace}

mutual
theorem runs_traverse
    (hvar : ∀ name rest values trace, Runs calls
      ⟨.eval (.var name) scope :: rest, values, resolving, trace⟩
      ⟨rest, (onVar name trace).1 :: values, resolving, (onVar name trace).2⟩) :
    ∀ (e : Expr) (rest : List Task) (values : List Expr) (trace : Trace), Runs calls
      ⟨.eval e scope :: rest, values, resolving, trace⟩
      ⟨rest, (traverse calls onVar e trace).1 :: values, resolving,
        (traverse calls onVar e trace).2⟩
  | .text s, rest, values, trace => .single rfl
  | .var name, rest, values, trace => hvar name rest values trace
  | .call name arguments, rest, values, trace => by
    have hlength := length_traverseAll calls onVar arguments trace
    refine .head rfl ((runs_traverseAll hvar arguments _ values trace).trans (.single ?_))
    simp [Moment.next, Expr.traverse, ← hlength]
  | .list separator items, rest, values, trace => by
    have hlength := length_traverseAll calls onVar items trace
    refine .head rfl ((runs_traverseAll hvar items _ values trace).trans (.single ?_))
    simp [Moment.next, Expr.traverse, ← hlength]
theorem runs_traverseAll
    (hvar : ∀ name rest values trace, Runs calls
      ⟨.eval (.var name) scope :: rest, values, resolving, trace⟩
      ⟨rest, (onVar name trace).1 :: values, resolving, (onVar name trace).2⟩) :
    ∀ (es : List Expr) (rest : List Task) (values : List Expr) (trace : Trace), Runs calls
      ⟨es.map (.eval · scope) ++ rest, values, resolving, trace⟩
      ⟨rest, (traverseAll calls onVar es trace).1.reverse ++ values, resolving,
        (traverseAll calls onVar es trace).2⟩
  | [], rest, values, trace => .refl
  | e :: es, rest, values, trace => by
    have hfirst := runs_traverse hvar e (es.map (.eval · scope) ++ rest) values trace
    refine hfirst.trans ?_
    simpa [traverseAll] using runs_traverseAll hvar es rest _ _
end

end Traversal

/-- The steps evaluate a variable as it is resolved. The number of names that are bound and not on
the stack falls each time a value is followed, and the budget is above it. -/
theorem runs_resolve {budget : Nat} (hb : scope.unresolved resolving < budget) (name : String)
    (rest : List Task) (values : List Expr) (trace : Trace) : Runs calls
      ⟨.eval (.var name) scope :: rest, values, resolving, trace⟩
      ⟨rest, (Expr.resolve calls budget scope resolving name trace).1 :: values, resolving,
        (Expr.resolve calls budget scope resolving name trace).2⟩ := by
  induction budget generalizing scope resolving name rest values trace with
  | zero => omega
  | succ budget ih =>
    rw [Expr.resolve]
    by_cases hin : name ∈ resolving
    · rw [if_pos hin]
      exact .single (by simp [Moment.next, hin])
    · rw [if_neg hin]
      cases hl : scope.lookup name with
      | none => exact .single (by simp [Moment.next, hin, hl])
      | some found =>
        obtain ⟨value, home⟩ := found
        have hfewer := Scope.unresolved_lt hl hin
        have hvalue : Runs calls
            ⟨.eval value home :: .leave :: rest, values, name :: resolving, trace⟩ _ :=
          runs_traverse (fun m => ih (by omega) m) value (.leave :: rest) values trace
        exact .head (by simp [Moment.next, hin, hl]) (hvalue.trans (.single rfl))

/-! Reports only grow -/

/-- The second trace reports what the first one reports and then other names, each of them once. -/
def ReportsMore (before after : Trace) : Prop :=
  ∃ new, after.cycles = before.cycles ++ new ∧ new.Nodup ∧ ∀ name ∈ new, name ∉ before.cycles

theorem ReportsMore.addCycle {before after : Trace} (h : ReportsMore before after)
    (name : String) : ReportsMore before (after.addCycle name) := by
  unfold Trace.addCycle
  split
  · exact h
  next hnew =>
  obtain ⟨new, heq, hnodup, hother⟩ := h
  rw [heq, List.mem_append, not_or] at hnew
  refine ⟨new ++ [name], by simp [heq], ?_, ?_⟩
  · rw [← List.concat_eq_append]
    exact hnodup.concat hnew.2
  · intro other ho
    rcases List.mem_append.1 ho with ho | ho
    · exact hother other ho
    · rw [List.mem_singleton.1 ho]
      exact hnew.1

theorem reportsMore_traverse {budget : Nat} (e : Expr) (trace : Trace) : ReportsMore trace
    (e.traverse calls (Expr.resolve calls budget scope resolving) trace).2 := by
  refine Expr.traverse_keeps (P := ReportsMore trace) e (fun m _ t ht => ?_) trace
    ⟨[], by simp, List.nodup_nil, by simp⟩
  exact Expr.resolve_keeps (fun _ _ h => h) (fun name _ h => h.addCycle name) t ht

theorem runs_eval (e : Expr) (rest : List Task) (values : List Expr) (trace : Trace) :
    ∃ value after, ReportsMore trace after ∧
      Runs calls ⟨.eval e scope :: rest, values, resolving, trace⟩
        ⟨rest, value :: values, resolving, after⟩ := by
  have hbudget := Nat.lt_succ_self (scope.unresolved resolving)
  exact ⟨_, _, reportsMore_traverse e trace,
    runs_traverse (runs_resolve hbudget) e rest values trace⟩

theorem runs_evalTrace (e : Expr) : Runs calls { tasks := [.eval e scope] }
    ⟨[], [(e.evalTrace calls scope).1], [], (e.evalTrace calls scope).2⟩ := by
  have hsize := scope.unresolved_le_size []
  exact runs_traverse (runs_resolve (by omega)) e [] [] {}

theorem Runs.toward {start m last : Moment} (hm : Runs calls start m)
    (hlast : Runs calls start last) (hend : last.next calls = none) : Runs calls m last := by
  have hunique : Relator.RightUnique fun m n : Moment => m.next calls = some n := by
    intro a b c hb hc
    exact Option.some.inj (hb.symm.trans hc)
  rcases Relation.ReflTransGen.total_of_right_unique hunique hm hlast with h | h
  · exact h
  rcases h.cases_head with rfl | ⟨n, hn, -⟩
  · exact .refl
  · rw [hend] at hn
    cases hn

/-! The stack -/

/-- What a step does to the stack and to the work that is left: a value is made, the parts of an
expression come next, the value of a name comes next, or the value of a name is left. -/
theorem Moment.next_cases {m n : Moment} (h : m.next calls = some n) :
    ∃ task rest, m.tasks = task :: rest ∧
      (n.tasks = rest ∧ n.resolving = m.resolving ∨
      (∃ e s last, ∃ es : List Expr, task = .eval e s ∧ (∀ inner other, last ≠ .eval inner other) ∧
        n.tasks = es.map (.eval · s) ++ last :: rest ∧ n.resolving = m.resolving) ∨
      (∃ name s value home, task = .eval (.var name) s ∧ name ∉ m.resolving ∧
        s.lookup name = some (value, home) ∧ n.tasks = .eval value home :: .leave :: rest ∧
        n.resolving = name :: m.resolving) ∨
      n.tasks = rest ∧ n.resolving = m.resolving.tail) := by
  obtain ⟨tasks, values, resolving, trace⟩ := m
  cases tasks with
  | nil => cases h
  | cons task rest =>
    refine ⟨task, rest, rfl, ?_⟩
    cases task with
    | answer name count =>
      cases h
      exact .inl ⟨rfl, rfl⟩
    | gather separator count =>
      cases h
      exact .inl ⟨rfl, rfl⟩
    | leave =>
      cases h
      exact .inr (.inr (.inr ⟨rfl, rfl⟩))
    | eval e s =>
      cases e with
      | text text =>
        cases h
        exact .inl ⟨rfl, rfl⟩
      | call name arguments =>
        cases h
        exact .inr (.inl ⟨_, s, _, arguments, rfl, by simp, rfl, rfl⟩)
      | list separator items =>
        cases h
        exact .inr (.inl ⟨_, s, _, items, rfl, by simp, rfl, rfl⟩)
      | var name =>
        simp only [Moment.next] at h
        split at h
        · cases h
          exact .inl ⟨rfl, rfl⟩
        next hnew =>
        split at h
        · cases h
          exact .inl ⟨rfl, rfl⟩
        next value home hl =>
        cases h
        exact .inr (.inr (.inl ⟨name, s, value, home, rfl, hnew, hl, rfl, rfl⟩))

/-- The bindings of the first scope are those of the second one from some frame on. -/
def PartOf (s scope : Scope) : Prop :=
  s.bindings ++ s.outer.flatten <:+ scope.bindings ++ scope.outer.flatten

/-- The names on the stack are different and bound in the chain of scopes, and what is left to
evaluate is evaluated in scopes of the chain. -/
structure Moment.Sound (scope : Scope) (m : Moment) : Prop where
  nodup : m.resolving.Nodup
  bound : ∀ name ∈ m.resolving, name ∈ scope.names
  inside : ∀ e s, .eval e s ∈ m.tasks → PartOf s scope

theorem Moment.Sound.start (scope : Scope) (e : Expr) :
    ({ tasks := [.eval e scope] } : Moment).Sound scope := by
  refine ⟨List.nodup_nil, by simp, ?_⟩
  intro inner s hin
  cases List.mem_singleton.1 hin
  exact List.suffix_refl _

theorem Moment.Sound.next {m n : Moment} (h : m.Sound scope) (hn : m.next calls = some n) :
    n.Sound scope := by
  obtain ⟨hnodup, hbound, hinside⟩ := h
  obtain ⟨task, rest, hm, hcases⟩ := Moment.next_cases hn
  rw [hm] at hinside
  have hrest : ∀ e s, .eval e s ∈ rest → PartOf s scope :=
    fun e s hin => hinside e s (List.mem_cons_of_mem _ hin)
  rcases hcases with ⟨htasks, hstack⟩ | ⟨e, s, last, es, rfl, hlast, htasks, hstack⟩ |
    ⟨name, s, value, home, rfl, hnew, hl, htasks, hstack⟩ | ⟨htasks, hstack⟩
  · exact ⟨hstack ▸ hnodup, hstack ▸ hbound, htasks ▸ hrest⟩
  · refine ⟨hstack ▸ hnodup, hstack ▸ hbound, fun inner other hin => ?_⟩
    rw [htasks] at hin
    rcases List.mem_append.1 hin with hin | hin
    · obtain ⟨_, -, heq⟩ := List.mem_map.1 hin
      cases heq
      exact hinside e s List.mem_cons_self
    rcases List.mem_cons.1 hin with heq | hin
    · exact absurd heq.symm (hlast inner other)
    · exact hrest inner other hin
  · obtain ⟨hpart, hin⟩ := Scope.lookup_eq_some hl
    have hhome : PartOf home scope := hpart.trans (hinside _ s List.mem_cons_self)
    refine ⟨?_, ?_, fun inner other hin => ?_⟩
    · exact hstack ▸ List.nodup_cons.2 ⟨hnew, hnodup⟩
    · rw [hstack]
      refine List.forall_mem_cons.2 ⟨?_, hbound⟩
      exact List.mem_map.2 ⟨_, hhome.subset (List.mem_append_left _ hin), rfl⟩
    · rw [htasks] at hin
      rcases List.mem_cons.1 hin with heq | hin
      · cases heq
        exact hhome
      rcases List.mem_cons.1 hin with heq | hin
      · cases heq
      · exact hrest inner other hin
  · refine ⟨hstack ▸ hnodup.tail, ?_, htasks ▸ hrest⟩
    rw [hstack]
    exact fun name hin => hbound name (List.mem_of_mem_tail hin)

theorem Moment.Sound.run {m n : Moment} (h : m.Sound scope) (hn : Runs calls m n) :
    n.Sound scope := by
  induction hn with
  | refl => exact h
  | tail _ hstep ih => exact ih.next hstep

/-- Evaluation always ends: every moment leads to a last one, which has the value of the expression,
what was met on the way and an empty stack. At every moment the names on the stack are different and
bound in the chain of scopes, so there are no more of them than names that are bound; and every
piece of evaluation that is next comes to its end with its value, the stack as it was and only new
names added to the reports. -/
theorem evaluation_ends (calls : Evaluator) (scope : Scope) (e : Expr) :
    let start : Moment := { tasks := [.eval e scope] }
    let last : Moment := ⟨[], [(e.eval calls scope).1], [], (e.evalTrace calls scope).2⟩
    last.next calls = none ∧ last.trace.events = (e.eval calls scope).2 ∧
    ∀ m, Runs calls start m →
      Runs calls m last ∧ m.resolving.Nodup ∧ (∀ name ∈ m.resolving, name ∈ scope.names) ∧
      m.resolving.length ≤ scope.names.dedup.length ∧
      ∀ inner s rest, m.tasks = .eval inner s :: rest → ∃ value trace,
        ReportsMore m.trace trace ∧ Runs calls m ⟨rest, value :: m.values, m.resolving, trace⟩ := by
  intro start last
  refine ⟨rfl, rfl, fun m hm => ?_⟩
  obtain ⟨hnodup, hbound, -⟩ := (Moment.Sound.start scope e).run hm
  refine ⟨hm.toward (runs_evalTrace e) rfl, hnodup, hbound, ?_, ?_⟩
  · have hsubset : m.resolving ⊆ scope.names.dedup := fun name hin =>
      List.mem_dedup.2 (hbound name hin)
    exact (List.subperm_of_subset hnodup hsubset).length_le
  · intro inner s rest htasks
    obtain ⟨tasks, values, resolving, trace⟩ := m
    obtain rfl : tasks = .eval inner s :: rest := htasks
    exact runs_eval inner rest values trace

end Evaluation

end NestedStyles
