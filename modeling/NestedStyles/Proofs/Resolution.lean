import NestedStyles.Expr.Eval
import Mathlib.Data.List.Basic

/-!
How variables are resolved. The value of a variable is found through the variables that it leads to
and through nothing else: names that are being resolved matter only if it leads to them, and the
budget does not matter once it exceeds the number of bindings that are not being resolved. So a
scope inside another one resolves a variable that it does not bind as the outer scope does.
-/

namespace NestedStyles

namespace Expr

mutual
def vars : Expr → List String
  | .text _ => []
  | .var name => [name]
  | .call _ arguments => varsAll arguments
  | .list _ items => varsAll items
def varsAll : List Expr → List String
  | [] => []
  | e :: rest => e.vars ++ varsAll rest
end

variable {calls : Evaluator} {onVar other : String → Trace → Expr × Trace}

mutual
theorem traverse_congr : ∀ e : Expr, (∀ m ∈ e.vars, onVar m = other m) → ∀ trace,
    traverse calls onVar e trace = traverse calls other e trace
  | .text s, _, trace => rfl
  | .var name, h, trace => by
    rw [traverse, traverse, h name (by simp [vars])]
  | .call name arguments, h, trace => by
    rw [traverse, traverse, traverseAll_congr arguments h]
  | .list separator items, h, trace => by
    rw [traverse, traverse, traverseAll_congr items h]
theorem traverseAll_congr : ∀ es : List Expr, (∀ m ∈ varsAll es, onVar m = other m) → ∀ trace,
    traverseAll calls onVar es trace = traverseAll calls other es trace
  | [], _, trace => rfl
  | e :: rest, h, trace => by
    simp only [varsAll, List.mem_append] at h
    rw [traverseAll, traverseAll, traverse_congr e fun m hm => h m (.inl hm)]
    simp only [traverseAll_congr rest fun m hm => h m (.inr hm)]
end

theorem varsAll_eq_flatMap (es : List Expr) : varsAll es = es.flatMap vars := by
  induction es with
  | nil => rfl
  | cons e rest ih => rw [varsAll, ih, List.flatMap_cons]

section Written

variable {P : Expr → Prop}

mutual
theorem traverse_written (htext : ∀ s, P (.text s))
    (hlist : ∀ separator items, (∀ e ∈ items, P e) → P (.list separator items)) : ∀ e : Expr,
    (∀ m ∈ e.vars, ∀ trace, P (onVar m trace).1) → ∀ trace,
      P (traverse Evaluator.written onVar e trace).1
  | .text s, _, _ => htext s
  | .var name, h, trace => h name (by simp [vars]) trace
  | .call .., _, _ => htext _
  | .list separator items, h, trace =>
    hlist separator _ (traverseAll_written htext hlist items h trace)
theorem traverseAll_written (htext : ∀ s, P (.text s))
    (hlist : ∀ separator items, (∀ e ∈ items, P e) → P (.list separator items)) :
    ∀ es : List Expr, (∀ m ∈ varsAll es, ∀ trace, P (onVar m trace).1) → ∀ trace,
      ∀ e ∈ (traverseAll Evaluator.written onVar es trace).1, P e
  | [], _, _ => by simp [traverseAll]
  | e :: rest, h, trace => by
    simp only [varsAll, List.mem_append] at h
    rw [traverseAll]
    refine List.forall_mem_cons.2 ⟨?_, ?_⟩
    · exact traverse_written htext hlist e (fun m hm => h m (.inl hm)) trace
    · exact traverseAll_written htext hlist rest (fun m hm => h m (.inr hm)) _
end

end Written

end Expr

namespace Scope

variable {s home : Scope} {name y z : String} {value : Expr}

def names (s : Scope) : List String := (s.bindings ++ s.outer.flatten).map (·.1)

theorem length_names (s : Scope) : s.names.length = s.size := by
  simp only [names, size, List.length_map]

/-- A variable of a bound value. -/
def Mentions (s : Scope) (name : String) : Prop :=
  ∃ binding ∈ s.bindings ++ s.outer.flatten, name ∈ binding.2.vars

instance (s : Scope) (name : String) : Decidable (s.Mentions name) :=
  inferInstanceAs (Decidable (∃ binding ∈ s.bindings ++ s.outer.flatten, name ∈ binding.2.vars))

/-- How many bindings there are of names that are not being resolved. -/
def unresolved (s : Scope) (resolving : List String) : Nat :=
  (s.names.filter fun name => name ∉ resolving).length

theorem unresolved_le_size (s : Scope) (resolving : List String) :
    s.unresolved resolving ≤ s.size :=
  s.length_names ▸ List.length_filter_le _ _

theorem mem_of_lookup_eq_some {frame : Frame} (h : frame.lookup name = some value) :
    (name, value) ∈ frame := by
  obtain ⟨earlier, later, rfl, -⟩ := List.lookup_eq_some_iff.1 h
  simp

theorem lookup_eq_some (h : s.lookup name = some (value, home)) :
    home.bindings ++ home.outer.flatten <:+ s.bindings ++ s.outer.flatten ∧
      (name, value) ∈ home.bindings := by
  obtain ⟨bindings, outer⟩ := s
  unfold lookup at h
  simp only at h ⊢
  induction outer generalizing bindings with
  | nil =>
    obtain ⟨found, hf, heq⟩ := Option.map_eq_some_iff.1 h
    cases heq
    exact ⟨List.suffix_refl _, mem_of_lookup_eq_some hf⟩
  | cons next outer ih =>
    rw [find] at h
    cases hl : bindings.lookup name with
    | some found =>
      rw [hl] at h
      cases h
      exact ⟨List.suffix_refl _, mem_of_lookup_eq_some hl⟩
    | none =>
      rw [hl] at h
      obtain ⟨hpart, hin⟩ := ih next h
      exact ⟨hpart.trans (List.suffix_append bindings _), hin⟩

theorem unresolved_lt {resolving : List String} (h : s.lookup name = some (value, home))
    (hn : name ∉ resolving) : home.unresolved (name :: resolving) < s.unresolved resolving := by
  obtain ⟨hpart, hin⟩ := lookup_eq_some h
  have hbound : name ∈ home.names :=
    List.mem_map.2 ⟨_, List.mem_append_left _ hin, rfl⟩
  have hfilter : (home.names.filter fun m => m ∉ name :: resolving) =
      (home.names.filter fun m => m ∉ resolving).filter fun m => m ≠ name := by
    simp [List.filter_filter]
  calc home.unresolved (name :: resolving)
      < home.unresolved resolving := by
        rw [unresolved, hfilter, unresolved, List.length_filter_lt_length_iff_exists]
        exact ⟨name, List.mem_filter.2 ⟨hbound, by simpa using hn⟩, by simp⟩
    _ ≤ s.unresolved resolving := ((hpart.sublist.map _).filter _).length_le

/-- The variables that come up when a variable is resolved and no dependency stops it. -/
inductive Leads : Scope → String → String → Prop
  | refl (s : Scope) (name : String) : Leads s name name
  | step {s home : Scope} {name m z : String} {value : Expr} :
      s.lookup name = some (value, home) → m ∈ value.vars → Leads home m z → Leads s name z

theorem mentions_of_lookup (h : s.lookup name = some (value, home)) :
    (∀ m ∈ value.vars, s.Mentions m) ∧ ∀ z, home.Mentions z → s.Mentions z := by
  obtain ⟨hpart, hin⟩ := lookup_eq_some h
  constructor
  · intro m hm
    exact ⟨_, hpart.subset (List.mem_append_left _ hin), hm⟩
  · rintro z ⟨binding, hb, hz⟩
    exact ⟨binding, hpart.subset hb, hz⟩

theorem Leads.mentioned (h : s.Leads y z) : z = y ∨ s.Mentions z := by
  induction h with
  | refl => exact .inl rfl
  | step hl hm _ ih =>
    obtain ⟨hvalue, hhome⟩ := mentions_of_lookup hl
    rcases ih with rfl | hz
    · exact .inr (hvalue _ hm)
    · exact .inr (hhome _ hz)

end Scope

namespace Expr

variable {calls : Evaluator} {scope : Scope} {name : String}

/-- Resolving depends on the names that are being resolved only as far as the variable leads. -/
theorem resolve_congr {budget more : Nat} {resolving others : List String}
    (hb : scope.unresolved resolving < budget) (hm : scope.unresolved others < more)
    (h : ∀ z, scope.Leads name z → (z ∈ resolving ↔ z ∈ others)) :
    resolve calls budget scope resolving name = resolve calls more scope others name := by
  induction budget generalizing more scope resolving others name with
  | zero => omega
  | succ budget ih =>
    obtain ⟨more, rfl⟩ : ∃ k, more = k + 1 := ⟨more - 1, by omega⟩
    have hself := h name (.refl scope name)
    funext trace
    rw [resolve, resolve]
    by_cases hin : name ∈ resolving
    · rw [if_pos hin, if_pos (hself.1 hin)]
    · have hout : name ∉ others := fun hin' => hin (hself.2 hin')
      rw [if_neg hin, if_neg hout]
      cases hl : scope.lookup name with
      | none => rfl
      | some found =>
        obtain ⟨value, home⟩ := found
        have hfewer := Scope.unresolved_lt hl hin
        have hfewer' := Scope.unresolved_lt hl hout
        refine traverse_congr value (fun m hv => ?_) trace
        apply ih (by omega) (by omega)
        intro z hz
        simp only [List.mem_cons, h z (.step hl hv hz)]

/-- A variable as the scope resolves it when nothing is being resolved. -/
def resolved (calls : Evaluator) (scope : Scope) (name : String) : Trace → Expr × Trace :=
  resolve calls (scope.size + 1) scope [] name

theorem evalTrace_eq (e : Expr) :
    e.evalTrace calls scope = e.traverse calls (resolved calls scope) {} := rfl

theorem resolve_inner {frame : Frame} {budget : Nat} {resolving : List String}
    (hf : frame.lookup name = none) (hb : scope.size < budget)
    (h : ∀ z, scope.Leads name z → z ∉ resolving) :
    resolve calls budget ⟨frame, scope.bindings :: scope.outer⟩ resolving name =
      resolved calls scope name := by
  obtain ⟨budget, rfl⟩ : ∃ k, budget = k + 1 := ⟨budget - 1, by omega⟩
  have hlookup : Scope.lookup ⟨frame, scope.bindings :: scope.outer⟩ name = scope.lookup name := by
    simp only [Scope.lookup, Scope.find, hf]
  have hself := h name (.refl scope name)
  funext trace
  rw [resolved, resolve, resolve, hlookup, if_neg hself, if_neg List.not_mem_nil]
  cases hl : scope.lookup name with
  | none => rfl
  | some found =>
    obtain ⟨value, home⟩ := found
    have hfewer := Scope.unresolved_lt hl hself
    have hfewer' := Scope.unresolved_lt hl (List.not_mem_nil (a := name))
    have hsize := scope.unresolved_le_size resolving
    have hsize' := scope.unresolved_le_size []
    refine traverse_congr value (fun m hv => ?_) trace
    apply resolve_congr (by omega) (by omega)
    intro z hz
    have hout := h z (.step hl hv hz)
    simp only [List.mem_cons, hout, List.not_mem_nil]

theorem resolved_of_not_bound {frame : Frame} (hf : frame.lookup name = none) :
    resolved calls ⟨frame, scope.bindings :: scope.outer⟩ name = resolved calls scope name := by
  refine resolve_inner hf ?_ fun z _ => List.not_mem_nil
  simp only [Scope.size, List.length_append, List.flatten_cons]
  omega

/-- A name that the inner scope binds stands for its value outside, if the variables of the value
are not bound inside and do not lead to the name. -/
theorem resolved_of_bound {frame : Frame} {value : Expr} (hf : frame.lookup name = some value)
    (h : ∀ m ∈ value.vars, frame.lookup m = none ∧ ¬ scope.Leads m name) :
    resolved calls ⟨frame, scope.bindings :: scope.outer⟩ name =
      value.traverse calls (resolved calls scope) := by
  have hlookup : Scope.lookup ⟨frame, scope.bindings :: scope.outer⟩ name =
      some (value, ⟨frame, scope.bindings :: scope.outer⟩) := by
    simp only [Scope.lookup, Scope.find, hf]
  have hlength := List.length_pos_of_mem (Scope.mem_of_lookup_eq_some hf)
  funext trace
  rw [resolved, resolve, hlookup, if_neg List.not_mem_nil]
  refine traverse_congr value (fun m hm => ?_) trace
  obtain ⟨hbound, hleads⟩ := h m hm
  apply resolve_inner hbound
  · simp only [Scope.size, List.length_append, List.flatten_cons]
    omega
  · intro z hz hin
    rw [List.mem_singleton.1 hin] at hz
    exact hleads hz

theorem resolve_written {P : Expr → Prop} (htext : ∀ s, P (.text s))
    (hlist : ∀ separator items, (∀ e ∈ items, P e) → P (.list separator items))
    {budget : Nat} {resolving : List String}
    (hvar : ∀ m, m = name ∨ scope.Mentions m → P (.var m)) (trace : Trace) :
    P (resolve Evaluator.written budget scope resolving name trace).1 := by
  induction budget generalizing scope resolving name trace with
  | zero => exact hvar name (.inl rfl)
  | succ budget ih =>
    rw [resolve]
    by_cases hin : name ∈ resolving
    · rw [if_pos hin]
      exact hvar name (.inl rfl)
    · rw [if_neg hin]
      cases hl : scope.lookup name with
      | none => exact hvar name (.inl rfl)
      | some found =>
        obtain ⟨value, home⟩ := found
        obtain ⟨hvalue, hhome⟩ := Scope.mentions_of_lookup hl
        refine traverse_written htext hlist value (fun m hm trace => ih ?_ trace) trace
        rintro k (rfl | hk)
        · exact hvar k (.inr (hvalue k hm))
        · exact hvar k (.inr (hhome k hk))

theorem eval_written {P : Expr → Prop} (htext : ∀ s, P (.text s))
    (hlist : ∀ separator items, (∀ e ∈ items, P e) → P (.list separator items)) (e : Expr)
    (hvar : ∀ m, m ∈ e.vars ∨ scope.Mentions m → P (.var m)) :
    P (e.eval Evaluator.written scope).1 := by
  refine traverse_written htext hlist e (fun m hm trace => ?_) {}
  refine resolve_written htext hlist (fun k hk => hvar k ?_) trace
  rcases hk with rfl | hk
  · exact .inl hm
  · exact .inr hk

theorem vars_eval (e : Expr) :
    ∀ k ∈ (e.eval Evaluator.written scope).1.vars, k ∈ e.vars ∨ scope.Mentions k := by
  apply eval_written (P := fun value => ∀ k ∈ value.vars, k ∈ e.vars ∨ scope.Mentions k)
  · simp [vars]
  · intro separator items h k hk
    rw [vars, varsAll_eq_flatMap, List.mem_flatMap] at hk
    obtain ⟨item, hitem, hk⟩ := hk
    exact h item hitem k hk
  · intro m hm k hk
    rw [List.mem_singleton.1 hk]
    exact hm

theorem traverseAll_of_stays {onVar : String → Trace → Expr × Trace} (items : List Expr)
    (h : ∀ e ∈ items, ∀ trace, (e.traverse calls onVar trace).1 = e) (trace : Trace) :
    (traverseAll calls onVar items trace).1 = items := by
  induction items generalizing trace with
  | nil => rfl
  | cons e rest ih =>
    obtain ⟨he, hrest⟩ := List.forall_mem_cons.1 h
    rw [traverseAll]
    simp only [he, ih hrest]

theorem eval_eval_of_unbound (e : Expr)
    (h : ∀ m ∈ (e.eval Evaluator.written scope).1.vars, scope.lookup m = none) :
    ((e.eval Evaluator.written scope).1.eval Evaluator.written scope).1 =
      (e.eval Evaluator.written scope).1 := by
  have hstays : ∀ trace, ((e.eval Evaluator.written scope).1.traverse Evaluator.written
      (resolved Evaluator.written scope) trace).1 = (e.eval Evaluator.written scope).1 := by
    refine eval_written (P := fun value => (∀ m ∈ value.vars, scope.lookup m = none) → ∀ trace,
      (value.traverse Evaluator.written (resolved Evaluator.written scope) trace).1 = value)
      ?_ ?_ e ?_ h
    · intro s _ trace
      rfl
    · intro separator items ih hunbound trace
      rw [vars, varsAll_eq_flatMap] at hunbound
      rw [traverse]
      simp only [list.injEq, true_and]
      apply traverseAll_of_stays
      intro item hitem
      exact ih item hitem fun m hm => hunbound m (List.mem_flatMap.2 ⟨item, hitem, hm⟩)
    · intro m _ hunbound trace
      rw [traverse, resolved, resolve, if_neg List.not_mem_nil, hunbound m (by simp [vars])]
  exact hstays {}

end Expr

end NestedStyles
