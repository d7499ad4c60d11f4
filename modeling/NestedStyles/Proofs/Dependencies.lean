import NestedStyles.Proofs.Calls
import NestedStyles.Proofs.Resolution
import Mathlib.Logic.Relation

/-!
Evaluation as substitution. A bound name depends on the variables of its value. Evaluating an
expression in a scope with none around it reports a name if and only if the variables of the
expression lead to a cycle of dependencies, and it reports names of such cycles only. Without a
report the value is the expression with every bound variable replaced, all the way down.
-/

namespace NestedStyles

mutual
/-- The second expression is the first one with every bound variable replaced by what its value
becomes in the scope that binds it, and with every call replaced by its answer. -/
inductive Substitutes (calls : Evaluator) : Scope → Expr → Expr → Prop
  | text {scope : Scope} (s : String) : Substitutes calls scope (.text s) (.text s)
  | unbound {scope : Scope} {name : String} : scope.lookup name = none →
      Substitutes calls scope (.var name) (.var name)
  | bound {scope home : Scope} {name : String} {value result : Expr} :
      scope.lookup name = some (value, home) → Substitutes calls home value result →
      Substitutes calls scope (.var name) result
  | call {scope : Scope} {name : String} {arguments results : List Expr} :
      SubstitutesAll calls scope arguments results →
      Substitutes calls scope (.call name arguments) (calls name results)
  | list {scope : Scope} {separator : Separator} {items results : List Expr} :
      SubstitutesAll calls scope items results →
      Substitutes calls scope (.list separator items) (.list separator results)
inductive SubstitutesAll (calls : Evaluator) : Scope → List Expr → List Expr → Prop
  | nil {scope : Scope} : SubstitutesAll calls scope [] []
  | cons {scope : Scope} {e result : Expr} {rest results : List Expr} :
      Substitutes calls scope e result → SubstitutesAll calls scope rest results →
      SubstitutesAll calls scope (e :: rest) (result :: results)
end

namespace Scope

variable {s : Scope} {name z : String} {e : Expr}

def Depends (s : Scope) (name m : String) : Prop :=
  ∃ value, s.get? name = some value ∧ m ∈ value.vars

/-- The name lies on a cycle of dependencies to which the variables of the expression lead. -/
def Cyclic (s : Scope) (e : Expr) (name : String) : Prop :=
  (∃ x ∈ e.vars, Relation.ReflTransGen s.Depends x name) ∧ Relation.TransGen s.Depends name name

theorem lookup_of_outermost (h : s.outer = []) (name : String) :
    s.lookup name = (s.get? name).map (·, s) := by
  obtain ⟨bindings, outer⟩ := s
  cases h
  simp [lookup, get?, find, Function.comp_def]

theorem get?_of_lookup {home : Scope} {value : Expr} (h : s.lookup name = some (value, home)) :
    s.get? name = some value := by
  rw [get?, h]
  rfl

theorem home_of_lookup {home : Scope} {value : Expr} (hroot : s.outer = [])
    (h : s.lookup name = some (value, home)) : home = s := by
  rw [lookup_of_outermost hroot] at h
  obtain ⟨_, -, heq⟩ := Option.map_eq_some_iff.1 h
  cases heq
  rfl

end Scope

namespace Expr

variable {calls : Evaluator} {onVar : String → Trace → Expr × Trace} {scope : Scope}
  {name : String} {budget : Nat} {resolving : List String}

/-! What a traversal reports -/

mutual
theorem traverse_keeps {P : Trace → Prop} : ∀ e : Expr,
    (∀ m ∈ e.vars, ∀ trace, P trace → P (onVar m trace).2) → ∀ trace, P trace →
      P (traverse calls onVar e trace).2
  | .text _, _, _, hp => hp
  | .var name, h, trace, hp => h name (by simp [vars]) trace hp
  | .call _ arguments, h, trace, hp => traverseAll_keeps arguments h trace hp
  | .list _ items, h, trace, hp => traverseAll_keeps items h trace hp
theorem traverseAll_keeps {P : Trace → Prop} : ∀ es : List Expr,
    (∀ m ∈ varsAll es, ∀ trace, P trace → P (onVar m trace).2) → ∀ trace, P trace →
      P (traverseAll calls onVar es trace).2
  | [], _, _, hp => hp
  | e :: rest, h, trace, hp => by
    simp only [varsAll, List.mem_append] at h
    rw [traverseAll]
    have hfirst := traverse_keeps e (fun m hm => h m (.inl hm)) trace hp
    exact traverseAll_keeps rest (fun m hm => h m (.inr hm)) _ hfirst
end

theorem mem_cycles_addCycle (trace : Trace) (name : String) :
    name ∈ (trace.addCycle name).cycles := by
  unfold Trace.addCycle
  split
  · assumption
  · simp

theorem cycles_prefix_addCycle (trace : Trace) (name : String) :
    trace.cycles <+: (trace.addCycle name).cycles := by
  unfold Trace.addCycle
  split
  · exact List.prefix_refl _
  · exact List.prefix_append _ _

theorem nodup_cycles_addCycle {trace : Trace} (h : trace.cycles.Nodup) (name : String) :
    (trace.addCycle name).cycles.Nodup := by
  unfold Trace.addCycle
  split
  · exact h
  · next hnew =>
    rw [← List.concat_eq_append]
    exact h.concat hnew

theorem resolve_keeps {P : Trace → Prop}
    (hundefined : ∀ m trace, P trace → P (trace.addUndefined m))
    (hcycle : ∀ m trace, P trace → P (trace.addCycle m)) (trace : Trace) (hp : P trace) :
    P (resolve calls budget scope resolving name trace).2 := by
  induction budget generalizing scope resolving name trace with
  | zero => exact hp
  | succ budget ih =>
    rw [resolve]
    by_cases hin : name ∈ resolving
    · rw [if_pos hin]
      exact hcycle name trace hp
    · rw [if_neg hin]
      cases hl : scope.lookup name with
      | none => exact hundefined name trace hp
      | some found => exact traverse_keeps found.1 (fun m _ trace hp => ih trace hp) trace hp

theorem cycles_prefix_resolve (trace : Trace) :
    trace.cycles <+: (resolve calls budget scope resolving name trace).2.cycles := by
  refine resolve_keeps (P := fun t => trace.cycles <+: t.cycles) ?_ ?_ trace (List.prefix_refl _)
  · exact fun m t h => h
  · exact fun m t h => h.trans (cycles_prefix_addCycle t m)

theorem nodup_cycles_evalTrace (e : Expr) : (e.evalTrace calls scope).2.cycles.Nodup := by
  refine traverse_keeps (P := fun t => t.cycles.Nodup) e (fun m _ trace h => ?_) {} List.nodup_nil
  refine resolve_keeps (P := fun t => t.cycles.Nodup) ?_ ?_ trace h
  · exact fun m t h => h
  · exact fun m t h => nodup_cycles_addCycle h m

/-- Names that are reported while a variable is resolved lie on a cycle to which the variable leads,
if every name that is being resolved leads to the variable. -/
theorem cyclic_of_mem_resolve (hroot : scope.outer = [])
    (hstack : ∀ r ∈ resolving, Relation.TransGen scope.Depends r name) (trace : Trace) :
    ∀ z ∈ (resolve calls budget scope resolving name trace).2.cycles, z ∈ trace.cycles ∨
      Relation.ReflTransGen scope.Depends name z ∧ Relation.TransGen scope.Depends z z := by
  induction budget generalizing resolving name trace with
  | zero => exact fun z hz => .inl hz
  | succ budget ih =>
    rw [resolve]
    by_cases hin : name ∈ resolving
    · rw [if_pos hin]
      intro z hz
      unfold Trace.addCycle at hz
      split at hz
      · exact .inl hz
      · rcases List.mem_append.1 hz with hz | hz
        · exact .inl hz
        · rw [List.mem_singleton.1 hz]
          exact .inr ⟨.refl, hstack name hin⟩
    · rw [if_neg hin]
      cases hl : scope.lookup name with
      | none => exact fun z hz => .inl hz
      | some found =>
        obtain ⟨value, home⟩ := found
        obtain rfl := Scope.home_of_lookup hroot hl
        refine traverse_keeps (P := fun t => ∀ z ∈ t.cycles, z ∈ trace.cycles ∨
          Relation.ReflTransGen home.Depends name z ∧ Relation.TransGen home.Depends z z)
          value (fun m hm t ht z hz => ?_) trace fun z hz => .inl hz
        have hedge : home.Depends name m := ⟨value, Scope.get?_of_lookup hl, hm⟩
        have hinner : ∀ r ∈ name :: resolving, Relation.TransGen home.Depends r m := by
          intro r hr
          rcases List.mem_cons.1 hr with rfl | hr
          · exact .single hedge
          · exact (hstack r hr).tail hedge
        rcases ih hinner t z hz with hold | ⟨hreach, hcycle⟩
        · exact ht z hold
        · exact .inr ⟨.head hedge hreach, hcycle⟩

theorem cyclic_of_mem_evalTrace (hroot : scope.outer = []) (e : Expr) :
    ∀ z ∈ (e.evalTrace calls scope).2.cycles, scope.Cyclic e z := by
  refine traverse_keeps (P := fun t => ∀ z ∈ t.cycles, scope.Cyclic e z) e
    (fun m hm t ht z hz => ?_) {} (by simp)
  rcases cyclic_of_mem_resolve hroot (by simp) t z hz with hold | ⟨hreach, hcycle⟩
  · exact ht z hold
  · exact ⟨⟨m, hm, hreach⟩, hcycle⟩

/-! What a traversal without a report gives -/

theorem cycles_prefix_traverseAll (hgrow : ∀ m trace, trace.cycles <+: (onVar m trace).2.cycles)
    (es : List Expr) (trace : Trace) :
    trace.cycles <+: (traverseAll calls onVar es trace).2.cycles :=
  traverseAll_keeps (P := fun t => trace.cycles <+: t.cycles) es
    (fun m _ t h => h.trans (hgrow m t)) trace (List.prefix_refl _)

mutual
theorem substitutes_traverse (hgrow : ∀ m trace, trace.cycles <+: (onVar m trace).2.cycles)
    (h : ∀ m trace, (onVar m trace).2.cycles = [] →
      Substitutes calls scope (.var m) (onVar m trace).1) : ∀ (e : Expr) (trace : Trace),
    (traverse calls onVar e trace).2.cycles = [] →
      Substitutes calls scope e (traverse calls onVar e trace).1
  | .text s, _, _ => .text s
  | .var name, trace, hquiet => h name trace hquiet
  | .call _ arguments, trace, hquiet =>
    .call (substitutesAll_traverseAll hgrow h arguments trace hquiet)
  | .list _ items, trace, hquiet => .list (substitutesAll_traverseAll hgrow h items trace hquiet)
theorem substitutesAll_traverseAll
    (hgrow : ∀ m trace, trace.cycles <+: (onVar m trace).2.cycles)
    (h : ∀ m trace, (onVar m trace).2.cycles = [] →
      Substitutes calls scope (.var m) (onVar m trace).1) : ∀ (es : List Expr) (trace : Trace),
    (traverseAll calls onVar es trace).2.cycles = [] →
      SubstitutesAll calls scope es (traverseAll calls onVar es trace).1
  | [], _, _ => .nil
  | e :: rest, trace, hquiet => by
    rw [traverseAll] at hquiet ⊢
    -- a report on the first expression would still be there after the others
    have hfirst : (traverse calls onVar e trace).2.cycles = [] :=
      List.prefix_nil.1 (hquiet ▸ cycles_prefix_traverseAll hgrow rest _)
    exact .cons (substitutes_traverse hgrow h e trace hfirst)
      (substitutesAll_traverseAll hgrow h rest _ hquiet)
end

theorem substitutes_resolve (hb : scope.unresolved resolving < budget) (trace : Trace)
    (hquiet : (resolve calls budget scope resolving name trace).2.cycles = []) :
    Substitutes calls scope (.var name) (resolve calls budget scope resolving name trace).1 := by
  induction budget generalizing scope resolving name trace with
  | zero => omega
  | succ budget ih =>
    rw [resolve] at hquiet ⊢
    by_cases hin : name ∈ resolving
    · rw [if_pos hin] at hquiet
      have hreported := mem_cycles_addCycle trace name
      rw [hquiet] at hreported
      cases hreported
    · rw [if_neg hin] at hquiet ⊢
      cases hl : scope.lookup name with
      | none => exact .unbound hl
      | some found =>
        obtain ⟨value, home⟩ := found
        have hfewer := Scope.unresolved_lt hl hin
        simp only [hl] at hquiet ⊢
        refine .bound hl (substitutes_traverse (fun m t => cycles_prefix_resolve t) ?_ value trace
          hquiet)
        intro m t ht
        exact ih (by omega) t ht

/-- A value without a report is what the expression becomes by substitution. -/
theorem substitutes_evalTrace (e : Expr) (hquiet : (e.evalTrace calls scope).2.cycles = []) :
    Substitutes calls scope e (e.evalTrace calls scope).1 := by
  refine substitutes_traverse (fun m t => cycles_prefix_resolve t) ?_ e {} hquiet
  intro m t ht
  have hsize := scope.unresolved_le_size []
  exact substitutes_resolve (by omega) t ht

end Expr

/-! What substitution gives -/

section Substitution

variable {calls : Evaluator} {scope : Scope}

mutual
theorem Substitutes.unique {scope : Scope} {e v w : Expr} :
    Substitutes calls scope e v → Substitutes calls scope e w → v = w
  | .text _, .text _ => rfl
  | .unbound _, .unbound _ => rfl
  | .unbound h, .bound k _ => by
    rw [h] at k
    cases k
  | .bound h _, .unbound k => by
    rw [h] at k
    cases k
  | .bound h hv, .bound k kv => by
    rw [h] at k
    cases k
    exact hv.unique kv
  | .call h, .call k => by rw [h.unique k]
  | .list h, .list k => by rw [h.unique k]
theorem SubstitutesAll.unique {scope : Scope} {es vs ws : List Expr} :
    SubstitutesAll calls scope es vs → SubstitutesAll calls scope es ws → vs = ws
  | .nil, .nil => rfl
  | .cons h hs, .cons k ks => by rw [h.unique k, hs.unique ks]
end

theorem Scope.acc_of_unbound {name : String} (h : scope.get? name = none) :
    Acc (fun a b => scope.Depends b a) name := by
  constructor
  rintro m ⟨value, hv, -⟩
  rw [h] at hv
  cases hv

mutual
theorem Substitutes.acc {scope : Scope} {e v : Expr} (hroot : scope.outer = []) :
    Substitutes calls scope e v → ∀ m ∈ e.vars, Acc (fun a b => scope.Depends b a) m
  | .text _ => by simp [Expr.vars]
  | .unbound h => by
    intro m hm
    rw [Expr.vars, List.mem_singleton] at hm
    subst hm
    exact Scope.acc_of_unbound (by rw [Scope.get?, h]; rfl)
  | .bound h hv => by
    obtain rfl := Scope.home_of_lookup hroot h
    intro m hm
    rw [Expr.vars, List.mem_singleton] at hm
    subst hm
    constructor
    rintro a ⟨value, hvalue, ha⟩
    rw [Scope.get?_of_lookup h] at hvalue
    cases hvalue
    exact hv.acc hroot a ha
  | .call h => h.acc hroot
  | .list h => h.acc hroot
theorem SubstitutesAll.acc {scope : Scope} {es vs : List Expr} (hroot : scope.outer = []) :
    SubstitutesAll calls scope es vs →
      ∀ m ∈ Expr.varsAll es, Acc (fun a b => scope.Depends b a) m
  | .nil => by simp [Expr.varsAll]
  | .cons h hs => by
    intro m hm
    rw [Expr.varsAll] at hm
    rcases List.mem_append.1 hm with hm | hm
    · exact h.acc hroot m hm
    · exact hs.acc hroot m hm
end

theorem Scope.not_transGen_of_acc {name : String} (h : Acc (fun a b => scope.Depends b a) name) :
    ¬ Relation.TransGen scope.Depends name name := by
  induction h with
  | intro name _ ih =>
    intro hcycle
    obtain ⟨m, hedge, hrest⟩ := Relation.TransGen.head'_iff.1 hcycle
    -- the next name lies on the same cycle
    exact ih m hedge (.tail' hrest hedge)

theorem Scope.not_cyclic_of_acc {e : Expr} {name : String}
    (h : ∀ m ∈ e.vars, Acc (fun a b => scope.Depends b a) m) : ¬ scope.Cyclic e name := by
  rintro ⟨⟨x, hx, hreach⟩, hcycle⟩
  refine Scope.not_transGen_of_acc ?_ hcycle
  clear hcycle
  induction hreach with
  | refl => exact h x hx
  | tail _ hedge ih => exact ih.inv hedge

mutual
theorem Substitutes.unbound_of_written {scope : Scope} {e v : Expr} (hroot : scope.outer = []) :
    Substitutes Evaluator.written scope e v → ∀ m ∈ v.vars, scope.get? m = none
  | .text _ => by simp [Expr.vars]
  | .unbound h => by
    intro m hm
    rw [Expr.vars, List.mem_singleton] at hm
    rw [hm, Scope.get?, h]
    rfl
  | .bound h hv => by
    obtain rfl := Scope.home_of_lookup hroot h
    exact hv.unbound_of_written hroot
  | .call _ => by simp [Evaluator.written, Expr.vars]
  | .list h => h.unbound_of_written hroot
theorem SubstitutesAll.unbound_of_written {scope : Scope} {es vs : List Expr}
    (hroot : scope.outer = []) :
    SubstitutesAll Evaluator.written scope es vs → ∀ m ∈ Expr.varsAll vs, scope.get? m = none
  | .nil => by simp [Expr.varsAll]
  | .cons h hs => by
    intro m hm
    rw [Expr.varsAll] at hm
    rcases List.mem_append.1 hm with hm | hm
    · exact h.unbound_of_written hroot m hm
    · exact hs.unbound_of_written hroot m hm
end

end Substitution

/-! Constants -/

namespace Expr

variable {calls : Evaluator} {onVar : String → Trace → Expr × Trace}

mutual
theorem traverse_of_isConstant : ∀ e : Expr, e.isConstant → ∀ trace,
    traverse calls onVar e trace = (e, trace)
  | .text _, _, _ => rfl
  | .list _ items, h, trace => by
    rw [traverse, traverseAll_of_allConstant items h]
theorem traverseAll_of_allConstant : ∀ es : List Expr, allConstant es → ∀ trace,
    traverseAll calls onVar es trace = (es, trace)
  | [], _, _ => rfl
  | e :: rest, h, trace => by
    rw [allConstant, Bool.and_eq_true] at h
    rw [traverseAll, traverse_of_isConstant e h.1]
    simp only [traverseAll_of_allConstant rest h.2]
end

theorem eval_of_isConstant {e : Expr} (h : e.isConstant) (calls : Evaluator) (scope : Scope) :
    e.eval calls scope = (e, []) := by
  rw [eval, evalTrace, traverse_of_isConstant e h]
  rfl

end Expr

theorem Attribute.instantiated_eq_evaluated (calls : Evaluator) (scope : Scope) (a : Attribute) :
    a.instantiated calls scope = a.evaluated calls scope := by
  unfold Attribute.instantiated
  split
  · next h => rw [Attribute.evaluated, Expr.eval_of_isConstant h]
  · rfl

theorem Attribute.met_of_isConstant {a : Attribute} (h : a.value.isConstant) (calls : Evaluator)
    (scope : Scope) : a.met calls scope = [] := by
  rw [Attribute.met, Expr.eval_of_isConstant h]

theorem Session.templateAttributes_eq_evalAttributes (s : Session) (scope : Scope)
    (attributes : List Attribute) :
    s.templateAttributes scope attributes = s.evalAttributes scope attributes := by
  have hmet : ∀ a : Attribute,
      (if a.value.isConstant then [] else a.met s.calls scope) = a.met s.calls scope := by
    intro a
    split
    · next h => rw [a.met_of_isConstant h]
    · rfl
  simp only [templateAttributes_eq, evalAttributes_eq, Attribute.instantiated_eq_evaluated, hmet]

namespace Expr

variable {calls : Evaluator} {scope : Scope}

theorem warnings_eval (e : Expr) :
    (e.eval calls scope).2.filterMap Event.warning? =
      (e.evalTrace calls scope).2.cycles.map .selfReference := by
  have hundefined : ∀ names : List String,
      (names.map Event.undefinedVariable).filterMap Event.warning? = [] := by
    intro names
    induction names with
    | nil => rfl
    | cons name rest ih => exact ih
  simp only [eval, Trace.events, List.filterMap_append, hundefined, List.nil_append,
    List.filterMap_map]
  exact congrFun (List.filterMap_eq_map (f := Warning.selfReference)) _

theorem cycles_evalTrace_eq_nil_iff (hroot : scope.outer = []) (e : Expr) :
    (e.evalTrace calls scope).2.cycles = [] ↔ ¬ ∃ name, scope.Cyclic e name := by
  constructor
  · rintro hquiet ⟨name, hcyclic⟩
    exact Scope.not_cyclic_of_acc ((substitutes_evalTrace e hquiet).acc hroot) hcyclic
  · intro hnone
    refine List.eq_nil_iff_forall_not_mem.2 fun z hz => hnone ⟨z, ?_⟩
    exact cyclic_of_mem_evalTrace hroot e z hz

theorem eval_again (hroot : scope.outer = []) {e : Expr}
    (hquiet : (e.evalTrace Evaluator.written scope).2.cycles = []) :
    let result := (e.eval Evaluator.written scope).1
    (∀ m ∈ result.vars, scope.get? m = none) ∧ (result.eval Evaluator.written scope).1 = result ∧
      (result.evalTrace Evaluator.written scope).2.cycles = [] := by
  intro result
  have hunbound : ∀ m ∈ result.vars, scope.get? m = none :=
    (substitutes_evalTrace e hquiet).unbound_of_written hroot
  refine ⟨hunbound, ?_, ?_⟩
  · apply eval_eval_of_unbound e
    intro m hm
    rw [Scope.lookup_of_outermost hroot, hunbound m hm]
    rfl
  · rw [cycles_evalTrace_eq_nil_iff hroot]
    rintro ⟨name, hcyclic⟩
    exact Scope.not_cyclic_of_acc (fun m hm => Scope.acc_of_unbound (hunbound m hm)) hcyclic

/-- In a scope with none around it, an evaluation warns of variables that depend on themselves if
and only if the expression leads to a cycle of dependencies; it names variables on such cycles, each
once. Without a warning the value is what substitution makes of the expression; if calls are kept as
text, only unbound variables are left in it and it is its own value. A constant is its own value in
every scope, so a template may leave its constants alone. -/
theorem eval_substitutes_or_reports (calls : Evaluator) (frame : Frame) (e : Expr) :
    let scope : Scope := { bindings := frame }
    let result := (e.eval calls scope).1
    (∃ names : List String,
      (e.eval calls scope).2.filterMap Event.warning? = names.map .selfReference ∧
      names.Nodup ∧ (names ≠ [] ↔ ∃ name, scope.Cyclic e name) ∧
      (∀ name ∈ names, scope.Cyclic e name) ∧
      (names = [] → ∀ v, Substitutes calls scope e v ↔ v = result) ∧
      (names = [] → calls = Evaluator.written →
        (∀ m ∈ result.vars, scope.get? m = none) ∧ (result.eval calls scope).1 = result ∧
          (result.eval calls scope).2.filterMap Event.warning? = [])) ∧
    (e.isConstant → ∀ inner, e.eval calls inner = (e, [])) ∧
    ∀ (s : Session) (inner : Scope) (attributes : List Attribute),
      s.templateAttributes inner attributes = s.evalAttributes inner attributes := by
  intro scope result
  have hroot : scope.outer = [] := rfl
  refine ⟨⟨(e.evalTrace calls scope).2.cycles, warnings_eval e, nodup_cycles_evalTrace e, ?_,
    cyclic_of_mem_evalTrace hroot e, ?_, ?_⟩, fun h => eval_of_isConstant h calls,
    Session.templateAttributes_eq_evalAttributes⟩
  · rw [Ne, cycles_evalTrace_eq_nil_iff hroot, not_not]
  · intro hquiet v
    have hresult : Substitutes calls scope e result := substitutes_evalTrace e hquiet
    constructor
    · exact fun hv => hv.unique hresult
    · rintro rfl
      exact hresult
  · rintro hquiet rfl
    rw [warnings_eval, List.map_eq_nil_iff]
    exact eval_again hroot hquiet

example :
    let scope : Scope := { bindings := [("a", .list .space [.var "b", .var "b"]), ("b", .var "a")] }
    (Expr.var "b").eval Evaluator.written scope =
      (.list .space [.var "b", .var "b"], [.warning (.selfReference "b")]) := by
  decide

end Expr

end NestedStyles
