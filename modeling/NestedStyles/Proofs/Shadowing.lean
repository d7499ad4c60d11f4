import NestedStyles.Proofs.Dependencies

/-!
Names that hide one another. In scopes inside each other a name can have several bindings, and a
bound value is evaluated in the scope that holds its binding. An evaluation remembers what it is
resolving by name, so it reports a name exactly when a variable of that name comes up again while a
binding of the name is resolved. That is a cycle of bindings if the variable stands for that same
binding; where it stands for another one further out, or for none, it is no cycle.
-/

namespace NestedStyles

structure Binding where
  home : Scope
  name : String
  deriving DecidableEq, Repr

namespace Scope

variable {s home : Scope} {name : String} {value : Expr}

/-- The binding that a variable stands for in a scope. -/
def binding? (s : Scope) (name : String) : Option Binding :=
  (s.lookup name).map fun found => ⟨found.2, name⟩

theorem binding?_of_lookup (h : s.lookup name = some (value, home)) :
    s.binding? name = some ⟨home, name⟩ := by
  rw [binding?, h]
  rfl

theorem lookup_of_binding? {b : Binding} (h : s.binding? name = some b) :
    b.name = name ∧ ∃ value, s.lookup name = some (value, b.home) := by
  obtain ⟨⟨value, home⟩, hl, rfl⟩ := Option.map_eq_some_iff.1 h
  exact ⟨rfl, value, hl⟩

theorem get?_home (h : s.lookup name = some (value, home)) : home.get? name = some value := by
  obtain ⟨bindings, outer⟩ := s
  unfold lookup at h
  simp only at h
  induction outer generalizing bindings with
  | nil =>
    obtain ⟨found, hf, heq⟩ := Option.map_eq_some_iff.1 h
    cases heq
    simp [get?, lookup, find, hf]
  | cons next outer ih =>
    rw [find] at h
    cases hl : bindings.lookup name with
    | some found =>
      rw [hl] at h
      cases h
      simp [get?, lookup, find, hl]
    | none =>
      rw [hl] at h
      exact ih next h

end Scope

namespace Binding

/-- A variable of the bound value stands for the second binding. -/
def DependsOn (b c : Binding) : Prop :=
  b.home.Depends b.name c.name ∧ b.home.binding? c.name = some c

/-- The bindings that come up when a binding is resolved. -/
abbrev LeadsTo : Binding → Binding → Prop := Relation.ReflTransGen DependsOn

def Cyclic (b : Binding) : Prop := Relation.TransGen DependsOn b b

/-- A variable with the name of the binding comes up when the binding is resolved. -/
def MeetsAgain (b : Binding) : Prop := ∃ c, b.LeadsTo c ∧ c.home.Depends c.name b.name

/-- Wherever a variable with the name of the binding comes up, it stands for the binding. -/
def KeepsName (b : Binding) : Prop :=
  ∀ c, b.LeadsTo c → c.home.Depends c.name b.name → c.home.binding? b.name = some b

theorem dependsOn_of_lookup {s home : Scope} {name m : String} {value : Expr} {c : Binding}
    (h : s.lookup name = some (value, home)) (hm : m ∈ value.vars)
    (hc : home.binding? m = some c) : (⟨home, name⟩ : Binding).DependsOn c := by
  obtain ⟨rfl, -⟩ := Scope.lookup_of_binding? hc
  exact ⟨⟨value, Scope.get?_home h, hm⟩, hc⟩

theorem Cyclic.of_keepsName {b : Binding} (h : b.KeepsName) (hmeets : b.MeetsAgain) :
    b.Cyclic := by
  obtain ⟨c, hleads, hmentions⟩ := hmeets
  exact .tail' hleads ⟨hmentions, h c hleads hmentions⟩

theorem not_cyclic_of_order (order : List Binding)
    (h : ∀ b ∈ order, ∀ c, b.DependsOn c → c ∈ order ∧ order.idxOf b < order.idxOf c)
    {a b : Binding} (ha : a ∈ order) (hleads : a.LeadsTo b) : ¬ b.Cyclic := by
  have hb : b ∈ order := by
    induction hleads with
    | refl => exact ha
    | tail _ hedge ih => exact (h _ ih _ hedge).1
  have hlater : ∀ c, Relation.TransGen DependsOn b c →
      c ∈ order ∧ order.idxOf b < order.idxOf c := by
    intro c hc
    induction hc with
    | single hedge => exact h _ hb _ hedge
    | tail _ hedge ih =>
      obtain ⟨hin, hless⟩ := h _ ih.1 _ hedge
      exact ⟨hin, by omega⟩
  intro hcycle
  have hless := (hlater b hcycle).2
  omega

end Binding

/-- The bindings that come up when an expression is evaluated in a scope. -/
def Scope.Reaches (s : Scope) (e : Expr) (b : Binding) : Prop :=
  ∃ x ∈ e.vars, ∃ a, s.binding? x = some a ∧ a.LeadsTo b

theorem Scope.Reaches.next {s : Scope} {e : Expr} {b c : Binding} (h : s.Reaches e b)
    (hedge : b.DependsOn c) : s.Reaches e c := by
  obtain ⟨x, hx, a, ha, hleads⟩ := h
  exact ⟨x, hx, a, ha, hleads.tail hedge⟩

namespace Expr

variable {calls : Evaluator} {onVar : String → Trace → Expr × Trace} {scope : Scope}
  {name : String} {budget : Nat} {resolving : List String}

/-! Reports name what is met again -/

/-- Names that are reported while a variable is resolved are met again, if every name that is being
resolved is that of a binding which led to the variable. `Q` holds of the bindings that come up. -/
theorem meetsAgain_of_mem_resolve {Q : Binding → Prop}
    (hQ : ∀ b c : Binding, Q b → b.DependsOn c → Q c) (hname : ∀ a ∈ scope.binding? name, Q a)
    (hstack : ∀ r ∈ resolving, ∃ b c : Binding, Q b ∧ b.name = r ∧ b.LeadsTo c ∧
      c.home = scope ∧ c.home.Depends c.name name) (trace : Trace) :
    ∀ z ∈ (resolve calls budget scope resolving name trace).2.cycles, z ∈ trace.cycles ∨
      ∃ b : Binding, Q b ∧ b.name = z ∧ b.MeetsAgain := by
  induction budget generalizing scope resolving name trace with
  | zero => exact fun z hz => .inl hz
  | succ budget ih =>
    rw [resolve]
    by_cases hin : name ∈ resolving
    · rw [if_pos hin]
      intro z hz
      unfold Trace.addCycle at hz
      split at hz
      · exact .inl hz
      rcases List.mem_append.1 hz with hz | hz
      · exact .inl hz
      · obtain ⟨b, c, hb, hbname, hleads, -, hmentions⟩ := hstack name hin
        rw [List.mem_singleton.1 hz]
        exact .inr ⟨b, hb, hbname, c, hleads, hbname ▸ hmentions⟩
    · rw [if_neg hin]
      cases hl : scope.lookup name with
      | none => exact fun z hz => .inl hz
      | some found =>
        obtain ⟨value, home⟩ := found
        have hfound := Scope.binding?_of_lookup hl
        have hbinding : Q ⟨home, name⟩ := hname _ hfound
        refine traverse_keeps (P := fun t => ∀ z ∈ t.cycles, z ∈ trace.cycles ∨
          ∃ b : Binding, Q b ∧ b.name = z ∧ b.MeetsAgain) value
          (fun m hm t ht z hz => ?_) trace fun z hz => .inl hz
        have hmentions : home.Depends name m := ⟨value, Scope.get?_home hl, hm⟩
        have hinner : ∀ r ∈ name :: resolving, ∃ b c : Binding, Q b ∧ b.name = r ∧ b.LeadsTo c ∧
            c.home = home ∧ c.home.Depends c.name m := by
          intro r hr
          rcases List.mem_cons.1 hr with rfl | hr
          · exact ⟨⟨home, r⟩, ⟨home, r⟩, hbinding, rfl, .refl, rfl, hmentions⟩
          · obtain ⟨b, c, hb, hbname, hleads, rfl, hc⟩ := hstack r hr
            exact ⟨b, ⟨home, name⟩, hb, hbname, hleads.tail ⟨hc, hfound⟩, rfl, hmentions⟩
        have hnext : ∀ a ∈ home.binding? m, Q a := fun a ha =>
          hQ _ _ hbinding (Binding.dependsOn_of_lookup hl hm ha)
        rcases ih hnext hinner t z hz with hold | hmet
        · exact ht z hold
        · exact .inr hmet

theorem meetsAgain_of_mem_evalTrace (e : Expr) :
    ∀ z ∈ (e.evalTrace calls scope).2.cycles,
      ∃ b, scope.Reaches e b ∧ b.name = z ∧ b.MeetsAgain := by
  refine traverse_keeps (P := fun t => ∀ z ∈ t.cycles,
    ∃ b, scope.Reaches e b ∧ b.name = z ∧ b.MeetsAgain) e (fun m hm t ht z hz => ?_) {} (by simp)
  have hfirst : ∀ a ∈ scope.binding? m, scope.Reaches e a := fun a ha => ⟨m, hm, a, ha, .refl⟩
  rcases meetsAgain_of_mem_resolve (Q := scope.Reaches e) (fun b c => Scope.Reaches.next) hfirst
    (by simp) t z hz with hold | hmet
  · exact ht z hold
  · exact hmet

/-! What is met again is reported -/

mutual
theorem quiet_of_traverse (hgrow : ∀ m trace, trace.cycles <+: (onVar m trace).2.cycles) :
    ∀ (e : Expr) (trace : Trace), (traverse calls onVar e trace).2.cycles = [] →
      ∀ m ∈ e.vars, ∃ t, (onVar m t).2.cycles = []
  | .text _, _, _ => by simp [vars]
  | .var name, trace, hquiet => by
    intro m hm
    rw [vars, List.mem_singleton] at hm
    exact ⟨trace, hm ▸ hquiet⟩
  | .call _ arguments, trace, hquiet => quiet_of_traverseAll hgrow arguments trace hquiet
  | .list _ items, trace, hquiet => quiet_of_traverseAll hgrow items trace hquiet
theorem quiet_of_traverseAll (hgrow : ∀ m trace, trace.cycles <+: (onVar m trace).2.cycles) :
    ∀ (es : List Expr) (trace : Trace), (traverseAll calls onVar es trace).2.cycles = [] →
      ∀ m ∈ varsAll es, ∃ t, (onVar m t).2.cycles = []
  | [], _, _ => by simp [varsAll]
  | e :: rest, trace, hquiet => by
    rw [traverseAll] at hquiet
    have hfirst : (traverse calls onVar e trace).2.cycles = [] :=
      List.prefix_nil.1 (hquiet ▸ cycles_prefix_traverseAll hgrow rest _)
    intro m hm
    rw [varsAll] at hm
    rcases List.mem_append.1 hm with hm | hm
    · exact quiet_of_traverse hgrow e trace hfirst m hm
    · exact quiet_of_traverseAll hgrow rest _ hquiet m hm
end

/-- A variable that is resolved without a report is not being resolved, and the variables of its
value are resolved without a report. -/
theorem quiet_inside {trace : Trace}
    (hquiet : (resolve calls (budget + 1) scope resolving name trace).2.cycles = []) :
    name ∉ resolving ∧ ∀ value home, scope.lookup name = some (value, home) →
      ∀ m ∈ value.vars, ∃ t,
        (resolve calls budget home (name :: resolving) m t).2.cycles = [] := by
  rw [resolve] at hquiet
  by_cases hin : name ∈ resolving
  · rw [if_pos hin] at hquiet
    have hreported := mem_cycles_addCycle trace name
    rw [hquiet] at hreported
    cases hreported
  · refine ⟨hin, fun value home hl => ?_⟩
    rw [if_neg hin, hl] at hquiet
    exact quiet_of_traverse (fun m t => cycles_prefix_resolve t) value trace hquiet

theorem not_mem_of_quiet {trace : Trace} {a c : Binding} {z : String}
    (hb : scope.unresolved resolving < budget)
    (hquiet : (resolve calls budget scope resolving name trace).2.cycles = [])
    (ha : scope.binding? name = some a) (hleads : a.LeadsTo c)
    (hz : c.home.Depends c.name z) : z ∉ name :: resolving := by
  induction budget generalizing scope resolving name trace a with
  | zero => omega
  | succ budget ih =>
    obtain ⟨hout, hinside⟩ := quiet_inside hquiet
    obtain ⟨haname, value, hl⟩ := Scope.lookup_of_binding? ha
    have hvalue := Scope.get?_home hl
    have hfewer := Scope.unresolved_lt hl hout
    rcases hleads.cases_head with rfl | ⟨d, ⟨⟨_, hv, hd⟩, hbinding⟩, hrest⟩
    · obtain ⟨_, hv, hin⟩ := hz
      rw [haname, hvalue] at hv
      cases hv
      obtain ⟨t, ht⟩ := hinside value _ hl z hin
      obtain ⟨more, rfl⟩ : ∃ k, budget = k + 1 := ⟨budget - 1, by omega⟩
      exact (quiet_inside ht).1
    · rw [haname, hvalue] at hv
      cases hv
      obtain ⟨t, ht⟩ := hinside value _ hl d.name hd
      have hnot := ih (by omega) ht hbinding hrest
      exact fun hin => hnot (List.mem_cons_of_mem _ hin)

theorem not_meetsAgain_of_quiet {trace : Trace} {a b : Binding}
    (hb : scope.unresolved resolving < budget)
    (hquiet : (resolve calls budget scope resolving name trace).2.cycles = [])
    (ha : scope.binding? name = some a) (hleads : a.LeadsTo b) : ¬ b.MeetsAgain := by
  induction budget generalizing scope resolving name trace a with
  | zero => omega
  | succ budget ih =>
    obtain ⟨hout, hinside⟩ := quiet_inside hquiet
    obtain ⟨haname, value, hl⟩ := Scope.lookup_of_binding? ha
    have hfewer := Scope.unresolved_lt hl hout
    rcases hleads.cases_head with rfl | ⟨d, ⟨⟨_, hv, hd⟩, hbinding⟩, hrest⟩
    · rintro ⟨c, hc, hmentions⟩
      exact not_mem_of_quiet hb hquiet ha hc hmentions (haname ▸ List.mem_cons_self)
    · rw [haname, Scope.get?_home hl] at hv
      cases hv
      obtain ⟨t, ht⟩ := hinside value _ hl d.name hd
      exact ih (by omega) ht hbinding hrest

theorem cycles_evalTrace_eq_nil (e : Expr) : (e.evalTrace calls scope).2.cycles = [] ↔
    ∀ b, scope.Reaches e b → ¬ b.MeetsAgain := by
  constructor
  · rintro hquiet b ⟨x, hx, a, ha, hleads⟩
    obtain ⟨t, ht⟩ := quiet_of_traverse (fun m t => cycles_prefix_resolve t) e {} hquiet x hx
    have hsize := scope.unresolved_le_size []
    exact not_meetsAgain_of_quiet (by omega) ht ha hleads
  · intro hnone
    refine List.eq_nil_iff_forall_not_mem.2 fun z hz => ?_
    obtain ⟨b, hb, -, hmeets⟩ := meetsAgain_of_mem_evalTrace e z hz
    exact hnone b hb hmeets

/-- In every scope, whatever scopes are around it, an evaluation warns if and only if it comes to a
binding whose name is met again while the binding is resolved, and it warns of such names only. So
it warns of nothing where no cycle of bindings comes up and every name keeps its meaning while it is
resolved. Without a warning the value is what substitution makes of the expression, and that leaves
only variables that are unbound in the scope where they are looked up. -/
theorem eval_reports_names_met_again (calls : Evaluator) (scope : Scope) (e : Expr) :
    let warnings := (e.eval calls scope).2.filterMap Event.warning?
    (warnings = [] ↔ ∀ b, scope.Reaches e b → ¬ b.MeetsAgain) ∧
    (∀ w ∈ warnings, ∃ b, scope.Reaches e b ∧ b.MeetsAgain ∧ w = .selfReference b.name) ∧
    ((∀ b, scope.Reaches e b → ¬ b.Cyclic ∧ b.KeepsName) → warnings = []) ∧
    (warnings = [] → ∀ v, Substitutes calls scope e v ↔ v = (e.eval calls scope).1) := by
  intro warnings
  have hwarnings : warnings = (e.evalTrace calls scope).2.cycles.map .selfReference :=
    warnings_eval e
  have hquiet : warnings = [] ↔ ∀ b, scope.Reaches e b → ¬ b.MeetsAgain := by
    rw [hwarnings, List.map_eq_nil_iff, cycles_evalTrace_eq_nil]
  refine ⟨hquiet, ?_, ?_, ?_⟩
  · intro w hw
    rw [hwarnings] at hw
    obtain ⟨z, hz, rfl⟩ := List.mem_map.1 hw
    obtain ⟨b, hb, rfl, hmeets⟩ := meetsAgain_of_mem_evalTrace e z hz
    exact ⟨b, hb, hmeets, rfl⟩
  · intro h
    refine hquiet.2 fun b hb hmeets => ?_
    obtain ⟨hacyclic, hkeeps⟩ := h b hb
    exact hacyclic (.of_keepsName hkeeps hmeets)
  · intro hnone v
    rw [hwarnings, List.map_eq_nil_iff] at hnone
    have hresult : Substitutes calls scope e (e.eval calls scope).1 := substitutes_evalTrace e hnone
    constructor
    · exact fun hv => hv.unique hresult
    · rintro rfl
      exact hresult

/-- A name that hides another one: `x` stands for `y` inside, where `y` stands for the `x` outside,
which has a value. No cycle of bindings comes up, but the second `x` is taken for the first. -/
theorem hidden_name_reported :
    let outer : Scope := { bindings := [("y", .var "x"), ("x", .text "1")] }
    let scope := outer.enter.set "x" (.var "y")
    (∀ b, scope.Reaches (.var "x") b → ¬ b.Cyclic) ∧
      Substitutes Evaluator.written scope (.var "x") (.text "1") ∧
      (Expr.var "x").eval Evaluator.written scope =
        (.var "x", [.warning (.selfReference "x")]) := by
  intro outer scope
  refine ⟨?_, ?_, by decide⟩
  · rintro b ⟨x, hx, a, ha, hleads⟩
    obtain rfl := List.mem_singleton.1 hx
    refine Binding.not_cyclic_of_order [⟨scope, "x"⟩, ⟨outer, "y"⟩, ⟨outer, "x"⟩]
      ?_ (Option.some.inj ha ▸ List.mem_cons_self) hleads
    rintro b hb ⟨home, name⟩ ⟨⟨value, hvalue, hm⟩, hc⟩
    simp only [List.mem_cons, List.not_mem_nil, or_false] at hb
    rcases hb with rfl | rfl | rfl <;> cases hvalue
    · obtain rfl := List.mem_singleton.1 hm
      cases hc
      decide
    · obtain rfl := List.mem_singleton.1 hm
      cases hc
      decide
    · cases hm
  · exact .bound rfl (.bound rfl (.bound rfl (.text "1")))

end Expr

end NestedStyles
