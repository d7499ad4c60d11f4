import NestedStyles.Proofs.CalledRules
import NestedStyles.Proofs.Linking
import NestedStyles.Proofs.Resolution

/-!
Other names for the parameters of a template. The value of an argument is an expression, and it is
evaluated a second time where the parameter is used. As long as no variable left in it is taken for
a parameter there, a call gives the same under all names of the parameters, and so does everything
that is compiled.
-/

namespace NestedStyles

/-! Renaming -/

namespace Expr

mutual
def rename (f : String → String) : Expr → Expr
  | .text s => .text s
  | .var name => .var (f name)
  | .call name arguments => .call name (renameAll f arguments)
  | .list separator items => .list separator (renameAll f items)
def renameAll (f : String → String) : List Expr → List Expr
  | [] => []
  | e :: rest => e.rename f :: renameAll f rest
end

variable {f : String → String} {calls : Evaluator} {onVar : String → Trace → Expr × Trace}

mutual
theorem traverse_rename : ∀ (e : Expr) (trace : Trace),
    traverse calls onVar (e.rename f) trace = traverse calls (fun m => onVar (f m)) e trace
  | .text s, trace => rfl
  | .var name, trace => rfl
  | .call name arguments, trace => by
    rw [rename, traverse, traverse, traverseAll_rename]
  | .list separator items, trace => by
    rw [rename, traverse, traverse, traverseAll_rename]
theorem traverseAll_rename : ∀ (es : List Expr) (trace : Trace),
    traverseAll calls onVar (renameAll f es) trace =
      traverseAll calls (fun m => onVar (f m)) es trace
  | [], trace => rfl
  | e :: rest, trace => by
    rw [renameAll, traverseAll, traverseAll, traverse_rename]
    simp only [traverseAll_rename rest]
end

mutual
theorem isConstant_rename : ∀ e : Expr, (e.rename f).isConstant = e.isConstant
  | .text _ | .var _ | .call .. => rfl
  | .list _ items => by
    rw [rename, isConstant, isConstant, allConstant_rename]
theorem allConstant_rename : ∀ es : List Expr, allConstant (renameAll f es) = allConstant es
  | [] => rfl
  | e :: rest => by
    rw [renameAll, allConstant, allConstant, isConstant_rename, allConstant_rename]
end

mutual
theorem rename_of_isConstant : ∀ e : Expr, e.isConstant → e.rename f = e
  | .text _, _ => rfl
  | .list _ items, h => by
    rw [isConstant] at h
    rw [rename, renameAll_of_allConstant items h]
theorem renameAll_of_allConstant : ∀ es : List Expr, allConstant es → renameAll f es = es
  | [], _ => rfl
  | e :: rest, h => by
    rw [allConstant, Bool.and_eq_true] at h
    rw [renameAll, rename_of_isConstant e h.1, renameAll_of_allConstant rest h.2]
end

end Expr

def Attribute.rename (f : String → String) (a : Attribute) : Attribute :=
  { a with value := a.value.rename f }

def Reference.rename (f : String → String) (r : Reference) : Reference :=
  { r with arguments := Expr.renameAll f r.arguments }

namespace Section

mutual
def rename (f : String → String) : Section → Section
  | ⟨selectors, attributes, nested, extensions, references, media⟩ =>
    ⟨selectors, attributes.map (·.rename f), renameAll f nested, extensions,
      references.map (·.rename f), media.map (·.rename f)⟩
def renameAll (f : String → String) : List Section → List Section
  | [] => []
  | inner :: rest => inner.rename f :: renameAll f rest
end

mutual
def vars : Section → List String
  | ⟨_, attributes, nested, _, references, media⟩ =>
    attributes.flatMap (·.value.vars) ++ varsAll nested ++
      references.flatMap (Expr.varsAll ·.arguments) ++ media.elim [] Expr.vars
def varsAll : List Section → List String
  | [] => []
  | inner :: rest => inner.vars ++ varsAll rest
end

theorem attributes_rename (f : String → String) (s : Section) :
    (s.rename f).attributes = s.attributes.map (·.rename f) := by
  cases s
  rw [rename]

theorem selectors_rename (f : String → String) (s : Section) :
    (s.rename f).selectors = s.selectors := by
  cases s
  rw [rename]

theorem mem_vars_of_attribute {s : Section} {a : Attribute} {m : String} (ha : a ∈ s.attributes)
    (hm : m ∈ a.value.vars) : m ∈ s.vars := by
  cases s
  simp only [vars, List.mem_append, List.mem_flatMap]
  exact .inl (.inl (.inl ⟨a, ha, hm⟩))

end Section

namespace Template

/-- Renames the parameters of a template and the variables of its expressions. -/
def rename (f : String → String) (t : Template) : Template where
  name := t.name
  parameters := t.parameters.map f
  attributes := t.attributes.map (·.rename f)
  sections := t.sections.map (·.rename f)

def vars (t : Template) : List String :=
  t.attributes.flatMap (·.value.vars) ++ t.sections.flatMap (·.vars)

/-- The bindings of a call: the last parameter first, each with the value of its argument. -/
def callFrame (t : Template) (calls : Evaluator) (scope : Scope) (arguments : List Expr) : Frame :=
  ((t.parameters.zip arguments).map fun b => (b.1, (b.2.eval calls scope).1)).reverse

theorem callScope_eq (t : Template) (calls : Evaluator) (scope : Scope) (arguments : List Expr) :
    t.callScope calls scope arguments =
      ⟨t.callFrame calls scope arguments, scope.bindings :: scope.outer⟩ := by
  have hfold : ∀ (bindings : List (String × Expr)) (inner : Scope),
      bindings.foldl (fun inner b => inner.set b.1 (b.2.eval calls scope).1) inner =
        ⟨(bindings.map fun b => (b.1, (b.2.eval calls scope).1)).reverse ++ inner.bindings,
          inner.outer⟩ := by
    intro bindings
    induction bindings with
    | nil => simp
    | cons b rest ih =>
      intro inner
      rw [List.foldl_cons, ih]
      simp [Scope.set]
  rw [callScope, hfold, callFrame, Scope.enter, List.append_nil]

theorem callFrame_rename (f : String → String) (t : Template) (calls : Evaluator) (scope : Scope)
    (arguments : List Expr) :
    (t.rename f).callFrame calls scope arguments =
      (t.callFrame calls scope arguments).map fun b => (f b.1, b.2) := by
  simp only [callFrame, rename, List.zip_map_left, List.map_reverse, List.map_map]
  rfl

variable {t : Template} {f : String → String} {calls : Evaluator} {scope : Scope}
  {arguments : List Expr} {m : String}

theorem mem_callFrame {p : String} {value : Expr} :
    (p, value) ∈ t.callFrame calls scope arguments ↔
      ∃ a, (p, a) ∈ t.parameters.zip arguments ∧ (a.eval calls scope).1 = value := by
  simp only [callFrame, List.mem_reverse, List.mem_map, Prod.mk.injEq]
  constructor
  · rintro ⟨b, hb, rfl, hv⟩
    exact ⟨b.2, hb, hv⟩
  · rintro ⟨a, ha, hv⟩
    exact ⟨(p, a), ha, rfl, hv⟩

theorem lookup_callFrame_of_not_mem (h : m ∉ t.parameters) :
    (t.callFrame calls scope arguments).lookup m = none := by
  rw [List.lookup_eq_none_iff]
  rintro ⟨p, value⟩ hin
  obtain ⟨a, ha, -⟩ := mem_callFrame.1 hin
  have hp := (List.of_mem_zip ha).1
  rw [bne_iff_ne]
  rintro rfl
  exact h hp

theorem not_mem_of_lookup_callFrame (hl : t.parameters.length = arguments.length)
    (h : (t.callFrame calls scope arguments).lookup m = none) : m ∉ t.parameters := by
  intro hm
  obtain ⟨i, hi, rfl⟩ := List.getElem_of_mem hm
  have hpair : (t.parameters[i], arguments[i]) ∈ t.parameters.zip arguments := by
    rw [List.mem_iff_getElem]
    exact ⟨i, by simp; omega, by simp⟩
  have hne := List.lookup_eq_none_iff.1 h _ (mem_callFrame.2 ⟨_, hpair, rfl⟩)
  simp at hne

theorem lookup_map_key {frame : Frame} (h : ∀ b ∈ frame, f b.1 = f m → b.1 = m) :
    (frame.map fun b => (f b.1, b.2)).lookup (f m) = frame.lookup m := by
  induction frame with
  | nil => rfl
  | cons b rest ih =>
    obtain ⟨hb, hrest⟩ := List.forall_mem_cons.1 h
    obtain ⟨key, value⟩ := b
    simp only [List.map_cons, List.lookup_cons, ih hrest]
    by_cases hkey : m = key
    · simp [hkey]
    · have hnew : f m ≠ f key := fun heq => hkey (hb heq.symm).symm
      rw [beq_eq_false_iff_ne.2 hkey, beq_eq_false_iff_ne.2 hnew]

theorem lookup_callFrame_of_mem (hn : t.parameters.Nodup)
    (hl : t.parameters.length = arguments.length) {p : String} {a : Expr}
    (h : (p, a) ∈ t.parameters.zip arguments) :
    (t.callFrame calls scope arguments).lookup p = some (a.eval calls scope).1 := by
  cases hf : (t.callFrame calls scope arguments).lookup p with
  | none => exact absurd (List.of_mem_zip h).1 (not_mem_of_lookup_callFrame hl hf)
  | some value =>
    obtain ⟨a', ha', rfl⟩ := mem_callFrame.1 (Scope.mem_of_lookup_eq_some hf)
    have hkeys : ((t.parameters.zip arguments).map (·.1)).Nodup := by
      rw [List.map_fst_zip (by omega)]
      exact hn
    have hpair := List.inj_on_of_nodup_map hkeys (x := (p, a)) h (y := (p, a')) ha' rfl
    cases hpair
    rfl

/-- No variable of a value is taken for a parameter where the value is bound to the parameter `p`:
none is a parameter, and none leads to `p`. -/
def Spares (t : Template) (scope : Scope) (p : String) (value : Expr) : Prop :=
  ∀ m ∈ value.vars, m ∉ t.parameters ∧ ¬ scope.Leads m p

/-- No variable that is left in the value of an argument is taken for a parameter, as far as the
template mentions the parameter that the value is bound to. -/
def Uncaptured (t : Template) (calls : Evaluator) (scope : Scope) (arguments : List Expr) : Prop :=
  ∀ p a, (p, a) ∈ t.parameters.zip arguments → p ∈ t.vars →
    t.Spares scope p (a.eval calls scope).1

theorem resolved_callScope_of_bound {value : Expr} (h : t.Spares scope m value)
    (hf : (t.callFrame calls scope arguments).lookup m = some value) :
    Expr.resolved calls (t.callScope calls scope arguments) m =
      value.traverse calls (Expr.resolved calls scope) := by
  rw [callScope_eq]
  refine Expr.resolved_of_bound hf fun k hk => ?_
  obtain ⟨hparameter, hleads⟩ := h k hk
  exact ⟨lookup_callFrame_of_not_mem hparameter, hleads⟩

/-- In a call a parameter stands for the value of its argument, evaluated once more outside. -/
theorem eval_parameter (hn : t.parameters.Nodup) (hl : t.parameters.length = arguments.length)
    {p : String} {a : Expr} (hpa : (p, a) ∈ t.parameters.zip arguments)
    (hspares : t.Spares scope p (a.eval calls scope).1) :
    (Expr.var p).eval calls (t.callScope calls scope arguments) =
      (a.eval calls scope).1.eval calls scope := by
  have htrace : (Expr.var p).evalTrace calls (t.callScope calls scope arguments) =
      (a.eval calls scope).1.evalTrace calls scope := by
    rw [Expr.evalTrace_eq, Expr.traverse,
      resolved_callScope_of_bound hspares (lookup_callFrame_of_mem hn hl hpa), Expr.evalTrace_eq]
  rw [Expr.eval, Expr.eval, htrace]

/-- The names that a template gets from a renaming of its parameters stay apart. -/
structure Renames (t : Template) (f : String → String) : Prop where
  others : ∀ m, m ∉ t.parameters → f m = m
  distinct : (t.parameters.map f).Nodup
  fresh : ∀ p ∈ t.parameters, f p = p ∨ f p ∉ t.vars

theorem Renames.injective (h : t.Renames f) (hm : m ∈ t.vars) :
    ∀ p ∈ t.parameters, f p = f m → p = m := by
  intro p hp heq
  by_cases hparameter : m ∈ t.parameters
  · exact List.inj_on_of_nodup_map h.distinct hp hparameter heq
  · rw [h.others m hparameter] at heq
    rcases h.fresh p hp with hsame | hfresh
    · exact hsame.symm.trans heq
    · rw [heq] at hfresh
      exact absurd hm hfresh

theorem eval_rename (h : t.Renames f) (hl : t.parameters.length = arguments.length)
    (hfree : t.Uncaptured calls scope arguments)
    (hfree' : ∀ p a, (p, a) ∈ t.parameters.zip arguments → p ∈ t.vars →
      (t.rename f).Spares scope (f p) (a.eval calls scope).1) {e : Expr}
    (he : ∀ m ∈ e.vars, m ∈ t.vars) :
    (e.rename f).eval calls ((t.rename f).callScope calls scope arguments) =
      e.eval calls (t.callScope calls scope arguments) := by
  have htrace : (e.rename f).evalTrace calls ((t.rename f).callScope calls scope arguments) =
      e.evalTrace calls (t.callScope calls scope arguments) := by
    rw [Expr.evalTrace_eq, Expr.evalTrace_eq, Expr.traverse_rename]
    refine Expr.traverse_congr e (fun m hm => ?_) {}
    have hlookup : ((t.rename f).callFrame calls scope arguments).lookup (f m) =
        (t.callFrame calls scope arguments).lookup m := by
      rw [callFrame_rename]
      apply lookup_map_key
      rintro ⟨p, value⟩ hb
      obtain ⟨a, ha, -⟩ := mem_callFrame.1 hb
      exact h.injective (he m hm) p (List.of_mem_zip ha).1
    cases hf : (t.callFrame calls scope arguments).lookup m with
    | some value =>
      obtain ⟨a, ha, rfl⟩ := mem_callFrame.1 (Scope.mem_of_lookup_eq_some hf)
      rw [resolved_callScope_of_bound (hfree m a ha (he m hm)) hf,
        resolved_callScope_of_bound (hfree' m a ha (he m hm)) (hlookup.trans hf)]
    | none =>
      rw [callScope_eq, callScope_eq, Expr.resolved_of_not_bound hf,
        Expr.resolved_of_not_bound (hlookup.trans hf),
        h.others m (not_mem_of_lookup_callFrame hl hf)]
  rw [Expr.eval, Expr.eval, htrace]

theorem Spares.rename {p : String} {a : Expr}
    (h : t.Spares scope p (a.eval Evaluator.written scope).1)
    (hpa : (p, a) ∈ t.parameters.zip arguments)
    (hf : ∀ p ∈ t.parameters, f p = p ∨
      (¬ scope.Mentions (f p) ∧ ∀ a ∈ arguments, f p ∉ a.vars)) :
    (t.rename f).Spares scope (f p) (a.eval Evaluator.written scope).1 := by
  intro m hm
  obtain ⟨hp, ha⟩ := List.of_mem_zip hpa
  obtain ⟨hparameter, hleads⟩ := h m hm
  have hsource := Expr.vars_eval _ m hm
  constructor
  · intro hnew
    obtain ⟨p', hp', rfl⟩ := List.mem_map.1 hnew
    rcases hf p' hp' with hsame | ⟨hscope, harguments⟩
    · rw [hsame] at hparameter
      exact hparameter hp'
    · rcases hsource with hin | hin
      · exact harguments _ ha hin
      · exact hscope hin
  · intro hnew
    rcases hf p hp with hsame | ⟨hscope, harguments⟩
    · rw [hsame] at hnew
      exact hleads hnew
    · rcases hnew.mentioned with heq | hin
      · rw [heq] at hscope harguments
        rcases hsource with hin | hin
        · exact harguments _ ha hin
        · exact hscope hin
      · exact hscope hin

end Template

theorem Attribute.instantiated_rename {calls : Evaluator} {inner renamed : Scope} {a : Attribute}
    {f : String → String}
    (h : (a.value.rename f).eval calls renamed = a.value.eval calls inner) :
    (a.rename f).instantiated calls renamed = a.instantiated calls inner := by
  by_cases hc : a.value.isConstant
  · simp [instantiated, rename, Expr.rename_of_isConstant a.value hc, hc]
  · simp [instantiated, rename, Expr.isConstant_rename, hc, evaluated, h]

theorem Expansion.ofCall_rename {t : Template} {f : String → String} {calls : Evaluator}
    {scope : Scope} {r : Reference} (h : t.Renames f)
    (hl : t.parameters.length = r.arguments.length)
    (hfree : t.Uncaptured calls scope r.arguments)
    (hfree' : ∀ p a, (p, a) ∈ t.parameters.zip r.arguments → p ∈ t.vars →
      (t.rename f).Spares scope (f p) (a.eval calls scope).1) (callers : List Selector) :
    ofCall calls scope callers r (t.rename f) = ofCall calls scope callers r t := by
  have hown : ∀ a ∈ t.attributes, (a.value.rename f).eval calls
      ((t.rename f).callScope calls scope r.arguments) =
        a.value.eval calls (t.callScope calls scope r.arguments) := by
    intro a ha
    apply Template.eval_rename h hl hfree hfree'
    intro m hm
    exact List.mem_append_left _ (List.mem_flatMap.2 ⟨a, ha, hm⟩)
  have hinner : ∀ child ∈ t.sections, ∀ a ∈ child.attributes, (a.value.rename f).eval calls
      ((t.rename f).callScope calls scope r.arguments) =
        a.value.eval calls (t.callScope calls scope r.arguments) := by
    intro child hc a ha
    apply Template.eval_rename h hl hfree hfree'
    intro m hm
    exact List.mem_append_right _
      (List.mem_flatMap.2 ⟨child, hc, Section.mem_vars_of_attribute ha hm⟩)
  simp only [ofCall]
  generalize (t.rename f).callScope calls scope r.arguments = renamed at hown hinner ⊢
  generalize t.callScope calls scope r.arguments = inner at hown hinner ⊢
  have hmet : ∀ child ∈ t.sections, (child.rename f).attributes.flatMap (·.met calls renamed) =
      child.attributes.flatMap (·.met calls inner) := by
    intro child hc
    rw [Section.attributes_rename, List.flatMap_map]
    refine List.flatMap_congr fun a ha => ?_
    simp only [Attribute.met, Attribute.rename, hinner child hc a ha]
  have hrule : ∀ child ∈ t.sections,
      Template.sectionRule calls renamed callers (child.rename f) =
        Template.sectionRule calls inner callers child := by
    intro child hc
    simp only [Template.sectionRule, Section.selectors_rename, Section.attributes_rename,
      List.map_map, Rule.mk.injEq, true_and, and_true]
    refine List.map_congr_left fun a ha => ?_
    simp only [Function.comp_apply, Attribute.evaluated, Attribute.rename, hinner child hc a ha]
  simp only [Template.rename, List.map_map, List.flatMap_map, List.length_map, List.zip_map_left,
    Prod.map_snd, id_eq]
  congr 1
  · exact List.map_congr_left fun a ha => Attribute.instantiated_rename (hown a ha)
  · exact List.map_congr_left hrule
  · congr 1
    · congr 1
      refine List.flatMap_congr fun a ha => ?_
      simp only [Attribute.met, Attribute.rename, Expr.isConstant_rename, hown a ha]
    · exact List.flatMap_congr hmet

/-! Sessions with other templates -/

namespace Session

variable {s : Session} {templates : List (String × Template)} {id : Nat}

def withTemplates (s : Session) (templates : List (String × Template)) : Session :=
  { s with templates := templates }

theorem foldl_withTemplates {α : Type} {f : Session → α → Session}
    (hf : ∀ s x, f (s.withTemplates templates) x = (f s x).withTemplates templates) (xs : List α)
    (s : Session) :
    xs.foldl f (s.withTemplates templates) = (xs.foldl f s).withTemplates templates := by
  induction xs generalizing s with
  | nil => rfl
  | cons x rest ih => rw [List.foldl_cons, hf, ih, List.foldl_cons]

theorem place_withTemplates (path : Option String) (rule : Rule) :
    (s.withTemplates templates).place path rule = (s.place path rule).withTemplates templates := by
  cases path with
  | none => rfl
  | some path =>
    simp only [place, withTemplates]
    cases s.containers.lookup path <;> rfl

theorem emit_withTemplates (y : Yield) :
    (s.withTemplates templates).emit y = (s.emit y).withTemplates templates := by
  cases y with
  | rule path selectors origin =>
    simp only [emit, place_withTemplates, register_eq]
    split <;> rfl
  | host path selectors wrapper => simp only [emit, place_withTemplates]
  | events met => rfl

theorem declare_withTemplates (d : Declaration) :
    (s.withTemplates templates).declare d = (s.declare d).withTemplates templates := by
  have hscope : (s.withTemplates templates).scope = s.scope := rfl
  simp only [declare, hscope]
  split <;> rfl

theorem addTemplates_eq (ts : List Template) (s : Session) :
    ts.foldl addTemplate s =
      s.withTemplates ((ts.map fun t => (t.name, t)).reverse ++ s.templates) := by
  induction ts generalizing s with
  | nil => rfl
  | cons t rest ih => simp [ih, addTemplate, withTemplates]

theorem merge_withTemplates (s : Session) (sheet : Sheet) (ts : List Template) :
    s.merge { sheet with templates := ts } =
      (s.merge sheet).withTemplates ((ts.map fun t => (t.name, t)).reverse ++ s.templates) := by
  have hexpand : ∀ (u : Session) (templates : List (String × Template)),
      (u.withTemplates templates).expandAll none none sheet.sections =
        (u.expandAll none none sheet.sections).withTemplates templates := by
    intro u templates
    rw [expandAll_eq_emitAll, expandAll_eq_emitAll]
    exact foldl_withTemplates (fun _ y => emit_withTemplates y) _ u
  simp only [merge, addTemplates_eq, foldl_withTemplates fun _ d => declare_withTemplates d,
    hexpand]
  rfl

theorem extend_withTemplates (id : Nat) (target : String) :
    (s.withTemplates templates).extend id target =
      (s.extend id target).withTemplates templates := by
  have htargets : (s.withTemplates templates).targets = s.targets := rfl
  cases hl : s.targets.lookup target with
  | none =>
    rw [extend_of_none id hl, extend_of_none id (htargets ▸ hl)]
    rfl
  | some found =>
    rw [extend_of_some id hl, extend_of_some id (htargets ▸ hl)]
    rfl

/-- With these templates the calls of every rule give what they give in the session. -/
def Supports (s : Session) (templates : List (String × Template)) : Prop :=
  ∀ id callers, Expansion.ofReferences s.calls s.scope templates callers (s.table.references id) =
    Expansion.ofReferences s.calls s.scope s.templates callers (s.table.references id)

theorem compileRule_withTemplates (h : s.Supports templates) (id : Nat) :
    (s.withTemplates templates).compileRule id = (s.compileRule id).withTemplates templates := by
  cases hr : s.table.rule? id with
  | none =>
    have hr' : (s.withTemplates templates).table.rule? id = none := hr
    simp only [compileRule, hr, hr']
  | some rule =>
    have hr' : (s.withTemplates templates).table.rule? id = some rule := hr
    have hcalls := h id
    rw [RuleTable.references_of_rule? hr] at hcalls
    have hsettled : rule.settled s.calls s.scope templates =
        rule.settled s.calls s.scope s.templates := by
      rw [Rule.settled, Rule.settled, ← Expansion.attributes_ofReferences _ _ _ [],
        ← Expansion.attributes_ofReferences _ _ _ [], hcalls]
    rw [compileRule_eq hr, compileRule_eq hr',
      foldl_withTemplates fun _ target => extend_withTemplates id target]
    simp only [withTemplates, grow, hcalls, hsettled]

theorem references_ofReferences (calls : Evaluator) (scope : Scope)
    (templates : List (String × Template)) (callers : List Selector) (references : List Reference) :
    ∀ rule ∈ (Expansion.ofReferences calls scope templates callers references).rules,
      rule.references = [] := by
  induction references with
  | nil => simp [Expansion.ofReferences]
  | cons r rest ih =>
    cases hl : templates.lookup r.name with
    | none => simp [Expansion.ofReferences, hl]
    | some t =>
      intro rule hin
      simp only [Expansion.ofReferences, hl, Expansion.append] at hin
      rcases List.mem_append.1 hin with hin | hin
      · obtain ⟨child, -, rfl⟩ := List.mem_map.1 hin
        rfl
      · exact ih rule hin

theorem references_of_size_le (h : s.table.size ≤ id) : s.table.references id = [] := by
  have hnode : s.table.nodes[id]? = none := by simpa [RuleTable.size] using h
  simp [RuleTable.references, RuleTable.rule?, hnode]

theorem references_compileRule (s : Session) (id i : Nat) :
    (s.compileRule id).table.references i = s.table.references i := by
  by_cases hi : i < s.table.size
  · obtain ⟨node, hn⟩ := RuleTable.node_of_lt_size hi
    obtain ⟨more, hmore⟩ := compileRule_nodes hn id
    rw [RuleTable.references_of_node hn, RuleTable.references_of_node hmore]
    rfl
  · have hnone := references_of_size_le (Nat.le_of_not_lt hi)
    by_cases hid : id < s.table.size
    · obtain ⟨-, -, hnew, -⟩ := compileRule_called hid
      have hindex : i = s.table.size + (i - s.table.size) := by omega
      have hnode := hnew (i - s.table.size)
      rw [← hindex] at hnode
      rw [hnone, RuleTable.references, RuleTable.rule?, hnode]
      cases hrule : (s.called id)[i - s.table.size]? with
      | none => rfl
      | some rule =>
        exact references_ofReferences _ _ _ _ _ rule (List.mem_of_getElem? hrule)
    · have hsame : s.compileRule id = s := by
        have hr : s.table.rule? id = none := by
          simpa [RuleTable.rule?, RuleTable.size] using Nat.le_of_not_lt hid
        simp only [compileRule, hr]
      rw [hsame]

theorem Supports.compileRule (h : s.Supports templates) (id : Nat) :
    (s.compileRule id).Supports templates := by
  intro i callers
  have hkeeps := s.compileRule_keeps id
  rw [hkeeps.calls, hkeeps.scope, hkeeps.templates, references_compileRule]
  exact h i callers

theorem Supports.run (h : s.Supports templates) (order : List Nat) :
    order.foldl Session.compileRule (s.withTemplates templates) =
      (order.foldl Session.compileRule s).withTemplates templates := by
  induction order generalizing s with
  | nil => rfl
  | cons id rest ih =>
    rw [List.foldl_cons, compileRule_withTemplates h, ih (h.compileRule id), List.foldl_cons]

/-- What is compiled depends on the templates only through the calls of the rules. -/
theorem Supports.compile (h : s.Supports templates) :
    (s.withTemplates templates).compile = s.compile := by
  have hrules : (s.withTemplates templates).compileRules =
      s.compileRules.withTemplates templates := h.run s.visitOrder
  simp only [Session.compile, hrules]
  rfl

/-- A reference in a rule of the session that calls the template. -/
def Calls (s : Session) (t : Template) (r : Reference) : Prop :=
  r ∈ s.table.nodes.toList.flatMap (·.rule.references) ∧ s.templates.lookup r.name = some t

theorem mem_of_references {r : Reference} (h : r ∈ s.table.references id) :
    r ∈ s.table.nodes.toList.flatMap (·.rule.references) := by
  by_cases hid : id < s.table.size
  · obtain ⟨node, hn⟩ := RuleTable.node_of_lt_size hid
    rw [RuleTable.references_of_node hn] at h
    have hnode : node ∈ s.table.nodes := Array.mem_of_getElem? hn
    exact List.mem_flatMap.2 ⟨node, hnode.val, h⟩
  · rw [references_of_size_le (Nat.le_of_not_lt hid)] at h
    cases h

theorem lookup_replace (others : List (String × Template)) (t u : Template) (name key : String) :
    ∀ front : List (String × Template),
      (front ++ (name, u) :: others).lookup key = (front ++ (name, t) :: others).lookup key ∨
        ((front ++ (name, t) :: others).lookup key = some t ∧
          (front ++ (name, u) :: others).lookup key = some u)
  | [] => by
    simp only [List.nil_append, List.lookup_cons]
    split
    · exact .inr ⟨rfl, rfl⟩
    · exact .inl rfl
  | (first, _) :: front => by
    simp only [List.cons_append, List.lookup_cons]
    split
    · exact .inl rfl
    · exact lookup_replace others t u name key front

theorem supports_replace {t u : Template} {name : String} {front others : List (String × Template)}
    (hs : s.templates = front ++ (name, t) :: others)
    (h : ∀ r, s.Calls t r → ∀ callers, Expansion.ofCall s.calls s.scope callers r u =
      Expansion.ofCall s.calls s.scope callers r t) :
    s.Supports (front ++ (name, u) :: others) := by
  intro id callers
  have hreferences : ∀ r ∈ s.table.references id,
      r ∈ s.table.nodes.toList.flatMap (·.rule.references) := fun r hr => mem_of_references hr
  generalize s.table.references id = references at hreferences
  induction references with
  | nil => rfl
  | cons r rest ih =>
    obtain ⟨hr, hrest⟩ := List.forall_mem_cons.1 hreferences
    have hrest' := ih hrest
    rcases lookup_replace others t u name r.name front with hsame | ⟨hold, hnew⟩
    · rw [← hs] at hsame
      simp only [Expansion.ofReferences, hsame, hrest']
    · rw [← hs] at hold
      simp only [Expansion.ofReferences, hold, hnew, hrest', h r ⟨hr, hold⟩]

theorem calls_importSheet (s : Session) (lib : Library) (sheet : Sheet) :
    (s.importSheet lib sheet).1.calls = s.calls := by
  have hclosed : ImportClosed fun u => u.calls = s.calls := by
    constructor
    · exact fun _ _ h => h
    · exact fun _ _ _ h => h
    · exact fun u sheet h => (u.merge_environment sheet).1.trans h
  exact hclosed.importSheet lib sheet rfl

theorem importSheet_withTemplates (s : Session) (lib : Library) (sheet : Sheet)
    (ts : List Template) :
    s.importSheet lib { sheet with templates := ts } = s.importSheet lib sheet ∨
      ∃ next : Session, s.importSheet lib sheet = (next.merge sheet, .ok ()) ∧
        s.importSheet lib { sheet with templates := ts } =
          (next.merge { sheet with templates := ts }, .ok ()) := by
  have hname : ({ sheet with templates := ts } : Sheet).name = sheet.name := rfl
  have hopening : s.opening { sheet with templates := ts } = s.opening sheet := rfl
  by_cases hseen : sheet.name ∈ s.imported
  · left
    rw [importSheet, importSheet, importWithin_of_mem _ hseen]
    exact importWithin_of_mem lib.depth (hname ▸ hseen)
  · rw [importSheet, importSheet, importWithin_of_not_mem _ hseen,
      importWithin_of_not_mem _ (hname ▸ hseen), hopening]
    generalize each (importNameWith lib (importWithin lib lib.depth)) (s.opening sheet)
      sheet.imports = out
    obtain ⟨next, result⟩ := out
    cases result with
    | error e => exact .inl rfl
    | ok _ => exact .inr ⟨next, rfl, rfl⟩

/-- A sheet is compiled to the same with a template replaced by one that gives the same to all its
calls. -/
theorem compile_replace_template {lib : Library} {sheet : Sheet} {before after : List Template}
    {t t' : Template} {u : Session} {result : Except Error Unit}
    (hout : s.importSheet lib sheet = (u, result))
    (hsheet : sheet.templates = before ++ t :: after) (hname : t'.name = t.name)
    (h : ∀ r, u.Calls t r → ∀ callers, Expansion.ofCall u.calls u.scope callers r t' =
      Expansion.ofCall u.calls u.scope callers r t) :
    let replaced := s.importSheet lib { sheet with templates := before ++ t' :: after }
    replaced.2 = result ∧ replaced.1.compile = u.compile := by
  intro replaced
  rcases s.importSheet_withTemplates lib sheet (before ++ t' :: after) with
    hequal | ⟨next, hmerged, hreplaced⟩
  · simp only [replaced, hequal, hout, and_self]
  · cases hout.symm.trans hmerged
    have htemplates : (next.merge sheet).templates = (after.map fun t => (t.name, t)).reverse ++
        (t.name, t) :: ((before.map fun t => (t.name, t)).reverse ++ next.templates) := by
      rw [templates_merge, hsheet]
      simp
    have hmerge : replaced.1 = (next.merge sheet).withTemplates
        ((after.map fun t => (t.name, t)).reverse ++
          (t.name, t') :: ((before.map fun t => (t.name, t)).reverse ++ next.templates)) := by
      simp only [replaced, hreplaced, merge_withTemplates]
      simp [hname]
    refine ⟨congrArg Prod.snd hreplaced, ?_⟩
    rw [hmerge]
    exact (supports_replace htemplates h).compile

/-- A name that no variable's value and no argument of a call of the template mentions. -/
def Unmentioned (s : Session) (t : Template) (name : String) : Prop :=
  ¬ s.scope.Mentions name ∧ ∀ r, s.Calls t r → ∀ a ∈ r.arguments, name ∉ a.vars

/-- New names for the parameters of a template of a sheet change nothing in what is compiled, as
long as no call has an argument in whose value a variable is taken for a parameter, other than for
one that the template never mentions. A parameter stands for the value of its argument, evaluated
once more outside, when no variable of that value is taken for a parameter. -/
theorem compile_rename_parameters {s : Session} (hs : s.calls = Evaluator.written) (lib : Library)
    {sheet : Sheet} {before after : List Template} {t : Template} {f : String → String}
    (hsheet : sheet.templates = before ++ t :: after) :
    let out := s.importSheet lib sheet
    let renamed := s.importSheet lib { sheet with templates := before ++ t.rename f :: after }
    let u := out.1
    t.Renames f → (∀ p ∈ t.parameters, f p = p ∨ u.Unmentioned t (f p)) →
    (∀ r, u.Calls t r → t.parameters.length = r.arguments.length ∧
      t.Uncaptured u.calls u.scope r.arguments) →
    renamed.2 = out.2 ∧ renamed.1.compile = u.compile ∧
    ∀ r, u.Calls t r → ∀ p a, (p, a) ∈ t.parameters.zip r.arguments →
      let value := (a.eval u.calls u.scope).1
      let inner := t.callScope u.calls u.scope r.arguments
      t.Spares u.scope p value →
      (Expr.var p).eval u.calls inner = value.eval u.calls u.scope ∧
      ((∀ m ∈ value.vars, u.scope.lookup m = none) →
        ((Expr.var p).eval u.calls inner).1 = value) := by
  intro out renamed u hf hnew hfree
  have hcalls : u.calls = Evaluator.written := (s.calls_importSheet lib sheet).trans hs
  have hsame : ∀ r, u.Calls t r → ∀ callers,
      Expansion.ofCall u.calls u.scope callers r (t.rename f) =
        Expansion.ofCall u.calls u.scope callers r t := by
    intro r hr callers
    obtain ⟨hl, huncaptured⟩ := hfree r hr
    rw [hcalls] at huncaptured ⊢
    refine Expansion.ofCall_rename hf hl huncaptured (fun p a hpa hvars => ?_) callers
    refine (huncaptured p a hpa hvars).rename hpa fun p hp => ?_
    rcases hnew p hp with hkept | ⟨hscope, harguments⟩
    · exact .inl hkept
    · exact .inr ⟨hscope, harguments r hr⟩
  have hname : (t.rename f).name = t.name := rfl
  obtain ⟨hresult, hcompile⟩ :=
    compile_replace_template (show s.importSheet lib sheet = (u, out.2) from rfl) hsheet hname hsame
  refine ⟨hresult, hcompile, ?_⟩
  intro r hr p a hpa value inner hspares
  obtain ⟨hl, -⟩ := hfree r hr
  have hvalue := Template.eval_parameter (hf.distinct.of_map f) hl hpa hspares
  refine ⟨hvalue, fun hunbound => ?_⟩
  rw [hvalue]
  simp only [value, hcalls] at hunbound ⊢
  exact Expr.eval_eval_of_unbound a hunbound

/-- An argument without a value goes through a parameter under either name. -/
theorem compile_rename_parameters_unbound :
    let f := fun m => if m = "x" then "z" else m
    let box : Template :=
      { name := "box", parameters := ["x"], attributes := [⟨"a", .var "x"⟩]
        sections :=
          [{ selectors := [["p"]], attributes := [⟨"b", .list .space [.var "x", .var "c"]⟩] }] }
    let rule : Section := { selectors := [[".r"]], references := [⟨"box", [.var "y"]⟩] }
    let sheet : Sheet :=
      { name := "main.bss", declarations := [⟨"c", .text "1", false⟩], templates := [box]
        sections := [rule] }
    (({} : Session).importSheet (.ofSources [])
        { sheet with templates := [box.rename f] }).1.compile.rules =
      [⟨[[".r"]], [⟨"a", .var "y"⟩], []⟩,
        ⟨[[".r", "p"]], [⟨"b", .list .space [.var "y", .text "1"]⟩], []⟩] := by
  intro f box rule sheet
  have hscope : (({} : Session).importSheet (.ofSources []) sheet).1.scope =
      ⟨[("c", .text "1")], []⟩ := by
    decide +kernel
  have hreferences : (({} : Session).importSheet (.ofSources []) sheet).1.table.nodes.toList.flatMap
      (·.rule.references) = [⟨"box", [.var "y"]⟩] := by
    decide +kernel
  have hcalls : ∀ r, (({} : Session).importSheet (.ofSources []) sheet).1.Calls box r →
      r = ⟨"box", [.var "y"]⟩ := by
    rintro r ⟨hr, -⟩
    rw [hreferences] at hr
    exact List.mem_singleton.1 hr
  have hrenames : box.Renames f := by
    refine ⟨?_, by decide, by decide⟩
    intro m hm
    have hne : m ≠ "x" := by simpa [box] using hm
    simp [f, hne]
  have hnew : ∀ p ∈ box.parameters,
      f p = p ∨ (({} : Session).importSheet (.ofSources []) sheet).1.Unmentioned box (f p) := by
    intro p hp
    rw [List.mem_singleton.1 hp]
    refine .inr ⟨by rw [hscope]; decide, ?_⟩
    intro r hr a ha
    rw [hcalls r hr] at ha
    rw [List.mem_singleton.1 ha]
    decide
  have hfree : ∀ r, (({} : Session).importSheet (.ofSources []) sheet).1.Calls box r →
      box.parameters.length = r.arguments.length ∧ box.Uncaptured Evaluator.written
        (({} : Session).importSheet (.ofSources []) sheet).1.scope r.arguments := by
    intro r hr
    rw [hcalls r hr, hscope]
    refine ⟨rfl, ?_⟩
    intro p a hpa _ m hm
    cases List.mem_singleton.1 hpa
    have hvars :
        ((Expr.var "y").eval Evaluator.written ⟨[("c", .text "1")], []⟩).1.vars = ["y"] := by
      decide
    rw [hvars, List.mem_singleton] at hm
    rw [hm]
    refine ⟨by decide, ?_⟩
    intro hleads
    rcases hleads.mentioned with heq | hmentioned
    · exact absurd heq (by decide)
    · exact absurd hmentioned (by decide)
  have hcompile := (compile_rename_parameters (s := {}) rfl (.ofSources [])
    (show sheet.templates = [] ++ box :: [] from rfl) hrenames hnew hfree).2.1
  simp only [List.nil_append] at hcompile
  rw [hcompile]
  decide +kernel

/-- A variable without a value is handed to the first parameter and has the name of the second. It
stands for the second argument, and with another name of the second parameter for itself. -/
theorem captured_argument_depends_on_name :
    let source := "@func f($x, $y) \x7b a: $x \x7d .b \x7b @func f($y, 1); \x7d"
    let f := fun m => if m = "y" then "z" else m
    ∃ sheet t, Sheet.parse "main.bss" source = .ok sheet ∧ sheet.templates = [t] ∧
      (({} : Session).importSheet (.ofSources []) sheet).1.compile.rules =
        [⟨[[".b"]], [⟨"a", .text "1"⟩], []⟩] ∧
      (({} : Session).importSheet (.ofSources [])
          { sheet with templates := [t.rename f] }).1.compile.rules =
        [⟨[[".b"]], [⟨"a", .var "y"⟩], []⟩] := by
  intro source f
  have hrun : (Sheet.parse "main.bss" source).toOption.map (fun sheet =>
      (sheet.templates.length,
        (({} : Session).importSheet (.ofSources []) sheet).1.compile.rules,
        (({} : Session).importSheet (.ofSources [])
          { sheet with templates := sheet.templates.map (·.rename f) }).1.compile.rules)) =
      some (1, [⟨[[".b"]], [⟨"a", .text "1"⟩], []⟩], [⟨[[".b"]], [⟨"a", .var "y"⟩], []⟩]) := by
    decide +kernel
  cases hp : Sheet.parse "main.bss" source with
  | error e => simp [hp, Except.toOption] at hrun
  | ok sheet =>
    simp only [hp, Except.toOption, Option.map_some, Option.some.injEq, Prod.mk.injEq] at hrun
    obtain ⟨t, ht⟩ := List.length_eq_one_iff.1 hrun.1
    rw [ht] at hrun
    exact ⟨sheet, t, rfl, ht, hrun.2.1, hrun.2.2⟩

end Session

end NestedStyles
