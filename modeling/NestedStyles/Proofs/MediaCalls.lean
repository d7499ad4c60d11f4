import NestedStyles.Proofs.CalledRules
import NestedStyles.Proofs.RealSelectors

/-!
Calls of templates inside media wrappers. A sheet is compared with the sheet that is left when all
such calls are taken out of it. The sessions of the two have the same rules at the same places, and
some rules in containers have lost their references. So the pass visits the same rules in the same
order, and what stands outside the containers differs only by rules that the lost calls gave.
-/

namespace NestedStyles

/-! Sheets without the calls -/

namespace Section

mutual
/-- The section with other references, at every depth. -/
def mapReferences (f : List Reference → List Reference) : Section → Section
  | ⟨selectors, attributes, nested, extensions, references, media⟩ =>
    ⟨selectors, attributes, mapReferencesAll f nested, extensions, f references, media⟩
def mapReferencesAll (f : List Reference → List Reference) : List Section → List Section
  | [] => []
  | inner :: rest => inner.mapReferences f :: mapReferencesAll f rest
end

def withoutReferences (s : Section) : Section := s.mapReferences fun _ => []

mutual
/-- The section without the references in its media wrappers, at every depth of these. -/
def withoutMediaCalls : Section → Section
  | ⟨selectors, attributes, nested, extensions, references, media⟩ =>
    if selectors.isEmpty then
      withoutReferences ⟨selectors, attributes, nested, extensions, references, media⟩
    else ⟨selectors, attributes, withoutMediaCallsAll nested, extensions, references, media⟩
def withoutMediaCallsAll : List Section → List Section
  | [] => []
  | inner :: rest => inner.withoutMediaCalls :: withoutMediaCallsAll rest
end

end Section

def Template.withoutMediaCalls (t : Template) : Template :=
  { t with sections := t.sections.map Section.withoutMediaCalls }

/-- The sheet without the references that are written in sections inside a media wrapper. -/
def Sheet.withoutMediaCalls (sheet : Sheet) : Sheet :=
  { sheet with
    templates := sheet.templates.map Template.withoutMediaCalls
    sections := Section.withoutMediaCallsAll sheet.sections }

namespace Section

mutual
theorem mapReferences_id : ∀ s : Section, s.mapReferences (fun r => r) = s
  | ⟨selectors, attributes, nested, extensions, references, media⟩ => by
    rw [mapReferences, mapReferencesAll_id]
theorem mapReferencesAll_id : ∀ nested : List Section,
    mapReferencesAll (fun r => r) nested = nested
  | [] => rfl
  | inner :: rest => by rw [mapReferencesAll, mapReferences_id, mapReferencesAll_id]
end

mutual
theorem withoutMediaCalls_of_wrapperFree : ∀ s : Section, s.wrapperFree → s.withoutMediaCalls = s
  | ⟨selectors, attributes, nested, extensions, references, media⟩, h => by
    rw [wrapperFree, Bool.and_eq_true, Bool.not_eq_true'] at h
    rw [withoutMediaCalls, h.1, withoutMediaCallsAll_of_wrapperFree nested h.2]
    rfl
theorem withoutMediaCallsAll_of_wrapperFree : ∀ nested : List Section, wrapperFreeAll nested →
    withoutMediaCallsAll nested = nested
  | [], _ => rfl
  | inner :: rest, h => by
    rw [wrapperFreeAll, Bool.and_eq_true] at h
    rw [withoutMediaCallsAll, withoutMediaCalls_of_wrapperFree inner h.1,
      withoutMediaCallsAll_of_wrapperFree rest h.2]
end

theorem withoutMediaCalls_face (s : Section) :
    s.withoutMediaCalls.selectors = s.selectors ∧
      s.withoutMediaCalls.attributes = s.attributes := by
  cases s
  rw [withoutMediaCalls]
  split <;> exact ⟨rfl, rfl⟩

end Section

/-! What sections yield without the calls -/

/-- A yield that may have lost its references, if it stands in a media path. -/
inductive Yield.Spares : Yield → Yield → Prop
  | events (met : List Event) : Spares (.events met) (.events met)
  | host {path : String} {selectors : List Selector} {wrapper other : Section} :
      other.attributes = wrapper.attributes →
      Spares (.host path selectors wrapper) (.host path selectors other)
  | outside {selectors : List Selector} {origin other : Section} :
      other.attributes = origin.attributes → other.extensions = origin.extensions →
      other.references = origin.references →
      (Selector.isAtRule selectors → other.nested = origin.nested) →
      Spares (.rule none selectors origin) (.rule none selectors other)
  | inside (path : String) (selectors : List Selector) (origin : Section) :
      Spares (.rule (some path) selectors origin)
        (.rule (some path) selectors origin.withoutReferences)

theorem hosted_spares (path query : String) (parents : List Selector) (wrapper other : Section)
    (h : other.attributes = wrapper.attributes) :
    List.Forall₂ Yield.Spares (hosted path query parents wrapper)
      (hosted path query parents other) := by
  unfold hosted
  rw [h]
  cases ha : wrapper.attributes with
  | nil => exact .nil
  | cons a rest =>
    cases parents with
    | nil => exact .cons (.events _) .nil
    | cons p ps => exact .cons (.host h) .nil

mutual
theorem flatten_withoutReferences (calls : Evaluator) (scope : Scope) (path : String)
    (parents : Option (List Selector)) : ∀ s : Section,
      List.Forall₂ Yield.Spares (flatten calls scope (some path) parents s)
        (flatten calls scope (some path) parents s.withoutReferences)
  | ⟨selectors, attributes, nested, extensions, references, media⟩ => by
    rw [Section.withoutReferences, Section.mapReferences, flatten, flatten]
    split
    · refine .cons (.events _) ?_
      exact List.rel_append (hosted_spares _ _ _
          ⟨selectors, attributes, nested, extensions, references, media⟩
          ⟨selectors, attributes, Section.mapReferencesAll _ nested, extensions, [], media⟩ rfl)
        (flattenAll_withoutReferences calls scope _ parents nested)
    · refine .cons ?_ ?_
      · have hinside := Yield.Spares.inside path (fullSelectors parents selectors)
          ⟨selectors, attributes, nested, extensions, references, media⟩
        rwa [Section.withoutReferences, Section.mapReferences] at hinside
      · split
        · exact .nil
        · exact flattenAll_withoutReferences calls scope path _ nested
theorem flattenAll_withoutReferences (calls : Evaluator) (scope : Scope) (path : String)
    (parents : Option (List Selector)) : ∀ nested : List Section,
      List.Forall₂ Yield.Spares (flattenAll calls scope (some path) parents nested)
        (flattenAll calls scope (some path) parents (Section.mapReferencesAll (fun _ => []) nested))
  | [] => by
    rw [Section.mapReferencesAll, flattenAll]
    exact .nil
  | inner :: rest => by
    rw [Section.mapReferencesAll, flattenAll, flattenAll]
    exact List.rel_append (flatten_withoutReferences calls scope path parents inner)
      (flattenAll_withoutReferences calls scope path parents rest)
end

mutual
theorem flatten_withoutMediaCalls (calls : Evaluator) (scope : Scope)
    (parents : Option (List Selector)) : ∀ s : Section, s.confined parents →
      List.Forall₂ Yield.Spares (flatten calls scope none parents s)
        (flatten calls scope none parents s.withoutMediaCalls)
  | ⟨selectors, attributes, nested, extensions, references, media⟩, h => by
    rw [Section.confined] at h
    rw [Section.withoutMediaCalls]
    split at h
    · next hs =>
      rw [if_pos hs, Section.withoutReferences, Section.mapReferences, flatten, flatten, if_pos hs,
        if_pos hs]
      refine .cons (.events _) ?_
      exact List.rel_append (hosted_spares _ _ _
          ⟨selectors, attributes, nested, extensions, references, media⟩
          ⟨selectors, attributes, Section.mapReferencesAll _ nested, extensions, [], media⟩ rfl)
        (flattenAll_withoutReferences calls scope _ parents nested)
    · next hs =>
      rw [if_neg hs, flatten, flatten, if_neg hs, if_neg hs]
      simp only at h
      split at h
      · next hat =>
        rw [Section.withoutMediaCallsAll_of_wrapperFree nested h]
        simp only [hat, if_true]
        exact .cons (.outside rfl rfl rfl fun _ => rfl) .nil
      · next hat =>
        simp only [hat, if_false, Bool.false_eq_true]
        refine .cons (.outside rfl rfl rfl fun hat' => absurd hat' hat) ?_
        exact flattenAll_withoutMediaCalls calls scope _ nested h
theorem flattenAll_withoutMediaCalls (calls : Evaluator) (scope : Scope)
    (parents : Option (List Selector)) : ∀ nested : List Section,
      Section.confinedAll parents nested →
      List.Forall₂ Yield.Spares (flattenAll calls scope none parents nested)
        (flattenAll calls scope none parents (Section.withoutMediaCallsAll nested))
  | [], _ => by
    rw [Section.withoutMediaCallsAll, flattenAll]
    exact .nil
  | inner :: rest, h => by
    rw [Section.confinedAll, Bool.and_eq_true] at h
    rw [Section.withoutMediaCallsAll, flattenAll, flattenAll]
    exact List.rel_append (flatten_withoutMediaCalls calls scope parents inner h.1)
      (flattenAll_withoutMediaCalls calls scope parents rest h.2)
end

theorem treesAt_none_of_spares {ys zs : List Yield} (h : List.Forall₂ Yield.Spares ys zs) :
    treesAt none zs = treesAt none ys := by
  have hcons : ∀ (y : Yield) (ys : List Yield),
      treesAt none (y :: ys) = treesAt none [y] ++ treesAt none ys :=
    fun y ys => treesAt_append none [y] ys
  induction h with
  | nil => rfl
  | @cons y z _ _ hy _ ih =>
    have hhead : treesAt none [z] = treesAt none [y] := by
      cases hy with
      | events | host | inside => rfl
      | @outside selectors origin other ha he hr hn =>
        have hplaced : (Yield.rule none selectors other).placed =
            (Yield.rule none selectors origin).placed := by
          simp only [Yield.placed, ha, he, hr]
          by_cases hat : Selector.isAtRule selectors
          · rw [hn hat]
          · simp only [hat, Bool.false_eq_true, if_false]
        simp only [treesAt, List.filterMap_cons, hplaced]
    rw [hcons z, hcons y, hhead, ih]

/-! The two sessions -/

/-- A rule that may have lost its references. -/
def Rule.Spares (a b : Rule) : Prop := b = a ∨ b = { a with references := [] }

theorem Rule.Spares.fields {a b : Rule} (h : a.Spares b) :
    b.selectors = a.selectors ∧ b.attributes = a.attributes ∧ b.extensions = a.extensions := by
  rcases h with rfl | rfl <;> exact ⟨rfl, rfl, rfl⟩

namespace RuleTable

/-- The same rules at the same places. -/
structure Spares (t u : RuleTable) : Prop where
  size : u.size = t.size
  nodes : ∀ (i : Nat) (node : RuleNode), t.nodes[i]? = some node →
    ∃ rule, u.nodes[i]? = some ⟨rule, node.children⟩ ∧ node.rule.Spares rule

variable {t u : RuleTable} {a b : Rule}

theorem Spares.refl (t : RuleTable) : t.Spares t :=
  ⟨rfl, fun _ node hn => ⟨node.rule, hn, .inl rfl⟩⟩

theorem Spares.push (h : t.Spares u) (hr : a.Spares b) : (t.push a).Spares (u.push b) := by
  refine ⟨by simp [h.size], ?_⟩
  intro i node hn
  rw [nodes_push] at hn
  rw [nodes_push, h.size]
  split at hn
  · next hi =>
    cases hn
    exact ⟨b, if_pos hi, hr⟩
  · next hi =>
    rw [if_neg hi]
    exact h.nodes i node hn

theorem Spares.pushInto (h : t.Spares u) (hr : a.Spares b) (parent : Nat) :
    (t.pushInto parent a).Spares (u.pushInto parent b) := by
  refine ⟨by simp [h.size], ?_⟩
  intro i node hn
  rw [nodes_pushInto] at hn
  rw [nodes_pushInto, h.size]
  split at hn
  · next hi =>
    cases hn
    exact ⟨b, if_pos hi, hr⟩
  next hi =>
  rw [if_neg hi]
  split at hn
  · next hp =>
    obtain ⟨old, ho, rfl⟩ := Option.map_eq_some_iff.1 hn
    obtain ⟨rule, hu, hrule⟩ := h.nodes i old ho
    exact ⟨rule, by rw [if_pos hp, hu]; rfl, hrule⟩
  · next hp =>
    rw [if_neg hp]
    exact h.nodes i node hn

mutual
theorem Spares.addSection {f : List Reference → List Reference} (hf : ∀ rs, f rs = rs ∨ f rs = [])
    (t u : RuleTable) (h : t.Spares u) (parent : Nat) :
    ∀ s : Section, (t.addSection parent s).Spares (u.addSection parent (s.mapReferences f))
  | ⟨selectors, attributes, nested, extensions, references, media⟩ => by
    have hrule : Rule.Spares ⟨selectors, attributes, extensions, references⟩
        ⟨selectors, attributes, extensions, f references⟩ := by
      rcases hf references with hr | hr <;> rw [hr]
      · exact .inl rfl
      · exact .inr rfl
    rw [Section.mapReferences, RuleTable.addSection, RuleTable.addSection, h.size]
    exact Spares.addSections hf _ _ (h.pushInto hrule parent) t.size nested
theorem Spares.addSections {f : List Reference → List Reference} (hf : ∀ rs, f rs = rs ∨ f rs = [])
    (t u : RuleTable) (h : t.Spares u) (parent : Nat) :
    ∀ nested : List Section,
      (t.addSections parent nested).Spares
        (u.addSections parent (Section.mapReferencesAll f nested))
  | [] => by
    rw [Section.mapReferencesAll, RuleTable.addSections, RuleTable.addSections]
    exact h
  | inner :: rest => by
    rw [Section.mapReferencesAll, RuleTable.addSections, RuleTable.addSections]
    exact Spares.addSections hf _ _ (Spares.addSection hf t u h parent inner) parent rest
end

theorem Spares.preorder (h : t.Spares u) (id : Nat) : u.preorder id = t.preorder id := by
  induction id using t.induction_inside with
  | step id ih =>
    cases hn : t.nodes[id]? with
    | none =>
      have hid : t.size ≤ id := by simpa [RuleTable.size] using hn
      rw [preorder_of_size_le hid, preorder_of_size_le (by rw [h.size]; exact hid)]
    | some node =>
      obtain ⟨rule, hu, -⟩ := h.nodes id node hn
      rw [preorder_of_node hn, preorder_of_node hu]
      congr 1
      exact List.flatMap_congr fun child hc => ih node hn child hc

theorem Spares.rule_eq (h : t.Spares u) {id i : Nat} (htree : u.ruleTree id = t.ruleTree id)
    (hi : i ∈ t.preorder id) : u.rule? i = t.rule? i := by
  induction id using t.induction_inside with
  | step id ih =>
    obtain ⟨node, hn⟩ := node_of_lt_size (lt_size_of_mem_preorder hi)
    obtain ⟨rule, hu, -⟩ := h.nodes id node hn
    rw [ruleTree_of_node hu, ruleTree_of_node hn] at htree
    simp only [RuleTree.mk.injEq] at htree
    rw [preorder_of_node hn, List.mem_cons, List.mem_flatMap] at hi
    rcases hi with rfl | ⟨child, hc, hi⟩
    · rw [rule?_of_node hu, rule?_of_node hn, htree.1]
    · exact ih node hn child hc (List.map_inj_left.1 htree.2 child hc) hi

end RuleTable

/-- What calls of a template see of it. -/
def Template.face (t : Template) :
    List String × List Attribute × List (List Selector × List Attribute) :=
  (t.parameters, t.attributes, t.sections.map fun child => (child.selectors, child.attributes))

theorem Template.face_withoutMediaCalls (t : Template) : t.withoutMediaCalls.face = t.face := by
  simp only [face, withoutMediaCalls, List.map_map, Prod.mk.injEq, true_and]
  refine List.map_congr_left fun child _ => ?_
  simp [child.withoutMediaCalls_face]

namespace Expansion

theorem ofCall_congr {t other : Template} (h : other.face = t.face) (calls : Evaluator)
    (scope : Scope) (callers : List Selector) (r : Reference) :
    ofCall calls scope callers r other = ofCall calls scope callers r t := by
  -- a call sees the sections of a template through their selectors and attributes only
  have hrules : ∀ (t : Template) (inner : Scope),
      t.sections.map (Template.sectionRule calls inner callers) =
        t.face.2.2.map fun child => ⟨Selector.cross Selector.apply child.1 callers,
          child.2.map (·.evaluated calls inner), [], []⟩ := by
    intro t inner
    simp only [Template.face, List.map_map]
    rfl
  have hevents : ∀ (t : Template) (inner : Scope),
      (t.sections.flatMap fun child => child.attributes.flatMap (·.met calls inner)) =
        t.face.2.2.flatMap fun child => child.2.flatMap (·.met calls inner) := by
    intro t inner
    simp only [Template.face, List.flatMap_map]
  have hparameters : other.parameters = t.parameters := congrArg (·.1) h
  have hattributes : other.attributes = t.attributes := congrArg (·.2.1) h
  simp only [ofCall, Template.callScope, hrules, hevents, hparameters, hattributes, h]

theorem ofReferences_congr {templates others : List (String × Template)}
    (h : ∀ name, (others.lookup name).map Template.face = (templates.lookup name).map Template.face)
    (calls : Evaluator) (scope : Scope) (callers : List Selector) (references : List Reference) :
    ofReferences calls scope others callers references =
      ofReferences calls scope templates callers references := by
  induction references with
  | nil => rfl
  | cons r rest ih =>
    have hname := h r.name
    cases ht : templates.lookup r.name with
    | none =>
      rw [ht, Option.map_none, Option.map_eq_none_iff] at hname
      simp only [ofReferences, ht, hname]
    | some t =>
      rw [ht, Option.map_some, Option.map_eq_some_iff] at hname
      obtain ⟨other, ho, hface⟩ := hname
      simp only [ofReferences, ht, ho, ih, ofCall_congr hface]

end Expansion

theorem Rule.settled_congr_face (rule : Rule) (calls : Evaluator) (scope : Scope)
    {templates others : List (String × Template)}
    (h : ∀ name,
      (others.lookup name).map Template.face = (templates.lookup name).map Template.face) :
    rule.settled calls scope others = rule.settled calls scope templates := by
  unfold Rule.settled
  rw [← Expansion.attributes_ofReferences calls scope others [],
    ← Expansion.attributes_ofReferences calls scope templates [], Expansion.ofReferences_congr h]

namespace Session

variable {u v : Session}

/-- Two sessions with the same rules at the same places, some of which have lost their references in
the second. -/
structure Spares (u v : Session) : Prop where
  calls : v.calls = u.calls
  scope : v.scope = u.scope
  top : v.top = u.top
  targets : v.targets = u.targets
  containers : v.containers = u.containers
  templates : ∀ name,
    (v.templates.lookup name).map Template.face = (u.templates.lookup name).map Template.face
  table : u.table.Spares v.table

theorem Spares.refl (u : Session) : u.Spares u :=
  ⟨rfl, rfl, rfl, rfl, rfl, fun _ => rfl, .refl _⟩

theorem Spares.place {a b : Rule} (h : u.Spares v) (hr : a.Spares b) (path : Option String) :
    (u.place path a).Spares (v.place path b) := by
  have hsize := h.table.size
  cases path with
  | none =>
    refine ⟨h.calls, h.scope, ?_, h.targets, h.containers, h.templates, h.table.push hr⟩
    simp only [Session.place, h.top, hsize]
  | some path =>
    cases hc : u.containers.lookup path with
    | some container =>
      have hc' : v.containers.lookup path = some container := by rw [h.containers, hc]
      simp only [Session.place, hc, hc']
      exact ⟨h.calls, h.scope, h.top, h.targets, h.containers, h.templates,
        h.table.pushInto hr container⟩
    | none =>
      have hc' : v.containers.lookup path = none := by rw [h.containers, hc]
      simp only [Session.place, hc, hc', hsize]
      refine ⟨h.calls, h.scope, h.top, h.targets, ?_, h.templates, ?_⟩
      · simp only [h.containers]
      · exact (h.table.push (.inl rfl)).pushInto hr u.table.size

theorem Spares.register (h : u.Spares v) (id : Nat) (selectors : List Selector) :
    (u.register id selectors).Spares (v.register id selectors) := by
  rw [register_eq, register_eq]
  refine ⟨h.calls, h.scope, h.top, ?_, h.containers, h.templates, h.table⟩
  simp only [h.targets]

theorem Spares.emitRule {f : List Reference → List Reference} {origin other : Section}
    (h : u.Spares v) (hf : ∀ rs, f rs = rs ∨ f rs = []) (path : Option String)
    (selectors : List Selector) (ha : other.attributes = origin.attributes)
    (he : other.extensions = origin.extensions) (hr : other.references = f origin.references)
    (hn : Selector.isAtRule selectors → other.nested = Section.mapReferencesAll f origin.nested) :
    (u.emit (.rule path selectors origin)).Spares (v.emit (.rule path selectors other)) := by
  have hrule : Rule.Spares ⟨selectors, origin.attributes, origin.extensions, origin.references⟩
      ⟨selectors, other.attributes, other.extensions, other.references⟩ := by
    rw [ha, he, hr]
    rcases hf origin.references with hr | hr <;> rw [hr]
    · exact .inl rfl
    · exact .inr rfl
  have hplaced := h.place hrule path
  have hsize := hplaced.table.size
  have hregistered := hplaced.register ((u.place path
    ⟨selectors, origin.attributes, origin.extensions, origin.references⟩).table.size - 1) selectors
  simp only [Session.emit, hsize]
  split
  · next hat =>
    rw [hn hat]
    exact ⟨hregistered.calls, hregistered.scope, hregistered.top, hregistered.targets,
      hregistered.containers, hregistered.templates,
      RuleTable.Spares.addSections hf _ _ hregistered.table _ origin.nested⟩
  · exact hregistered

theorem Spares.emit {y z : Yield} (h : u.Spares v) (hy : y.Spares z) :
    (u.emit y).Spares (v.emit z) := by
  cases hy with
  | events met => exact ⟨h.calls, h.scope, h.top, h.targets, h.containers, h.templates, h.table⟩
  | host ha =>
    simp only [Session.emit, ha]
    exact h.place (.inl rfl) _
  | outside ha he hr hn =>
    refine h.emitRule (fun _ => .inl rfl) none _ ha he hr ?_
    rw [Section.mapReferencesAll_id]
    exact hn
  | inside path selectors origin =>
    cases origin
    rw [Section.withoutReferences, Section.mapReferences]
    exact h.emitRule (fun _ => .inr rfl) _ _ rfl rfl rfl fun _ => rfl

theorem Spares.emitAll {ys zs : List Yield} (h : u.Spares v)
    (hy : List.Forall₂ Yield.Spares ys zs) : (u.emitAll ys).Spares (v.emitAll zs) := by
  induction hy generalizing u v with
  | nil => exact h
  | cons hy _ ih => exact ih (h.emit hy)

theorem Spares.addTemplate {t other : Template} (h : u.Spares v) (hname : other.name = t.name)
    (hface : other.face = t.face) : (u.addTemplate t).Spares (v.addTemplate other) := by
  refine ⟨h.calls, h.scope, h.top, h.targets, h.containers, ?_, h.table⟩
  intro name
  simp only [Session.addTemplate, List.lookup_cons, hname]
  split
  · simp [hface]
  · exact h.templates name

theorem Spares.declare (h : u.Spares v) (d : Declaration) :
    (u.declare d).Spares (v.declare d) := by
  unfold Session.declare
  rw [h.scope]
  split
  · exact ⟨h.calls, h.scope, h.top, h.targets, h.containers, h.templates, h.table⟩
  · refine ⟨h.calls, ?_, h.top, h.targets, h.containers, h.templates, h.table⟩
    rfl

theorem Spares.addTemplates (h : u.Spares v) (templates : List Template) :
    (templates.foldl Session.addTemplate u).Spares
      ((templates.map Template.withoutMediaCalls).foldl Session.addTemplate v) := by
  induction templates generalizing u v with
  | nil => exact h
  | cons t rest ih => exact ih (h.addTemplate rfl t.face_withoutMediaCalls)

theorem Spares.declareAll (h : u.Spares v) (declarations : List Declaration) :
    (declarations.foldl Session.declare u).Spares (declarations.foldl Session.declare v) := by
  induction declarations generalizing u v with
  | nil => exact h
  | cons d rest ih => exact ih (h.declare d)

/-- Expanding sections with their calls in media wrappers and without them. Outside the containers
no rule loses its references. -/
theorem Spares.expandAll {ys : List Yield} (h : u.Spares v) (hu : u.Realizes ys)
    (hv : v.Realizes ys) {sections : List Section} (hc : Section.confinedAll none sections) :
    (u.expandAll none none sections).Spares
        (v.expandAll none none (Section.withoutMediaCallsAll sections)) ∧
      ∀ x ∈ (u.expandAll none none sections).top,
        (v.expandAll none none (Section.withoutMediaCallsAll sections)).table.ruleTree x =
          (u.expandAll none none sections).table.ruleTree x := by
  rw [expandAll_eq_emitAll, expandAll_eq_emitAll, h.calls, h.scope]
  have hyields := flattenAll_withoutMediaCalls u.calls u.scope none sections hc
  generalize flattenAll u.calls u.scope none none sections = zs at hyields
  generalize flattenAll u.calls u.scope none none (Section.withoutMediaCallsAll sections) = zs'
    at hyields
  have hspares := h.emitAll hyields
  have htrees : (u.emitAll zs).top.map (v.emitAll zs').table.ruleTree =
      (u.emitAll zs).top.map (u.emitAll zs).table.ruleTree := by
    have hplaced := (emitAll_realizes hu zs).placed none
    have hplaced' := (emitAll_realizes hv zs').placed none
    rw [treesAt_append, treesAt_none_of_spares hyields, ← treesAt_append, ← hplaced] at hplaced'
    simpa only [rulesAt, hspares.top] using hplaced'
  exact ⟨hspares, List.map_inj_left.1 htrees⟩

theorem merge_spares {s : Session} {ys : List Yield} (h : s.Realizes ys) {sheet : Sheet}
    (hc : sheet.confined) :
    (s.merge sheet).Spares (s.merge sheet.withoutMediaCalls) ∧
      ∀ x ∈ (s.merge sheet).top, (s.merge sheet.withoutMediaCalls).table.ruleTree x =
        (s.merge sheet).table.ruleTree x := by
  have htemplates : ∀ (templates : List Template) (s : Session), s.Realizes ys →
      (templates.foldl Session.addTemplate s).Realizes ys := by
    intro templates
    induction templates with
    | nil => exact fun s hs => hs
    | cons t rest ih =>
      exact fun s hs => ih _ ⟨hs.forest, hs.paths, hs.containers, hs.placed, hs.resolved⟩
  have hdeclared : ∀ (declarations : List Declaration) (s : Session), s.Realizes ys →
      (declarations.foldl Session.declare s).Realizes ys := by
    intro declarations
    induction declarations with
    | nil => exact fun s hs => hs
    | cons d rest ih => exact fun s hs => ih _ (declare_realizes hs d)
  have hstart := ((Spares.refl s).addTemplates sheet.templates).declareAll sheet.declarations
  exact hstart.expandAll (hdeclared _ _ (htemplates _ s h)) (hdeclared _ _ (htemplates _ s h)) hc

/-! The pass over both sessions -/

variable {a b : Session} {order : List Nat} {id : Nat}

theorem selectors_extendAll_congr {n : Nat} (ha : n ≤ a.table.size) (hb : n ≤ b.table.size)
    (htargets : b.targets = a.targets) (hid : id < n)
    (h : ∀ i < n, b.table.selectors i = a.table.selectors i) (names : List String) :
    ∀ i < n, (names.foldl (extend id) b).table.selectors i =
      (names.foldl (extend id) a).table.selectors i := by
  induction names generalizing a b with
  | nil => exact h
  | cons name rest ih =>
    have hka := a.extend_keeps id name
    have hkb := b.extend_keeps id name
    refine ih (Nat.le_trans ha hka.size_le) (Nat.le_trans hb hkb.size_le)
      (by rw [hka.targets, hkb.targets, htargets]) ?_
    intro i hi
    rw [extend_selectors a id name (Nat.lt_of_lt_of_le hi ha),
      extend_selectors b id name (Nat.lt_of_lt_of_le hi hb), htargets, h i hi, h id hid]

/-- Two passes that visited the same rules of two sessions. -/
structure Parallel (u v : Session) (order : List Nat) (a b : Session) : Prop where
  first : u.Visited order a
  second : v.Visited order b
  selectors : ∀ i < u.table.size, b.table.selectors i = a.table.selectors i

theorem Parallel.start (h : u.Spares v) : Parallel u v [] u v := by
  refine ⟨.start u, .start v, ?_⟩
  intro i hi
  obtain ⟨node, hn⟩ := RuleTable.node_of_lt_size hi
  obtain ⟨rule, hv, hrule⟩ := h.table.nodes i node hn
  rw [RuleTable.selectors_of_node hn, RuleTable.selectors_of_node hv]
  exact hrule.fields.1

theorem Spares.extensions (h : u.Spares v) (hid : id < u.table.size) :
    v.table.extensions id = u.table.extensions id := by
  obtain ⟨node, hn⟩ := RuleTable.node_of_lt_size hid
  obtain ⟨rule, hv, hrule⟩ := h.table.nodes id node hn
  rw [RuleTable.extensions_of_node hn, RuleTable.extensions_of_node hv]
  exact hrule.fields.2.2

theorem Spares.references (h : u.Spares v) (hid : id < u.table.size) :
    v.table.references id = u.table.references id ∨ v.table.references id = [] := by
  obtain ⟨node, hn⟩ := RuleTable.node_of_lt_size hid
  obtain ⟨rule, hv, hrule⟩ := h.table.nodes id node hn
  rw [RuleTable.references_of_node hn, RuleTable.references_of_node hv]
  rcases hrule with rfl | rfl
  · exact .inl rfl
  · exact .inr rfl

theorem Parallel.step (h : Parallel u v order a b) (huv : u.Spares v) (hid : id < u.table.size)
    (hnew : id ∉ order) : Parallel u v (order ++ [id]) (a.compileRule id) (b.compileRule id) := by
  have hsize := huv.table.size
  have ha := h.first.keeps
  have hb := h.second.keeps
  have hv : u.table.size ≤ b.table.size := hsize ▸ hb.size_le
  refine ⟨h.first.step hnew, h.second.step hnew, ?_⟩
  intro i hi
  rw [compileRule_selectors a id (Nat.lt_of_lt_of_le hi ha.size_le),
    compileRule_selectors b id (Nat.lt_of_lt_of_le hi hv), h.first.extensions hid,
    h.second.extensions (by omega), huv.extensions hid]
  exact selectors_extendAll_congr ha.size_le hv (by rw [hb.targets, ha.targets, huv.targets]) hid
    h.selectors _ i hi

theorem Parallel.run (h : Parallel u v order a b) (huv : u.Spares v) (later : List Nat)
    (hlater : ∀ id ∈ later, id < u.table.size) (hnodup : (order ++ later).Nodup) :
    Parallel u v (order ++ later) (later.foldl compileRule a) (later.foldl compileRule b) := by
  induction later generalizing order a b with
  | nil => simpa using h
  | cons id rest ih =>
    have hnew : id ∉ order := by
      intro hin
      exact (List.nodup_append.1 hnodup).2.2 id hin id (by simp) rfl
    obtain ⟨hid, hrest⟩ := List.forall_mem_cons.1 hlater
    simpa using ih (h.step huv hid hnew) hrest (by simpa using hnodup)

theorem Parallel.called (h : Parallel u v order a b) (huv : u.Spares v) (hid : id < u.table.size) :
    b.called id =
      if v.table.references id = u.table.references id then a.called id else [] := by
  have hsize := huv.table.size
  have ha := h.first.keeps
  have hb := h.second.keeps
  have hv : u.table.size ≤ b.table.size := hsize ▸ hb.size_le
  have hcallers := selectors_extendAll_congr ha.size_le hv
    (by rw [hb.targets, ha.targets, huv.targets]) hid h.selectors (u.table.extensions id) id hid
  rw [Session.called, Session.called, h.first.extensions hid, h.second.extensions (by omega),
    huv.extensions hid, h.first.references hid, h.second.references (by omega), hcallers,
    hb.calls, hb.scope, hb.templates, ha.calls, ha.scope, ha.templates, huv.calls, huv.scope,
    Expansion.ofReferences_congr huv.templates]
  split
  · next hsame => rw [hsame]
  · next hother =>
    rw [(huv.references hid).resolve_left hother]
    rfl

theorem Spares.roots (h : u.Spares v) : v.roots = u.roots := by
  simp only [Session.roots, h.containers, h.top]

theorem Spares.visitOrder (h : u.Spares v) : v.visitOrder = u.visitOrder := by
  rw [Session.visitOrder, Session.visitOrder, h.roots]
  exact List.flatMap_congr fun id _ => h.table.preorder id

/-- A rule that kept its references gives the same rules in both passes, and one that lost them
gives none. -/
theorem Spares.calledAt (h : u.Spares v) (hu : u.table.Forest u.roots) (hid : id ∈ u.visitOrder) :
    v.calledAt id =
      if v.table.references id = u.table.references id then u.calledAt id else [] := by
  obtain ⟨order, later, horder⟩ := List.append_of_mem hid
  have hvalid : ∀ i ∈ order, i < u.table.size := by
    intro i hi
    apply hu.mem_visits.1
    show i ∈ u.visitOrder
    simp [horder, hi]
  have hnodup : ([] ++ order).Nodup := by
    have hall : (order ++ id :: later).Nodup := horder ▸ hu.nodup
    exact (List.nodup_append.1 hall).1
  have hbefore : v.visitedBefore id = u.visitedBefore id := by
    rw [visitedBefore, visitedBefore, h.visitOrder]
  have hparallel := (Parallel.start h).run h order hvalid hnodup
  rw [Session.calledAt, Session.calledAt, hbefore, visitedBefore_eq hu horder]
  exact hparallel.called h (hu.mem_visits.1 hid)

theorem Spares.tree_compileRules {x : Nat} (h : u.Spares v) (hu : u.table.Forest u.roots)
    (hv : v.table.Forest v.roots) (hx : x < u.table.size)
    (htree : v.table.ruleTree x = u.table.ruleTree x) :
    v.compileRules.table.tree x = u.compileRules.table.tree x := by
  have hvalid : ∀ i ∈ u.visitOrder, i < u.table.size := fun i hi => hu.mem_visits.1 hi
  have hparallel := (Parallel.start h).run h u.visitOrder hvalid hu.nodup
  apply RuleTable.tree_congr hx
  intro i hi node hn
  obtain ⟨rule, hrule, -⟩ := h.table.nodes i node hn
  obtain ⟨more, hmore⟩ := compileRules_nodes hu hn
  obtain ⟨others, hothers⟩ := compileRules_nodes hv hrule
  refine ⟨_, _, hmore, hothers, ?_⟩
  have hsame : rule = node.rule := by
    have heq := h.table.rule_eq htree hi
    rw [RuleTable.rule?_of_node hrule, RuleTable.rule?_of_node hn] at heq
    exact Option.some.inj heq
  have hselectors := hparallel.selectors i (RuleTable.lt_size_of_node hn)
  rw [← Session.compileRules, ← h.visitOrder, ← Session.compileRules,
    RuleTable.selectors_of_node hmore, RuleTable.selectors_of_node hothers] at hselectors
  have hattributes : rule.settled v.calls v.scope v.templates =
      node.rule.settled u.calls u.scope u.templates := by
    rw [hsame, h.calls, h.scope, Rule.settled_congr_face _ _ _ h.templates]
  simp only [Rule.leaf, FlatRule.mk.injEq, and_true]
  exact ⟨hselectors, hattributes⟩

theorem flatMap_ite_nil {α β : Type} (p : α → Prop) [DecidablePred p] (f : α → List β)
    (xs : List α) :
    (xs.flatMap fun x => if p x then f x else []) = (xs.filter fun x => p x).flatMap f := by
  induction xs with
  | nil => rfl
  | cons x rest ih =>
    by_cases hx : p x
    · simp [hx, ih]
    · simp [hx, ih]

/-- Outside the containers the second session has what the first has there before its pass, and of
the rules that calls give those that come from calls which were not taken out. -/
theorem Spares.outside {ys zs : List Yield} (h : u.Spares v) (hu : u.Realizes ys)
    (hv : v.Realizes zs) (htop : ∀ x ∈ u.top, v.table.ruleTree x = u.table.ruleTree x) :
    v.outside = FlatRule.pruneAll (u.top.map u.compileRules.table.tree) ++
      FlatRule.pruneAll (((u.visitOrder.filter fun id =>
        v.table.references id = u.table.references id).flatMap u.calledAt).map Rule.leaf) := by
  have hown : u.top.map v.compileRules.table.tree = u.top.map u.compileRules.table.tree := by
    refine List.map_congr_left fun x hx => ?_
    have hvalid := hu.forest.valid x (List.mem_append_right _ hx)
    exact h.tree_compileRules hu.forest hv.forest hvalid (htop x hx)
  have hcalled : v.visitOrder.flatMap v.calledAt =
      (u.visitOrder.filter fun id => v.table.references id = u.table.references id).flatMap
        u.calledAt := by
    rw [h.visitOrder, ← flatMap_ite_nil]
    exact List.flatMap_congr fun id hid => h.calledAt hu.forest hid
  rw [outside_eq hv, h.top, hown, hcalled]

theorem Spares.in_container (h : u.Spares v)
    (htop : ∀ x ∈ u.top, v.table.ruleTree x = u.table.ruleTree x) (hid : id ∈ u.visitOrder)
    (hlost : v.table.references id ≠ u.table.references id) :
    ∃ c ∈ u.containers.map (·.2), id ∈ u.table.preorder c := by
  obtain ⟨root, hroot, hin⟩ := List.mem_flatMap.1 hid
  rcases List.mem_append.1 hroot with hroot | hroot
  · exact ⟨root, hroot, hin⟩
  · have hrule := h.table.rule_eq (htop root hroot) hin
    exact absurd (by rw [RuleTable.references, RuleTable.references, hrule]) hlost

theorem importSheet_spares {s : Session} (h : s.Reachable) (lib : Library) {sheet : Sheet}
    (hc : sheet.confined) :
    (s.importSheet lib sheet.withoutMediaCalls).2 = (s.importSheet lib sheet).2 ∧
    (s.importSheet lib sheet).1.Spares (s.importSheet lib sheet.withoutMediaCalls).1 ∧
    ∀ x ∈ (s.importSheet lib sheet).1.top,
      (s.importSheet lib sheet.withoutMediaCalls).1.table.ruleTree x =
        (s.importSheet lib sheet).1.table.ruleTree x := by
  have hname : sheet.withoutMediaCalls.name = sheet.name := rfl
  have himports : sheet.withoutMediaCalls.imports = sheet.imports := rfl
  by_cases hseen : sheet.name ∈ s.imported
  · rw [importSheet, importSheet, importWithin_of_mem _ hseen,
      importWithin_of_mem _ (hname ▸ hseen), hname]
    exact ⟨rfl, .refl _, fun _ _ => rfl⟩
  · have hopening : s.opening sheet.withoutMediaCalls = s.opening sheet := rfl
    have hclosed := reachable_importClosed
    have hopened : (s.opening sheet).Reachable :=
      hclosed.note _ _ rfl (hclosed.enter s sheet.name h)
    have hnext := ImportClosed.each _ (fun s name hs => hclosed.importNameWith lib _
      (fun s sheet hs => hclosed.importWithin lib lib.depth sheet hs) name hs) sheet.imports hopened
    rw [importSheet, importSheet, importWithin_of_not_mem _ hseen,
      importWithin_of_not_mem _ (hname ▸ hseen), hopening, himports]
    generalize each (importNameWith lib (importWithin lib lib.depth)) (s.opening sheet)
      sheet.imports = out at hnext
    obtain ⟨next, result⟩ := out
    cases result with
    | error e => exact ⟨rfl, .refl _, fun _ _ => rfl⟩
    | ok _ =>
      obtain ⟨ys, hys⟩ := hnext
      exact ⟨rfl, merge_spares hys.realizes hc⟩

/-- Taking the calls out of the media wrappers of a sheet changes nothing outside the containers but
for the rules that these calls give there. The rules that lose their references are visited in the
same order and stand in containers. -/
theorem outside_without_mediaCalls {s : Session} (h : s.Reachable) (lib : Library) {sheet : Sheet}
    (hc : sheet.confined) :
    let u := (s.importSheet lib sheet).1
    let v := (s.importSheet lib sheet.withoutMediaCalls).1
    let own := FlatRule.pruneAll (u.top.map u.compileRules.table.tree)
    let kept := u.visitOrder.filter fun id => v.table.references id = u.table.references id
    (s.importSheet lib sheet.withoutMediaCalls).2 = (s.importSheet lib sheet).2 ∧
    u.compile.rules = u.inside ++ u.outside ∧ v.compile.rules = v.inside ++ v.outside ∧
    u.outside = own ++ FlatRule.pruneAll ((u.visitOrder.flatMap u.calledAt).map Rule.leaf) ∧
    v.outside = own ++ FlatRule.pruneAll ((kept.flatMap u.calledAt).map Rule.leaf) ∧
    ∀ id ∈ u.visitOrder, id ∉ kept → v.table.references id = [] ∧
      ∃ c ∈ u.containers.map (·.2), id ∈ u.table.preorder c := by
  intro u v own kept
  obtain ⟨hresult, hspares, htop⟩ := importSheet_spares h lib hc
  obtain ⟨ys, hys⟩ := reachable_importClosed.importSheet lib sheet h
  obtain ⟨zs, hzs⟩ := reachable_importClosed.importSheet lib sheet.withoutMediaCalls h
  have hu : u.Realizes ys := hys.realizes
  have hv : v.Realizes zs := hzs.realizes
  refine ⟨hresult, rules_compile hu, rules_compile hv, outside_eq hu,
    hspares.outside hu hv htop, ?_⟩
  intro id hid hlost
  have hdiffers : v.table.references id ≠ u.table.references id := by
    intro hsame
    exact hlost (List.mem_filter.2 ⟨hid, by simpa using hsame⟩)
  exact ⟨(hspares.references (hu.forest.mem_visits.1 hid)).resolve_left hdiffers,
    hspares.in_container htop hid hdiffers⟩

/-- Two rules call a template, one of them in a media wrapper. Without that call the rule that the
other one gives is left. -/
theorem outside_without_mediaCalls_two_calls :
    let box : Template :=
      { name := "box", sections := [{ selectors := [["p"]], attributes := [⟨"x", .text "y"⟩] }] }
    let inner : Section := { selectors := [[".a"]], references := [⟨"box", []⟩] }
    let rule : Section := { selectors := [[".b"]], references := [⟨"box", []⟩] }
    let wrapper : Section := { media := some (.text "print"), nested := [inner] }
    let sheet : Sheet := { name := "main.bss", templates := [box], sections := [wrapper, rule] }
    (({} : Session).importSheet (.ofSources []) sheet).1.outside =
        [⟨[[".a", "p"]], [⟨"x", .text "y"⟩], []⟩, ⟨[[".b", "p"]], [⟨"x", .text "y"⟩], []⟩] ∧
      (({} : Session).importSheet (.ofSources []) sheet.withoutMediaCalls).1.outside =
        [⟨[[".b", "p"]], [⟨"x", .text "y"⟩], []⟩] := by
  intro box inner rule wrapper sheet
  obtain ⟨-, -, -, hu, hv, -⟩ := outside_without_mediaCalls
    ⟨[], .start Evaluator.written defaultSuffix⟩ (.ofSources []) (show sheet.confined by decide)
  rw [hu, hv]
  decide +kernel

/-- A call in a media wrapper gives a rule outside the containers. -/
theorem called_rule_outside_container :
    let source := "@func f() \x7b b \x7b x: y \x7d \x7d " ++
      "@media print \x7b .a \x7b @func f(); \x7d \x7d"
    ∃ sheet, Sheet.parse "main.bss" source = .ok sheet ∧
      (({} : Session).importSheet (.ofSources []) sheet).1.outside ≠
        (({} : Session).importSheet (.ofSources []) sheet.withoutMediaCalls).1.outside := by
  intro source
  have hrun : (Sheet.parse "main.bss" source).toOption.map (fun sheet =>
      ((({} : Session).importSheet (.ofSources []) sheet).1.outside.length,
        (({} : Session).importSheet (.ofSources []) sheet.withoutMediaCalls).1.outside.length)) =
      some (1, 0) := by
    decide +kernel
  cases hp : Sheet.parse "main.bss" source with
  | error e => simp [hp, Except.toOption] at hrun
  | ok sheet =>
    simp only [hp, Except.toOption, Option.map_some, Option.some.injEq, Prod.mk.injEq] at hrun
    refine ⟨sheet, rfl, ?_⟩
    intro hsame
    rw [hsame, hrun.2] at hrun
    omega

end Session

end NestedStyles
