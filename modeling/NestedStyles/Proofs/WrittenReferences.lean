import NestedStyles.Proofs.MediaConjunction
import NestedStyles.Proofs.TemplateContents
import Mathlib.Data.List.NodupEquivFin

/-!
The extensions and references that are written in sections. A section with selectors gives a rule
that carries them, at whatever depth it stands and in whatever wrappers and at-rules, so each of
them takes effect in the pass or is warned of. A media wrapper gives no such rule: what is written
directly in it, outside the bodies of at-rules, is left out when the section is expanded.
-/

namespace NestedStyles

/-! Sections without what wrappers leave out -/

namespace Section

mutual
/-- The section without the extensions and references directly in its media wrappers. The bodies of
at-rules are kept. `outer` holds the selectors of the rule around the section. -/
def muted (outer : Option (List Selector)) : Section → Section
  | ⟨selectors, attributes, nested, extensions, references, media⟩ =>
    if selectors.isEmpty then ⟨selectors, attributes, mutedAll outer nested, [], [], media⟩
    else if Selector.isAtRule (fullSelectors outer selectors) then
      ⟨selectors, attributes, nested, extensions, references, media⟩
    else
      ⟨selectors, attributes, mutedAll (some (fullSelectors outer selectors)) nested, extensions,
        references, media⟩
def mutedAll (outer : Option (List Selector)) : List Section → List Section
  | [] => []
  | inner :: rest => inner.muted outer :: mutedAll outer rest
end

end Section

namespace Session

mutual
theorem expand_muted (s : Session) (path : Option String) (outer : Option (List Selector)) :
    ∀ inner : Section, s.expand path outer (inner.muted outer) = s.expand path outer inner
  | ⟨selectors, attributes, nested, extensions, references, media⟩ => by
    have hfull : combine selectors outer = fullSelectors outer selectors := rfl
    rw [Section.muted]
    split
    · next hempty =>
      rw [expand, expand, if_pos hempty, if_pos hempty]
      exact expandAll_muted _ _ outer nested
    next hempty =>
    split
    · rfl
    · next hat =>
      rw [expand, expand, if_neg hempty, if_neg hempty, hfull, if_neg hat, if_neg hat]
      exact expandAll_muted _ _ _ nested
theorem expandAll_muted (s : Session) (path : Option String) (outer : Option (List Selector)) :
    ∀ sections : List Section,
      s.expandAll path outer (Section.mutedAll outer sections) = s.expandAll path outer sections
  | [] => by rw [Section.mutedAll]
  | inner :: rest => by
    rw [Section.mutedAll, expandAll, expandAll, expand_muted, expandAll_muted]
end

/-- What is written directly in wrappers besides attributes is as if it were not written. -/
theorem merge_muted (s : Session) (sheet : Sheet) :
    s.merge { sheet with sections := Section.mutedAll none sheet.sections } = s.merge sheet :=
  expandAll_muted _ none none sheet.sections

end Session

/-! The rules of sections with selectors -/

theorem fullSelectors_ne_nil {parents : Option (List Selector)} {selectors : List Selector}
    (hp : parents ≠ some []) (hs : selectors ≠ []) : fullSelectors parents selectors ≠ [] := by
  cases parents with
  | none => exact hs
  | some parents =>
    exact Selector.cross_ne_nil hs fun hnil => hp (by rw [hnil])

mutual
/-- The sections in the body of an at-rule, wrappers included, with the selectors that their rules
have: those that are written. -/
def Section.inBody : Section → List (List Selector × Section)
  | ⟨selectors, attributes, nested, extensions, references, media⟩ =>
    (selectors, ⟨selectors, attributes, nested, extensions, references, media⟩) ::
      Section.inBodies nested
def Section.inBodies : List Section → List (List Selector × Section)
  | [] => []
  | inner :: rest => inner.inBody ++ Section.inBodies rest
end

mutual
/-- The sections that have a rule of their own, in the order they are written, with the selectors
that their rules have. `parents` holds the selectors of the rule around the section. Outside the
bodies of at-rules, wrappers have no rule. -/
def Section.carried (parents : Option (List Selector)) :
    Section → List (List Selector × Section)
  | ⟨selectors, attributes, nested, extensions, references, media⟩ =>
    let full := fullSelectors parents selectors
    if selectors.isEmpty then Section.carriedAll parents nested
    else
      (full, ⟨selectors, attributes, nested, extensions, references, media⟩) ::
        if Selector.isAtRule full then Section.inBodies nested
        else Section.carriedAll (some full) nested
def Section.carriedAll (parents : Option (List Selector)) :
    List Section → List (List Selector × Section)
  | [] => []
  | inner :: rest => inner.carried parents ++ Section.carriedAll parents rest
end

def Section.ruleWith (selectors : List Selector) (inner : Section) : Rule :=
  ⟨selectors, inner.attributes, inner.extensions, inner.references⟩

section Carried

variable {inner outer : Section} {parents : Option (List Selector)}

theorem Section.inBodies_eq_flatMap (nested : List Section) :
    Section.inBodies nested = nested.flatMap Section.inBody := by
  induction nested with
  | nil => rfl
  | cons inner rest ih => rw [Section.inBodies, ih, List.flatMap_cons]

theorem Section.carriedAll_eq_flatMap (parents : Option (List Selector)) (nested : List Section) :
    Section.carriedAll parents nested = nested.flatMap (Section.carried parents) := by
  induction nested with
  | nil => rfl
  | cons inner rest ih => rw [Section.carriedAll, ih, List.flatMap_cons]

theorem Section.Within.mem_inBody (h : inner.Within outer) :
    (inner.selectors, inner) ∈ outer.inBody := by
  induction h with
  | refl =>
    cases inner
    rw [Section.inBody]
    exact List.mem_cons_self
  | @nested child outer hc _ ih =>
    cases outer
    rw [Section.inBody, Section.inBodies_eq_flatMap]
    exact List.mem_cons_of_mem _ (List.mem_flatMap.2 ⟨child, hc, ih⟩)

/-- Every section with selectors is carried, since the rules around it have selectors. -/
theorem Section.Within.mem_carried (h : inner.Within outer) (hs : inner.selectors ≠ [])
    (hp : parents ≠ some []) :
    ∃ selectors, selectors ≠ [] ∧ (selectors, inner) ∈ outer.carried parents := by
  induction h generalizing parents with
  | refl =>
    cases inner
    refine ⟨_, fullSelectors_ne_nil hp hs, ?_⟩
    rw [Section.carried, if_neg (by simpa using hs)]
    exact List.mem_cons_self
  | @nested child outer hc hwithin ih =>
    obtain ⟨selectors, attributes, nested, extensions, references, media⟩ := outer
    rw [Section.carried, Section.carriedAll_eq_flatMap, Section.inBodies_eq_flatMap,
      Section.carriedAll_eq_flatMap]
    split
    · obtain ⟨found, hne, hin⟩ := ih hp
      exact ⟨found, hne, List.mem_flatMap.2 ⟨child, hc, hin⟩⟩
    next hrule =>
    have hfull : fullSelectors parents selectors ≠ [] :=
      fullSelectors_ne_nil hp (by simpa using hrule)
    split
    · -- the body of an at-rule stands in its rule as it is written
      have hbody := List.mem_flatMap.2 ⟨child, hc, hwithin.mem_inBody⟩
      exact ⟨_, hs, List.mem_cons_of_mem _ hbody⟩
    · have hsome : some (fullSelectors parents selectors) ≠ some [] := by simpa using hfull
      obtain ⟨found, hne, hin⟩ := ih hsome
      exact ⟨found, hne, List.mem_cons_of_mem _ (List.mem_flatMap.2 ⟨child, hc, hin⟩)⟩

end Carried

namespace RuleTable

variable {t u v : RuleTable} {wanted more : List Rule}

def rules (t : RuleTable) : List Rule := t.nodes.toList.map (·.rule)

theorem rule?_eq_getElem? (t : RuleTable) (id : Nat) : t.rule? id = t.rules[id]? := by
  simp [rule?, rules]

theorem rules_push (t : RuleTable) (rule : Rule) : (t.push rule).rules = t.rules ++ [rule] := by
  simp [rules, push]

theorem rules_pushInto (t : RuleTable) (parent : Nat) (rule : Rule) :
    (t.pushInto parent rule).rules = t.rules ++ [rule] := by
  have hkept : (t.nodes.modify parent fun node =>
      { node with children := node.children ++ [t.nodes.size] }).toList.map (·.rule) =
      t.nodes.toList.map (·.rule) := by
    apply List.ext_getElem?
    intro i
    simp only [List.getElem?_map, Array.getElem?_toList, Array.getElem?_modify]
    split
    · simp [Function.comp_def]
    · rfl
  simp only [rules, pushInto, Array.toList_push, List.map_append, hkept]
  rfl

mutual
theorem rules_addSection (t : RuleTable) (parent : Nat) : ∀ inner : Section,
    (t.addSection parent inner).rules =
      t.rules ++ inner.inBody.map fun found => found.2.ruleWith found.1
  | ⟨selectors, attributes, nested, extensions, references, media⟩ => by
    rw [addSection, rules_addSections, rules_pushInto, Section.inBody, List.append_assoc]
    rfl
theorem rules_addSections (t : RuleTable) (parent : Nat) : ∀ nested : List Section,
    (t.addSections parent nested).rules =
      t.rules ++ (Section.inBodies nested).map fun found => found.2.ruleWith found.1
  | [] => by simp [addSections, Section.inBodies]
  | inner :: rest => by
    rw [addSections, rules_addSections, rules_addSection, Section.inBodies, List.map_append,
      List.append_assoc]
end

/-- `u` has the rules of `t` and then others, among them some in a given order. -/
def Gains (t u : RuleTable) (wanted : List Rule) : Prop :=
  ∃ added, u.rules = t.rules ++ added ∧ wanted.Sublist added

theorem Gains.refl (t : RuleTable) : t.Gains t [] := ⟨[], by simp, .refl _⟩

theorem Gains.trans (h : t.Gains u wanted) (k : u.Gains v more) : t.Gains v (wanted ++ more) := by
  obtain ⟨added, hu, hwanted⟩ := h
  obtain ⟨later, hv, hmore⟩ := k
  exact ⟨added ++ later, by rw [hv, hu, List.append_assoc], hwanted.append hmore⟩

end RuleTable

namespace Session

theorem gains_place (s : Session) (path : Option String) (rule : Rule) :
    s.table.Gains (s.place path rule).table [rule] := by
  cases path with
  | none => exact ⟨[rule], RuleTable.rules_push _ _, .refl _⟩
  | some path =>
    simp only [place]
    cases s.containers.lookup path with
    | some container => exact ⟨[rule], RuleTable.rules_pushInto _ _ _, .refl _⟩
    | none =>
      refine ⟨[{ selectors := [[path]] }, rule], ?_, List.sublist_cons_self _ _⟩
      simp [RuleTable.rules_pushInto, RuleTable.rules_push]

theorem gains_hostAttributes (s : Session) (path query : String) (outer : List Selector)
    (attributes : List Attribute) :
    s.table.Gains (s.hostAttributes path query outer attributes).table [] := by
  unfold hostAttributes
  split
  · exact .refl _
  split
  · exact .refl _
  · obtain ⟨added, hadded, -⟩ := s.gains_place (some path)
      { selectors := outer, attributes := attributes }
    exact ⟨added, hadded, List.nil_sublist _⟩

mutual
theorem gains_expand (s : Session) (path : Option String) (outer : Option (List Selector)) :
    ∀ inner : Section, s.table.Gains (s.expand path outer inner).table
      ((inner.carried outer).map fun found => found.2.ruleWith found.1)
  | ⟨selectors, attributes, nested, extensions, references, media⟩ => by
    rw [expand, Section.carried]
    split
    · simp only [queryText_eq]
      have hhost := gains_hostAttributes (s.note (mediaQuery s.calls s.scope media).2)
      exact (hhost _ _ _ _).trans (gains_expandAll _ _ outer nested)
    next hrule =>
    have hfull : combine selectors outer = fullSelectors outer selectors := rfl
    simp only [register_eq, hfull]
    have hplace := s.gains_place path
      ⟨fullSelectors outer selectors, attributes, extensions, references⟩
    rw [List.map_cons]
    refine hplace.trans ?_
    split
    · exact ⟨_, RuleTable.rules_addSections _ _ nested, .refl _⟩
    · exact gains_expandAll _ _ _ nested
theorem gains_expandAll (s : Session) (path : Option String) (outer : Option (List Selector)) :
    ∀ sections : List Section, s.table.Gains (s.expandAll path outer sections).table
      ((Section.carriedAll outer sections).map fun found => found.2.ruleWith found.1)
  | [] => .refl s.table
  | inner :: rest => by
    rw [expandAll, Section.carriedAll, List.map_append]
    exact (gains_expand s path outer inner).trans (gains_expandAll _ path outer rest)
end

variable {s : Session} {calls : Evaluator} {merged : List (Scope × Sheet)}

def carriedIn (merged : List (Scope × Sheet)) : List (List Selector × Section) :=
  merged.flatMap fun entry => Section.carriedAll none entry.2.sections

theorem Loaded.rules_sublist (h : Loaded calls merged s) :
    ((carriedIn merged).map fun found => found.2.ruleWith found.1).Sublist s.table.rules := by
  induction h with
  | start => simp [carriedIn]
  | enter | note => assumption
  | @merge merged s name source sheet _ _ ih =>
    have hgains := gains_expandAll
      (sheet.declarations.foldl declare (sheet.templates.foldl addTemplate s)) none none
      sheet.sections
    rw [(s.declared_frame sheet).2.2.2.1] at hgains
    obtain ⟨added, hadded, hsub⟩ := hgains
    rw [carriedIn, List.flatMap_append, List.map_append, Session.merge, hadded]
    refine ih.append ?_
    simpa using hsub

theorem Loaded.exists_ids (h : Loaded calls merged s) :
    ∃ ids : Nat → Nat, ids.Injective ∧ ∀ k selectors inner,
      (carriedIn merged)[k]? = some (selectors, inner) →
        s.table.rule? (ids k) = some (inner.ruleWith selectors) := by
  obtain ⟨ids, hids⟩ := List.sublist_iff_exists_orderEmbedding_getElem?_eq.1 h.rules_sublist
  refine ⟨ids, ids.injective, fun k selectors inner hk => ?_⟩
  rw [RuleTable.rule?_eq_getElem?, ← hids, List.getElem?_map, hk]
  rfl

end Session

/-! What the pass does with them -/

section Links

variable {held : Nat → List Selector} {links : List (Nat × Nat)} {id target : Nat}

theorem suffix_passOn (held : Nat → List Selector) (link : Nat × Nat) (i : Nat) :
    held i <:+ passOn held link i := by
  unfold passOn
  split
  · exact List.suffix_append _ _
  · exact List.suffix_refl _

theorem suffix_foldl_passOn (held : Nat → List Selector) (links : List (Nat × Nat)) (i : Nat) :
    held i <:+ links.foldl passOn held i := by
  induction links generalizing held with
  | nil => exact List.suffix_refl _
  | cons link rest ih => exact (suffix_passOn held link i).trans (ih _)

theorem sublist_of_link (h : (id, target) ∈ links) :
    (held id ++ held target).Sublist (links.foldl passOn held target) := by
  obtain ⟨before, later, rfl⟩ := List.append_of_mem h
  have hid := suffix_foldl_passOn held before id
  have htarget := suffix_foldl_passOn held before target
  rw [List.foldl_append, List.foldl_cons]
  refine .trans ?_ (suffix_foldl_passOn _ later target).sublist
  simp only [passOn, if_true]
  exact hid.sublist.append htarget.sublist

end Links

section Templates

variable {templates : List (String × Template)} {before : List Reference} {r : Reference}
  {t : Template}

theorem mem_foundTemplates (hknown : ∀ b ∈ before, (templates.lookup b.name).isSome)
    (ht : templates.lookup r.name = some t) (later : List Reference) :
    (r, t) ∈ foundTemplates templates (before ++ r :: later) := by
  rw [foundTemplates, List.takeWhile_append_of_pos hknown,
    List.takeWhile_cons_of_pos (by simp [ht])]
  exact List.mem_filterMap.2 ⟨r, by simp, by simp [ht]⟩

theorem firstUnknown_eq (hknown : ∀ b ∈ before, (templates.lookup b.name).isSome)
    (ht : templates.lookup r.name = none) (later : List Reference) :
    firstUnknown templates (before ++ r :: later) = some r := by
  have hbefore : before.find? (fun b => (templates.lookup b.name).isNone) = none := by
    rw [List.find?_eq_none]
    intro b hb
    simpa using Option.isSome_iff_ne_none.1 (hknown b hb)
  rw [firstUnknown, List.find?_append, hbefore, List.find?_cons_of_pos (by simp [ht])]
  rfl

end Templates

theorem exists_of_forall₂_of_mem {α β : Type} {R : α → β → Prop} {xs : List α} {ys : List β}
    (h : List.Forall₂ R xs ys) {x : α} (hx : x ∈ xs) : ∃ y ∈ ys, R x y := by
  induction h with
  | nil => cases hx
  | cons hr _ ih =>
    rcases List.mem_cons.1 hx with rfl | hx
    · exact ⟨_, List.mem_cons_self, hr⟩
    · obtain ⟨y, hy, hr⟩ := ih hx
      exact ⟨y, List.mem_cons_of_mem _ hy, hr⟩

namespace Session

variable {s : Session} {ys : List Yield} {id : Nat} {rule : Rule} {name : String}

theorem mem_visitOrder_of_rule? (h : s.table.Forest s.roots) (hr : s.table.rule? id = some rule) :
    id ∈ s.visitOrder :=
  h.mem_visits.2 (RuleTable.lt_size_of_rule? hr)

theorem selectors_of_extension (h : s.Realizes ys) (hr : s.table.rule? id = some rule)
    (hname : name ∈ rule.extensions) {target : Nat} (hl : s.targets.lookup name = some target) :
    (rule.selectors ++ s.table.selectors target).Sublist
      (s.compileRules.table.selectors target) := by
  have hid := mem_visitOrder_of_rule? h.forest hr
  have hlink : (id, target) ∈ s.visitOrder.flatMap s.links := by
    refine List.mem_flatMap.2 ⟨id, hid, List.mem_filterMap.2 ⟨name, ?_, by simp [hl]⟩⟩
    rw [RuleTable.extensions_of_rule? hr]
    exact hname
  have hselectors : s.compileRules.table.selectors target = s.heldAfter s.visitOrder target :=
    selectors_visits h.forest.nodup (fun i hi => h.forest.mem_visits.1 hi) target
      (h.lt_size_of_target hl)
  rw [hselectors, ← RuleTable.selectors_of_rule? hr]
  exact sublist_of_link hlink

/-- An extension that finds no rule is warned of with the selectors its rule has by then. -/
theorem warning_of_extension (h : History ys s) (hr : s.table.rule? id = some rule)
    (hname : name ∈ rule.extensions) (hl : s.targets.lookup name = none) :
    ∃ held, rule.selectors <:+ held ∧ .unknownTarget name held ∈ s.compile.warnings := by
  have hid := mem_visitOrder_of_rule? h.realizes.forest hr
  have hmissing : (id, name) ∈ s.visitOrder.flatMap (s.missing ys) := by
    refine List.mem_flatMap.2 ⟨id, hid, List.mem_map.2 ⟨name, List.mem_filter.2 ⟨?_, ?_⟩, rfl⟩⟩
    · rw [RuleTable.extensions_of_rule? hr]
      exact hname
    · simpa using h.realizes.lookup_eq_none_iff.1 hl
  obtain ⟨report, hreport, hreported⟩ :=
    exists_of_forall₂_of_mem (compileRules_extended h).reports hmissing
  rw [← reported_compile] at hreport
  obtain ⟨w, hw, hfound⟩ := List.mem_filterMap.1 hreport
  have hnamed : report.1 = name := hreported.named
  have hends : s.table.selectors id <:+ report.2 := hreported.ends
  rw [RuleTable.selectors_of_rule? hr] at hends
  cases w with
  | unknownTarget target held =>
    cases hfound
    exact ⟨held, hends, hnamed ▸ hw⟩
  | redundantVariable | unknownTemplate | argumentCount | mediaAttributes | selfReference =>
    cases hfound

theorem warning_of_reference {r : Reference} (h : History ys s)
    (hr : s.table.rule? id = some rule)
    (hfirst : firstUnknown s.templates rule.references = some r) :
    ∃ held, rule.selectors <:+ held ∧ .unknownTemplate r.name held ∈ s.compile.warnings := by
  have hid := mem_visitOrder_of_rule? h.realizes.forest hr
  have hin : .unknownTemplate r.name (s.heldBy id) ∈ s.visitOrder.flatMap s.callWarnings := by
    refine List.mem_flatMap.2 ⟨id, hid, List.mem_append_right _ ?_⟩
    simp [RuleTable.references_of_rule? hr, hfirst]
  rw [← reported_compileRules h.realizes.forest (Warning.ofCall_apart.history (fun _ => rfl) h),
    ← reported_compile] at hin
  obtain ⟨w, hw, hfound⟩ := List.mem_filterMap.1 hin
  refine ⟨s.heldBy id, ?_, ?_⟩
  · rw [← RuleTable.selectors_of_rule? hr]
    exact suffix_foldl_passOn _ _ id
  · cases w with
    | unknownTemplate =>
      cases hfound
      exact hw
    | redundantVariable | unknownTarget | argumentCount | mediaAttributes | selfReference =>
      cases hfound

/-- The caller has the attributes of the template, and the rules of the call are among those that
the pass adds. -/
structure Expanded (s : Session) (c : Call) : Prop where
  attributes : c.template.attributes.map (·.evaluated s.calls (s.scopeOf c)) <:+:
    (s.compileRules.table.content c.caller).2
  rules : ∀ rule ∈ s.rulesOf c, ∃ id, s.table.size ≤ id ∧ s.compileRules.table.rule? id = some rule

theorem expanded_of_executed {c : Call} (h : s.Realizes ys) (hc : c ∈ s.executed) :
    s.Expanded c := by
  refine ⟨template_attributes_of_executed h hc, ?_⟩
  intro rule hrule
  have hin : rule ∈ s.executed.flatMap s.rulesOf := List.mem_flatMap.2 ⟨c, hc, hrule⟩
  obtain ⟨k, hk⟩ := List.mem_iff_getElem?.1 hin
  have hnode := (compileRules_gave_executed h).nodes k
  rw [hk] at hnode
  exact ⟨s.table.size + k, Nat.le_add_right _ _, RuleTable.rule?_of_node hnode⟩

/-- Each extension of a rule puts the selectors of the rule before those of the rule it finds, or is
warned of, and each of its references up to the first unknown one is expanded or warned of. -/
structure TakesEffect (s : Session) (id : Nat) (rule : Rule) : Prop where
  extensions : ∀ name ∈ rule.extensions,
    (∃ target, s.targets.lookup name = some target ∧
      (rule.selectors ++ s.table.selectors target).Sublist
        (s.compileRules.table.selectors target)) ∨
    s.targets.lookup name = none ∧
      ∃ held, rule.selectors <:+ held ∧ .unknownTarget name held ∈ s.compile.warnings
  references : ∀ before r later, rule.references = before ++ r :: later →
    (∀ b ∈ before, (s.templates.lookup b.name).isSome) →
    (∃ t, s.templates.lookup r.name = some t ∧ s.Expanded ⟨id, r, t⟩) ∨
    s.templates.lookup r.name = none ∧
      ∃ held, rule.selectors <:+ held ∧ .unknownTemplate r.name held ∈ s.compile.warnings

theorem takesEffect_of_rule? (h : History ys s) (hr : s.table.rule? id = some rule) :
    s.TakesEffect id rule := by
  constructor
  · intro name hname
    cases hl : s.targets.lookup name with
    | some target => exact .inl ⟨target, rfl, selectors_of_extension h.realizes hr hname hl⟩
    | none => exact .inr ⟨rfl, warning_of_extension h hr hname hl⟩
  · intro before r later hsplit hknown
    cases ht : s.templates.lookup r.name with
    | some t =>
      refine .inl ⟨t, rfl, expanded_of_executed h.realizes ?_⟩
      have hid := mem_visitOrder_of_rule? h.realizes.forest hr
      refine List.mem_flatMap.2 ⟨id, hid, List.mem_map.2 ⟨(r, t), ?_, rfl⟩⟩
      rw [RuleTable.references_of_rule? hr, hsplit]
      exact mem_foundTemplates hknown ht later
    | none =>
      have hfirst := firstUnknown_eq hknown ht later
      rw [← hsplit] at hfirst
      exact .inr ⟨rfl, warning_of_reference h hr hfirst⟩

/-- The sections with selectors in the sheets that were loaded are carried. The sections that are
carried, among them the wrappers in the bodies of at-rules, have rules, different ones for different
sections, with the selectors that they have where they stand, and what is written in them takes
effect. What is written directly in the other wrappers besides attributes is as if it were not
written. -/
theorem written_references_take_effect {calls : Evaluator} {merged : List (Scope × Sheet)}
    (h : Loaded calls merged s) :
    (∀ entry ∈ merged, ∀ outer ∈ entry.2.sections, ∀ inner : Section, inner.Within outer →
      inner.selectors ≠ [] →
        ∃ selectors, selectors ≠ [] ∧ (selectors, inner) ∈ outer.carried none) ∧
    (∃ ids : Nat → Nat, ids.Injective ∧ ∀ k selectors inner,
      (carriedIn merged)[k]? = some (selectors, inner) →
        s.table.rule? (ids k) = some (inner.ruleWith selectors) ∧
        s.TakesEffect (ids k) (inner.ruleWith selectors)) ∧
    ∀ entry ∈ merged, ∀ u : Session,
      u.merge { entry.2 with sections := Section.mutedAll none entry.2.sections } =
        u.merge entry.2 := by
  refine ⟨?_, ?_, fun entry _ u => u.merge_muted entry.2⟩
  · intro entry _ outer _ inner hin hs
    exact hin.mem_carried hs (by simp)
  · obtain ⟨ys, hys, -⟩ := h.facts.history
    obtain ⟨ids, hinjective, hrules⟩ := h.exists_ids
    refine ⟨ids, hinjective, fun k selectors inner hk => ?_⟩
    have hrule := hrules k selectors inner hk
    exact ⟨hrule, takesEffect_of_rule? hys hrule⟩

/-- A rule in a media wrapper in a rule, with an extension that finds a rule, one that finds none
and an unknown reference, and a wrapper in the body of an at-rule with an extension that finds
none. -/
theorem written_references_take_effect_in_wrapper :
    let inner : Section :=
      { selectors := [[".c"]], extensions := [".a", ".d"], references := [⟨"f", []⟩] }
    let bare : Section := { media := some (.text "print"), extensions := [".e"] }
    let sheet : Sheet :=
      { name := "main.bss"
        sections :=
          [{ selectors := [[".a"]], attributes := [⟨"x", .text "y"⟩] },
            { selectors := [[".b"]],
              nested := [{ media := some (.text "print"), nested := [inner] }] },
            { selectors := [["@supports", "x"]], nested := [bare] }] }
    let source := ".a \x7b x: y \x7d .b \x7b @media print \x7b " ++
      ".c \x7b @extend .a; @extend .d; @func f(); \x7d \x7d \x7d " ++
      "@supports x \x7b @media print \x7b @extend .e; \x7d \x7d"
    let u := (({} : Session).importSheet (.ofSources []) sheet).1
    Sheet.parse "main.bss" source = .ok sheet ∧
      (∃ id, u.table.rule? id = some (inner.ruleWith [[".b", ".c"]]) ∧
        [[".b", ".c"], [".a"]].Sublist (u.compileRules.table.selectors 0) ∧
        (∃ held, [[".b", ".c"]] <:+ held ∧ .unknownTarget ".d" held ∈ u.compile.warnings) ∧
        ∃ held, [[".b", ".c"]] <:+ held ∧ .unknownTemplate "f" held ∈ u.compile.warnings) ∧
      (∃ id, u.table.rule? id = some (bare.ruleWith []) ∧
        ∃ held, .unknownTarget ".e" held ∈ u.compile.warnings) := by
  intro inner bare sheet source u
  have hparse : Sheet.parse "main.bss" source = .ok sheet := by decide +kernel
  have hok : (({} : Session).importSheet (.ofSources []) sheet).2 = .ok () := by decide +kernel
  have hfound : u.targets.lookup ".a" = some 0 := by decide +kernel
  have htarget : u.table.selectors 0 = [[".a"]] := by decide +kernel
  have hmissing : u.targets.lookup ".d" = none ∧ u.targets.lookup ".e" = none := by decide +kernel
  have hunknown : u.templates.lookup "f" = none := by decide +kernel
  have hstart : Loaded Evaluator.written [] ({} : Session) := .start defaultSuffix
  obtain ⟨more, hloaded⟩ := hstart.importSheet (.ofSources []) hparse (by simp) hok
  obtain ⟨-, ⟨ids, -, hrules⟩, -⟩ := written_references_take_effect hloaded
  have hcarried : carriedIn ([] ++ more ++ [(u.scope, sheet)]) =
      carriedIn more ++ Section.carriedAll none sheet.sections := by
    simp [carriedIn]
  have hat : ∀ k, (carriedIn ([] ++ more ++ [(u.scope, sheet)]))[(carriedIn more).length + k]? =
      (Section.carriedAll none sheet.sections)[k]? := by
    intro k
    rw [hcarried, List.getElem?_append_right (by omega), Nat.add_sub_cancel_left]
  obtain ⟨hinner, heffect⟩ := hrules _ [[".b", ".c"]] inner ((hat 2).trans (by decide +kernel))
  obtain ⟨hbare, hnone⟩ := hrules _ [] bare ((hat 4).trans (by decide +kernel))
  refine ⟨hparse, ⟨_, hinner, ?_, ?_, ?_⟩, _, hbare, ?_⟩
  · have hext := heffect.extensions ".a" (by simp [Section.ruleWith, inner])
    rcases hext with ⟨x, hl, hsub⟩ | ⟨hl, -⟩
    · cases hfound.symm.trans hl
      rwa [htarget] at hsub
    · cases hfound.symm.trans hl
  · have hext := heffect.extensions ".d" (by simp [Section.ruleWith, inner])
    rcases hext with ⟨x, hl, -⟩ | ⟨-, hwarned⟩
    · cases hmissing.1.symm.trans hl
    · exact hwarned
  · rcases heffect.references [] ⟨"f", []⟩ [] rfl (by simp) with ⟨x, hl, -⟩ | ⟨-, hwarned⟩
    · cases hunknown.symm.trans hl
    · exact hwarned
  · have hext := hnone.extensions ".e" (by simp [Section.ruleWith, bare])
    rcases hext with ⟨x, hl, -⟩ | ⟨-, held, -, hw⟩
    · cases hmissing.2.symm.trans hl
    · exact ⟨held, hw⟩

/-- An extension directly in a media wrapper finds no rule, and nothing is warned of. -/
theorem extension_in_wrapper_left_out :
    let source := ".a \x7b @media print \x7b @extend .nope; \x7d \x7d"
    ∃ sheet, Sheet.parse "main.bss" source = .ok sheet ∧
      let s := (({} : Session).importSheet (.ofSources []) sheet).1
      (∃ outer ∈ sheet.sections, ∃ wrapper ∈ outer.nested, ".nope" ∈ wrapper.extensions) ∧
        s.targets.lookup ".nope" = none ∧ s.compile.warnings = [] := by
  intro source
  apply exists_ok_of_decide
  decide +kernel

end Session

end NestedStyles
