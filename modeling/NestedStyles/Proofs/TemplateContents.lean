import NestedStyles.Proofs.Dependencies
import NestedStyles.Proofs.ExecutedCalls
import NestedStyles.Proofs.MediaCalls
import NestedStyles.Proofs.Renaming
import Mathlib.Data.List.Infix

/-!
What of a template comes into the output when it is called. The attributes directly in it go to the
rule that calls it, and those directly in one of its sections to the rule of that section. What
stands deeper is not looked at: the output stays the same without it.
-/

namespace NestedStyles

/-- The template without what stands in its sections besides attributes. -/
def Template.shallow (t : Template) : Template :=
  { t with
    sections := t.sections.map fun child =>
      { selectors := child.selectors, attributes := child.attributes } }

theorem Template.face_shallow (t : Template) : t.shallow.face = t.face := by
  simp only [face, shallow, List.map_map]
  rfl

theorem lookup_map_value {α β : Type} (f : α → β) (name : String) (entries : List (String × α)) :
    (entries.map fun entry => (entry.1, f entry.2)).lookup name = (entries.lookup name).map f := by
  induction entries with
  | nil => rfl
  | cons entry rest ih =>
    obtain ⟨key, value⟩ := entry
    simp only [List.map_cons, List.lookup_cons, ih]
    split <;> rfl

theorem found_of_mem_foundTemplates {templates : List (String × Template)}
    {references : List Reference} {found : Reference × Template}
    (h : found ∈ foundTemplates templates references) :
    found.1 ∈ references.takeWhile (fun r => (templates.lookup r.name).isSome) ∧
      templates.lookup found.1.name = some found.2 := by
  obtain ⟨r, hr, hfound⟩ := List.mem_filterMap.1 h
  obtain ⟨t, ht, rfl⟩ := Option.map_eq_some_iff.1 hfound
  exact ⟨hr, ht⟩

namespace FlatRule

variable {r : FlatRule} {rules : List FlatRule}

theorem mem_pruneAll {kept : FlatRule} (hr : r ∈ rules) (hp : r.prune = some kept) :
    kept ∈ pruneAll rules := by
  induction rules with
  | nil => cases hr
  | cons other rest ih =>
    rw [pruneAll]
    rcases List.mem_cons.1 hr with rfl | hr
    · rw [hp]
      exact List.mem_cons_self
    · cases other.prune with
      | none => exact ih hr
      | some _ => exact List.mem_cons_of_mem _ (ih hr)

theorem mem_contentsAll_pruneAll {content : List Selector × List Attribute}
    (h : content ∈ contentsAll rules) (hne : content.2 ≠ []) :
    content ∈ contentsAll (pruneAll rules) := by
  have hfilter : content ∈ (contentsAll rules).filter fun content => !content.2.isEmpty :=
    List.mem_filter.2 ⟨h, by simpa using hne⟩
  rw [← (kept_pruneAll rules).attributed] at hfilter
  exact (List.mem_filter.1 hfilter).1

end FlatRule

theorem Rule.prune_leaf {rule : Rule} (h : rule.attributes ≠ []) :
    rule.leaf.prune = some rule.leaf := by
  simp [leaf, FlatRule.prune, FlatRule.pruneAll, h]

namespace Session

variable {s : Session} {ys : List Yield} {c : Call} {id : Nat}

theorem caller_of_executed (hc : c ∈ s.executed) :
    c.caller ∈ s.visitOrder ∧
      (c.reference, c.template) ∈ foundTemplates s.templates (s.table.references c.caller) := by
  obtain ⟨id, hid, hcall⟩ := List.mem_flatMap.1 hc
  obtain ⟨found, hfound, rfl⟩ := List.mem_map.1 hcall
  exact ⟨hid, hfound⟩

theorem template_attributes_of_executed (h : s.Realizes ys) (hc : c ∈ s.executed) :
    c.template.attributes.map (·.evaluated s.calls (s.scopeOf c)) <:+:
      (s.compileRules.table.content c.caller).2 := by
  obtain ⟨hvisit, hfound⟩ := caller_of_executed hc
  obtain ⟨hbefore, hlookup⟩ := found_of_mem_foundTemplates hfound
  obtain ⟨node, hn⟩ := RuleTable.node_of_lt_size (h.forest.mem_visits.1 hvisit)
  have hsettled := attributes_compileRules h.forest (RuleTable.rule?_of_node hn)
  rw [RuleTable.references_of_node hn] at hbefore
  have hgiven : c.reference.attributes s.calls s.scope s.templates =
      c.template.attributes.map (·.evaluated s.calls (s.scopeOf c)) := by
    simp only [Reference.attributes, hlookup]
    exact List.map_congr_left fun a _ => a.instantiated_eq_evaluated _ _
  have hinfix := (List.singleton_infix_iff _ _).2 hbefore
  have hpart := hinfix.flatMap (·.attributes s.calls s.scope s.templates)
  rw [List.flatMap_singleton, hgiven] at hpart
  simp only [RuleTable.content, hsettled, Option.getD_some]
  exact hpart.trans (List.suffix_append _ _).isInfix

theorem content_mem_compile (h : s.Realizes ys) (hid : id < s.table.size)
    (hne : (s.compileRules.table.content id).2 ≠ []) :
    s.compileRules.table.content id ∈ FlatRule.contentsAll s.compile.rules := by
  have hforest := compileRules_forest h.forest
  have hsize := (compileRules_visited h.forest).keeps.size_le
  have hvisit := hforest.mem_visits.2 (Nat.lt_of_lt_of_le hid hsize)
  have htrees := List.mem_map_of_mem (f := s.compileRules.table.content) hvisit
  rw [← RuleTable.contentsAll_trees hforest] at htrees
  exact FlatRule.mem_contentsAll_pruneAll htrees hne

theorem leaf_mem_compile (h : s.Realizes ys) (hc : c ∈ s.executed) {rule : Rule}
    (hr : rule ∈ s.rulesOf c) (hne : rule.attributes ≠ []) : rule.leaf ∈ s.compile.rules := by
  rw [rules_compile_executed h]
  apply List.mem_append_right
  refine FlatRule.mem_pruneAll (List.mem_map_of_mem ?_) (Rule.prune_leaf hne)
  exact List.mem_flatMap.2 ⟨c, hc, hr⟩

/-- What stands deeper in templates than their sections changes nothing in what is compiled. -/
theorem compile_shallow (s : Session) :
    (s.withTemplates (s.templates.map fun entry => (entry.1, entry.2.shallow))).compile =
      s.compile := by
  apply Supports.compile
  intro id callers
  apply Expansion.ofReferences_congr
  intro name
  rw [lookup_map_value, Option.map_map]
  congr 1
  funext t
  exact t.face_shallow

/-- An executed call brings the attributes directly in the template, evaluated in the scope of the
call, to the output rule of the caller, and those directly in a section of the template to an output
rule of their own. All else that stands in sections of templates does nothing. -/
theorem attributes_of_executed_call (h : s.Reachable) (hc : c ∈ s.executed) :
    (c.template.attributes ≠ [] →
      ∃ attributes,
        (s.compileRules.table.selectors c.caller, attributes) ∈
          FlatRule.contentsAll s.compile.rules ∧
        c.template.attributes.map (·.evaluated s.calls (s.scopeOf c)) <:+: attributes) ∧
    (∀ child ∈ c.template.sections, child.attributes ≠ [] →
      ⟨Selector.cross Selector.apply child.selectors (s.heldBy c.caller),
        child.attributes.map (·.evaluated s.calls (s.scopeOf c)), []⟩ ∈ s.compile.rules) ∧
    (s.withTemplates (s.templates.map fun entry => (entry.1, entry.2.shallow))).compile =
      s.compile := by
  obtain ⟨ys, hs⟩ := h
  have hrealizes := hs.realizes
  have hcaller : c.caller < s.table.size :=
    hrealizes.forest.mem_visits.1 (caller_of_executed hc).1
  refine ⟨fun hne => ?_, fun child hchild hne => ?_, s.compile_shallow⟩
  · have hpart := template_attributes_of_executed hrealizes hc
    refine ⟨_, content_mem_compile hrealizes hcaller ?_, hpart⟩
    intro hnil
    rw [hnil] at hpart
    exact hne (List.map_eq_nil_iff.1 (List.infix_nil.1 hpart))
  · have hrule := List.mem_map_of_mem
      (f := Template.sectionRule s.calls (s.scopeOf c) (s.heldBy c.caller)) hchild
    exact leaf_mem_compile hrealizes hc hrule (by simpa [Template.sectionRule] using hne)

/-- A template with a parameter that is used directly in it and in a section. -/
theorem attributes_of_executed_call_with_parameter :
    let box : Template :=
      { name := "box", parameters := ["w"], attributes := [⟨"border", .var "w"⟩]
        sections := [{ selectors := [["p"]], attributes := [⟨"margin", .var "w"⟩] }] }
    let rule : Section := { selectors := [[".a"]], references := [⟨"box", [.text "1px"]⟩] }
    let sheet : Sheet := { name := "main.bss", templates := [box], sections := [rule] }
    let s := (({} : Session).importSheet (.ofSources []) sheet).1
    (∃ attributes, ([[".a"]], attributes) ∈ FlatRule.contentsAll s.compile.rules ∧
      [⟨"border", .text "1px"⟩] <:+: attributes) ∧
    ⟨[[".a", "p"]], [⟨"margin", .text "1px"⟩], []⟩ ∈ s.compile.rules := by
  intro box rule sheet s
  have hs : s.Reachable := reachable_importClosed.importSheet (.ofSources []) sheet
    ⟨[], .start Evaluator.written defaultSuffix⟩
  have hc : (⟨0, ⟨"box", [.text "1px"]⟩, box⟩ : Call) ∈ s.executed := by decide +kernel
  obtain ⟨hdirect, hsections, -⟩ := attributes_of_executed_call hs hc
  have hcaller : s.compileRules.table.selectors 0 = [[".a"]] := by decide +kernel
  have hheld : s.heldBy 0 = [[".a"]] := by decide +kernel
  constructor
  · have hattributes := hdirect (by decide)
    rw [hcaller] at hattributes
    exact hattributes
  · have hrule := hsections _ List.mem_cons_self (by decide)
    rw [hheld] at hrule
    exact hrule

/-- An attribute in a section of a section of a template is in no output rule, and nothing is
warned of. -/
theorem nested_section_of_template_lost :
    let source := "@func f() \x7b a \x7b x: y; b \x7b z: w \x7d \x7d \x7d .c \x7b @func f(); \x7d"
    ∃ sheet, Sheet.parse "main.bss" source = .ok sheet ∧
      let s := (({} : Session).importSheet (.ofSources []) sheet).1
      s.compile.warnings = [] ∧
      ∃ c ∈ s.executed, ∃ child ∈ c.template.sections, ∃ inner ∈ child.nested,
        ∃ a ∈ inner.attributes, ∀ content ∈ FlatRule.contentsAll s.compile.rules,
          a.evaluated s.calls (s.scopeOf c) ∉ content.2 := by
  intro source
  apply exists_ok_of_decide
  decide +kernel

end Session

end NestedStyles
