import NestedStyles.Proofs.MediaConjunction
import NestedStyles.Proofs.WholeTexts

/-!
The rules of the output are whole. Sections yield rules of whole texts in whole media paths, and the
pass over the rules makes selectors and attributes of such texts alone.
-/

namespace NestedStyles

/-! What sections yield -/

structure Rule.Whole (rule : Rule) : Prop where
  selectors : ∀ selector ∈ rule.selectors, selector.Whole
  attributes : ∀ a ∈ rule.attributes, a.Whole
  arguments : ∀ r ∈ rule.references, ∀ a ∈ r.arguments, a.Whole

/-- The media path of a yield is whole, and so is every rule that stands there. -/
def Yield.Whole (y : Yield) : Prop :=
  ∀ path tree, y.placed = some (path, tree) →
    (∀ text ∈ path, Text.Whole text.toList) ∧ ∀ rule, tree.Holds rule → rule.Whole

section Yields

variable {calls : Evaluator} {scope : Scope} {path : Option String} {selectors : List Selector}
  {parents : Option (List Selector)} {s : Section} {y : Yield}

theorem Yield.Whole.rule (hpath : ∀ text ∈ path, Text.Whole text.toList)
    (hselectors : ∀ selector ∈ selectors, selector.Whole)
    (hs : ∀ inner : Section, inner.Within s → inner.Whole) :
    (Yield.rule path selectors s).Whole := by
  intro _ _ hplaced
  cases hplaced
  refine ⟨hpath, fun rule hr => ?_⟩
  cases hr with
  | root =>
    have hown := hs s (.refl s)
    exact ⟨hselectors, hown.attributes, hown.arguments⟩
  | inside hin hr =>
    split at hin
    · rw [RuleTree.ofSections_eq_map] at hin
      obtain ⟨child, hc, rfl⟩ := List.mem_map.1 hin
      obtain ⟨inner, hinner, rfl⟩ := RuleTree.section_of_holds hr
      have hwritten := hs inner (.nested hc hinner)
      exact ⟨hwritten.selectors, hwritten.attributes, hwritten.arguments⟩
    · cases hin

theorem Yield.Whole.host {path : String} (hpath : Text.Whole path.toList)
    (hselectors : ∀ selector ∈ selectors, selector.Whole) (hs : s.Whole) :
    (Yield.host path selectors s).Whole := by
  intro _ _ hplaced
  cases hplaced
  refine ⟨by rintro _ ⟨⟩; exact hpath, fun rule hr => ?_⟩
  cases hr with
  | root => exact ⟨hselectors, hs.attributes, by simp⟩
  | inside hin => cases hin

theorem Yield.Whole.events (met : List Event) : (Yield.events met).Whole := by
  intro _ _ hplaced
  cases hplaced

theorem whole_mediaQuery (hcalls : calls.Whole) (hscope : scope.Whole) {media : Option Expr}
    (h : ∀ query ∈ media, query.Whole) : Text.Whole (mediaQuery calls scope media).1.toList := by
  cases media with
  | none => exact .nil
  | some query => exact ((h query rfl).eval hcalls hscope).chars

theorem whole_innerPath (hpath : ∀ text ∈ path, Text.Whole text.toList) {query : String}
    (hquery : Text.Whole query.toList) : Text.Whole (innerPath path query).toList := by
  cases path with
  | none =>
    -- the directive in front is a token of its own
    have hmedia : Text.Whole "@media ".toList :=
      .sigil (.inr rfl) (by decide) (Text.whole_of_isPlain (by decide))
    exact Text.joinable_whole.append hmedia hquery
  | some outer =>
    have hand : Text.Whole " and ".toList := Text.whole_of_isPlain (by decide)
    have houter := Text.joinable_whole.append (hpath outer rfl) hand
    exact Text.joinable_whole.append houter hquery

theorem whole_fullSelectors (hparents : ∀ around ∈ parents, ∀ s ∈ around, Selector.Whole s)
    (h : ∀ selector ∈ selectors, selector.Whole) :
    ∀ selector ∈ fullSelectors parents selectors, selector.Whole := by
  cases parents with
  | none => exact h
  | some around =>
    exact Selector.forall_cross (Selector.forall_nest Text.joinable_whole) h (hparents around rfl)

theorem whole_hosted {path query : String} {around : List Selector}
    (hpath : Text.Whole path.toList) (haround : ∀ selector ∈ around, selector.Whole)
    (hs : s.Whole) : ∀ y ∈ hosted path query around s, y.Whole := by
  unfold hosted
  split
  · simp
  · exact List.forall_mem_singleton.2 (.events _)
  · exact List.forall_mem_singleton.2 (.host hpath haround hs)

mutual
theorem whole_flatten (hcalls : calls.Whole) (hscope : scope.Whole) (path : Option String)
    (hpath : ∀ text ∈ path, Text.Whole text.toList) (parents : Option (List Selector))
    (hparents : ∀ around ∈ parents, ∀ s ∈ around, Selector.Whole s) :
    ∀ s : Section, (∀ inner : Section, inner.Within s → inner.Whole) →
      ∀ y ∈ flatten calls scope path parents s, y.Whole
  | ⟨selectors, attributes, nested, extensions, references, media⟩, hs => by
    have hnested : ∀ child ∈ nested, ∀ inner : Section, inner.Within child → inner.Whole :=
      fun child hc inner hin => hs inner (.nested hc hin)
    have hown := hs _ (.refl _)
    rw [flatten]
    simp only
    split
    · have hinner := whole_innerPath hpath (whole_mediaQuery hcalls hscope hown.query)
      have haround : ∀ s ∈ parents.getD [], Selector.Whole s := by
        cases parents with
        | none => simp
        | some around => exact hparents around rfl
      refine List.forall_mem_cons.2 ⟨.events _, List.forall_mem_append.2 ⟨?_, ?_⟩⟩
      · exact whole_hosted hinner haround hown
      · exact whole_flattenAll hcalls hscope _ (by rintro _ ⟨⟩; exact hinner) parents hparents
          nested hnested
    · have hfull := whole_fullSelectors hparents hown.selectors
      refine List.forall_mem_cons.2 ⟨.rule hpath hfull hs, ?_⟩
      split
      · simp
      · exact whole_flattenAll hcalls hscope path hpath _ (by rintro _ ⟨⟩; exact hfull) nested
          hnested
theorem whole_flattenAll (hcalls : calls.Whole) (hscope : scope.Whole) (path : Option String)
    (hpath : ∀ text ∈ path, Text.Whole text.toList) (parents : Option (List Selector))
    (hparents : ∀ around ∈ parents, ∀ s ∈ around, Selector.Whole s) :
    ∀ sections : List Section, (∀ s ∈ sections, ∀ inner : Section, inner.Within s →
      inner.Whole) → ∀ y ∈ flattenAll calls scope path parents sections, y.Whole
  | [], _ => by
    rw [flattenAll]
    simp
  | s :: rest, h => by
    obtain ⟨hs, hrest⟩ := List.forall_mem_cons.1 h
    rw [flattenAll]
    exact List.forall_mem_append.2
      ⟨whole_flatten hcalls hscope path hpath parents hparents s hs,
        whole_flattenAll hcalls hscope path hpath parents hparents rest hrest⟩
end

end Yields

/-! What the pass makes of attributes -/

section Attributes

variable {calls : Evaluator} {scope : Scope} {a : Attribute} {t : Template}
  {templates : List (String × Template)} {arguments : List Expr}

theorem Scope.Whole.enter (h : scope.Whole) : scope.enter.Whole := by
  intro binding hin
  exact h binding (by simpa [Scope.enter] using hin)

theorem Scope.Whole.set (h : scope.Whole) (name : String) {value : Expr} (hv : value.Whole) :
    (scope.set name value).Whole :=
  List.forall_mem_cons.2 ⟨hv, h⟩

theorem Attribute.Whole.evaluated (h : a.Whole) (hcalls : calls.Whole) (hscope : scope.Whole) :
    (a.evaluated calls scope).Whole :=
  ⟨h.name, h.value.eval hcalls hscope⟩

theorem Attribute.Whole.instantiated (h : a.Whole) (hcalls : calls.Whole) (hscope : scope.Whole) :
    (a.instantiated calls scope).Whole := by
  unfold Attribute.instantiated
  split
  · exact h
  · exact h.evaluated hcalls hscope

theorem Template.whole_callScope (hcalls : calls.Whole) (hscope : scope.Whole)
    (h : ∀ e ∈ arguments, e.Whole) : (t.callScope calls scope arguments).Whole := by
  refine List.foldlRecOn (motive := Scope.Whole) _ _ hscope.enter ?_
  rintro inner hinner ⟨name, argument⟩ hin
  exact hinner.set name ((h argument (List.of_mem_zip hin).2).eval hcalls hscope)

theorem Reference.whole_attributes {r : Reference} (hcalls : calls.Whole) (hscope : scope.Whole)
    (ht : ∀ name t, templates.lookup name = some t → t.Whole) (h : ∀ e ∈ r.arguments, e.Whole) :
    ∀ a ∈ r.attributes calls scope templates, a.Whole := by
  unfold Reference.attributes
  split
  · simp
  · next t hl =>
    intro a ha
    obtain ⟨b, hb, rfl⟩ := List.mem_map.1 ha
    exact ((ht r.name t hl).attributes b hb).instantiated hcalls
      (Template.whole_callScope hcalls hscope h)

theorem Rule.Whole.settled {rule : Rule} (h : rule.Whole) (hcalls : calls.Whole)
    (hscope : scope.Whole) (ht : ∀ name t, templates.lookup name = some t → t.Whole) :
    ∀ a ∈ rule.settled calls scope templates, a.Whole := by
  refine List.forall_mem_append.2 ⟨?_, ?_⟩
  · intro a ha
    obtain ⟨b, hb, rfl⟩ := List.mem_map.1 ha
    exact (h.attributes b hb).evaluated hcalls hscope
  · intro a ha
    obtain ⟨r, hr, ha⟩ := List.mem_flatMap.1 ha
    have hin := (List.takeWhile_sublist _).subset hr
    exact Reference.whole_attributes hcalls hscope ht (h.arguments r hin) a ha

end Attributes

/-! Sessions -/

namespace Session

variable {s : Session} {calls : Evaluator} {merged : List (Scope × Sheet)}

/-- What a session knows and what its sections yielded is whole. -/
structure Whole (s : Session) : Prop where
  calls : s.calls.Whole
  scope : s.scope.Whole
  templates : ∀ name t, s.templates.lookup name = some t → t.Whole
  yields : ∃ ys, History ys s ∧ ∀ y ∈ ys, y.Whole

theorem Whole.merge (h : s.Whole) {sheet : Sheet} (hs : sheet.Whole) : (s.merge sheet).Whole := by
  have hscope : (s.merge sheet).scope.Whole := by
    intro binding hin
    rcases binding_of_merge hin with hold | ⟨d, hd, rfl⟩
    · exact h.scope binding hold
    · exact hs.declarations d hd
  refine ⟨?_, hscope, ?_, ?_⟩
  · rw [(s.merge_environment sheet).1]
    exact h.calls
  · intro name t hl
    rcases template_of_merge hl with hin | hl
    · exact hs.templates t hin
    · exact h.templates name t hl
  · obtain ⟨ys, hys, hwhole⟩ := h.yields
    refine ⟨_, hys.merge sheet, List.forall_mem_append.2 ⟨hwhole, ?_⟩⟩
    exact whole_flattenAll h.calls hscope none (by simp) none (by simp) _ hs.sections

theorem Loaded.whole (h : Loaded calls merged s) (hcalls : calls.Whole) : s.Whole := by
  induction h with
  | start suffix =>
    exact ⟨hcalls, by simp [Scope.Whole], by simp, [], .start calls suffix, by simp⟩
  | enter name _ ih =>
    obtain ⟨ys, hys, hwhole⟩ := ih.yields
    exact ⟨ih.calls, ih.scope, ih.templates, ys, hys.enter name, hwhole⟩
  | note e he _ ih =>
    obtain ⟨ys, hys, hwhole⟩ := ih.yields
    exact ⟨ih.calls, ih.scope, ih.templates, ys, hys.note e he, hwhole⟩
  | merge hp _ ih => exact ih.merge (Sheet.whole_of_parse hp)

theorem Whole.rule (h : s.Whole) {id : Nat} {rule : Rule} (hr : s.table.rule? id = some rule) :
    rule.Whole := by
  obtain ⟨ys, hys, hwhole⟩ := h.yields
  rcases hys.realizes.placed_rule hr with ⟨path, hpath, rfl⟩ | ⟨y, hy, path, tree, hplaced, hholds⟩
  · obtain ⟨y, hy, tree, hplaced⟩ := placed_of_mem_mediaPaths hpath
    have htext := (hwhole y hy _ tree hplaced).1 path rfl
    exact ⟨by simpa [Selector.Whole] using htext, by simp, by simp⟩
  · exact (hwhole y hy path tree hplaced).2 rule hholds

theorem Whole.settles (h : s.Whole) {attributes : List Attribute} (hs : s.Settles attributes) :
    ∀ a ∈ attributes, a.Whole := by
  obtain ⟨id, rule, hr, rfl | ⟨r, href, t, hl, child, hc, rfl⟩⟩ := hs
  · exact (h.rule hr).settled h.calls h.scope h.templates
  · intro a ha
    obtain ⟨b, hb, rfl⟩ := List.mem_map.1 ha
    have hscope := Template.whole_callScope (t := t) h.calls h.scope ((h.rule hr).arguments r href)
    exact (((h.templates _ t hl).sections child hc).attributes b hb).evaluated h.calls hscope

theorem passed_whole : Selector.Passed fun ss => ∀ s ∈ ss, Selector.Whole s where
  apply := Selector.forall_cross (Selector.forall_apply Text.joinable_whole)
  append hm ho := List.forall_mem_append.2 ⟨hm, ho⟩

theorem Whole.compile (h : s.Whole) {content : List Selector × List Attribute}
    (hin : content ∈ FlatRule.contentsAll s.compile.rules) :
    (∀ selector ∈ content.1, selector.Whole) ∧ ∀ a ∈ content.2, a.Whole := by
  obtain ⟨ys, hys, -⟩ := h.yields
  have hobeys : s.Obeys fun ss => ∀ selector ∈ ss, Selector.Whole selector := by
    constructor
    · exact fun id node hn => (h.rule (RuleTable.rule?_of_node hn)).selectors
    · exact fun name t hl child hc => ((h.templates name t hl).sections child hc).selectors
  exact ⟨(hobeys.upholds passed_whole).compile hys.realizes.forest content hin,
    h.settles (settles_of_mem_compile hys.realizes hin)⟩

end Session

theorem whole_of_compileSource {lib : Library} {name source : String} {c : Compilation}
    (h : compileSource lib name source = .ok c) {content : List Selector × List Attribute}
    (hin : content ∈ FlatRule.contentsAll c.rules) :
    (∀ selector ∈ content.1, selector.Whole) ∧ ∀ a ∈ content.2, a.Whole := by
  unfold compileSource Session.importSource at h
  cases hp : Sheet.parse name source with
  | error fault => simp [hp, compileAfter] at h
  | ok sheet =>
    simp only [hp] at h
    have hstart : Session.Loaded Evaluator.written [] {} := .start defaultSuffix
    have hloaded := hstart.importSheet lib hp (by simp)
    generalize Session.importSheet lib {} sheet = out at h hloaded
    obtain ⟨u, result⟩ := out
    cases result with
    | error e => simp [compileAfter] at h
    | ok _ =>
      cases h
      obtain ⟨more, hmore⟩ := hloaded rfl
      exact (hmore.whole Evaluator.whole_written).compile hin

end NestedStyles
