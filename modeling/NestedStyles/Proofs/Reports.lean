import NestedStyles.Proofs.CompilePass
import NestedStyles.Proofs.Linking

/-!
The warnings of one kind in a log. Declarations and extensions are warned of where they are handled
and nowhere else: neither evaluating, nor calling templates, nor flattening sections adds to what is
reported of them.
-/

namespace NestedStyles

variable {α : Type} {find : Warning → Option α} {log : List Event}

/-- What the warnings of a log tell that `find` looks for. -/
def reported (find : Warning → Option α) (log : List Event) : List α :=
  (log.filterMap Event.warning?).filterMap find

/-- `find` passes over the warnings that evaluating and flattening give. -/
structure Warning.ApartFromSections (find : Warning → Option α) : Prop where
  selfReference : ∀ name, find (.selfReference name) = none
  mediaAttributes : ∀ query, find (.mediaAttributes query) = none

/-- `find` passes over the warnings that evaluating, calling and flattening give. -/
structure Warning.Apart (find : Warning → Option α) : Prop
    extends Warning.ApartFromSections find where
  argumentCount : ∀ name selectors found expected,
    find (.argumentCount name selectors found expected) = none
  unknownTemplate : ∀ name selectors, find (.unknownTemplate name selectors) = none

@[simp] theorem reported_append (log more : List Event) :
    reported find (log ++ more) = reported find log ++ reported find more := by
  simp [reported]

theorem reported_eq_nil_iff :
    reported find log = [] ↔ ∀ e ∈ log, e.warning?.bind find = none := by
  simp only [reported, List.filterMap_filterMap, List.filterMap_eq_nil_iff]

theorem reported_warning {w : Warning} (h : find w = none) :
    reported find [.warning w] = [] := by
  simp [reported, Event.warning?, h]

theorem reported_flatMap {β : Type} (xs : List β) (f : β → List Event) :
    reported find (xs.flatMap f) = xs.flatMap fun x => reported find (f x) := by
  simp only [reported, List.filterMap_flatMap]

theorem reported_flatMap_nil {β : Type} {xs : List β} {f : β → List Event}
    (h : ∀ x ∈ xs, reported find (f x) = []) : reported find (xs.flatMap f) = [] := by
  rw [reported_flatMap, List.flatMap_eq_nil_iff]
  exact h

namespace Warning.ApartFromSections

theorem eval (h : ApartFromSections find) (calls : Evaluator) (scope : Scope) (e : Expr) :
    reported find (e.eval calls scope).2 = [] := by
  rw [reported_eq_nil_iff]
  intro event he
  simp only [Expr.eval, Trace.events, List.mem_append, List.mem_map] at he
  rcases he with ⟨name, -, rfl⟩ | ⟨name, -, rfl⟩
  · rfl
  · exact h.selfReference name

theorem met (h : ApartFromSections find) (calls : Evaluator) (scope : Scope)
    (attributes : List Attribute) :
    reported find (attributes.flatMap (·.met calls scope)) = [] :=
  reported_flatMap_nil fun a _ => h.eval calls scope a.value

theorem hosted (h : ApartFromSections find) (path query : String) (parents : List Selector)
    (wrapper : Section) :
    reported find ((hosted path query parents wrapper).flatMap Yield.met) = [] := by
  unfold NestedStyles.hosted
  split
  · rfl
  · exact reported_warning (h.mediaAttributes query)
  · rfl

mutual
theorem flatten (h : ApartFromSections find) (calls : Evaluator) (scope : Scope)
    (path : Option String) (parents : Option (List Selector)) :
    ∀ inner : Section,
      reported find ((flatten calls scope path parents inner).flatMap Yield.met) = []
  | ⟨selectors, attributes, nested, extensions, references, media⟩ => by
    rw [NestedStyles.flatten]
    by_cases hempty : selectors.isEmpty
    · have hquery : reported find (mediaQuery calls scope media).2 = [] := by
        cases media with
        | none => rfl
        | some query => exact h.eval calls scope query
      simp only [hempty, if_true, List.flatMap_cons, List.flatMap_append, reported_append,
        h.hosted, flattenAll h, List.append_nil]
      exact hquery
    · simp only [hempty, Bool.false_eq_true, if_false, List.flatMap_cons, reported_append]
      split
      · rfl
      · rw [flattenAll h]
        rfl
theorem flattenAll (h : ApartFromSections find) (calls : Evaluator) (scope : Scope)
    (path : Option String) (parents : Option (List Selector)) :
    ∀ sections : List Section,
      reported find ((flattenAll calls scope path parents sections).flatMap Yield.met) = []
  | [] => by
    rw [NestedStyles.flattenAll]
    rfl
  | inner :: rest => by
    rw [NestedStyles.flattenAll, List.flatMap_append, reported_append, flatten h, flattenAll h,
      List.append_nil]
end

theorem expandAll (h : ApartFromSections find) (s : Session) (path : Option String)
    (parents : Option (List Selector)) (sections : List Section) :
    reported find (s.expandAll path parents sections).log = reported find s.log := by
  obtain ⟨-, -, -, -, -, hlog⟩ :=
    s.emitAll_frame (NestedStyles.flattenAll s.calls s.scope path parents sections)
  rw [Session.expandAll_eq_emitAll, hlog, reported_append, h.flattenAll, List.append_nil]

theorem history (h : ApartFromSections find) (hdeclare : ∀ d, find (.redundantVariable d) = none)
    {ys : List Yield} {s : Session} (hs : Session.History ys s) : reported find s.log = [] := by
  induction hs with
  | start => rfl
  | enter _ _ ih => exact ih
  | note e he _ ih =>
    rw [Session.note, reported_append, ih]
    simp [reported, he]
  | template _ _ ih => exact ih
  | @declare _ s d _ ih =>
    unfold Session.declare
    split
    · rw [Session.warn, Session.note, reported_append, ih, reported_warning (hdeclare d)]
      rfl
    · exact ih
  | @expand _ s path parents inner _ ih =>
    obtain ⟨-, -, -, -, -, hlog⟩ :=
      s.emitAll_frame (NestedStyles.flatten s.calls s.scope path parents inner)
    rw [Session.expand_eq_emitAll, hlog, reported_append, ih, h.flatten, List.append_nil]

theorem ofCall (h : ApartFromSections find) (calls : Evaluator) (scope : Scope)
    (callers : List Selector) (r : Reference) (t : Template) :
    reported find (Expansion.ofCall calls scope callers r t).events =
      if t.parameters.length = r.arguments.length then []
      else
        (find (.argumentCount r.name callers r.arguments.length t.parameters.length)).toList := by
  have harguments : reported find ((t.parameters.zip r.arguments).flatMap fun binding =>
      (binding.2.eval calls scope).2) = [] :=
    reported_flatMap_nil fun binding _ => h.eval calls scope binding.2
  have hattributes : reported find (t.attributes.flatMap fun a =>
      if a.value.isConstant then [] else a.met calls (t.callScope calls scope r.arguments)) =
        [] := by
    apply reported_flatMap_nil
    intro a _
    split
    · rfl
    · exact h.eval _ _ _
  have hsections : reported find (t.sections.flatMap fun child =>
      child.attributes.flatMap (·.met calls (t.callScope calls scope r.arguments))) = [] :=
    reported_flatMap_nil fun child _ => h.met _ _ _
  simp only [Expansion.ofCall, reported_append, harguments, hattributes, hsections,
    List.append_nil]
  split
  · rfl
  · simp only [reported, List.filterMap_cons, Event.warning?, List.filterMap_nil]
    cases find _ <;> rfl

/-- A visit reports what the extensions of the rule report, then what its references report. -/
theorem compileRule (h : ApartFromSections find) {s : Session} {id : Nat} {rule : Rule}
    (hr : s.table.rule? id = some rule) :
    reported find (s.compileRule id).log =
      reported find (rule.extensions.foldl (Session.extend id) s).log ++
        reported find (Expansion.ofReferences s.calls s.scope s.templates
          ((rule.extensions.foldl (Session.extend id) s).table.selectors id)
          rule.references).events := by
  rw [Session.compileRule_eq hr]
  simp only [Session.grow, reported_append, h.met, List.append_nil]

end Warning.ApartFromSections

namespace Warning.Apart

theorem ofReferences (h : Apart find) (calls : Evaluator) (scope : Scope)
    (templates : List (String × Template)) (callers : List Selector)
    (references : List Reference) :
    reported find (Expansion.ofReferences calls scope templates callers references).events =
      [] := by
  induction references with
  | nil => rfl
  | cons r rest ih =>
    cases ht : templates.lookup r.name with
    | none =>
      rw [Expansion.ofReferences, ht]
      exact reported_warning (h.unknownTemplate _ _)
    | some t =>
      have hcall : reported find (Expansion.ofCall calls scope callers r t).events = [] := by
        simp [h.ofCall, h.argumentCount]
      rw [Expansion.ofReferences, ht]
      simp only [Expansion.append, reported_append, hcall, ih, List.append_nil]

theorem compileRule (h : Apart find) {s : Session} {id : Nat} {rule : Rule}
    (hr : s.table.rule? id = some rule) :
    reported find (s.compileRule id).log =
      reported find (rule.extensions.foldl (Session.extend id) s).log := by
  rw [h.toApartFromSections.compileRule hr, h.ofReferences, List.append_nil]

end Warning.Apart

theorem reported_content (find : Warning → Option α) (s : Session) :
    reported find s.content.log = reported find s.log := by
  have hwarnings : s.content.log.filterMap Event.warning? = s.log.filterMap Event.warning? := by
    simp only [Session.content, List.filterMap_filter]
    refine List.filterMap_congr fun e _ => ?_
    cases e.warning? <;> rfl
  rw [reported, hwarnings, reported]

theorem reported_compile (find : Warning → Option α) (s : Session) :
    s.compile.warnings.filterMap find = reported find s.compileRules.log := by
  have hpruned : ∀ pruned : List (List Selector), reported find (pruned.map .pruned) = [] := by
    intro pruned
    rw [reported_eq_nil_iff]
    intro e he
    obtain ⟨selectors, -, rfl⟩ := List.mem_map.1 he
    rfl
  have hlog : s.compile.warnings.filterMap find =
      reported find (s.compileRules.log ++ _) := rfl
  rw [hlog, reported_append, hpruned, List.append_nil]

end NestedStyles
