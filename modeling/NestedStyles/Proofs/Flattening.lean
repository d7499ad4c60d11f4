import NestedStyles.Proofs.RuleForest

/-!
Flattening sections without a table. What a section gives is a list of yields: rules with the media
path they stand in, hosts of the attributes of media wrappers, and events. Expanding a section does
to a session what its yields do one after the other.
-/

namespace NestedStyles

inductive Yield
  /-- The rule of a section with selectors, and those selectors in full. -/
  | rule (path : Option String) (selectors : List Selector) (origin : Section)
  /-- The rule for the attributes of a media wrapper. -/
  | host (path : String) (selectors : List Selector) (wrapper : Section)
  | events (met : List Event)
  deriving DecidableEq, Repr

namespace Yield

/-- The media path of a yielded rule, and the rule with what stands inside it. The body of an
at-rule stands inside it as it is written. -/
def placed : Yield → Option (Option String × RuleTree)
  | rule path selectors origin =>
    some (path,
      ⟨⟨selectors, origin.attributes, origin.extensions, origin.references⟩,
        if Selector.isAtRule selectors then RuleTree.ofSections origin.nested else []⟩)
  | host path selectors wrapper =>
    some (some path, ⟨{ selectors := selectors, attributes := wrapper.attributes }, []⟩)
  | events _ => none

def met : Yield → List Event
  | events met => met
  | _ => []

/-- Extensions find the rule of a section under each of its selectors that has one part. -/
def Names (name : String) : Yield → Prop
  | rule _ selectors _ => [name] ∈ selectors
  | _ => False

instance (name : String) : (y : Yield) → Decidable (y.Names name)
  | rule _ selectors _ => inferInstanceAs (Decidable ([name] ∈ selectors))
  | host .. => isFalse id
  | events _ => isFalse id

end Yield

def mediaQuery (calls : Evaluator) (scope : Scope) : Option Expr → String × List Event
  | none => ("", [])
  | some query => ((query.eval calls scope).1.render, (query.eval calls scope).2)

def innerPath (path : Option String) (query : String) : String :=
  match path with
  | none => "@media " ++ query
  | some path => path ++ " and " ++ query

/-- Every alternative with every selector of the rule around it, the alternatives in the outer
loop. -/
def fullSelectors (parents : Option (List Selector)) (alternatives : List Selector) :
    List Selector :=
  match parents with
  | none => alternatives
  | some parents => alternatives.flatMap fun child => parents.map child.nest

/-- What the attributes of a media wrapper give, inside a rule with the selectors `parents`. -/
def hosted (path query : String) (parents : List Selector) (wrapper : Section) : List Yield :=
  match wrapper.attributes, parents with
  | [], _ => []
  | _ :: _, [] => [.events [.warning (.mediaAttributes query)]]
  | _ :: _, _ :: _ => [.host path parents wrapper]

mutual
/-- The yields of a section in a media path, inside a rule with the selectors `parents` or inside
none. -/
def flatten (calls : Evaluator) (scope : Scope) (path : Option String)
    (parents : Option (List Selector)) : Section → List Yield
  | ⟨selectors, attributes, nested, extensions, references, media⟩ =>
    let origin : Section := ⟨selectors, attributes, nested, extensions, references, media⟩
    if selectors.isEmpty then
      let query := mediaQuery calls scope media
      let inner := innerPath path query.1
      .events query.2 :: (hosted inner query.1 (parents.getD []) origin ++
        flattenAll calls scope (some inner) parents nested)
    else
      let full := fullSelectors parents selectors
      .rule path full origin ::
        (if Selector.isAtRule full then [] else flattenAll calls scope path (some full) nested)
def flattenAll (calls : Evaluator) (scope : Scope) (path : Option String)
    (parents : Option (List Selector)) : List Section → List Yield
  | [] => []
  | inner :: rest =>
    flatten calls scope path parents inner ++ flattenAll calls scope path parents rest
end

namespace Session

def emit (s : Session) : Yield → Session
  | .rule path selectors origin =>
    let s := s.place path
      ⟨selectors, origin.attributes, origin.extensions, origin.references⟩
    let id := s.table.size - 1
    let s := s.register id selectors
    if Selector.isAtRule selectors then
      { s with table := s.table.addSections id origin.nested }
    else s
  | .host path selectors wrapper =>
    s.place (some path) { selectors := selectors, attributes := wrapper.attributes }
  | .events met => s.note met

def emitAll (s : Session) (yields : List Yield) : Session := yields.foldl emit s

variable {s : Session}

theorem emitAll_append (ys zs : List Yield) :
    s.emitAll (ys ++ zs) = (s.emitAll ys).emitAll zs := by
  simp [emitAll, List.foldl_append]

theorem place_frame (path : Option String) (rule : Rule) :
    (s.place path rule).calls = s.calls ∧ (s.place path rule).suffix = s.suffix ∧
    (s.place path rule).scope = s.scope ∧ (s.place path rule).templates = s.templates ∧
    (s.place path rule).imported = s.imported ∧ (s.place path rule).targets = s.targets ∧
    (s.place path rule).log = s.log := by
  unfold place
  split
  · exact ⟨rfl, rfl, rfl, rfl, rfl, rfl, rfl⟩
  · split <;> exact ⟨rfl, rfl, rfl, rfl, rfl, rfl, rfl⟩

/-- The targets a rule is registered under, the newest first. -/
def registrations (id : Nat) (selectors : List Selector) : List (String × Nat) :=
  (selectors.filterMap fun
    | [part] => some (part, id)
    | _ => none).reverse

theorem register_eq (id : Nat) (selectors : List Selector) :
    s.register id selectors = { s with targets := registrations id selectors ++ s.targets } := by
  unfold register
  induction selectors generalizing s with
  | nil => rfl
  | cons selector rest ih =>
    rw [List.foldl_cons, ih]
    match selector with
    | [] => simp [registerUnder, registrations]
    | [part] => simp [registerUnder, registrations]
    | _ :: _ :: _ => simp [registerUnder, registrations]

theorem emit_frame (y : Yield) :
    (s.emit y).calls = s.calls ∧ (s.emit y).suffix = s.suffix ∧ (s.emit y).scope = s.scope ∧
    (s.emit y).templates = s.templates ∧ (s.emit y).imported = s.imported ∧
    (s.emit y).log = s.log ++ y.met := by
  cases y with
  | rule path selectors origin =>
    obtain ⟨hc, hu, hs, ht, hi, -, hl⟩ := s.place_frame path
      ⟨selectors, origin.attributes, origin.extensions, origin.references⟩
    simp only [emit, register_eq, Yield.met, List.append_nil]
    split <;> exact ⟨hc, hu, hs, ht, hi, hl⟩
  | host path selectors wrapper =>
    obtain ⟨hc, hu, hs, ht, hi, -, hl⟩ := s.place_frame (some path)
      { selectors := selectors, attributes := wrapper.attributes }
    simp only [emit, Yield.met, List.append_nil]
    exact ⟨hc, hu, hs, ht, hi, hl⟩
  | events met => exact ⟨rfl, rfl, rfl, rfl, rfl, rfl⟩

theorem emitAll_frame (ys : List Yield) :
    (s.emitAll ys).calls = s.calls ∧ (s.emitAll ys).suffix = s.suffix ∧
    (s.emitAll ys).scope = s.scope ∧ (s.emitAll ys).templates = s.templates ∧
    (s.emitAll ys).imported = s.imported ∧ (s.emitAll ys).log = s.log ++ ys.flatMap Yield.met := by
  induction ys generalizing s with
  | nil => simp [emitAll]
  | cons y ys ih =>
    obtain ⟨hc, hu, hs, ht, hi, hl⟩ := s.emit_frame y
    obtain ⟨jc, ju, js, jt, ji, jl⟩ := ih (s := s.emit y)
    simp only [emitAll, List.foldl_cons, List.flatMap_cons] at *
    exact ⟨jc.trans hc, ju.trans hu, js.trans hs, jt.trans ht, ji.trans hi, by
      rw [jl, hl, List.append_assoc]⟩

theorem queryText_eq (media : Option Expr) :
    s.queryText media =
      ((mediaQuery s.calls s.scope media).1, s.note (mediaQuery s.calls s.scope media).2) := by
  cases media with
  | none => simp [queryText, mediaQuery, note]
  | some query => rfl

theorem hostAttributes_eq (path query : String) (parents : List Selector) (wrapper : Section) :
    s.hostAttributes path query parents wrapper.attributes =
      s.emitAll (hosted path query parents wrapper) := by
  unfold hostAttributes hosted
  cases ha : wrapper.attributes with
  | nil => rfl
  | cons a as =>
    cases parents with
    | nil => rfl
    | cons p ps => simp [emitAll, emit, ha]

mutual
/-- Expanding a section does what its yields do, one after the other. -/
theorem expand_eq_emitAll (s : Session) (path : Option String) (outer : Option (List Selector)) :
    ∀ inner : Section,
      s.expand path outer inner = s.emitAll (flatten s.calls s.scope path outer inner)
  | ⟨selectors, attributes, nested, extensions, references, media⟩ => by
    rw [expand, flatten]
    generalize ho : (⟨selectors, attributes, nested, extensions, references, media⟩ : Section) =
      origin
    by_cases hempty : selectors.isEmpty
    · have hpath : mediaPath path = innerPath path := rfl
      have ha : attributes = origin.attributes := by rw [← ho]
      simp only [hempty, if_true, queryText_eq, hpath]
      generalize mediaQuery s.calls s.scope media = query
      obtain ⟨hc, -, hs, -⟩ := (s.note query.2).emitAll_frame
        (hosted (innerPath path query.1) query.1 (outer.getD []) origin)
      rw [ha, hostAttributes_eq, expandAll_eq_emitAll, hc, hs]
      simp only [emitAll, List.foldl_cons, List.foldl_append]
      rfl
    · have hfull : combine selectors outer = fullSelectors outer selectors := rfl
      simp only [hempty, Bool.false_eq_true, if_false, hfull]
      by_cases hat : Selector.isAtRule (fullSelectors outer selectors)
      · simp only [hat, if_true, emitAll, List.foldl_cons, List.foldl_nil, emit, ← ho]
      · have hemit : s.emit (.rule path (fullSelectors outer selectors) origin) =
            (s.place path
              ⟨fullSelectors outer selectors, attributes, extensions, references⟩).register
              ((s.place path
                ⟨fullSelectors outer selectors, attributes, extensions, references⟩).table.size - 1)
              (fullSelectors outer selectors) := by
          simp only [emit, hat, ← ho]
          rfl
        obtain ⟨hc, -, hs, -⟩ :=
          s.emit_frame (.rule path (fullSelectors outer selectors) origin)
        simp only [hat, if_false, Bool.false_eq_true]
        rw [← hemit, expandAll_eq_emitAll, hc, hs]
        rfl
theorem expandAll_eq_emitAll (s : Session) (path : Option String) (outer : Option (List Selector)) :
    ∀ sections : List Section,
      s.expandAll path outer sections = s.emitAll (flattenAll s.calls s.scope path outer sections)
  | [] => by
    rw [expandAll, flattenAll]
    rfl
  | inner :: rest => by
    obtain ⟨hc, -, hs, -⟩ := s.emitAll_frame (flatten s.calls s.scope path outer inner)
    rw [expandAll, flattenAll, emitAll_append, expand_eq_emitAll, expandAll_eq_emitAll, hc, hs]
end

end Session

end NestedStyles
