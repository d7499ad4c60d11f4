import NestedStyles.Proofs.BalancedValues
import NestedStyles.Proofs.Linking

/-!
What the paths of nested media wrappers mean. A query is a list of alternatives with commas between
them, and an alternative asks for all the conditions that `and` joins. A path joins the texts of the
queries around a rule by `and`, so the last alternative of a query and the first one of the next
become one, and all others stay alternatives of the whole path. With one alternative in every query
the path asks for all of them.
-/

namespace NestedStyles

/-! Reading queries -/

/-- Joins two lists of alternatives as `and` between their texts does: it binds more than a comma,
so the last one of the first list and the first one of the second are taken together. -/
def joinAlternatives {α : Type} : List (List α) → List (List α) → List (List α)
  | [], bs => bs
  | [a], [] => [a]
  | [a], b :: bs => (a ++ b) :: bs
  | a :: next :: as, bs => a :: joinAlternatives (next :: as) bs

def joinAllAlternatives {α : Type} : List (List (List α)) → List (List α)
  | [] => []
  | [as] => as
  | as :: next :: rest => joinAlternatives as (joinAllAlternatives (next :: rest))

section Alternatives

variable {α β : Type} {as bs : List (List α)} {p : α → Bool}

theorem joinAlternatives_cons (a : List α) (h : as ≠ []) (bs : List (List α)) :
    joinAlternatives (a :: as) bs = a :: joinAlternatives as bs := by
  cases as with
  | nil => exact absurd rfl h
  | cons => rfl

theorem splitOnP_append (p : α → Bool) (xs ys : List α) :
    (xs ++ ys).splitOnP p = joinAlternatives (xs.splitOnP p) (ys.splitOnP p) := by
  induction xs with
  | nil =>
    obtain ⟨b, bs, hb⟩ := List.exists_cons_of_ne_nil (List.splitOnP_ne_nil p ys)
    rw [List.nil_append, List.splitOnP_nil, hb]
    rfl
  | cons x xs ih =>
    obtain ⟨a, as, ha⟩ := List.exists_cons_of_ne_nil (List.splitOnP_ne_nil p xs)
    rw [List.cons_append, List.splitOnP_cons_eq_if_modifyHead, List.splitOnP_cons_eq_if_modifyHead,
      ih]
    split
    · rw [joinAlternatives_cons _ (List.splitOnP_ne_nil p xs)]
    · rw [ha]
      cases as with
      | nil =>
        obtain ⟨b, bs, hb⟩ := List.exists_cons_of_ne_nil (List.splitOnP_ne_nil p ys)
        rw [hb]
        rfl
      | cons => rfl

theorem map_joinAlternatives {f : List α → List β} {x : α}
    (hf : ∀ a b, f (a ++ x :: b) = f a ++ f b) (has : as ≠ []) (b : List α) (bs : List (List α)) :
    (joinAlternatives as ((x :: b) :: bs)).map f =
      joinAlternatives (as.map f) ((b :: bs).map f) := by
  induction as with
  | nil => exact absurd rfl has
  | cons a as ih =>
    cases as with
    | nil => simp [joinAlternatives, hf]
    | cons next as =>
      have hrest := ih (List.cons_ne_nil next as)
      simp only [List.map_cons] at hrest ⊢
      rw [joinAlternatives, joinAlternatives, List.map_cons, hrest]

theorem splitOnP_alternatives {p q : α → Bool} {x : α} (hp : p x = false) (hq : q x = true)
    (xs ys : List α) :
    ((xs ++ x :: ys).splitOnP p).map (·.splitOnP q) =
      joinAlternatives ((xs.splitOnP p).map (·.splitOnP q))
        ((ys.splitOnP p).map (·.splitOnP q)) := by
  obtain ⟨b, bs, hb⟩ := List.exists_cons_of_ne_nil (List.splitOnP_ne_nil p ys)
  rw [splitOnP_append, List.splitOnP_cons_eq_if_modifyHead, hp, if_neg Bool.false_ne_true, hb,
    List.modifyHead_cons]
  exact map_joinAlternatives (fun a b => List.splitOnP_append_cons a b hq)
    (List.splitOnP_ne_nil p xs) b bs

/-- One of the alternatives holds, that is, everything it asks for. -/
def SomeHolds (holds : α → Prop) (as : List (List α)) : Prop := ∃ a ∈ as, ∀ x ∈ a, holds x

variable {holds : α → Prop}

theorem someHolds_cons {a : List α} :
    SomeHolds holds (a :: as) ↔ (∀ x ∈ a, holds x) ∨ SomeHolds holds as := by
  simp [SomeHolds]

theorem SomeHolds.join (h : SomeHolds holds as) (k : SomeHolds holds bs) :
    SomeHolds holds (joinAlternatives as bs) := by
  induction as with
  | nil => exact k
  | cons a as ih =>
    cases as with
    | nil =>
      have ha : ∀ x ∈ a, holds x := by simpa [SomeHolds] using h
      cases bs with
      | nil => exact h
      | cons b bs =>
        rw [joinAlternatives, someHolds_cons]
        rcases someHolds_cons.1 k with hb | hbs
        · left
          intro x hx
          rcases List.mem_append.1 hx with hx | hx
          · exact ha x hx
          · exact hb x hx
        · exact .inr hbs
    | cons next as =>
      rw [joinAlternatives, someHolds_cons]
      rcases someHolds_cons.1 h with ha | has
      · exact .inl ha
      · exact .inr (ih has)

/-- With one alternative on both sides there is one for both, which asks for both. -/
theorem join_of_single (holds : α → Prop) (ha : as.length = 1) (hb : bs.length = 1) :
    (joinAlternatives as bs).length = 1 ∧
      (SomeHolds holds (joinAlternatives as bs) ↔ SomeHolds holds as ∧ SomeHolds holds bs) := by
  obtain ⟨a, rfl⟩ := List.length_eq_one_iff.1 ha
  obtain ⟨b, rfl⟩ := List.length_eq_one_iff.1 hb
  refine ⟨rfl, ?_⟩
  simp [joinAlternatives, SomeHolds, or_imp, forall_and]

variable {lists : List (List (List α))}

theorem SomeHolds.joinAll (hne : lists ≠ []) (h : ∀ as ∈ lists, SomeHolds holds as) :
    SomeHolds holds (joinAllAlternatives lists) := by
  induction lists with
  | nil => exact absurd rfl hne
  | cons as lists ih =>
    obtain ⟨has, hrest⟩ := List.forall_mem_cons.1 h
    cases lists with
    | nil => exact has
    | cons next rest => exact has.join (ih (by simp) hrest)

theorem joinAll_of_single (holds : α → Prop) (hne : lists ≠ [])
    (h : ∀ as ∈ lists, as.length = 1) :
    (joinAllAlternatives lists).length = 1 ∧
      (SomeHolds holds (joinAllAlternatives lists) ↔ ∀ as ∈ lists, SomeHolds holds as) := by
  induction lists with
  | nil => exact absurd rfl hne
  | cons as lists ih =>
    obtain ⟨has, hrest⟩ := List.forall_mem_cons.1 h
    cases lists with
    | nil => exact ⟨has, by simp [joinAllAlternatives]⟩
    | cons next rest =>
      obtain ⟨hlength, hiff⟩ := ih (by simp) hrest
      obtain ⟨hlength', hiff'⟩ := join_of_single holds has hlength
      refine ⟨hlength', ?_⟩
      rw [joinAllAlternatives, hiff', hiff]
      exact List.forall_mem_cons.symm

end Alternatives

namespace MediaQuery

/-- A part of a query: a word, with all that stands in its parentheses and quotes, or a comma. -/
inductive Part
  | word (text : List Char)
  | comma
  deriving DecidableEq, Repr

def Part.and : Part := .word "and".toList

def ended (word : List Char) : List Part := if word = [] then [] else [.word word]

/-- The parts of a text, when `word` is read of a word that is still open. Blanks and commas in
parentheses or quotes belong to a word. -/
def partsFrom (cursor : Cursor) (word : List Char) : List Char → List Part
  | [] => ended word
  | c :: rest =>
    if cursor = .outside 0 ∧ Text.isBlank c then ended word ++ partsFrom cursor [] rest
    else if cursor = .outside 0 ∧ c = ',' then ended word ++ .comma :: partsFrom cursor [] rest
    else partsFrom (cursor.step c) (word ++ [c]) rest

/-- The alternatives of a query, each as the conditions it asks for. A condition is the list of its
words. -/
def alternatives (text : String) : List (List (List Part)) :=
  ((partsFrom (.outside 0) [] text.toList).splitOnP (· = .comma)).map (·.splitOnP (· = .and))

/-- The query is satisfied when conditions are true as `holds` says. -/
def Satisfied (holds : List Part → Prop) (text : String) : Prop :=
  SomeHolds holds (alternatives text)

instance (holds : List Part → Prop) [DecidablePred holds] (text : String) :
    Decidable (Satisfied holds text) :=
  inferInstanceAs (Decidable (∃ a ∈ alternatives text, ∀ x ∈ a, holds x))

theorem step_of_blank {c : Char} (h : Text.isBlank c = true) :
    (Cursor.outside 0).step c = .outside 0 := by
  have hne : c ≠ '(' ∧ c ≠ ')' ∧ Quote.of? c = none := by
    refine ⟨?_, ?_, ?_⟩
    · rintro rfl
      cases h
    · rintro rfl
      cases h
    · unfold Quote.of?
      split
      · cases h
      · cases h
      · rfl
  rw [Cursor.step, if_neg hne.1, if_neg hne.2.1, hne.2.2]

theorem partsFrom_append {cursor : Cursor} {word cs : List Char} (ds : List Char)
    (h : cursor.run cs = .outside 0) :
    partsFrom cursor word (cs ++ ' ' :: ds) =
      partsFrom cursor word cs ++ partsFrom (.outside 0) [] ds := by
  induction cs generalizing cursor word with
  | nil =>
    have hcursor : cursor = .outside 0 := h
    rw [hcursor]
    rfl
  | cons c cs ih =>
    rw [Cursor.run_cons] at h
    rw [List.cons_append, partsFrom, partsFrom]
    by_cases hblank : cursor = .outside 0 ∧ Text.isBlank c
    · have hstays : cursor.step c = cursor := by
        rw [hblank.1]
        exact step_of_blank hblank.2
      rw [hstays] at h
      rw [if_pos hblank, if_pos hblank, ih h, List.append_assoc]
    by_cases hcomma : cursor = .outside 0 ∧ c = ','
    · have hstays : cursor.step c = cursor := by
        rw [hcomma.1, hcomma.2]
        rfl
      rw [hstays] at h
      rw [if_neg hblank, if_neg hblank, if_pos hcomma, if_pos hcomma, ih h, List.append_assoc,
        List.cons_append]
    · rw [if_neg hblank, if_neg hblank, if_neg hcomma, if_neg hcomma, ih h]

theorem alternatives_and {text : String} (h : Text.Balanced text.toList) (next : String) :
    alternatives (text ++ " and " ++ next) =
      joinAlternatives (alternatives text) (alternatives next) := by
  have hchars : (text ++ " and " ++ next).toList =
      text.toList ++ ' ' :: ("and".toList ++ ' ' :: next.toList) := by
    simp
  have hand : partsFrom (.outside 0) [] ("and".toList ++ ' ' :: next.toList) =
      .and :: partsFrom (.outside 0) [] next.toList := by
    rw [partsFrom_append _ rfl]
    rfl
  rw [alternatives, hchars, partsFrom_append _ (h 0), hand,
    splitOnP_alternatives (by decide) (by decide)]
  rfl

theorem alternatives_intercalate {texts : List String} (hne : texts ≠ [])
    (h : ∀ text ∈ texts, Text.Balanced text.toList) :
    alternatives (" and ".intercalate texts) = joinAllAlternatives (texts.map alternatives) := by
  induction texts with
  | nil => exact absurd rfl hne
  | cons text texts ih =>
    obtain ⟨htext, hrest⟩ := List.forall_mem_cons.1 h
    cases texts with
    | nil => simp [joinAllAlternatives]
    | cons next rest =>
      rw [String.intercalate_cons_cons, alternatives_and htext, ih (by simp) hrest]
      rfl

end MediaQuery

/-! Rules in nested wrappers -/

/-- The rule of a section with the selectors `selectors`, and its body if it is an at-rule. -/
def RuleTree.ofRule (selectors : List Selector) (origin : Section) : RuleTree :=
  ⟨⟨selectors, origin.attributes, origin.extensions, origin.references⟩,
    if Selector.isAtRule selectors then RuleTree.ofSections origin.nested else []⟩

/-- The section gives a rule through media wrappers with the queries `queries`, the outermost first,
and maybe other rules between them. `parents` are the selectors of the rule around the section. -/
inductive Section.Gives : Option (List Selector) → Section → List Expr → RuleTree → Prop
  | rule {parents : Option (List Selector)} {origin : Section} : origin.selectors ≠ [] →
      Gives parents origin [] (.ofRule (fullSelectors parents origin.selectors) origin)
  | host {parents : List Selector} {wrapper : Section} {query : Expr} : wrapper.selectors = [] →
      wrapper.media = some query → wrapper.attributes ≠ [] → parents ≠ [] →
      Gives (some parents) wrapper [query]
        ⟨{ selectors := parents, attributes := wrapper.attributes }, []⟩
  | wrapper {parents : Option (List Selector)} {wrapper inner : Section} {query : Expr}
      {queries : List Expr} {tree : RuleTree} : wrapper.selectors = [] →
      wrapper.media = some query → inner ∈ wrapper.nested → Gives parents inner queries tree →
      Gives parents wrapper (query :: queries) tree
  | inside {parents : Option (List Selector)} {outer inner : Section} {queries : List Expr}
      {tree : RuleTree} : outer.selectors ≠ [] →
      Selector.isAtRule (fullSelectors parents outer.selectors) = false → inner ∈ outer.nested →
      Gives (some (fullSelectors parents outer.selectors)) inner queries tree →
      Gives parents outer queries tree

section Yields

variable {calls : Evaluator} {scope : Scope} {parents : Option (List Selector)} {outer : Section}
  {queries : List Expr} {tree : RuleTree}

theorem mem_flattenAll {path : Option String} {inner : Section} {nested : List Section} {y : Yield}
    (hin : inner ∈ nested) (hy : y ∈ flatten calls scope path parents inner) :
    y ∈ flattenAll calls scope path parents nested := by
  induction nested with
  | nil => cases hin
  | cons first rest ih =>
    rw [flattenAll]
    rcases List.mem_cons.1 hin with rfl | hin
    · exact List.mem_append_left _ hy
    · exact List.mem_append_right _ (ih hin)

theorem flatten_of_wrapper {query : Expr} (hs : outer.selectors = [])
    (hm : outer.media = some query) (path : Option String) :
    let text := (query.eval calls scope).1.render
    flatten calls scope path parents outer =
      .events (query.eval calls scope).2 ::
        (hosted (innerPath path text) text (parents.getD []) outer ++
          flattenAll calls scope (some (innerPath path text)) parents outer.nested) := by
  obtain ⟨selectors, attributes, nested, extensions, references, media⟩ := outer
  simp only at hs hm
  subst hs hm
  rw [flatten]
  rfl

theorem flatten_of_rule (hs : outer.selectors ≠ []) (path : Option String) :
    let full := fullSelectors parents outer.selectors
    flatten calls scope path parents outer =
      .rule path full outer ::
        (if Selector.isAtRule full then []
          else flattenAll calls scope path (some full) outer.nested) := by
  obtain ⟨selectors, attributes, nested, extensions, references, media⟩ := outer
  rw [flatten, if_neg (by simpa using hs)]

/-- The media path inside wrappers with the given queries. -/
def pathWithin (calls : Evaluator) (scope : Scope) (path : Option String) (queries : List Expr) :
    Option String :=
  queries.foldl (fun path query => some (innerPath path (query.eval calls scope).1.render)) path

theorem Section.Gives.yield (h : outer.Gives parents queries tree) (calls : Evaluator)
    (scope : Scope) (path : Option String) :
    ∃ y ∈ flatten calls scope path parents outer,
      y.placed = some (pathWithin calls scope path queries, tree) := by
  induction h generalizing path with
  | rule hs =>
    rw [flatten_of_rule hs]
    exact ⟨_, List.mem_cons_self, rfl⟩
  | @host parents wrapper query hs hm ha hp =>
    rw [flatten_of_wrapper hs hm]
    refine ⟨.host (innerPath path (query.eval calls scope).1.render) parents wrapper, ?_, rfl⟩
    refine List.mem_cons_of_mem _ (List.mem_append_left _ ?_)
    unfold hosted
    cases hattributes : wrapper.attributes with
    | nil => exact absurd hattributes ha
    | cons a rest =>
      cases parents with
      | nil => exact absurd rfl hp
      | cons p ps => exact List.mem_cons_self
  | wrapper hs hm hin _ ih =>
    obtain ⟨y, hy, hplaced⟩ := ih (some (innerPath path _))
    rw [flatten_of_wrapper hs hm]
    exact ⟨y, List.mem_cons_of_mem _ (List.mem_append_right _ (mem_flattenAll hin hy)), hplaced⟩
  | inside hs hat hin _ ih =>
    obtain ⟨y, hy, hplaced⟩ := ih path
    rw [flatten_of_rule hs]
    refine ⟨y, List.mem_cons_of_mem _ ?_, hplaced⟩
    rw [if_neg (by simp [hat])]
    exact mem_flattenAll hin hy

theorem intercalate_append_cons (sep first text : String) (texts : List String) :
    sep.intercalate ((first ++ text) :: texts) = first ++ sep.intercalate (text :: texts) := by
  cases texts with
  | nil => simp
  | cons next rest =>
    rw [String.intercalate_cons_cons, String.intercalate_cons_cons]
    simp [String.append_assoc]

/-- A path consists of the texts of its queries with `and` between them. -/
theorem pathWithin_none (calls : Evaluator) (scope : Scope) {queries : List Expr}
    (hne : queries ≠ []) :
    pathWithin calls scope none queries =
      some ("@media " ++
        " and ".intercalate (queries.map fun query => (query.eval calls scope).1.render)) := by
  have hsome : ∀ (queries : List Expr) (path : String),
      pathWithin calls scope (some path) queries = some (" and ".intercalate
        (path :: queries.map fun query => (query.eval calls scope).1.render)) := by
    intro queries
    induction queries with
    | nil =>
      intro path
      simp [pathWithin]
    | cons query rest ih =>
      intro path
      have hstep := ih (path ++ " and " ++ (query.eval calls scope).1.render)
      rw [intercalate_append_cons] at hstep
      rw [List.map_cons, String.intercalate_cons_cons]
      exact hstep
  obtain ⟨query, rest, rfl⟩ := List.exists_cons_of_ne_nil hne
  have hfirst := hsome rest ("@media " ++ (query.eval calls scope).1.render)
  rw [intercalate_append_cons] at hfirst
  exact hfirst

end Yields

/-! Sessions -/

namespace Session

variable {s : Session} {calls : Evaluator} {merged : List (Scope × Sheet)} {sheet : Sheet}
  {ys : List Yield}

/-- Sheets that were read from texts were merged into the session. Each of them is kept with the
scope in which its sections were expanded. -/
inductive Loaded (calls : Evaluator) : List (Scope × Sheet) → Session → Prop
  | start (suffix : String) : Loaded calls [] { calls := calls, suffix := suffix }
  | enter {merged : List (Scope × Sheet)} {s : Session} (name : String) : Loaded calls merged s →
      Loaded calls merged { s with imported := name :: s.imported }
  | note {merged : List (Scope × Sheet)} {s : Session} (e : Event) : e.warning? = none →
      Loaded calls merged s → Loaded calls merged (s.note [e])
  | merge {merged : List (Scope × Sheet)} {s : Session} {name source : String} {sheet : Sheet} :
      Sheet.parse name source = .ok sheet → Loaded calls merged s →
      Loaded calls (merged ++ [((s.merge sheet).scope, sheet)]) (s.merge sheet)

theorem balanced_merge (h : s.scope.Balanced) (hs : sheet.Balanced) :
    (s.merge sheet).scope.Balanced := by
  intro binding hin
  rcases binding_of_merge hin with hold | ⟨d, hd, rfl⟩
  · exact h binding hold
  · exact hs.declarations d hd

structure Loaded.Facts (calls : Evaluator) (merged : List (Scope × Sheet)) (s : Session) :
    Prop where
  evaluator : s.calls = calls
  scope : s.scope.Balanced
  scopes : ∀ entry ∈ merged, entry.1.Balanced
  sheets : ∀ entry ∈ merged, entry.2.Balanced
  history : ∃ ys, History ys s ∧ ∀ entry ∈ merged,
    ∀ y ∈ flattenAll calls entry.1 none none entry.2.sections, y ∈ ys

theorem Loaded.facts (h : Loaded calls merged s) : Facts calls merged s := by
  induction h with
  | start suffix =>
    exact ⟨rfl, by simp [Scope.Balanced], by simp, by simp, [], .start calls suffix, by simp⟩
  | enter name _ ih =>
    obtain ⟨ys, hys, hin⟩ := ih.history
    exact ⟨ih.evaluator, ih.scope, ih.scopes, ih.sheets, ys, hys.enter name, hin⟩
  | note e he _ ih =>
    obtain ⟨ys, hys, hin⟩ := ih.history
    exact ⟨ih.evaluator, ih.scope, ih.scopes, ih.sheets, ys, hys.note e he, hin⟩
  | @merge merged s name source sheet hp _ ih =>
    have hsheet := Sheet.balanced_of_parse hp
    have hscope := balanced_merge ih.scope hsheet
    obtain ⟨ys, hys, hin⟩ := ih.history
    refine ⟨?_, hscope, ?_, ?_, _, hys.merge sheet, ?_⟩
    · exact (s.merge_environment sheet).1.trans ih.evaluator
    · exact List.forall_mem_append.2 ⟨ih.scopes, List.forall_mem_singleton.2 hscope⟩
    · exact List.forall_mem_append.2 ⟨ih.sheets, List.forall_mem_singleton.2 hsheet⟩
    · refine List.forall_mem_append.2 ⟨?_, List.forall_mem_singleton.2 ?_⟩
      · exact fun entry he y hy => List.mem_append_left _ (hin entry he y hy)
      · intro y hy
        rw [ih.evaluator]
        exact List.mem_append_right _ hy

theorem Loaded.opening (h : Loaded calls merged s) (sheet : Sheet) :
    Loaded calls merged (s.opening sheet) :=
  (h.enter sheet.name).note _ rfl

/-- More sheets may have been merged than those of `merged`. -/
def LoadedSince (calls : Evaluator) (merged : List (Scope × Sheet)) (s : Session) : Prop :=
  ∃ more, Loaded calls (merged ++ more) s

theorem LoadedSince.importNameWith {next : Session → Sheet → Outcome} (lib : Library)
    (hnext : ∀ s sheet name source, Sheet.parse name source = .ok sheet →
      LoadedSince calls merged s → LoadedSince calls merged (next s sheet).1)
    (name : String) (h : LoadedSince calls merged s) :
    LoadedSince calls merged (Session.importNameWith lib next s name).1 := by
  obtain ⟨more, hmore⟩ := h
  unfold Session.importNameWith
  dsimp only
  split
  · exact ⟨more, hmore.note _ rfl⟩
  split
  · exact ⟨more, hmore.note _ rfl⟩
  split
  · exact ⟨more, hmore⟩
  · next hp => exact hnext s _ _ _ hp ⟨more, hmore⟩

theorem LoadedSince.each {next : Session → Sheet → Outcome} (lib : Library)
    (hnext : ∀ s sheet name source, Sheet.parse name source = .ok sheet →
      LoadedSince calls merged s → LoadedSince calls merged (next s sheet).1)
    (names : List String) (h : LoadedSince calls merged s) :
    LoadedSince calls merged (Session.each (Session.importNameWith lib next) s names).1 :=
  ImportClosed.each _ (fun _ name hs => hs.importNameWith lib hnext name) names h

theorem LoadedSince.importWithin (lib : Library) (fuel : Nat) {name source : String}
    (hp : Sheet.parse name source = .ok sheet) (h : LoadedSince calls merged s) :
    LoadedSince calls merged (Session.importWithin lib fuel s sheet).1 := by
  induction fuel generalizing s sheet name source with
  | zero => exact h
  | succ fuel ih =>
    obtain ⟨more, hmore⟩ := h
    by_cases hseen : sheet.name ∈ s.imported
    · rw [importWithin_of_mem _ hseen]
      exact ⟨more, hmore.note _ rfl⟩
    · have hopened : LoadedSince calls merged (s.opening sheet) := ⟨more, hmore.opening sheet⟩
      have heach := hopened.each lib (fun _ _ _ _ hp hs => ih hp hs) sheet.imports
      rw [importWithin_of_not_mem _ hseen]
      generalize Session.each (Session.importNameWith lib (Session.importWithin lib fuel))
        (s.opening sheet) sheet.imports = out at heach
      obtain ⟨next, result⟩ := out
      cases result with
      | error e => exact heach
      | ok _ =>
        obtain ⟨others, hothers⟩ := heach
        have hmerged := hothers.merge hp
        rw [List.append_assoc] at hmerged
        exact ⟨_, hmerged⟩

theorem Loaded.importSheet (h : Loaded calls merged s) (lib : Library) {name source : String}
    (hp : Sheet.parse name source = .ok sheet) (hnew : sheet.name ∉ s.imported)
    (hok : (s.importSheet lib sheet).2 = .ok ()) :
    ∃ more, Loaded calls (merged ++ more ++ [((s.importSheet lib sheet).1.scope, sheet)])
      (s.importSheet lib sheet).1 := by
  have hopened : LoadedSince calls merged (s.opening sheet) := by
    refine ⟨[], ?_⟩
    rw [List.append_nil]
    exact h.opening sheet
  have heach := hopened.each lib (fun _ _ _ _ hp hs => hs.importWithin lib lib.depth hp)
    sheet.imports
  rw [Session.importSheet, importWithin_of_not_mem _ hnew] at hok ⊢
  generalize Session.each (Session.importNameWith lib (Session.importWithin lib lib.depth))
    (s.opening sheet) sheet.imports = out at heach hok ⊢
  obtain ⟨next, result⟩ := out
  cases result with
  | error e => cases hok
  | ok _ =>
    obtain ⟨more, hmore⟩ := heach
    exact ⟨more, hmore.merge hp⟩

theorem Realizes.container {y : Yield} {path : String} {tree : RuleTree} (h : s.Realizes ys)
    (hy : y ∈ ys) (hplaced : y.placed = some (some path, tree)) :
    ∃ c node child, s.containers.lookup path = some c ∧ s.table.nodes[c]? = some node ∧
      node.rule = { selectors := [[path]] } ∧ child ∈ node.children ∧
      s.table.ruleTree child = tree := by
  have htree := mem_treesAt hy hplaced
  rw [← h.placed] at htree
  obtain ⟨child, hchild, hruleTree⟩ := List.mem_map.1 htree
  obtain ⟨c, node, hc, hn, hin⟩ := mem_rulesAt_some hchild
  have hrule := h.containers path c hc
  rw [RuleTable.rule?_of_node hn] at hrule
  exact ⟨c, node, child, hc, hn, Option.some.inj hrule, hin, hruleTree⟩

end Session

theorem Section.Gives.balanced {parents : Option (List Selector)} {outer : Section}
    {queries : List Expr} {tree : RuleTree} (h : outer.Gives parents queries tree)
    (hq : ∀ inner : Section, inner.Within outer → ∀ query ∈ inner.media, query.Balanced) :
    ∀ query ∈ queries, query.Balanced := by
  induction h with
  | rule => simp
  | @host _ wrapper _ _ hm =>
    refine List.forall_mem_singleton.2 (hq wrapper (.refl wrapper) _ ?_)
    rw [hm]
    rfl
  | @wrapper _ wrapper _ _ _ _ _ hm hin _ ih =>
    refine List.forall_mem_cons.2 ⟨hq wrapper (.refl wrapper) _ ?_, ?_⟩
    · rw [hm]
      rfl
    · exact ih fun inner hwithin => hq inner (.nested hin hwithin)
  | inside _ _ hin _ ih => exact ih fun inner hwithin => hq inner (.nested hin hwithin)

namespace Session

/-- A rule in nested media wrappers stands in the container whose path joins the texts of the
queries by `and`. The alternatives of the path are those of the queries, joined one query after the
other, so the path is satisfied when all queries are. It is satisfied only then if there is one
query, or if every query has one alternative. -/
theorem media_path_joins_queries {calls : Evaluator} {merged : List (Scope × Sheet)} {s : Session}
    (hcalls : calls.Balanced) (h : Loaded calls merged s) {scope : Scope} {sheet : Sheet}
    (hsheet : (scope, sheet) ∈ merged) {outer : Section} (houter : outer ∈ sheet.sections)
    {queries : List Expr} {tree : RuleTree} (hgives : outer.Gives none queries tree)
    (hne : queries ≠ []) :
    let texts := queries.map fun query => (query.eval calls scope).1.render
    let path := " and ".intercalate texts
    (∃ c node child, s.containers.lookup ("@media " ++ path) = some c ∧
      s.table.nodes[c]? = some node ∧ node.rule = { selectors := [["@media " ++ path]] } ∧
      child ∈ node.children ∧ s.table.ruleTree child = tree) ∧
    MediaQuery.alternatives path = joinAllAlternatives (texts.map MediaQuery.alternatives) ∧
    ∀ holds, ((∀ text ∈ texts, MediaQuery.Satisfied holds text) →
        MediaQuery.Satisfied holds path) ∧
      ((texts.length = 1 ∨ ∀ text ∈ texts, (MediaQuery.alternatives text).length = 1) →
        (MediaQuery.Satisfied holds path ↔ ∀ text ∈ texts, MediaQuery.Satisfied holds text)) := by
  intro texts path
  have hfacts := h.facts
  obtain ⟨ys, hys, hin⟩ := hfacts.history
  have htexts : texts ≠ [] := by simpa [texts] using hne
  have hbalanced : ∀ text ∈ texts, Text.Balanced text.toList := by
    intro text ht
    obtain ⟨query, hquery, rfl⟩ := List.mem_map.1 ht
    have hqueries := hgives.balanced ((hfacts.sheets _ hsheet).queries outer houter)
    exact ((hqueries query hquery).eval hcalls (hfacts.scopes _ hsheet)).text
  have halternatives := MediaQuery.alternatives_intercalate htexts hbalanced
  refine ⟨?_, halternatives, fun holds => ⟨fun hall => ?_, fun hsingle => ?_⟩⟩
  · obtain ⟨y, hy, hplaced⟩ := hgives.yield calls scope none
    rw [pathWithin_none calls scope hne] at hplaced
    exact hys.realizes.container (hin _ hsheet y (mem_flattenAll houter hy)) hplaced
  · rw [MediaQuery.Satisfied, halternatives]
    exact SomeHolds.joinAll (by simpa using htexts) (List.forall_mem_map.2 hall)
  · rcases hsingle with hone | hsingle
    · obtain ⟨text, htext⟩ := List.length_eq_one_iff.1 hone
      have hpath : path = text := by simp [path, htext]
      rw [hpath, htext, List.forall_mem_singleton]
    · have hlists : texts.map MediaQuery.alternatives ≠ [] := by simpa using htexts
      rw [MediaQuery.Satisfied, halternatives,
        (joinAll_of_single holds hlists (List.forall_mem_map.2 hsingle)).2, List.forall_mem_map]
      rfl

/-- Two wrappers with a rule between them, the outer one with a variable in its query. -/
theorem media_path_joins_queries_around_rule :
    let rule : Section := { selectors := [[".b"]], attributes := [⟨"x", .text "y"⟩] }
    let inner : Section := { media := some (.text "(color)"), nested := [rule] }
    let width : Expr :=
      .list .concat [.text "(", .list .space [.text "min-width:", .var "w"], .text ")"]
    let outer : Section :=
      { media := some (.list .space [.text "screen", .text "and", width])
        nested := [{ selectors := [[".a"]], nested := [inner] }] }
    let sheet : Sheet :=
      { name := "main.bss", declarations := [⟨"w", .text "1px", false⟩], sections := [outer] }
    let source := "$w: 1px; @media screen and (min-width: $w) \x7b " ++
      ".a \x7b @media (color) \x7b .b \x7b x: y \x7d \x7d \x7d \x7d"
    let u := (({} : Session).importSheet (.ofSources []) sheet).1
    let path := "screen and (min-width: 1px) and (color)"
    Sheet.parse "main.bss" source = .ok sheet ∧
      (∃ c node child, u.containers.lookup ("@media " ++ path) = some c ∧
        u.table.nodes[c]? = some node ∧ child ∈ node.children ∧
        u.table.ruleTree child = .ofRule [[".a", ".b"]] rule) ∧
      ∀ holds, MediaQuery.Satisfied holds path ↔
        MediaQuery.Satisfied holds "screen and (min-width: 1px)" ∧
          MediaQuery.Satisfied holds "(color)" := by
  intro rule inner width outer sheet source u path
  have hparse : Sheet.parse "main.bss" source = .ok sheet := by decide +kernel
  have hok : (({} : Session).importSheet (.ofSources []) sheet).2 = .ok () := by decide +kernel
  have hstart : Loaded Evaluator.written [] ({} : Session) := .start defaultSuffix
  obtain ⟨more, hloaded⟩ := hstart.importSheet (.ofSources []) hparse (by simp) hok
  have hgives : outer.Gives none [.list .space [.text "screen", .text "and", width],
      .text "(color)"] (.ofRule [[".a", ".b"]] rule) := by
    refine .wrapper rfl rfl List.mem_cons_self (.inside (by simp) (by decide) List.mem_cons_self ?_)
    exact .wrapper rfl rfl List.mem_cons_self (.rule (by simp [rule]))
  have hmem : (u.scope, sheet) ∈ [] ++ more ++ [(u.scope, sheet)] := by simp
  have houter : outer ∈ sheet.sections := List.mem_cons_self
  have htexts : ([.list .space [.text "screen", .text "and", width], .text "(color)"] : List
      Expr).map (fun query => (query.eval Evaluator.written u.scope).1.render) =
        ["screen and (min-width: 1px)", "(color)"] := by
    decide +kernel
  have hpath : " and ".intercalate ["screen and (min-width: 1px)", "(color)"] = path := by decide
  obtain ⟨⟨c, node, child, hc, hn, -, hchild, htree⟩, -, hmeaning⟩ :=
    media_path_joins_queries Evaluator.balanced_written hloaded hmem houter hgives (by simp)
  rw [htexts, hpath] at hc
  refine ⟨hparse, ⟨c, node, child, hc, hn, hchild, htree⟩, fun holds => ?_⟩
  have hiff := (hmeaning holds).2
  rw [htexts, hpath] at hiff
  rw [hiff (.inr (by decide +kernel))]
  simp

/-- A query with two alternatives around another query: the path is satisfied by the first
alternative alone. -/
theorem path_satisfied_without_inner_query :
    let source := "@media screen, print \x7b @media (color) \x7b a \x7b b: c \x7d \x7d \x7d"
    let u := (({} : Session).importSource (.ofSources []) "main.bss" source).1
    let path := "screen, print and (color)"
    let holds := fun condition => condition = [MediaQuery.Part.word "screen".toList]
    u.containers.map (·.1) = ["@media " ++ path] ∧ MediaQuery.Satisfied holds path ∧
      MediaQuery.Satisfied holds "screen, print" ∧ ¬ MediaQuery.Satisfied holds "(color)" := by
  decide +kernel

end Session

end NestedStyles
