import NestedStyles.Proofs.CompletedImports
import NestedStyles.Proofs.Pruning

/-!
What a history of imports declares. The sheets that requests merge are read off the walks that the
requests make, without the tables of the session. Their declarations and templates, in the order the
sheets are merged, say which value every name has, which defaults are reported as redundant and
which template every call finds, and compiling uses these for the rules of all sheets.
-/

namespace NestedStyles

namespace Declaration

variable {ds : List Declaration} {d : Declaration} {name : String}

/-- The value of a name after declarations: the one of its last declaration that is no default, or
else the one of its first. -/
def valueOf (ds : List Declaration) (name : String) : Option Expr :=
  let own := ds.filter (·.name = name)
  ((own.filter fun d => !d.isDefault).getLast?.or own.head?).map (·.value)

/-- The defaults that come after a declaration of the same name. -/
def redundant (ds : List Declaration) : List Declaration :=
  (ds.zipIdx.filter fun entry =>
    entry.1.isDefault && (ds.take entry.2).any (·.name = entry.1.name)).map (·.1)

theorem valueOf_eq_none_iff : valueOf ds name = none ↔ name ∉ ds.map (·.name) := by
  simp only [valueOf, Option.map_eq_none_iff, Option.or_eq_none_iff, List.getLast?_eq_none_iff,
    List.head?_eq_none_iff, List.filter_eq_nil_iff, List.mem_map, not_exists, not_and]
  constructor
  · rintro ⟨-, h⟩ d hd hname
    exact h d hd (by simpa using hname)
  · intro h
    have hown : ∀ d ∈ ds, ¬ (decide (d.name = name)) = true := fun d hd => by simpa using h d hd
    exact ⟨fun d hd => absurd (List.mem_filter.1 hd).2 (hown d (List.mem_filter.1 hd).1), hown⟩

theorem valueOf_concat :
    valueOf (ds ++ [d]) name =
      if d.name = name ∧ ¬ (d.isDefault = true ∧ name ∈ ds.map (·.name)) then some d.value
      else valueOf ds name := by
  by_cases hname : d.name = name
  · cases hd : d.isDefault with
    | false => simp [valueOf, hname, hd]
    | true =>
      by_cases hin : name ∈ ds.map (·.name)
      · have hne : ds.filter (·.name = name) ≠ [] := by
          obtain ⟨e, he, hen⟩ := List.mem_map.1 hin
          exact List.ne_nil_of_mem (List.mem_filter.2 ⟨he, by simpa using hen⟩)
        simp [valueOf, hname, hd, hin, List.head?_append_of_ne_nil _ hne]
      · have hnil : ds.filter (·.name = name) = [] := by
          refine List.filter_eq_nil_iff.2 fun e he hen => hin ?_
          exact List.mem_map.2 ⟨e, he, by simpa using hen⟩
        simp [valueOf, hname, hd, hin, hnil]
  · simp [valueOf, hname]

theorem redundant_concat :
    redundant (ds ++ [d]) =
      redundant ds ++ if d.isDefault = true ∧ d.name ∈ ds.map (·.name) then [d] else [] := by
  have hbefore : ds.zipIdx.filter (fun entry =>
      entry.1.isDefault && ((ds ++ [d]).take entry.2).any (·.name = entry.1.name)) =
      ds.zipIdx.filter fun entry =>
        entry.1.isDefault && (ds.take entry.2).any (·.name = entry.1.name) := by
    refine List.filter_congr fun entry hentry => ?_
    have hlt := (List.mem_zipIdx' hentry).1
    rw [List.take_append_of_le_length (Nat.le_of_lt hlt)]
  simp only [redundant, List.zipIdx_append, List.filter_append, List.map_append, hbefore]
  congr 1
  simp only [List.zipIdx_singleton, Nat.zero_add, List.filter_cons, List.filter_nil,
    List.take_left, Bool.and_eq_true, List.any_eq_true, decide_eq_true_eq, List.mem_map]
  split <;> rfl

end Declaration

def Template.lastOf (ts : List Template) (name : String) : Option Template :=
  (ts.filter (·.name = name)).getLast?

theorem Template.lastOf_concat (ts : List Template) (t : Template) (name : String) :
    lastOf (ts ++ [t]) name = if t.name = name then some t else lastOf ts name := by
  by_cases h : t.name = name <;> simp [lastOf, h]

namespace Scope

variable {s : Scope}

theorem get?_of_outermost (h : s.outer = []) (name : String) :
    s.get? name = s.bindings.lookup name := by
  simp [get?, lookup, find, h, Function.comp_def]

theorem get?_set (h : s.outer = []) (name : String) (value : Expr) (other : String) :
    (s.set name value).get? other = if name = other then some value else s.get? other := by
  rw [get?_of_outermost h, get?_of_outermost (show (s.set name value).outer = [] from h), set,
    List.lookup_cons]
  by_cases hname : name = other
  · simp [hname]
  · have hne : (other == name) = false := by simpa using Ne.symm hname
    simp [hname, hne]

theorem has_iff (s : Scope) (name : String) : s.has name = true ↔ s.get? name ≠ none := by
  simp [has, get?, Option.isSome_iff_ne_none]

end Scope

def Warning.redundant? : Warning → Option Declaration
  | .redundantVariable d => some d
  | _ => none

theorem Warning.redundant_apart : Warning.Apart Warning.redundant? :=
  ⟨⟨fun _ => rfl, fun _ => rfl⟩, fun _ _ _ _ => rfl, fun _ _ => rfl⟩

theorem Warning.messages_redundant (warnings : List Warning) :
    (warnings.filter (·.redundant?.isSome)).map Warning.message =
      (warnings.filterMap Warning.redundant?).map fun d =>
        "will skip redundant variable definition: '" ++ d.text ++ "'" := by
  induction warnings with
  | nil => rfl
  | cons w rest ih =>
    cases hw : w.redundant? with
    | none => simpa [hw] using ih
    | some d =>
      have hmessage :
          w.message = "will skip redundant variable definition: '" ++ d.text ++ "'" := by
        cases w <;> cases hw
        rfl
      simpa [hw, hmessage] using ih

namespace Session

variable {s u : Session} {ds : List Declaration} {ts : List Template}

/-- The tables of a session hold what declarations and templates give, in this order, and what is
reported of declarations are the redundant ones. -/
structure Declares (s : Session) (ds : List Declaration) (ts : List Template) : Prop where
  outermost : s.scope.outer = []
  values : ∀ name, s.scope.get? name = Declaration.valueOf ds name
  redundant : reported Warning.redundant? s.log = Declaration.redundant ds
  templates : ∀ name, s.templates.lookup name = Template.lastOf ts name

theorem Declares.has_iff (h : s.Declares ds ts) (name : String) :
    s.scope.has name = true ↔ name ∈ ds.map (·.name) := by
  rw [Scope.has_iff, h.values, Ne, Declaration.valueOf_eq_none_iff, not_not]

theorem Declares.start (calls : Evaluator) (suffix : String) :
    Declares { calls := calls, suffix := suffix } [] [] :=
  ⟨rfl, fun _ => rfl, rfl, fun _ => rfl⟩

theorem Declares.addTemplate (h : s.Declares ds ts) (t : Template) :
    (s.addTemplate t).Declares ds (ts ++ [t]) := by
  refine ⟨h.outermost, h.values, h.redundant, fun name => ?_⟩
  rw [Template.lastOf_concat, ← h.templates]
  by_cases hname : t.name = name
  · simp [Session.addTemplate, hname]
  · have hne : (name == t.name) = false := by simpa using Ne.symm hname
    simp [Session.addTemplate, hname, List.lookup_cons, hne]

theorem Declares.declare (h : s.Declares ds ts) (d : Declaration) :
    (s.declare d).Declares (ds ++ [d]) ts := by
  unfold Session.declare
  by_cases hskip : d.isDefault = true ∧ d.name ∈ ds.map (·.name)
  · rw [if_pos (by simpa [h.has_iff] using hskip)]
    refine ⟨h.outermost, fun name => ?_, ?_, h.templates⟩
    · rw [Declaration.valueOf_concat, if_neg]
      · exact h.values name
      · rintro ⟨rfl, hnot⟩
        exact hnot hskip
    · rw [Declaration.redundant_concat, if_pos hskip, ← h.redundant]
      exact reported_append _ _
  · rw [if_neg (by simpa [h.has_iff] using hskip)]
    refine ⟨h.outermost, fun name => ?_, ?_, h.templates⟩
    · rw [Scope.get?_set h.outermost, Declaration.valueOf_concat, h.values]
      by_cases hname : d.name = name
      · subst hname
        rw [if_pos rfl, if_pos ⟨rfl, hskip⟩]
      · rw [if_neg hname, if_neg fun hand => hname hand.1]
    · rw [Declaration.redundant_concat, if_neg hskip, List.append_nil]
      exact h.redundant

theorem Declares.addTemplates (h : s.Declares ds ts) (more : List Template) :
    (more.foldl Session.addTemplate s).Declares ds (ts ++ more) := by
  induction more generalizing s ts with
  | nil => simpa using h
  | cons t more ih => simpa using ih (h.addTemplate t)

theorem Declares.declareAll (h : s.Declares ds ts) (more : List Declaration) :
    (more.foldl Session.declare s).Declares (ds ++ more) ts := by
  induction more generalizing s ds with
  | nil => simpa using h
  | cons d more ih => simpa using ih (h.declare d)

theorem Declares.expandAll (h : s.Declares ds ts) (sections : List Section) :
    (s.expandAll none none sections).Declares ds ts := by
  obtain ⟨-, -, hscope, htemplates, -, -⟩ :=
    s.emitAll_frame (flattenAll s.calls s.scope none none sections)
  rw [← expandAll_eq_emitAll] at hscope htemplates
  constructor
  · rw [hscope]
    exact h.outermost
  · rw [hscope]
    exact h.values
  · rw [Warning.redundant_apart.expandAll]
    exact h.redundant
  · rw [htemplates]
    exact h.templates

theorem Declares.merge (h : s.Declares ds ts) (sheet : Sheet) :
    (s.merge sheet).Declares (ds ++ sheet.declarations) (ts ++ sheet.templates) :=
  ((h.addTemplates sheet.templates).declareAll sheet.declarations).expandAll sheet.sections

theorem Declares.mergeAll (h : s.Declares ds ts) (sheets : List Sheet) :
    (sheets.foldl Session.merge s).Declares (ds ++ sheets.flatMap (·.declarations))
      (ts ++ sheets.flatMap (·.templates)) := by
  induction sheets generalizing s ds ts with
  | nil => simpa using h
  | cons sheet rest ih => simpa using ih (h.merge sheet)

theorem Declares.of_content (h : u.Declares ds ts) (hc : s.content = u.content) :
    s.Declares ds ts := by
  have hscope : s.scope = u.scope := by
    change s.content.scope = u.content.scope
    rw [hc]
  have htemplates : s.templates = u.templates := by
    change s.content.templates = u.content.templates
    rw [hc]
  constructor
  · rw [hscope]
    exact h.outermost
  · rw [hscope]
    exact h.values
  · rw [← reported_content, hc, reported_content]
    exact h.redundant
  · rw [htemplates]
    exact h.templates

theorem redundant_extend (s : Session) (id : Nat) (name : String) :
    reported Warning.redundant? (s.extend id name).log = reported Warning.redundant? s.log := by
  cases hl : s.targets.lookup name with
  | none =>
    rw [extend_of_none id hl, warn, note, reported_append, reported_warning rfl, List.append_nil]
  | some found => rw [extend_of_some id hl]

theorem redundant_compileRules (s : Session) :
    reported Warning.redundant? s.compileRules.log = reported Warning.redundant? s.log := by
  refine foldl_keeps (f := compileRule) (g := fun u => reported Warning.redundant? u.log) ?_ _ s
  intro u id
  rw [reported_compileRule Warning.redundant_apart]
  exact foldl_keeps (f := extend id) (g := fun u => reported Warning.redundant? u.log)
    (fun v name => redundant_extend v id name) _ u

end Session

/-! Where the rules of a session are written -/

/-- The attributes of the rule are written in the section or in one nested in it, and so are its
calls, if it has any. -/
def Rule.WrittenIn (rule : Rule) (outer : Section) : Prop :=
  ∃ inner : Section, inner.Within outer ∧ rule.attributes = inner.attributes ∧
    (rule.references = inner.references ∨ rule.references = [])

def Rule.FoundIn (rule : Rule) (sheets : List Sheet) : Prop :=
  ∃ sheet ∈ sheets, ∃ outer ∈ sheet.sections, rule.WrittenIn outer

section Origins

variable {calls : Evaluator} {scope : Scope} {rule : Rule} {y : Yield}

theorem written_of_mem_hosted {path query : String} {parents : List Selector} {wrapper : Section}
    (hy : y ∈ hosted path query parents wrapper) (hm : y.Makes rule) :
    rule.attributes = wrapper.attributes ∧ rule.references = [] := by
  unfold hosted at hy
  split at hy
  · cases hy
  · rw [List.mem_singleton.1 hy] at hm
    exact hm.elim
  · rw [List.mem_singleton.1 hy] at hm
    exact ⟨hm.1, hm.2.2⟩

mutual
theorem writtenIn_of_mem_flatten {path : Option String} {parents : Option (List Selector)} :
    ∀ outer : Section, y ∈ flatten calls scope path parents outer → y.Makes rule →
      rule.WrittenIn outer
  | ⟨selectors, attributes, nested, extensions, references, media⟩, hy, hm => by
    rw [flatten] at hy
    split at hy
    · rcases List.mem_cons.1 hy with rfl | hy
      · exact hm.elim
      rcases List.mem_append.1 hy with hy | hy
      · obtain ⟨ha, hr⟩ := written_of_mem_hosted hy hm
        exact ⟨_, .refl _, ha, .inr hr⟩
      · obtain ⟨child, hc, inner, hin, h⟩ := writtenIn_of_mem_flattenAll nested hy hm
        exact ⟨inner, .nested hc hin, h⟩
    · rcases List.mem_cons.1 hy with rfl | hy
      · obtain ⟨inner, hin, ha, -, hr⟩ := hm
        exact ⟨inner, hin, ha, .inl hr⟩
      · split at hy
        · cases hy
        · obtain ⟨child, hc, inner, hin, h⟩ := writtenIn_of_mem_flattenAll nested hy hm
          exact ⟨inner, .nested hc hin, h⟩
theorem writtenIn_of_mem_flattenAll {path : Option String} {parents : Option (List Selector)} :
    ∀ sections : List Section, y ∈ flattenAll calls scope path parents sections → y.Makes rule →
      ∃ outer ∈ sections, rule.WrittenIn outer
  | [], hy, _ => by
    rw [flattenAll] at hy
    cases hy
  | outer :: rest, hy, hm => by
    rw [flattenAll] at hy
    rcases List.mem_append.1 hy with hy | hy
    · exact ⟨outer, List.mem_cons_self, writtenIn_of_mem_flatten outer hy hm⟩
    · obtain ⟨found, hfound, h⟩ := writtenIn_of_mem_flattenAll rest hy hm
      exact ⟨found, List.mem_cons_of_mem _ hfound, h⟩
end

theorem Session.History.mergeAll {ys : List Yield} {s : Session} (h : History ys s)
    (earlier : List Sheet) (hys : ∀ y ∈ ys, ∀ rule, y.Makes rule → rule.FoundIn earlier)
    (sheets : List Sheet) :
    ∃ zs, History zs (sheets.foldl Session.merge s) ∧
      ∀ y ∈ zs, ∀ rule, y.Makes rule → rule.FoundIn (earlier ++ sheets) := by
  induction sheets generalizing ys s earlier with
  | nil => exact ⟨ys, h, by simpa using hys⟩
  | cons sheet rest ih =>
    obtain ⟨zs, hzs, hwritten⟩ := ih (h.merge sheet) (earlier ++ [sheet]) (by
      intro y hy rule hm
      rcases List.mem_append.1 hy with hy | hy
      · obtain ⟨found, hfound, hin⟩ := hys y hy rule hm
        exact ⟨found, List.mem_append_left _ hfound, hin⟩
      · exact ⟨sheet, by simp, writtenIn_of_mem_flattenAll sheet.sections hy hm⟩)
    exact ⟨zs, hzs, by simpa using hwritten⟩

end Origins

/-! Histories of requests -/

namespace Workspace

variable {w : Workspace} {request : Request} {requests : List Request} {v : Walk}
  {merged others : List Sheet}

/-- The sheets that come to their end in the walks of requests, in that order. -/
inductive Merges : Workspace → List Request → List Sheet → Prop
  | nil {w : Workspace} : Merges w [] []
  | cons {w : Workspace} {request : Request} {rest : List Request} {v : Walk}
      {more : List Sheet} : w.Walks request v → Merges (w.step request).1 rest more →
      Merges w (request :: rest) (v.done ++ more)

theorem Merges.unique (h : w.Merges requests merged) (k : w.Merges requests others) :
    merged = others := by
  induction h generalizing others with
  | nil =>
    cases k
    rfl
  | cons hf _ ih =>
    cases k with
    | cons kf k => rw [hf.unique kf, ih k]

theorem merges_run (w : Workspace) (requests : List Request) :
    ∃ merged, w.Merges requests merged := by
  induction requests generalizing w with
  | nil => exact ⟨[], .nil⟩
  | cons request rest ih =>
    obtain ⟨v, hv, -⟩ := w.walks_step request
    obtain ⟨more, hmore⟩ := ih (w.step request).1
    exact ⟨_, .cons hv hmore⟩

/-- The tables after requests are those of merging the sheets. -/
theorem Merges.tables (h : w.Merges requests merged) :
    (w.run requests).session.content = (merged.foldl Session.merge w.session).content := by
  induction h with
  | nil => rfl
  | @cons w request rest v more hf _ ih =>
    obtain ⟨v', hv', hagrees⟩ := w.walks_step request
    obtain rfl := hf.unique hv'
    rw [List.foldl_append]
    exact ih.trans (Session.content_foldl_merge hagrees.tables more)

theorem Merges.split {earlier later : List Request} (h : w.Merges (earlier ++ later) merged) :
    ∃ before, before <+: merged ∧ w.Merges earlier before := by
  induction earlier generalizing w merged with
  | nil => exact ⟨[], List.nil_prefix, .nil⟩
  | cons request rest ih =>
    cases h with
    | @cons _ _ _ v more hf h =>
      obtain ⟨before, hbefore, hmerges⟩ := ih h
      exact ⟨v.done ++ before, (List.prefix_append_right_inj _).2 hbefore, .cons hf hmerges⟩

/-- What the sheets that requests merge say about the session. -/
structure Stands (calls : Evaluator) (merged : List Sheet) (s : Session) : Prop where
  realizes : ∃ ys, s.Realizes ys
  evaluator : s.calls = calls
  declares : s.Declares (merged.flatMap (·.declarations)) (merged.flatMap (·.templates))
  found : ∀ id rule, s.table.rule? id = some rule →
    (∃ path, rule = { selectors := [[path]] }) ∨ rule.FoundIn merged

theorem Merges.stands {calls : Evaluator} {suffix : String} {sources : Sources}
    (h : Merges ⟨sources, { calls := calls, suffix := suffix }⟩ requests merged) :
    Stands calls merged (run ⟨sources, { calls := calls, suffix := suffix }⟩ requests).session := by
  have htables := h.tables
  generalize (run ⟨sources, { calls := calls, suffix := suffix }⟩ requests).session = s at htables
  obtain ⟨ys, hys, hfound⟩ :=
    (Session.History.start calls suffix).mergeAll [] (by simp) merged
  constructor
  · exact ⟨ys, hys.realizes.of_content htables⟩
  · change s.content.calls = calls
    rw [htables]
    exact Session.foldl_keeps (f := Session.merge) (g := Session.calls)
      (fun u sheet => (u.merge_environment sheet).1) merged _
  · simpa using ((Session.Declares.start calls suffix).mergeAll merged).of_content htables
  · intro id rule hr
    have htable :
        s.table = (merged.foldl Session.merge { calls := calls, suffix := suffix }).table := by
      change s.content.table = _
      rw [htables]
      rfl
    rw [htable] at hr
    refine (hys.realizes.makes hr).imp_right ?_
    rintro ⟨y, hy, hm⟩
    simpa using hfound y hy rule hm

/-- The sheets that a history of requests merges are determined by the requests and the sources.
After every part of the history the names that these sheets declare are bound, each to its last
value that is no default or else to its first, the redundant defaults are reported in order, and
every template name has its last template. Whatever sheet a rule is written in, compiling settles
its attributes and its calls with these tables. -/
theorem declarations_settle_rules (calls : Evaluator) (suffix : String) (sources : Sources)
    (requests : List Request) :
    let start : Workspace := ⟨sources, { calls := calls, suffix := suffix }⟩
    ∃ merged, start.Merges requests merged ∧
      (∀ others, start.Merges requests others → others = merged) ∧
      ∀ earlier, earlier <+: requests → ∃ before, before <+: merged ∧
        start.Merges earlier before ∧
        let s := (start.run earlier).session
        let ds := before.flatMap (·.declarations)
        (s.scope.outer = [] ∧ (∀ name, s.scope.has name = true ↔ name ∈ ds.map (·.name)) ∧
          ∀ name, s.scope.get? name = Declaration.valueOf ds name) ∧
        (s.compile.warnings.filter (·.redundant?.isSome)).map Warning.message =
          (Declaration.redundant ds).map (fun d =>
            "will skip redundant variable definition: '" ++ d.text ++ "'") ∧
        (∀ name, s.templates.lookup name =
          Template.lastOf (before.flatMap (·.templates)) name) ∧
        s.calls = calls ∧
        (∀ id rule, s.table.rule? id = some rule →
          ((∃ path, rule = { selectors := [[path]] }) ∨ rule.FoundIn before) ∧
          (s.compileRules.table.rule? id).map (·.attributes) =
            some (rule.settled s.calls s.scope s.templates)) ∧
        ∀ content ∈ FlatRule.contentsAll s.compile.rules, s.Settles content.2 := by
  intro start
  obtain ⟨merged, hmerged⟩ := start.merges_run requests
  refine ⟨merged, hmerged, fun others h => h.unique hmerged, ?_⟩
  rintro earlier ⟨later, rfl⟩
  obtain ⟨before, hbefore, hmerges⟩ := hmerged.split
  have hs := hmerges.stands
  have hdeclares := hs.declares
  obtain ⟨ys, hys⟩ := hs.realizes
  refine ⟨before, hbefore, hmerges, ⟨hdeclares.outermost, hdeclares.has_iff, hdeclares.values⟩, ?_,
    hdeclares.templates, hs.evaluator, ?_, fun content => Session.settles_of_mem_compile hys⟩
  · rw [Warning.messages_redundant, reported_compile, Session.redundant_compileRules,
      hdeclares.redundant]
  · exact fun id rule hr => ⟨hs.found id rule hr, Session.attributes_compileRules hys.forest hr⟩

end Workspace

end NestedStyles
