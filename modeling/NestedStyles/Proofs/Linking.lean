import NestedStyles.Proofs.History
import NestedStyles.Proofs.ImportOrder

/-!
Importing a sheet is merging, one after the other, the sheets that following its imports brings to
their end. The record of imported names also holds the sheets that were still open when the walk
ended early. The bound on the depth of imports is never met.
-/

namespace NestedStyles

namespace Session

variable {s u : Session} {sheet : Sheet} {lib : Library} {w : Walk}

/-- The tables and warnings of a session, without the names it imported and the other events. -/
def content (s : Session) : Session :=
  { s with imported := [], log := s.log.filter fun e => e.warning?.isSome }

theorem content_note_quiet {e : Event} (he : e.warning? = none) :
    (s.note [e]).content = s.content := by
  simp [content, note, he]

theorem content_place (path : Option String) (rule : Rule) :
    (s.place path rule).content = s.content.place path rule := by
  cases path with
  | none => rfl
  | some p =>
    simp only [place, content]
    cases s.containers.lookup p <;> rfl

theorem content_emit (y : Yield) : (s.emit y).content = (s.content.emit y).content := by
  cases y with
  | rule path selectors origin =>
    have hplace := s.content_place path
      ⟨selectors, origin.attributes, origin.extensions, origin.references⟩
    simp only [emit, register_eq, ← hplace]
    split
    · simp [content]
    · simp [content]
  | host path selectors wrapper =>
    simp only [emit, ← content_place]
    simp [content]
  | events met => simp [emit, content, note]

theorem content_addTemplate (t : Template) :
    (s.addTemplate t).content = (s.content.addTemplate t).content := by
  simp [addTemplate, content]

theorem content_declare (d : Declaration) :
    (s.declare d).content = (s.content.declare d).content := by
  have hscope : s.content.scope = s.scope := rfl
  simp only [declare, hscope]
  split
  · simp [content, warn, note]
  · simp [content]

theorem content_foldl {α : Type} {f : Session → α → Session}
    (hf : ∀ s x, (f s x).content = (f s.content x).content) (xs : List α)
    (h : s.content = u.content) : (xs.foldl f s).content = (xs.foldl f u).content := by
  induction xs generalizing s u with
  | nil => exact h
  | cons x xs ih =>
    apply ih
    rw [hf s, hf u, h]

theorem content_expandAll (sections : List Section) (h : s.content = u.content) :
    (s.expandAll none none sections).content = (u.expandAll none none sections).content := by
  have hcalls : s.calls = u.calls := by
    change s.content.calls = u.content.calls
    rw [h]
  have hscope : s.scope = u.scope := by
    change s.content.scope = u.content.scope
    rw [h]
  rw [expandAll_eq_emitAll, expandAll_eq_emitAll, hcalls, hscope]
  unfold emitAll
  exact content_foldl (f := emit) (fun _ y => content_emit y) _ h

theorem content_merge (sheet : Sheet) (h : s.content = u.content) :
    (s.merge sheet).content = (u.merge sheet).content := by
  have htemplates :=
    content_foldl (f := addTemplate) (fun _ t => content_addTemplate t) sheet.templates h
  have hdeclarations :=
    content_foldl (f := declare) (fun _ d => content_declare d) sheet.declarations htemplates
  exact content_expandAll sheet.sections hdeclarations

theorem content_foldl_merge (h : s.content = u.content) (sheets : List Sheet) :
    (sheets.foldl merge s).content = (sheets.foldl merge u).content := by
  induction sheets generalizing s u with
  | nil => exact h
  | cons sheet rest ih => exact ih (content_merge sheet h)

theorem Realizes.of_content {ys : List Yield} (h : u.Realizes ys) (hc : s.content = u.content) :
    s.Realizes ys := by
  have hcontent : u.content.Realizes ys :=
    ⟨h.forest, h.paths, h.containers, h.placed, h.resolved⟩
  rw [← hc] at hcontent
  exact ⟨hcontent.forest, hcontent.paths, hcontent.containers, hcontent.placed,
    hcontent.resolved⟩

theorem foldl_keeps {α β : Type} {f : Session → α → Session} {g : Session → β}
    (hf : ∀ s x, g (f s x) = g s) (xs : List α) (s : Session) : g (xs.foldl f s) = g s := by
  induction xs generalizing s with
  | nil => rfl
  | cons x xs ih => rw [List.foldl_cons, ih, hf]

theorem declared_frame (s : Session) (sheet : Sheet) :
    let u := sheet.declarations.foldl declare (sheet.templates.foldl addTemplate s)
    u.calls = s.calls ∧ u.suffix = s.suffix ∧ u.imported = s.imported ∧ u.table = s.table ∧
      u.targets = s.targets := by
  intro u
  let kept (v : Session) := (v.calls, v.suffix, v.imported, v.table, v.targets)
  have hdeclare : ∀ v d, kept (declare v d) = kept v := by
    intro v d
    unfold declare
    split <;> rfl
  have hkept : kept u = kept s := by
    rw [foldl_keeps (f := declare) (g := kept) hdeclare,
      foldl_keeps (f := addTemplate) (g := kept) fun _ _ => rfl]
  simpa [kept] using hkept

theorem merge_frame (s : Session) (sheet : Sheet) :
    (s.merge sheet).imported = s.imported ∧ (s.merge sheet).suffix = s.suffix := by
  obtain ⟨-, hsuffix, himported, -⟩ := s.declared_frame sheet
  rw [merge, expandAll_eq_emitAll]
  exact ⟨(emitAll_frame _).2.2.2.2.1.trans himported, (emitAll_frame _).2.1.trans hsuffix⟩

theorem merge_environment (s : Session) (sheet : Sheet) :
    (s.merge sheet).calls = s.calls ∧
      (s.merge sheet).scope =
        (sheet.declarations.foldl declare (sheet.templates.foldl addTemplate s)).scope := by
  rw [merge, expandAll_eq_emitAll]
  exact ⟨(emitAll_frame _).1.trans (s.declared_frame sheet).1, (emitAll_frame _).2.2.1⟩

theorem binding_of_merge {binding : String × Expr}
    (h : binding ∈ (s.merge sheet).scope.bindings ++ (s.merge sheet).scope.outer.flatten) :
    binding ∈ s.scope.bindings ++ s.scope.outer.flatten ∨
      ∃ d ∈ sheet.declarations, binding = (d.name, d.value) := by
  rw [(s.merge_environment sheet).2] at h
  revert h binding
  refine List.foldlRecOn (motive := fun u : Session => ∀ {binding : String × Expr},
    binding ∈ u.scope.bindings ++ u.scope.outer.flatten →
      binding ∈ s.scope.bindings ++ s.scope.outer.flatten ∨
        ∃ d ∈ sheet.declarations, binding = (d.name, d.value)) _ _ ?_ ?_
  · rw [foldl_keeps (f := addTemplate) (g := scope) fun _ _ => rfl]
    exact fun h => .inl h
  · intro u hu d hd binding h
    unfold declare at h
    split at h
    · exact hu h
    · rcases List.mem_cons.1 h with rfl | h
      · exact .inr ⟨d, hd, rfl⟩
      · exact hu h

theorem templates_merge (s : Session) (sheet : Sheet) :
    (s.merge sheet).templates = (sheet.templates.map fun t => (t.name, t)).reverse ++
      s.templates := by
  have hdeclare : ∀ (u : Session) (d : Declaration), (u.declare d).templates = u.templates := by
    intro u d
    unfold declare
    split <;> rfl
  have hadded : ∀ ts : List Template, (ts.foldl addTemplate s).templates =
      (ts.map fun t => (t.name, t)).reverse ++ s.templates := by
    intro ts
    induction ts generalizing s with
    | nil => rfl
    | cons t ts ih => simp [ih, addTemplate]
  rw [merge, expandAll_eq_emitAll, (emitAll_frame _).2.2.2.1,
    foldl_keeps (f := declare) (g := templates) hdeclare, hadded]

theorem template_of_merge {name : String} {t : Template}
    (h : (s.merge sheet).templates.lookup name = some t) :
    t ∈ sheet.templates ∨ s.templates.lookup name = some t := by
  rw [templates_merge, List.lookup_append, Option.or_eq_some_iff] at h
  refine h.imp (fun hl => ?_) And.right
  obtain ⟨before, after, heq, -⟩ := List.lookup_eq_some_iff.1 hl
  have hin : (name, t) ∈ (sheet.templates.map fun t => (t.name, t)).reverse := by simp [heq]
  obtain ⟨found, hfound, hpair⟩ := List.mem_map.1 (List.mem_reverse.1 hin)
  cases hpair
  exact hfound

/-- The sections of a sheet yield their rules in the scope that its declarations leave. -/
theorem History.merge {ys : List Yield} (h : History ys s) (sheet : Sheet) :
    History (ys ++ flattenAll s.calls (s.merge sheet).scope none none sheet.sections)
      (s.merge sheet) := by
  have hexpanded := (h.declared sheet).expandAll none none sheet.sections
  have hcalls := (s.merge_environment sheet).1
  rw [Session.merge, expandAll_eq_emitAll, (emitAll_frame _).1] at hcalls
  rw [hcalls, ← (s.merge_environment sheet).2] at hexpanded
  exact hexpanded

/-- A session in which the imports of a sheet are about to be followed. -/
def opening (s : Session) (sheet : Sheet) : Session :=
  ({ s with imported := sheet.name :: s.imported } : Session).note [.importing sheet.name]

theorem content_opening (s : Session) (sheet : Sheet) : (s.opening sheet).content = s.content :=
  content_note_quiet rfl

theorem importWithin_of_mem (fuel : Nat) (h : sheet.name ∈ s.imported) :
    importWithin lib (fuel + 1) s sheet = (s.note [.alreadyImported sheet.name], .ok ()) := by
  simp [importWithin, h]

theorem importWithin_of_not_mem (fuel : Nat) (h : sheet.name ∉ s.imported) :
    importWithin lib (fuel + 1) s sheet =
      match each (importNameWith lib (importWithin lib fuel)) (s.opening sheet) sheet.imports with
      | (s, .error e) => (s, .error e)
      | (s, .ok ()) => (s.merge sheet, .ok ()) := by
  simp only [importWithin, h, if_false]
  rfl

theorem importNameWith_of_mem {next : Session → Sheet → Outcome} {name : String}
    (h : Text.withEnding name s.suffix ∈ s.imported) :
    importNameWith lib next s name =
      (s.note [.alreadyImported (Text.withEnding name s.suffix)], .ok ()) := by
  simp [importNameWith, h]

theorem importNameWith_of_find {next : Session → Sheet → Outcome} {name : String}
    (h : Text.withEnding name s.suffix ∉ s.imported)
    (hf : lib.find (Text.withEnding name s.suffix) = .ok sheet) :
    importNameWith lib next s name = next s sheet := by
  cases hl : lib.load (Text.withEnding name s.suffix) with
  | error cause => simp [Library.find, hl] at hf
  | ok source =>
    cases hp : Sheet.parse (Text.withEnding name s.suffix) source with
    | error fault => simp [Library.find, hl, hp] at hf
    | ok found =>
      obtain rfl : found = sheet := by simpa [Library.find, hl, hp] using hf
      simp [importNameWith, h, hl, hp]

theorem importNameWith_of_error {name : String} {e : Error}
    (h : Text.withEnding name s.suffix ∉ s.imported)
    (hf : lib.find (Text.withEnding name s.suffix) = .error e) :
    ∃ u, (∀ next, importNameWith lib next s name = (u, .error e)) ∧ u.content = s.content ∧
      u.imported = s.imported := by
  cases hl : lib.load (Text.withEnding name s.suffix) with
  | error cause =>
    obtain rfl : cause = e := by simpa [Library.find, hl] using hf
    refine ⟨s.note [.unreadable (Text.withEnding name s.suffix)], fun next => ?_,
      content_note_quiet rfl, rfl⟩
    simp [importNameWith, h, hl]
  | ok source =>
    cases hp : Sheet.parse (Text.withEnding name s.suffix) source with
    | error fault =>
      obtain rfl : .parse (Text.withEnding name s.suffix) fault = e := by
        simpa [Library.find, hl, hp] using hf
      refine ⟨s, fun next => ?_, rfl, rfl⟩
      simp [importNameWith, h, hl, hp]
    | ok sheet => simp [Library.find, hl, hp] at hf

theorem suffix_of_content {sheets : List Sheet}
    (h : u.content = (sheets.foldl merge s).content) : u.suffix = s.suffix := by
  change u.content.suffix = s.suffix
  rw [h]
  exact foldl_keeps (f := merge) (g := suffix) (fun s sheet => (s.merge_frame sheet).2) sheets s

/-- The sheets of `sources` whose names were not imported yet. -/
def unseen (s : Session) (sources : Sources) : Nat :=
  (sources.filter fun entry => decide (entry.1 ∉ s.imported)).length

theorem unseen_le_length (s : Session) (sources : Sources) :
    s.unseen sources ≤ sources.length :=
  List.length_filter_le ..

theorem unseen_le (sources : Sources) (h : ∀ n ∈ s.imported, n ∈ u.imported) :
    u.unseen sources ≤ s.unseen sources := by
  apply List.Sublist.length_le
  apply List.monotone_filter_right
  intro entry hu
  simp only [decide_eq_true_eq] at hu ⊢
  exact fun hs => hu (h _ hs)

theorem unseen_opening_lt {sources : Sources} {source : String}
    (hin : (sheet.name, source) ∈ sources) (hn : sheet.name ∉ s.imported) :
    (s.opening sheet).unseen sources < s.unseen sources := by
  have hfilter : (sources.filter fun entry => decide (entry.1 ∉ (s.opening sheet).imported)) =
      (sources.filter fun entry => decide (entry.1 ∉ s.imported)).filter
        fun entry => decide (entry.1 ≠ sheet.name) := by
    rw [List.filter_filter]
    congr 1
    funext entry
    simp [opening, note]
  unfold unseen
  rw [hfilter, List.length_filter_lt_length_iff_exists]
  exact ⟨(sheet.name, source), List.mem_filter.2 ⟨hin, by simpa using hn⟩, by simp⟩

theorem mem_sources_of_find {sources : Sources} {file : String}
    (h : (Library.ofSources sources).find file = .ok sheet) :
    ∃ source, (file, source) ∈ sources := by
  unfold Library.find Library.ofSources at h
  simp only at h
  cases hl : sources.lookup file with
  | none => simp [hl] at h
  | some source =>
    obtain ⟨before, after, hs, -⟩ := List.lookup_eq_some_iff.1 hl
    exact ⟨source, by simp [hs]⟩

theorem fresh_of_find {sources : Sources} {file : String} (hseen : file ∉ s.imported)
    (hfind : (Library.ofSources sources).find file = .ok sheet) :
    sheet.name ∉ s.imported ∧ (s.opening sheet).unseen sources < s.unseen sources := by
  obtain ⟨source, hin⟩ := mem_sources_of_find hfind
  rw [← Library.name_find hfind] at hseen hin
  exact ⟨hseen, unseen_opening_lt hin hseen⟩

/-- The outcome of an import is what a walk says: it succeeds or fails with the walk, its tables
are those of merging the sheets that came to their end, and the names of the walk are recorded. -/
structure Agrees (s : Session) (w : Walk) (out : Outcome) : Prop where
  result : out.2 = w.result
  tables : out.1.content = (w.done.foldl merge s).content
  imported : ∀ n, n ∈ out.1.imported ↔ n ∈ s.imported ∨ n ∈ w.names

theorem Agrees.of_content {out : Outcome} (h : Agrees u w out) (hc : u.content = s.content)
    (hi : u.imported = s.imported) : Agrees s w out := by
  constructor
  · exact h.result
  · rw [h.tables, content_foldl_merge hc]
  · rw [← hi]
    exact h.imported

theorem Agrees.next {done more : List Sheet} {opened : List String} {failure : Option Error}
    {next : Session} {result : Except Error Unit} {out : Outcome}
    (h : Agrees s ⟨done ++ [sheet], [], none⟩ (next, result))
    (hrest : Agrees next ⟨more, opened, failure⟩ out) :
    Agrees s ⟨done ++ sheet :: more, opened, failure⟩ out := by
  constructor
  · exact hrest.result
  · rw [hrest.tables, content_foldl_merge h.tables, ← List.foldl_append]
    simp
  · intro n
    rw [hrest.imported, h.imported]
    simp only [Walk.names, List.map_append, List.map_cons, List.map_nil, List.mem_append,
      List.mem_cons, List.not_mem_nil, or_false]
    tauto

theorem mem_imported_opening (s : Session) (sheet : Sheet) :
    {n | n ∈ (s.opening sheet).imported} = insert sheet.name {n | n ∈ s.imported} := by
  ext n
  simp [opening, note]

theorem importWithin_agrees {bound : Nat} (hn : sheet.name ∉ s.imported)
    (hw : Follows lib s.suffix (insert sheet.name {n | n ∈ s.imported}) sheet.imports w)
    (h : Agrees (s.opening sheet) w
      (each (importNameWith lib (importWithin lib bound)) (s.opening sheet) sheet.imports)) :
    ∃ v, Links lib s.suffix {n | n ∈ s.imported} sheet v ∧
      Agrees s v (importWithin lib (bound + 1) s sheet) := by
  rw [importWithin_of_not_mem bound hn]
  generalize each (importNameWith lib (importWithin lib bound)) (s.opening sheet)
    sheet.imports = out at h
  obtain ⟨next, result⟩ := out
  obtain ⟨done, opened, failure⟩ := w
  have htables := h.tables.trans (content_foldl_merge (s.content_opening sheet) done)
  have himported := h.imported
  simp only [opening, note, Walk.names, List.mem_append, List.mem_cons] at himported
  cases failure with
  | some e =>
    cases h.result
    refine ⟨⟨done, sheet.name :: opened, some e⟩, .stuck hn hw, rfl, htables, ?_⟩
    intro n
    rw [himported]
    simp only [Walk.names, List.mem_append, List.mem_cons]
    tauto
  | none =>
    cases h.result
    cases hw.opened_nil rfl
    refine ⟨⟨done ++ [sheet], [], none⟩, .merged hn hw, rfl, ?_, ?_⟩
    · rw [List.foldl_append]
      exact content_merge sheet htables
    · intro n
      rw [(next.merge_frame sheet).1, himported]
      simp only [Walk.names, List.map_append, List.map_cons, List.map_nil, List.mem_append,
        List.mem_cons, List.not_mem_nil, or_false]
      tauto

/-- Following imports within a bound that the unseen sheets allow agrees with a walk. -/
theorem each_agrees (sources : Sources) (fuel : Nat) (names : List String) (s : Session)
    (hfuel : s.unseen sources ≤ fuel) :
    ∃ w, Follows (.ofSources sources) s.suffix {n | n ∈ s.imported} names w ∧
      Agrees s w (each (importNameWith (.ofSources sources)
        (importWithin (.ofSources sources) fuel)) s names) := by
  -- on the bound, for the imports of a sheet, and on the list, for the names after it
  induction fuel using Nat.strongRecOn generalizing names s with
  | ind fuel ihfuel =>
  induction names generalizing s with
  | nil => exact ⟨{}, .nil, rfl, rfl, by simp [Walk.names, each]⟩
  | cons name rest ih =>
    by_cases hseen : Text.withEnding name s.suffix ∈ s.imported
    · obtain ⟨w, hw, hagrees⟩ := ih (s.note [.alreadyImported (Text.withEnding name s.suffix)])
        hfuel
      refine ⟨w, .skip hseen hw, ?_⟩
      rw [each, importNameWith_of_mem hseen]
      exact hagrees.of_content (content_note_quiet rfl) rfl
    cases hfind : (Library.ofSources sources).find (Text.withEnding name s.suffix) with
    | error e =>
      obtain ⟨u, hu, hcontent, himported⟩ := importNameWith_of_error hseen hfind
      refine ⟨{ failure := some e }, .missing hseen hfind, ?_⟩
      rw [each, hu]
      exact ⟨rfl, hcontent, by simp [himported, Walk.names]⟩
    | ok sheet =>
      obtain ⟨hfresh, hless⟩ := fresh_of_find hseen hfind
      obtain ⟨bound, rfl⟩ : ∃ bound, fuel = bound + 1 := ⟨fuel - 1, by omega⟩
      obtain ⟨w, hw, hinside⟩ := ihfuel bound (by omega) sheet.imports (s.opening sheet) (by omega)
      rw [mem_imported_opening] at hw
      obtain ⟨v, hv, hagrees⟩ := importWithin_agrees hfresh hw hinside
      rw [each, importNameWith_of_find hseen hfind]
      generalize importWithin (.ofSources sources) (bound + 1) s sheet = out at hagrees
      obtain ⟨next, result⟩ := out
      cases hv with
      | known hs => exact absurd hs hfresh
      | stuck _ hv =>
        cases hagrees.result
        exact ⟨_, .stuck hseen hfind hv, hagrees⟩
      | @merged done _ hv =>
        cases hagrees.result
        have himported := hagrees.imported
        simp only [Walk.names, List.append_nil] at himported
        have hmono : next.unseen sources ≤ s.unseen sources :=
          unseen_le sources fun n hn => (himported n).2 (.inl hn)
        obtain ⟨⟨more, opened, failure⟩, hmore, hrest⟩ := ih next (by omega)
        have hset : {n | n ∈ next.imported} =
            {n | n ∈ s.imported} ∪ {n | n ∈ (done ++ [sheet]).map (·.name)} := by
          ext n
          exact himported n
        rw [suffix_of_content hagrees.tables, hset] at hmore
        exact ⟨_, .sheet hseen hfind hv hmore, hagrees.next hrest⟩

theorem imported_importClosed (s : Session) :
    ImportClosed fun u => ∀ n ∈ s.imported, n ∈ u.imported := by
  constructor
  · intro u name h n hn
    exact List.mem_cons_of_mem _ (h n hn)
  · intro u e _ h
    exact h
  · intro u sheet h n hn
    rw [(u.merge_frame sheet).1]
    exact h n hn

/-- A larger bound gives the same outcome, so the bound is never met. -/
theorem each_stable (sources : Sources) (fuel more : Nat) (names : List String) (s : Session)
    (hfuel : s.unseen sources ≤ fuel) (hmore : s.unseen sources ≤ more) :
    each (importNameWith (.ofSources sources) (importWithin (.ofSources sources) fuel)) s names =
      each (importNameWith (.ofSources sources) (importWithin (.ofSources sources) more)) s
        names := by
  -- every sheet that is opened lowers both bounds by one and the unseen sheets by at least one
  induction fuel using Nat.strongRecOn generalizing more names s with
  | ind fuel ihfuel =>
  induction names generalizing s with
  | nil => rfl
  | cons name rest ih =>
    have hstep :
        importNameWith (.ofSources sources) (importWithin (.ofSources sources) fuel) s name =
          importNameWith (.ofSources sources) (importWithin (.ofSources sources) more) s name := by
      by_cases hseen : Text.withEnding name s.suffix ∈ s.imported
      · rw [importNameWith_of_mem hseen, importNameWith_of_mem hseen]
      cases hfind : (Library.ofSources sources).find (Text.withEnding name s.suffix) with
      | error e =>
        obtain ⟨u, hu, -⟩ := importNameWith_of_error hseen hfind
        rw [hu, hu]
      | ok sheet =>
        obtain ⟨hfresh, hless⟩ := fresh_of_find hseen hfind
        obtain ⟨bound, rfl⟩ : ∃ bound, fuel = bound + 1 := ⟨fuel - 1, by omega⟩
        obtain ⟨bound', rfl⟩ : ∃ bound, more = bound + 1 := ⟨more - 1, by omega⟩
        rw [importNameWith_of_find hseen hfind, importNameWith_of_find hseen hfind,
          importWithin_of_not_mem bound hfresh, importWithin_of_not_mem bound' hfresh,
          ihfuel bound (by omega) bound' sheet.imports (s.opening sheet) (by omega) (by omega)]
    have hkept := (imported_importClosed s).importNameWith (.ofSources sources)
      (importWithin (.ofSources sources) more)
      (fun _ sheet h => (imported_importClosed s).importWithin _ _ sheet h) name fun _ hn => hn
    rw [each, each, hstep]
    generalize importNameWith (.ofSources sources) (importWithin (.ofSources sources) more) s name =
      out at hkept
    obtain ⟨next, result⟩ := out
    cases result with
    | error e => rfl
    | ok _ =>
      have hle : next.unseen sources ≤ s.unseen sources := unseen_le sources hkept
      exact ih next (by omega) (by omega)

theorem importSheet_agrees (sources : Sources) (s : Session) (sheet : Sheet) :
    ∃ w, Links (.ofSources sources) s.suffix {n | n ∈ s.imported} sheet w ∧
      Agrees s w (s.importSheet (.ofSources sources) sheet) := by
  by_cases hseen : sheet.name ∈ s.imported
  · refine ⟨{}, .known hseen, ?_⟩
    rw [importSheet, importWithin_of_mem _ hseen]
    exact ⟨rfl, content_note_quiet rfl, by simp [Walk.names, note]⟩
  · obtain ⟨w, hw, hagrees⟩ := each_agrees sources sources.length sheet.imports
      (s.opening sheet) (unseen_le_length _ sources)
    rw [mem_imported_opening] at hw
    exact importWithin_agrees hseen hw hagrees

theorem importWithin_stable (sources : Sources) (s : Session) (sheet : Sheet) (fuel : Nat)
    (h : sources.length < fuel) :
    importWithin (.ofSources sources) fuel s sheet = s.importSheet (.ofSources sources) sheet := by
  obtain ⟨bound, rfl⟩ : ∃ bound, fuel = bound + 1 := ⟨fuel - 1, by omega⟩
  have hle := unseen_le_length (s.opening sheet) sources
  have hdepth : (Library.ofSources sources).depth = sources.length := rfl
  rw [importSheet, hdepth]
  by_cases hseen : sheet.name ∈ s.imported
  · rw [importWithin_of_mem _ hseen, importWithin_of_mem _ hseen]
  · rw [importWithin_of_not_mem _ hseen, importWithin_of_not_mem _ hseen,
      each_stable sources bound sources.length _ _ (by omega) hle]

theorem importSheet_emptied (lib : Library) (h : sheet.name ∉ s.imported) :
    s.importSheet lib { sheet with imports := [] } = ((s.opening sheet).merge sheet, .ok ()) := by
  have hn : ({ sheet with imports := [] } : Sheet).name ∉ s.imported := h
  rw [importSheet, importWithin_of_not_mem _ hn]
  rfl

theorem content_foldl_importSheet (lib : Library) (sheets : List Sheet)
    (hn : ∀ n ∈ sheets.map (·.name), n ∉ s.imported) (hnodup : (sheets.map (·.name)).Nodup) :
    (sheets.foldl (fun s a => (s.importSheet lib { a with imports := [] }).1) s).content =
      (sheets.foldl merge s).content := by
  induction sheets generalizing s with
  | nil => rfl
  | cons sheet rest ih =>
    rw [List.map_cons, List.nodup_cons] at hnodup
    have hfresh := hn sheet.name (by simp)
    rw [List.foldl_cons, List.foldl_cons, importSheet_emptied lib hfresh]
    have hrest : ∀ n ∈ rest.map (·.name), n ∉ ((s.opening sheet).merge sheet).imported := by
      intro n hin
      rw [((s.opening sheet).merge_frame sheet).1]
      simp only [opening, note, List.mem_cons, not_or]
      refine ⟨?_, hn n (List.mem_cons_of_mem _ hin)⟩
      rintro rfl
      exact hnodup.1 hin
    rw [ih hrest hnodup.2]
    exact content_foldl_merge (content_merge sheet (s.content_opening sheet)) rest

/-- Importing a sheet ends, and gives the tables of importing one after the other, without their
imports, the sheets that a depth-first walk from it brings to their end, and the result of the
walk. -/
theorem importSheet_linearises (sources : Sources) (s : Session) (sheet : Sheet) :
    (∀ fuel, sources.length < fuel →
      importWithin (.ofSources sources) fuel s sheet = s.importSheet (.ofSources sources) sheet) ∧
    ∃ w, Links (.ofSources sources) s.suffix {n | n ∈ s.imported} sheet w ∧
      (∀ v, Links (.ofSources sources) s.suffix {n | n ∈ s.imported} sheet v → v = w) ∧
      (s.importSheet (.ofSources sources) sheet).2 = w.result ∧
      (s.importSheet (.ofSources sources) sheet).1.content =
        (w.done.foldl (fun s a =>
          (s.importSheet (.ofSources sources) { a with imports := [] }).1) s).content ∧
      (∀ n, n ∈ (s.importSheet (.ofSources sources) sheet).1.imported ↔
        n ∈ s.imported ∨ n ∈ w.done.map (·.name) ∨ n ∈ w.opened) ∧
      (w.done.map (·.name) ++ w.opened).Nodup ∧
      (∀ n ∈ w.done.map (·.name) ++ w.opened, n ∉ s.imported) ∧
      (w.failure = none → w.opened = [] ∧ ∀ a, a ∈ w.done ↔ sheet.name ∉ s.imported ∧
        (a = sheet ∨ Linked (.ofSources sources) s.suffix
          (insert sheet.name {n | n ∈ s.imported}) sheet.imports a)) ∧
      (∀ e, w.failure = some e → Broken (.ofSources sources) s.suffix e sheet w.opened) := by
  obtain ⟨w, hw, hagrees⟩ := importSheet_agrees sources s sheet
  obtain ⟨hfresh, hnodup⟩ := hw.fresh
  have hdone : ∀ n ∈ w.done.map (·.name), n ∉ s.imported :=
    fun n hn => hfresh n (List.mem_append_left _ hn)
  refine ⟨fun fuel h => importWithin_stable sources s sheet fuel h, w, hw, fun v hv => hv.unique hw,
    hagrees.result, ?_, ?_, hnodup, hfresh, ?_, fun e he => hw.broken he⟩
  · rw [hagrees.tables, content_foldl_importSheet _ w.done hdone (List.nodup_append.1 hnodup).1]
  · intro n
    rw [hagrees.imported, Walk.names, List.mem_append]
  · intro hf
    exact ⟨hw.opened_nil hf, fun a => hw.mem_done_iff hf⟩

end Session

end NestedStyles
