import NestedStyles.Proofs.CompletedImports
import NestedStyles.Proofs.Reports

/-!
Imports of a name that was imported before. A walk passes over them, so a list of imports leads to
the same sheets with them and without them. The sessions then hold the same tables and record the
same names, and no later request and no compilation tells them apart.
-/

namespace NestedStyles

/-- The second list is the first one with further names, each of them the same as an earlier one or
one of `met` once the suffix is applied. -/
inductive Padded (suffix : String) : (met : List String) → List String → List String → Prop
  | nil {met : List String} : Padded suffix met [] []
  | keep {met names longer : List String} (name : String) :
      Padded suffix (Text.withEnding name suffix :: met) names longer →
      Padded suffix met (name :: names) (name :: longer)
  | repeated {met names longer : List String} {name : String} :
      Text.withEnding name suffix ∈ met → Padded suffix met names longer →
      Padded suffix met names (name :: longer)

section Walks

variable {lib : Library} {suffix : String} {seen : Set String} {names longer met : List String}
  {w : Walk} {sheet : Sheet}

theorem Follows.padded (h : Follows lib suffix seen names w) (hp : Padded suffix met names longer)
    (hmet : ∀ file ∈ met, file ∈ seen) : Follows lib suffix seen longer w := by
  induction hp generalizing seen w with
  | nil => exact h
  | keep name _ ih =>
    cases h with
    | skip hs h => exact .skip hs (ih h (List.forall_mem_cons.2 ⟨hs, hmet⟩))
    | missing hn he => exact .missing hn he
    | stuck hn ho h => exact .stuck hn ho h
    | sheet hn ho h hrest =>
      refine .sheet hn ho h (ih hrest (List.forall_mem_cons.2 ⟨.inr ?_, ?_⟩))
      · simp [Library.name_find ho]
      · exact fun file hin => .inl (hmet file hin)
  | repeated hin _ ih => exact .skip (hmet _ hin) (ih h hmet)

theorem Links.padded (h : Links lib suffix seen sheet w)
    (hp : Padded suffix [] sheet.imports longer) :
    ∃ v, Links lib suffix seen { sheet with imports := longer } v ∧ v.result = w.result ∧
      v.names = w.names ∧
      ∀ s : Session, v.done.foldl Session.merge s = w.done.foldl Session.merge s := by
  cases h with
  | known hs => exact ⟨{}, .known hs, rfl, rfl, fun _ => rfl⟩
  | stuck hn h => exact ⟨_, .stuck hn (h.padded hp (by simp)), rfl, rfl, fun _ => rfl⟩
  | merged hn h =>
    refine ⟨_, .merged hn (h.padded hp (by simp)), rfl, by simp [Walk.names], fun s => ?_⟩
    simp only [List.foldl_append]
    rfl

end Walks

namespace Session

variable {s u : Session}

/-! Compiling uses the tables alone -/

theorem content_content (s : Session) : s.content.content = s.content := by
  simp [content]

theorem content_extend (id : Nat) (s : Session) (name : String) :
    (s.extend id name).content = (s.content.extend id name).content := by
  have htargets : s.content.targets = s.targets := rfl
  have htable : s.content.table = s.table := rfl
  cases hl : s.targets.lookup name with
  | none =>
    rw [extend_of_none id hl, extend_of_none id (htargets ▸ hl), htable]
    simp [content, warn, note]
  | some found =>
    rw [extend_of_some id hl, extend_of_some id (htargets ▸ hl), htable]
    simp [content]

theorem content_compileRule (s : Session) (id : Nat) :
    (s.compileRule id).content = (s.content.compileRule id).content := by
  cases hr : s.table.rule? id with
  | none =>
    have hr' : s.content.table.rule? id = none := hr
    simp only [compileRule, hr, hr', content_content]
  | some rule =>
    have hr' : s.content.table.rule? id = some rule := hr
    have hextended := content_foldl (f := extend id) (content_extend id) rule.extensions
      s.content_content.symm
    rw [compileRule_eq hr, compileRule_eq hr']
    generalize rule.extensions.foldl (extend id) s = extended at hextended
    generalize rule.extensions.foldl (extend id) s.content = extended' at hextended
    have htable : extended.table = extended'.table := by
      change extended.content.table = extended'.content.table
      rw [hextended]
    -- the calls and the attributes add to the tables what the tables determine
    have hgrow : ∀ (rules : List Rule) (events : List Event) (f : Rule → Rule) (v : Session),
        ({ v.grow rules events with table := (v.grow rules events).table.modify id f } :
          Session).content =
        ({ v.content.grow rules events with
          table := (v.content.grow rules events).table.modify id f } : Session).content := by
      intro rules events f v
      simp [content, grow]
    simp only [htable]
    rw [hgrow, hextended, ← hgrow]
    rfl

theorem content_compileRules (h : s.content = u.content) :
    s.compileRules.content = u.compileRules.content := by
  have hvisit : s.visitOrder = u.visitOrder := by
    change s.content.visitOrder = u.content.visitOrder
    rw [h]
  rw [compileRules, compileRules, hvisit]
  exact content_foldl (f := compileRule) content_compileRule _ h

theorem compile_of_content (h : s.content = u.content) :
    s.compile.rules = u.compile.rules ∧ s.compile.warnings = u.compile.warnings := by
  have hcompiled := content_compileRules h
  constructor
  · change FlatRule.pruneAll (s.compileRules.content.roots.map s.compileRules.content.table.tree) =
      FlatRule.pruneAll (u.compileRules.content.roots.map u.compileRules.content.table.tree)
    rw [hcompiled]
  · have hwarnings : ∀ v : Session, v.compile.warnings = reported some v.compileRules.log := by
      intro v
      rw [← reported_compile, List.filterMap_some]
    rw [hwarnings, hwarnings, ← reported_content, hcompiled, reported_content]

/-- Sessions that differ in nothing but the events that are no warnings. -/
structure Alike (s u : Session) : Prop where
  tables : s.content = u.content
  imported : ∀ n, n ∈ s.imported ↔ n ∈ u.imported

theorem Alike.suffix (h : s.Alike u) : s.suffix = u.suffix := by
  change s.content.suffix = u.content.suffix
  rw [h.tables]

theorem Alike.seen (h : s.Alike u) : {n | n ∈ s.imported} = {n | n ∈ u.imported} := by
  ext n
  exact h.imported n

theorem Agrees.alike {v v' : Walk} {out out' : Outcome} (h : s.Agrees v out)
    (h' : u.Agrees v' out') (hs : s.Alike u) (hresult : v.result = v'.result)
    (hnames : v.names = v'.names)
    (hdone : ∀ t : Session, v.done.foldl merge t = v'.done.foldl merge t) :
    out.2 = out'.2 ∧ out.1.Alike out'.1 := by
  refine ⟨by rw [h.result, h'.result, hresult], ?_, fun n => ?_⟩
  · rw [h.tables, h'.tables, hdone, content_foldl_merge hs.tables]
  · rw [h.imported, h'.imported, hnames, hs.imported]

/-- Repeated imports in a sheet change neither the result of importing it nor the session. -/
theorem importSheet_padded (sources : Sources) (s : Session) {sheet : Sheet}
    {longer : List String} (hp : Padded s.suffix [] sheet.imports longer) :
    let full := s.importSheet (.ofSources sources) { sheet with imports := longer }
    let plain := s.importSheet (.ofSources sources) sheet
    full.2 = plain.2 ∧ full.1.Alike plain.1 := by
  obtain ⟨v, hv, hplain⟩ := importSheet_agrees sources s sheet
  obtain ⟨v', hv', hresult, hnames, hdone⟩ := hv.padded hp
  obtain ⟨v'', hv'', hfull⟩ := importSheet_agrees sources s { sheet with imports := longer }
  obtain rfl := hv''.unique hv'
  exact hfull.alike hplain ⟨rfl, fun _ => Iff.rfl⟩ hresult hnames hdone

end Session

namespace Workspace

variable {w u : Workspace}

theorem alike_step (hsources : w.sources = u.sources) (h : w.session.Alike u.session)
    (request : Request) :
    (w.step request).1.sources = (u.step request).1.sources ∧
      (w.step request).1.session.Alike (u.step request).1.session := by
  obtain ⟨v, hv, hw⟩ := w.walks_step request
  obtain ⟨v', hv', hu⟩ := u.walks_step request
  have hwalk : u.Walks request v := by
    cases hv with
    | file name source => exact .file name source
    | name hv =>
      rw [hsources, h.suffix, h.seen] at hv
      exact .name hv
    | sheet hv =>
      rw [hsources, h.suffix, h.seen] at hv
      exact .sheet hv
  obtain rfl := hwalk.unique hv'
  refine ⟨?_, (hw.alike hu h rfl rfl fun _ => rfl).2⟩
  cases request with
  | file name source => exact congrArg ((name, source) :: ·) hsources
  | name | sheet => exact hsources

theorem alike_run (hsources : w.sources = u.sources) (h : w.session.Alike u.session)
    (requests : List Request) : (w.run requests).session.Alike (u.run requests).session := by
  induction requests generalizing w u with
  | nil => exact h
  | cons request rest ih =>
    obtain ⟨hnext, halike⟩ := alike_step hsources h request
    exact ih hnext halike

theorem step_keeps (w : Workspace) (request : Request) :
    (w.step request).1.session.suffix = w.session.suffix ∧
      ∀ n ∈ w.session.imported, n ∈ (w.step request).1.session.imported := by
  obtain ⟨v, -, hagrees⟩ := w.walks_step request
  exact ⟨Session.suffix_of_content hagrees.tables, fun n hn => (hagrees.imported n).2 (.inl hn)⟩

theorem run_keeps (w : Workspace) (requests : List Request) :
    (w.run requests).session.suffix = w.session.suffix ∧
      ∀ n ∈ w.session.imported, n ∈ (w.run requests).session.imported := by
  induction requests generalizing w with
  | nil => exact ⟨rfl, fun _ hn => hn⟩
  | cons request rest ih =>
    obtain ⟨hsuffix, himported⟩ := w.step_keeps request
    obtain ⟨hsuffix', himported'⟩ := ih (w.step request).1
    exact ⟨hsuffix'.trans hsuffix, fun n hn => himported' n (himported n hn)⟩

/-- Imports that repeat an earlier one of their sheet change neither the result of importing the
sheet nor what is compiled after any later requests. A name that was imported with success is not
imported again, whatever requests and libraries come after it: the session only logs that. -/
theorem repeated_imports_invisible :
    (∀ (sources : Sources) (s : Session) (sheet : Sheet) (longer : List String),
      Padded s.suffix [] sheet.imports longer →
      let full := s.importSheet (.ofSources sources) { sheet with imports := longer }
      let plain := s.importSheet (.ofSources sources) sheet
      full.2 = plain.2 ∧ ∀ requests,
        (run ⟨sources, full.1⟩ requests).session.compile.rules =
          (run ⟨sources, plain.1⟩ requests).session.compile.rules ∧
        (run ⟨sources, full.1⟩ requests).session.compile.warnings =
          (run ⟨sources, plain.1⟩ requests).session.compile.warnings) ∧
    ∀ (w : Workspace) (name other : String) (requests : List Request),
      (w.step (.name name)).2 = .ok () →
      Text.withEnding other w.session.suffix = Text.withEnding name w.session.suffix →
      let s := ((w.step (.name name)).1.run requests).session
      ∀ lib, s.importName lib other =
        (s.note [.alreadyImported (Text.withEnding name w.session.suffix)], .ok ()) := by
  constructor
  · intro sources s sheet longer hp full plain
    obtain ⟨hresult, halike⟩ := s.importSheet_padded sources hp
    refine ⟨hresult, fun requests => Session.compile_of_content ?_⟩
    exact (alike_run (w := ⟨sources, full.1⟩) (u := ⟨sources, plain.1⟩) rfl halike requests).tables
  · intro w name other requests hok hother s lib
    obtain ⟨hsuffix, himported⟩ := (w.step (.name name)).1.run_keeps requests
    have hfile : Text.withEnding other s.suffix = Text.withEnding name w.session.suffix := by
      rw [hsuffix, (w.step_keeps (.name name)).1, hother]
    have hmem := himported _ (imported_of_ok hok)
    rw [← hfile] at hmem ⊢
    exact Session.importNameWith_of_mem hmem

/-- A sheet imports `a` once, or again under both spellings around another import. After that, `a`
is imported by name, and again once its file no longer parses. -/
theorem repeated_imports_invisible_both_spellings :
    let sources : Sources := [("a.bss", "$x: 1;"), ("b.bss", ".b\x7bv: $x\x7d")]
    let sheet : Sheet := { name := "main", imports := ["a", "b"] }
    let full := ({} : Session).importSheet (.ofSources sources)
      { sheet with imports := ["a", "a.bss", "b", "a"] }
    let broken := (step ⟨sources, {}⟩ (.name "a")).1.run [.file "a.bss" "\x7b"]
    full.2 = .ok () ∧
      full.1.compile.rules = (({} : Session).importSheet (.ofSources sources)
        sheet).1.compile.rules ∧
      (broken.step (.name "a.bss")).2 = .ok () ∧
      (broken.step (.name "a.bss")).1.session.content = broken.session.content := by
  intro sources sheet full broken
  have hp : Padded ".bss" [] ["a", "b"] ["a", "a.bss", "b", "a"] :=
    .keep "a" (.repeated (by decide +kernel) (.keep "b" (.repeated (by decide +kernel) .nil)))
  obtain ⟨hresult, hlater⟩ := repeated_imports_invisible.1 sources {} sheet _ hp
  have hagain := repeated_imports_invisible.2 ⟨sources, {}⟩ "a" "a.bss" [.file "a.bss" "\x7b"]
    (by decide +kernel) (by decide +kernel) (.ofSources broken.sources)
  refine ⟨hresult.trans (by decide +kernel), (hlater []).1, congrArg Prod.snd hagain, ?_⟩
  exact (congrArg (fun out => out.1.content) hagain).trans (Session.content_note_quiet rfl)

end Workspace

end NestedStyles
