import NestedStyles.Proofs.Linking
import Mathlib.Data.List.Induction

/-!
What a successful import says about a session with a history. Requests add files and import sheets,
and some of them fail. A name that is recorded belongs to a sheet that was merged or that a failed
request left open. So an import that succeeds finds everything merged that
its sheet leads to, up to sheets that failed requests left open.
-/

namespace NestedStyles

variable {lib : Library} {suffix : String} {seen : Set String} {names : List String} {w : Walk}
  {sheet : Sheet}

theorem Follows.imports_recorded (h : Follows lib suffix seen names w) :
    ∀ a ∈ w.done, ∀ name ∈ a.imports, Text.withEnding name suffix ∈ seen ∨
      Text.withEnding name suffix ∈ w.names := by
  induction h with
  | nil => simp
  | skip _ _ ih => exact ih
  | missing => simp
  | stuck _ _ _ ih =>
    intro a ha name hname
    rcases ih a ha name hname with (hself | hseen) | hin
    · exact .inr (by simp [Walk.names, hself])
    · exact .inl hseen
    · refine .inr ?_
      simp only [Walk.names, List.mem_append, List.mem_cons] at hin ⊢
      tauto
  | @sheet seen name rest sheet done more opened failure hn ho hinside _ _ ih =>
    obtain ⟨hown, hdone⟩ := hinside.closed rfl
    have hbefore : ∀ n, n ∈ insert sheet.name seen ∨ n ∈ done.map (·.name) →
        n ∈ seen ∨ n ∈ (⟨done ++ sheet :: more, opened, failure⟩ : Walk).names := by
      intro n hor
      simp only [Walk.names, List.map_append, List.map_cons, List.mem_append, List.mem_cons,
        Set.mem_insert_iff] at hor ⊢
      tauto
    intro a ha n hname
    rcases List.mem_append.1 ha with ha | ha
    · exact hbefore _ (hdone a ha n hname)
    · rcases List.mem_cons.1 ha with rfl | ha
      · exact hbefore _ (hown n hname)
      · have hrest := ih a ha n hname
        simp only [Walk.names, List.map_append, List.map_cons, List.map_nil, List.mem_append,
          List.mem_cons, List.not_mem_nil, or_false, Set.mem_union, Set.mem_ofPred_eq] at hrest ⊢
        tauto

/-- What a walk says about the names it met: they are new and different, the imports of the sheets
that came to their end are recorded, and sheets are left open only by a failure. -/
structure Walk.Sound (suffix : String) (seen : Set String) (w : Walk) : Prop where
  fresh : ∀ n ∈ w.names, n ∉ seen
  distinct : w.names.Nodup
  imports : ∀ a ∈ w.done, ∀ name ∈ a.imports, Text.withEnding name suffix ∈ seen ∨
    Text.withEnding name suffix ∈ w.names
  opened : w.failure = none → w.opened = []

theorem Follows.sound (h : Follows lib suffix seen names w) : w.Sound suffix seen :=
  ⟨h.fresh.1, h.fresh.2, h.imports_recorded, h.opened_nil⟩

theorem Links.sound (h : Links lib suffix seen sheet w) : w.Sound suffix seen := by
  refine ⟨h.fresh.1, h.fresh.2, ?_, h.opened_nil⟩
  cases h with
  | known => simp
  | stuck _ h =>
    intro a ha name hname
    have hin := h.imports_recorded a ha name hname
    simp only [Walk.names, List.mem_append, List.mem_cons, Set.mem_insert_iff] at hin ⊢
    tauto
  | @merged done _ h =>
    obtain ⟨hown, hdone⟩ := h.closed rfl
    intro a ha name hname
    have hin : Text.withEnding name suffix ∈ insert sheet.name seen ∨
        Text.withEnding name suffix ∈ done.map (·.name) := by
      rcases List.mem_append.1 ha with ha | ha
      · exact hdone a ha name hname
      · rw [List.mem_singleton.1 ha] at hname
        exact hown name hname
    simp only [Walk.names, List.map_append, List.map_cons, List.map_nil, List.append_nil,
      List.mem_append, List.mem_cons, List.not_mem_nil, or_false, Set.mem_insert_iff] at hin ⊢
    tauto

theorem Session.importName_agrees (sources : Sources) (s : Session) (name : String) :
    ∃ w, Follows (.ofSources sources) s.suffix {n | n ∈ s.imported} [name] w ∧
      Agrees s w (s.importName (.ofSources sources) name) := by
  have hbound := unseen_le_length s sources
  obtain ⟨w, hw, hagrees⟩ := each_agrees sources (sources.length + 1) [name] s (by omega)
  have hone : each (importNameWith (.ofSources sources)
      (importWithin (.ofSources sources) (sources.length + 1))) s [name] =
        s.importName (.ofSources sources) name := by
    change each (importNameWith (.ofSources sources) (importSheet (.ofSources sources))) s [name] =
      importNameWith (.ofSources sources) (importSheet (.ofSources sources)) s name
    rw [each]
    generalize importNameWith (.ofSources sources) (importSheet (.ofSources sources)) s name = out
    obtain ⟨next, result⟩ := out
    cases result <;> rfl
  rw [hone] at hagrees
  exact ⟨w, hw, hagrees⟩

/-- What is asked of a session and its sources. A file that is added replaces one of its name. -/
inductive Workspace.Request
  | file (name source : String)
  | name (name : String)
  | sheet (sheet : Sheet)

structure Workspace where
  sources : Sources
  session : Session

namespace Workspace

def step (w : Workspace) : Request → Workspace × Except Error Unit
  | .file name source => ({ w with sources := (name, source) :: w.sources }, .ok ())
  | .name name =>
    let out := w.session.importName (.ofSources w.sources) name
    ({ w with session := out.1 }, out.2)
  | .sheet sheet =>
    let out := w.session.importSheet (.ofSources w.sources) sheet
    ({ w with session := out.1 }, out.2)

def run (w : Workspace) (requests : List Request) : Workspace :=
  requests.foldl (fun w request => (w.step request).1) w

theorem run_concat (w : Workspace) (requests : List Request) (request : Request) :
    w.run (requests ++ [request]) = ((w.run requests).step request).1 := by
  simp [run]

/-- The walk that a request makes through the sources. -/
inductive Walks (w : Workspace) : Request → Walk → Prop
  | file (name source : String) : Walks w (.file name source) {}
  | name {name : String} {v : Walk} :
      Follows (.ofSources w.sources) w.session.suffix {n | n ∈ w.session.imported} [name] v →
      Walks w (.name name) v
  | sheet {sheet : Sheet} {v : Walk} :
      Links (.ofSources w.sources) w.session.suffix {n | n ∈ w.session.imported} sheet v →
      Walks w (.sheet sheet) v

theorem Walks.unique {w : Workspace} {request : Request} {v v' : Walk} (h : w.Walks request v)
    (k : w.Walks request v') : v = v' := by
  cases h with
  | file =>
    cases k
    rfl
  | name h =>
    cases k with
    | name k => exact h.unique k
  | sheet h =>
    cases k with
    | sheet k => exact h.unique k

theorem walks_step (w : Workspace) (request : Request) :
    ∃ v, w.Walks request v ∧
      Session.Agrees w.session v ((w.step request).1.session, (w.step request).2) := by
  cases request with
  | file name source => exact ⟨{}, .file name source, rfl, rfl, by simp [Walk.names, step]⟩
  | name name =>
    obtain ⟨v, hv, hagrees⟩ := w.session.importName_agrees w.sources name
    exact ⟨v, .name hv, hagrees⟩
  | sheet sheet =>
    obtain ⟨v, hv, hagrees⟩ := Session.importSheet_agrees w.sources w.session sheet
    exact ⟨v, .sheet hv, hagrees⟩

/-- At one of the requests the sheet was given, or found under its name. -/
def Offered (w : Workspace) (requests : List Request) (sheet : Sheet) : Prop :=
  ∃ earlier request later, requests = earlier ++ request :: later ∧
    (request = .sheet sheet ∨
      (Library.ofSources (w.run earlier).sources).find sheet.name = .ok sheet)

/-- One of the requests failed while the sheet of that name was open. -/
def LeftOpen (w : Workspace) (requests : List Request) (file : String) : Prop :=
  ∃ earlier request later walk, requests = earlier ++ request :: later ∧
    ((w.run earlier).step request).2 ≠ .ok () ∧ (w.run earlier).Walks request walk ∧
    file ∈ walk.opened

variable {w : Workspace} {requests : List Request} {request : Request} {merged : List Sheet}
  {sheet : Sheet} {file name : String}

theorem Offered.concat (h : w.Offered requests sheet) (request : Request) :
    w.Offered (requests ++ [request]) sheet := by
  obtain ⟨earlier, found, later, rfl, hoffer⟩ := h
  exact ⟨earlier, found, later ++ [request], by simp, hoffer⟩

theorem LeftOpen.concat (h : w.LeftOpen requests file) (request : Request) :
    w.LeftOpen (requests ++ [request]) file := by
  obtain ⟨earlier, failed, later, walk, rfl, hfailed⟩ := h
  exact ⟨earlier, failed, later ++ [request], walk, by simp, hfailed⟩

theorem LeftOpen.of_concat (h : w.LeftOpen (requests ++ [request]) file)
    (hok : ((w.run requests).step request).2 = .ok ()) : w.LeftOpen requests file := by
  obtain ⟨earlier, failed, later, walk, hsplit, hfailed⟩ := h
  rcases List.eq_nil_or_concat later with rfl | ⟨rest, last, rfl⟩
  · obtain ⟨rfl, hlast⟩ := List.append_inj' hsplit rfl
    cases hlast
    exact absurd hok hfailed.1
  · refine ⟨earlier, failed, rest, walk, ?_, hfailed⟩
    rw [List.concat_eq_append, ← List.cons_append, ← List.append_assoc] at hsplit
    exact (List.append_inj' hsplit rfl).1

/-- The sheets that requests merged, and what is known of the recorded names. -/
structure Record (w : Workspace) (requests : List Request) (merged : List Sheet) : Prop where
  tables : (w.run requests).session.content = (merged.foldl Session.merge w.session).content
  distinct : (merged.map (·.name)).Nodup
  offered : ∀ sheet ∈ merged, w.Offered requests sheet
  recorded : ∀ sheet ∈ merged, sheet.name ∈ (w.run requests).session.imported
  imports : ∀ sheet ∈ merged, ∀ name ∈ sheet.imports,
    Text.withEnding name w.session.suffix ∈ (w.run requests).session.imported
  settled : ∀ file ∈ (w.run requests).session.imported,
    file ∈ merged.map (·.name) ∨ w.LeftOpen requests file

theorem Record.start (h : w.session.imported = []) : w.Record [] [] := by
  constructor <;> simp [run, h]

/-- A request that follows a walk merges the sheets that came to their end. -/
theorem Record.follow (h : w.Record requests merged) {v : Walk}
    (hwalk : (w.run requests).Walks request v)
    (hagrees : Session.Agrees (w.run requests).session v
      (((w.run requests).step request).1.session, ((w.run requests).step request).2))
    (hsound : v.Sound w.session.suffix {n | n ∈ (w.run requests).session.imported})
    (hoffered : ∀ a ∈ v.done, request = .sheet a ∨
      (Library.ofSources (w.run requests).sources).find a.name = .ok a) :
    w.Record (requests ++ [request]) (merged ++ v.done) := by
  have himported := hagrees.imported
  constructor
  · rw [run_concat, hagrees.tables, Session.content_foldl_merge h.tables, List.foldl_append]
  · rw [List.map_append]
    have hdone := (List.nodup_append.1 hsound.distinct).1
    refine List.nodup_append.2 ⟨h.distinct, hdone, ?_⟩
    rintro n hold m hnew rfl
    obtain ⟨a, ha, rfl⟩ := List.mem_map.1 hold
    exact hsound.fresh _ (List.mem_append_left _ hnew) (h.recorded a ha)
  · intro a ha
    rcases List.mem_append.1 ha with ha | ha
    · exact (h.offered a ha).concat request
    · exact ⟨requests, request, [], rfl, hoffered a ha⟩
  · intro a ha
    rw [run_concat]
    refine (himported _).2 ?_
    rcases List.mem_append.1 ha with ha | ha
    · exact .inl (h.recorded a ha)
    · exact .inr (List.mem_append_left _ (List.mem_map_of_mem ha))
  · intro a ha name hname
    rw [run_concat]
    refine (himported _).2 ?_
    rcases List.mem_append.1 ha with ha | ha
    · exact .inl (h.imports a ha name hname)
    · exact hsound.imports a ha name hname
  · intro file hfile
    rw [run_concat] at hfile
    rw [List.map_append, List.mem_append]
    rcases (himported file).1 hfile with hold | hnew
    · rcases h.settled file hold with hmerged | hopen
      · exact .inl (.inl hmerged)
      · exact .inr (hopen.concat request)
    rcases List.mem_append.1 hnew with hdone | hopened
    · exact .inl (.inr hdone)
    · refine .inr ⟨requests, request, [], v, rfl, ?_, hwalk, hopened⟩
      intro hok
      -- an open sheet means that the walk failed, and so did the request
      cases hfailure : v.failure with
      | none => simp [hsound.opened hfailure] at hopened
      | some e =>
        have hresult := hagrees.result
        simp [hok, Walk.result, hfailure] at hresult

theorem Record.step (h : w.Record requests merged) (request : Request) :
    ∃ more, w.Record (requests ++ [request]) (merged ++ more) := by
  have hsuffix : (w.run requests).session.suffix = w.session.suffix :=
    Session.suffix_of_content h.tables
  obtain ⟨v, hwalk, hagrees⟩ := (w.run requests).walks_step request
  have hfollow := fun hsound hoffered => h.follow hwalk hagrees hsound hoffered
  cases hwalk with
  | file name source =>
    have hnothing : ({} : Walk).Sound w.session.suffix
        {n | n ∈ (w.run requests).session.imported} := by
      constructor <;> simp [Walk.names]
    exact ⟨[], hfollow hnothing (by simp)⟩
  | name hv =>
    rw [hsuffix] at hv
    exact ⟨v.done, hfollow hv.sound fun a ha => .inr (hv.found a ha)⟩
  | sheet hv =>
    rw [hsuffix] at hv
    refine ⟨v.done, hfollow hv.sound fun a ha => ?_⟩
    cases hv with
    | known => cases ha
    | stuck _ hv => exact .inr (hv.found a ha)
    | merged _ hv =>
      rcases List.mem_append.1 ha with ha | ha
      · exact .inr (hv.found a ha)
      · exact .inl (by rw [List.mem_singleton.1 ha])

theorem Record.run (h : w.session.imported = []) (requests : List Request) :
    ∃ merged, w.Record requests merged := by
  induction requests using List.reverseRecOn with
  | nil => exact ⟨[], .start h⟩
  | append_singleton requests request ih =>
    obtain ⟨merged, hmerged⟩ := ih
    obtain ⟨more, hmore⟩ := hmerged.step request
    exact ⟨merged ++ more, hmore⟩

/-- The names that a name leads to through the imports of merged sheets. -/
inductive Reaches (merged : List Sheet) (suffix : String) (file : String) : String → Prop
  | self : Reaches merged suffix file file
  | through {sheet : Sheet} {name : String} : Reaches merged suffix file sheet.name →
      sheet ∈ merged → name ∈ sheet.imports →
      Reaches merged suffix file (Text.withEnding name suffix)

theorem imported_of_ok (hok : (w.step (.name name)).2 = .ok ()) :
    Text.withEnding name w.session.suffix ∈ (w.step (.name name)).1.session.imported := by
  obtain ⟨v, hv, hagrees⟩ := w.session.importName_agrees w.sources name
  have hresult := hagrees.result.symm.trans hok
  have hfailure : v.failure = none := by
    cases hf : v.failure with
    | none => rfl
    | some e => simp [Walk.result, hf] at hresult
  refine (hagrees.imported _).2 ?_
  rcases (hv.closed hfailure).1 name List.mem_cons_self with hseen | hdone
  · exact .inl hseen
  · exact .inr (List.mem_append_left _ hdone)

/-- When an import by name succeeds, the tables are those of merging sheets that were given or found
at some request, and these have every name that the import leads to, but for sheets that an earlier
request left open when it failed. -/
theorem merged_of_importName_ok (calls : Evaluator) (suffix : String) (sources : Sources)
    (requests : List Request) (name : String) :
    let start : Workspace := ⟨sources, { calls := calls, suffix := suffix }⟩
    let last := (start.run requests).step (.name name)
    last.2 = .ok () →
    ∃ merged : List Sheet,
      last.1.session.content = (merged.foldl Session.merge start.session).content ∧
      (merged.map (·.name)).Nodup ∧
      (∀ sheet ∈ merged, start.Offered (requests ++ [.name name]) sheet) ∧
      ∀ file, Reaches merged suffix (Text.withEnding name suffix) file →
        file ∈ merged.map (·.name) ∨ start.LeftOpen requests file := by
  intro start last hok
  obtain ⟨merged, h⟩ := Record.run (w := start) rfl (requests ++ [.name name])
  obtain ⟨before, hbefore⟩ := Record.run (w := start) rfl requests
  have hsuffix : (start.run requests).session.suffix = suffix :=
    Session.suffix_of_content hbefore.tables
  refine ⟨merged, ?_, h.distinct, h.offered, ?_⟩
  · rw [← h.tables, run_concat]
  · intro file hreach
    have hrecorded : file ∈ (start.run (requests ++ [.name name])).session.imported := by
      induction hreach with
      | self =>
        rw [run_concat, ← hsuffix]
        exact imported_of_ok hok
      | through _ hsheet hname _ => exact h.imports _ hsheet _ hname
    rcases h.settled file hrecorded with hmerged | hopen
    · exact .inl hmerged
    · exact .inr (hopen.of_concat hok)

/-- Two sheets that import each other, after a request for a third one that failed. -/
theorem merged_of_importName_ok_cycle :
    let start : Workspace :=
      ⟨[("a.bss", "@import x; .a\x7bv: w\x7d"), ("b.bss", "@import c; .b\x7bv: w\x7d"),
        ("c.bss", "@import b; $v: w;")], {}⟩
    ((start.run [.name "a"]).step (.name "b")).2 = .ok () ∧
      ∃ merged : List Sheet,
        ((start.run [.name "a"]).step (.name "b")).1.session.content =
          (merged.foldl Session.merge start.session).content ∧
        ∀ file, Reaches merged ".bss" "b.bss" file →
          file ∈ merged.map (·.name) ∨ start.LeftOpen [.name "a"] file := by
  intro start
  have hok : ((start.run [.name "a"]).step (.name "b")).2 = .ok () := by decide +kernel
  obtain ⟨merged, htables, -, -, hmerged⟩ := merged_of_importName_ok Evaluator.written ".bss"
    start.sources [.name "a"] "b" hok
  exact ⟨hok, merged, htables, fun file h => hmerged file h⟩

/-- An import fails for want of a sheet. Once that sheet is there, the same import succeeds, but no
rule of either sheet is in the session. -/
theorem retried_import_not_merged :
    let start : Workspace := ⟨[("a.bss", "@import b; .a\x7bx: y\x7d")], {}⟩
    let repaired := start.run [.name "a", .file "b.bss" ".b\x7bx: y\x7d"]
    (start.step (.name "a")).2 = .error (.resolution "b.bss" .unknownSheet) ∧
      (repaired.step (.name "a")).2 = .ok () ∧
      (repaired.step (.name "a")).1.session.table.size = 0 := by
  decide +kernel

end Workspace

end NestedStyles
