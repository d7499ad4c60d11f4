import NestedStyles.Proofs.Realization
import NestedStyles.Session.Import

/-!
Sessions as runs reach them. A history follows the steps that imports are made of and keeps what
the sections expanded so far have yielded. The tables of a session always hold exactly that.
-/

namespace NestedStyles

namespace Session

/-- The session can be reached, and the sections expanded on the way yielded `ys`. -/
inductive History : List Yield → Session → Prop
  | start (calls : Evaluator) (suffix : String) : History [] { calls := calls, suffix := suffix }
  | enter {ys : List Yield} {s : Session} (name : String) : History ys s →
      History ys { s with imported := name :: s.imported }
  | note {ys : List Yield} {s : Session} (e : Event) : e.warning? = none → History ys s →
      History ys (s.note [e])
  | template {ys : List Yield} {s : Session} (t : Template) : History ys s →
      History ys (s.addTemplate t)
  | declare {ys : List Yield} {s : Session} (d : Declaration) : History ys s →
      History ys (s.declare d)
  | expand {ys : List Yield} {s : Session} (path : Option String)
      (parents : Option (List Selector)) (inner : Section) : History ys s →
      History (ys ++ flatten s.calls s.scope path parents inner) (s.expand path parents inner)

def Reachable (s : Session) : Prop := ∃ ys, History ys s

variable {s : Session} {ys : List Yield}

theorem start_realizes (calls : Evaluator) (suffix : String) :
    Realizes { calls := calls, suffix := suffix } [] := by
  constructor
  · exact ⟨by simp [roots], by simp [roots]⟩
  · rfl
  · intro path id h
    simp at h
  · intro path
    cases path <;> rfl
  · intro name id
    constructor
    · intro h
      simp at h
    · rintro ⟨earlier, y, later, path, tree, h, -⟩
      simp at h

theorem declare_realizes (h : s.Realizes ys) (d : Declaration) : (s.declare d).Realizes ys := by
  unfold declare
  split
  · exact h.note _
  · exact ⟨h.forest, h.paths, h.containers, h.placed, h.resolved⟩

theorem History.realizes (h : History ys s) : s.Realizes ys := by
  induction h with
  | start calls suffix => exact start_realizes calls suffix
  | enter name _ ih => exact ⟨ih.forest, ih.paths, ih.containers, ih.placed, ih.resolved⟩
  | note e _ _ ih => exact ih.note [e]
  | template t _ ih => exact ⟨ih.forest, ih.paths, ih.containers, ih.placed, ih.resolved⟩
  | declare d _ ih => exact declare_realizes ih d
  | expand path parents inner _ ih =>
    rw [expand_eq_emitAll]
    exact emitAll_realizes ih _

/-- Expanding a section adds what the section yields without a table, at every place and in every
order that the tables have, logs what the yields met and changes nothing else. -/
theorem expand_refines_flatten (h : History ys s) (path : Option String)
    (parents : Option (List Selector)) (inner : Section) :
    s.Realizes ys ∧
    (s.expand path parents inner).Realizes (ys ++ flatten s.calls s.scope path parents inner) ∧
    (s.expand path parents inner).log =
      s.log ++ (flatten s.calls s.scope path parents inner).flatMap Yield.met ∧
    (s.expand path parents inner).calls = s.calls ∧
    (s.expand path parents inner).suffix = s.suffix ∧
    (s.expand path parents inner).scope = s.scope ∧
    (s.expand path parents inner).templates = s.templates ∧
    (s.expand path parents inner).imported = s.imported := by
  obtain ⟨hcalls, hsuffix, hscope, htemplates, himported, hlog⟩ :=
    s.emitAll_frame (flatten s.calls s.scope path parents inner)
  have hnext := (History.expand path parents inner h).realizes
  rw [expand_eq_emitAll] at *
  exact ⟨h.realizes, hnext, hlog, hcalls, hsuffix, hscope, htemplates, himported⟩

/-- A media wrapper in a rule in a media wrapper: the inner one hosts its attribute in a path of its
own, with the selectors of the rule. -/
theorem expand_refines_flatten_nested_media :
    let inner : Section := { attributes := [⟨"d", .text "e"⟩], media := some (.text "wide") }
    let rule : Section := { selectors := [[".a"], [".b"]], nested := [inner] }
    let wrapper : Section := { media := some (.text "print"), nested := [rule] }
    (({} : Session).expand none none wrapper).Realizes
      [.events [], .rule (some "@media print") [[".a"], [".b"]] rule, .events [],
        .host "@media print and wide" [[".a"], [".b"]] inner] := by
  intro inner rule wrapper
  have hyields : flatten Evaluator.written {} none none wrapper =
      [.events [], .rule (some "@media print") [[".a"], [".b"]] rule, .events [],
        .host "@media print and wide" [[".a"], [".b"]] inner] := by
    decide +kernel
  have hexpand := (expand_refines_flatten (.start Evaluator.written defaultSuffix)
    none none wrapper).2.1
  rw [hyields] at hexpand
  exact hexpand

/-- What an import can do to a session keeps the property. -/
structure ImportClosed (P : Session → Prop) : Prop where
  enter : ∀ s name, P s → P { s with imported := name :: s.imported }
  note : ∀ s e, e.warning? = none → P s → P (s.note [e])
  merge : ∀ s sheet, P s → P (s.merge sheet)

namespace ImportClosed

variable {P : Session → Prop}

theorem each (step : Session → String → Outcome) (hstep : ∀ s name, P s → P (step s name).1)
    (names : List String) (hs : P s) : P (each step s names).1 := by
  induction names generalizing s with
  | nil => exact hs
  | cons name rest ih =>
    have hnext := hstep s name hs
    rw [Session.each]
    generalize step s name = outcome at hnext
    obtain ⟨next, result⟩ := outcome
    cases result with
    | error e => exact hnext
    | ok _ => exact ih hnext

theorem importNameWith (h : ImportClosed P) (lib : Library) (next : Session → Sheet → Outcome)
    (hnext : ∀ s sheet, P s → P (next s sheet).1) (name : String) (hs : P s) :
    P (importNameWith lib next s name).1 := by
  unfold Session.importNameWith
  simp only
  split
  · exact h.note s _ rfl hs
  · split
    · exact h.note s _ rfl hs
    · split
      · exact hs
      · exact hnext s _ hs

theorem importWithin (h : ImportClosed P) (lib : Library) (fuel : Nat) (sheet : Sheet)
    (hs : P s) : P (importWithin lib fuel s sheet).1 := by
  induction fuel generalizing s sheet with
  | zero => exact hs
  | succ fuel ih =>
    unfold Session.importWithin
    simp only
    split
    · exact h.note s _ rfl hs
    · have hstart := h.note _ (.importing sheet.name) rfl (h.enter s sheet.name hs)
      have heach := each _ (fun s name hs => h.importNameWith lib _
        (fun s sheet hs => ih sheet hs) name hs) sheet.imports hstart
      split
      · next next e heq =>
        rw [heq] at heach
        exact heach
      · next next heq =>
        rw [heq] at heach
        exact h.merge next sheet heach

theorem importSheet (h : ImportClosed P) (lib : Library) (sheet : Sheet) (hs : P s) :
    P (importSheet lib s sheet).1 :=
  h.importWithin lib _ sheet hs

theorem importName (h : ImportClosed P) (lib : Library) (name : String) (hs : P s) :
    P (importName lib s name).1 :=
  h.importNameWith lib _ (fun _ sheet hs => h.importSheet lib sheet hs) name hs

end ImportClosed

theorem History.expandAll (h : History ys s) (path : Option String)
    (parents : Option (List Selector)) (sections : List Section) :
    History (ys ++ flattenAll s.calls s.scope path parents sections)
      (s.expandAll path parents sections) := by
  induction sections generalizing ys s with
  | nil => simpa [flattenAll, Session.expandAll] using h
  | cons inner rest ih =>
    have hnext := ih (h.expand path parents inner)
    obtain ⟨hcalls, -, hscope, -⟩ := s.emitAll_frame (flatten s.calls s.scope path parents inner)
    rw [← expand_eq_emitAll] at hcalls hscope
    rw [hcalls, hscope, List.append_assoc] at hnext
    rwa [flattenAll, Session.expandAll]

theorem History.declared (h : History ys s) (sheet : Sheet) :
    History ys (sheet.declarations.foldl Session.declare
      (sheet.templates.foldl addTemplate s)) := by
  have htemplates : History ys (sheet.templates.foldl addTemplate s) :=
    List.foldlRecOn _ _ h fun _ hu t _ => hu.template t
  exact List.foldlRecOn _ _ htemplates fun _ hu d _ => hu.declare d

theorem reachable_importClosed : ImportClosed Reachable := by
  constructor
  · rintro s name ⟨ys, h⟩
    exact ⟨ys, h.enter name⟩
  · rintro s e he ⟨ys, h⟩
    exact ⟨ys, h.note e he⟩
  · rintro s sheet ⟨ys, h⟩
    exact ⟨_, (h.declared sheet).expandAll none none sheet.sections⟩

end Session

end NestedStyles
