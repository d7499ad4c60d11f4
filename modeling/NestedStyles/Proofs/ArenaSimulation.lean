import NestedStyles.Proofs.Ownership
import NestedStyles.Proofs.Renumbering

/-!
Sessions with an arena and sessions with a table do the same. The two number rules in different
orders, so a renumbering of the rules relates them. Every step of an import and every visit of the
pass keeps the relation, and the outputs are equal.
-/

namespace NestedStyles

namespace Arena

variable {nodes : Array RuleNode} {id : Nat}

theorem modifyRule_push_size (rule : Rule) (children : List Nat) (f : Rule → Rule) :
    modifyRule (nodes.push ⟨rule, children⟩) nodes.size f = nodes.push ⟨f rule, children⟩ := by
  apply Array.ext_getElem?
  intro i
  rw [getElem?_modifyRule, Array.getElem?_push, Array.getElem?_push]
  split <;> simp

theorem modifyRule_push_of_lt (hid : id < nodes.size) (node : RuleNode) (f : Rule → Rule) :
    modifyRule (nodes.push node) id f = (modifyRule nodes id f).push node := by
  apply Array.ext_getElem?
  intro i
  rw [getElem?_modifyRule, Array.getElem?_push, Array.getElem?_push, getElem?_modifyRule,
    size_modifyRule]
  by_cases hi : i = nodes.size
  · simp [hi, Nat.ne_of_gt hid]
  · simp [hi]

theorem modifyRule_pushChild (outer child : Nat) (f : Rule → Rule) :
    modifyRule (pushChild nodes outer child) id f =
      pushChild (modifyRule nodes id f) outer child := by
  apply Array.ext_getElem?
  intro i
  rw [getElem?_modifyRule, getElem?_pushChild, getElem?_pushChild, getElem?_modifyRule]
  split <;> split <;> simp [Function.comp_def]

end Arena

namespace ArenaSession

open Arena (Forest Spans Renumbers)

variable {a b : ArenaSession} {s : Session} {ρ : Equiv.Perm Nat} {front : List Nat} {id : Nat}

/-- A session with a table has what a session with an arena has, up to the numbers of rules.
`front` are the rules that the arena lists before the others. -/
structure Mirrors (ρ : Equiv.Perm Nat) (front : List Nat) (a : ArenaSession) (s : Session) :
    Prop where
  calls : s.calls = a.calls
  suffix : s.suffix = a.suffix
  imported : s.imported = a.imported
  templates : s.templates = a.templates
  scope : s.scope = a.scope
  log : s.log = a.log
  table : Renumbers ρ a.nodes s.table
  sections : a.sections.map ρ = front ++ s.top
  containers : s.containers = a.containers.map fun entry => (entry.1, ρ entry.2)
  targets : s.targets = a.targets.map fun entry => (entry.1, ρ entry.2)

theorem lookup_renumbered (ρ : Equiv.Perm Nat) (name : String) (entries : List (String × Nat)) :
    (entries.map fun entry => (entry.1, ρ entry.2)).lookup name =
      (entries.lookup name).map ρ := by
  induction entries with
  | nil => rfl
  | cons entry rest ih =>
    obtain ⟨key, id⟩ := entry
    cases hk : name == key <;> simp [List.lookup_cons, hk, ih]

theorem put_modify (path : Option String) (rule : Rule) (f : Rule → Rule) :
    ((a.alloc rule).put path a.nodes.size).modify a.nodes.size f =
      (a.alloc (f rule)).put path a.nodes.size := by
  cases path with
  | none => simp [put, alloc, ArenaSession.modify, Arena.modifyRule_push_size]
  | some path =>
    cases hl : a.containers.lookup path with
    | some container =>
      simp [put, addToContainer, alloc, hl, pushChild, ArenaSession.modify,
        Arena.modifyRule_pushChild, Arena.modifyRule_push_size]
    | none =>
      simp [put, addToContainer, alloc, hl, pushChild, ArenaSession.modify,
        Arena.modifyRule_pushChild, Arena.modifyRule_push_of_lt, Arena.modifyRule_push_size]

namespace Mirrors

theorem selectors (h : Mirrors ρ front a s) (id : Nat) :
    s.table.selectors (ρ id) = a.selectors id := by
  simp only [RuleTable.selectors, RuleTable.rule?, h.table.nodes id, ArenaSession.selectors,
    Option.map_map]
  rfl

theorem note (h : Mirrors ρ front a s) (events : List Event) :
    Mirrors ρ front (a.note events) (s.note events) :=
  { h with log := congrArg (· ++ events) h.log }

/-- The old rules keep their numbers, so all places where they stand can be read either way. -/
theorem renumber (h : Mirrors ρ front a s) (hs : a.Sound) {ρ' : Equiv.Perm Nat}
    (hρ : ∀ i < a.nodes.size, ρ' i = ρ i) :
    a.sections.map ρ' = front ++ s.top ∧
      s.containers = a.containers.map (fun entry => (entry.1, ρ' entry.2)) ∧
      s.targets = a.targets.map (fun entry => (entry.1, ρ' entry.2)) := by
  have howned := hs.owned
  refine ⟨?_, ?_, ?_⟩
  · rw [← h.sections]
    exact List.map_congr_left fun id hid => hρ id (howned.valid_sections id hid)
  · rw [h.containers]
    exact List.map_congr_left fun entry hin => by rw [hρ _ (howned.valid_containers entry hin)]
  · rw [h.targets]
    exact List.map_congr_left fun entry hin => by rw [hρ _ (howned.valid_targets entry hin)]

theorem modify (h : Mirrors ρ front a s) (id : Nat) (f : Rule → Rule) :
    Mirrors ρ front (a.modify id f) { s with table := s.table.modify (ρ id) f } :=
  { h with table := h.table.modifyRule id f }

theorem register (h : Mirrors ρ front a s) (id : Nat) (selectors : List Selector) :
    Mirrors ρ front (a.register id selectors) (s.register (ρ id) selectors) := by
  rw [Session.register_eq]
  refine { h with targets := ?_ }
  simp only [ArenaSession.register, List.map_append, ← h.targets, Session.registrations,
    List.map_reverse, List.map_filterMap]
  congr 3
  funext selector
  split <;> rfl

theorem place (h : Mirrors ρ front a s) (hs : a.Sound) (path : Option String) (rule : Rule) :
    ∃ ρ' : Equiv.Perm Nat, (∀ i < a.nodes.size, ρ' i = ρ i) ∧
      ρ' a.nodes.size = (s.place path rule).table.size - 1 ∧
      Mirrors ρ' front ((a.alloc rule).put path a.nodes.size) (s.place path rule) := by
  have hnew := h.table.fixed a.nodes.size (Nat.le_refl _)
  cases path with
  | none =>
    refine ⟨ρ, fun _ _ => rfl, by simp [Session.place, h.table.size, hnew], ?_⟩
    refine { h with table := h.table.push, sections := ?_ }
    simp [put, alloc, Session.place, h.sections, hnew, h.table.size]
  | some path =>
    have hlookup : s.containers.lookup path = (a.containers.lookup path).map ρ := by
      rw [h.containers, lookup_renumbered]
    cases hl : a.containers.lookup path with
    | some container =>
      obtain ⟨before, after, hs', -⟩ := List.lookup_eq_some_iff.1 hl
      have hlt : container < a.nodes.size := hs.owned.valid_containers (path, container)
        (by simp [hs'])
      have hplace : s.place (some path) rule =
          { s with table := s.table.pushInto (ρ container) rule } := by
        simp [Session.place, hlookup, hl]
      refine ⟨ρ, fun _ _ => rfl, by simp [hplace, h.table.size, hnew], ?_⟩
      rw [hplace]
      simp only [put, addToContainer, alloc, hl, pushChild]
      exact { h with table := h.table.pushInto hlt }
    | none =>
      have hplace : s.place (some path) rule =
          { s with
            table := (s.table.push { selectors := [[path]] }).pushInto s.table.size rule
            containers := s.containers ++ [(path, s.table.size)] } := by
        simp [Session.place, hlookup, hl]
      let ρ' := (Equiv.swap a.nodes.size (a.nodes.size + 1)).trans ρ
      have hold : ∀ i < a.nodes.size, ρ' i = ρ i := fun i hi =>
        congrArg ρ (Equiv.swap_apply_of_ne_of_ne (by omega) (by omega))
      obtain ⟨hsections, hcontainers, htargets⟩ := h.renumber hs hold
      have hnext := h.table.fixed (a.nodes.size + 1) (by omega)
      refine ⟨ρ', hold, by simp [hplace, ρ', h.table.size, hnext], ?_⟩
      rw [hplace]
      simp only [put, addToContainer, alloc, hl, pushChild, Array.size_push]
      refine { h with
        table := h.table.container hs.forest _
        sections := hsections
        containers := ?_
        targets := htargets }
      simp [hcontainers, ρ', h.table.size, hnew]

theorem addNested (h : Mirrors ρ front a s) (hs : a.Sound) (hid : id < a.nodes.size)
    (inner : Section) :
    ∃ ρ' : Equiv.Perm Nat, (∀ i < a.nodes.size, ρ' i = ρ i) ∧
      Mirrors ρ' front (a.addNested id inner)
        { s with table := s.table.addSection (ρ id) inner } := by
  obtain ⟨ρ', hold, htable⟩ := h.table.addSection hs.forest hid inner
  obtain ⟨hsections, hcontainers, htargets⟩ := h.renumber hs hold
  refine ⟨ρ', hold, ?_⟩
  exact { h with
    table := htable, sections := hsections, containers := hcontainers, targets := htargets }

theorem body (h : Mirrors ρ front a s) (hs : a.Sound) (hid : id < a.nodes.size)
    (nested : List Section) :
    ∃ ρ' : Equiv.Perm Nat, Mirrors ρ' front (nested.foldl (ArenaSession.addNested id) a)
      { s with table := s.table.addSections (ρ id) nested } := by
  induction nested generalizing a s ρ with
  | nil =>
    rw [RuleTable.addSections]
    exact ⟨ρ, h⟩
  | cons inner rest ih =>
    obtain ⟨ρ', hold, hnext⟩ := h.addNested hs hid inner
    obtain ⟨hsound, hlt⟩ := hs.addNested hid inner
    obtain ⟨ρ'', hrest⟩ := ih hnext hsound hlt
    rw [hold id hid] at hrest
    rw [RuleTable.addSections, List.foldl_cons]
    exact ⟨ρ'', hrest⟩

theorem hostAttributes (h : Mirrors ρ front a s) (hs : a.Sound) (path query : String)
    (outer : Option Nat) (attributes : List Attribute) :
    ∃ ρ' : Equiv.Perm Nat, Mirrors ρ' front (a.hostAttributes path query outer attributes)
      (s.hostAttributes path query ((outer.map a.selectors).getD []) attributes) := by
  unfold ArenaSession.hostAttributes Session.hostAttributes
  simp only
  split
  · exact ⟨ρ, h⟩
  · split
    · exact ⟨ρ, h.note _⟩
    · obtain ⟨ρ', -, -, hplaced⟩ := h.place hs (some path)
        { selectors := (outer.map a.selectors).getD [], attributes := attributes }
      exact ⟨ρ', hplaced⟩

end Mirrors

/-- The rules of an arena are still there with the same selectors. -/
def Selects (a b : ArenaSession) : Prop :=
  ∀ id < a.nodes.size, id < b.nodes.size ∧ b.selectors id = a.selectors id

theorem Selects.refl (a : ArenaSession) : a.Selects a := fun _ hid => ⟨hid, rfl⟩

theorem Selects.trans {c : ArenaSession} (h : a.Selects b) (k : b.Selects c) : a.Selects c := by
  intro id hid
  obtain ⟨hlt, hsame⟩ := h id hid
  obtain ⟨klt, ksame⟩ := k id hlt
  exact ⟨klt, ksame.trans hsame⟩

theorem Selects.outer {outer : Option Nat} (h : a.Selects b)
    (houter : ∀ id ∈ outer, id < a.nodes.size) :
    (∀ id ∈ outer, id < b.nodes.size) ∧ outer.map b.selectors = outer.map a.selectors := by
  cases outer with
  | none => exact ⟨by simp, rfl⟩
  | some id =>
    obtain ⟨hlt, hsame⟩ := h id (houter id rfl)
    exact ⟨by simpa using hlt, by simp [hsame]⟩

theorem selects_of_rules (h : ∀ id < a.nodes.size,
    b.nodes[id]?.map (·.rule.selectors) = a.nodes[id]?.map (·.rule.selectors)) : a.Selects b := by
  intro id hid
  refine ⟨?_, by simp [selectors, h id hid]⟩
  have hsome : (b.nodes[id]?.map (·.rule.selectors)).isSome := by
    rw [h id hid]
    simp [hid]
  by_contra hlt
  simp [Array.getElem?_eq_none (Nat.not_lt.1 hlt)] at hsome

theorem alloc_selects (rule : Rule) : a.Selects (a.alloc rule) := by
  refine selects_of_rules fun id hid => ?_
  simp [alloc, Array.getElem?_push, Nat.ne_of_lt hid]

theorem pushChild_selects (outer child : Nat) : a.Selects (a.pushChild outer child) := by
  refine selects_of_rules fun id _ => ?_
  rw [pushChild, Arena.getElem?_pushChild]
  split <;> simp [Function.comp_def]

theorem put_selects (path : Option String) (id : Nat) : a.Selects (a.put path id) := by
  cases path with
  | none => exact .refl a
  | some path =>
    cases hl : a.containers.lookup path with
    | some container =>
      simp only [put, addToContainer, hl]
      exact pushChild_selects container id
    | none =>
      simp only [put, addToContainer, hl]
      exact (alloc_selects (a := a) _).trans (pushChild_selects _ id)

theorem addNested_selects (id : Nat) (a : ArenaSession) (inner : Section) :
    a.Selects (a.addNested id inner) := by
  have hstored : a.Selects { a with nodes := (Arena.nestedRule a.nodes inner).1 } := by
    refine selects_of_rules fun id hid => ?_
    rw [(Arena.nestedRule_stores a.nodes inner).kept id hid]
  exact hstored.trans (pushChild_selects id _)

theorem hostAttributes_selects (path query : String) (outer : Option Nat)
    (attributes : List Attribute) : a.Selects (a.hostAttributes path query outer attributes) := by
  unfold hostAttributes
  simp only
  split
  · exact .refl a
  · split
    · exact .refl a
    · exact (alloc_selects _).trans (put_selects (some path) _)

/-- The selectors of a rule are set when it has its place, which makes no difference. -/
theorem expand_of_selectors {selectors : List Selector} (hne : selectors.isEmpty = false)
    (attributes : List Attribute) (nested : List Section) (extensions : List String)
    (references : List Reference) (media : Option Expr) (path : Option String)
    {outer : Option Nat} (houter : ∀ id ∈ outer, id < a.nodes.size) :
    a.expand path outer ⟨selectors, attributes, nested, extensions, references, media⟩ =
      (let combined := Session.combine selectors (outer.map a.selectors)
      let placed := ((a.alloc ⟨combined, attributes, extensions, references⟩).put path
        a.nodes.size).register a.nodes.size combined
      if Selector.isAtRule combined then nested.foldl (addNested a.nodes.size) placed
      else placed.expandAll path (some a.nodes.size) nested) ∧
    (((a.alloc ⟨Session.combine selectors (outer.map a.selectors), attributes, extensions,
      references⟩).put path a.nodes.size).selectors a.nodes.size =
        Session.combine selectors (outer.map a.selectors)) := by
  have hplaced : ∀ rule : Rule, a.Selects ((a.alloc rule).put path a.nodes.size) ∧
      ((a.alloc rule).put path a.nodes.size).selectors a.nodes.size = rule.selectors := by
    intro rule
    refine ⟨(alloc_selects rule).trans (put_selects path _), ?_⟩
    rw [(put_selects path a.nodes.size a.nodes.size (by simp [alloc])).2]
    simp [ArenaSession.selectors, alloc]
  have hsame := ((hplaced ⟨[], attributes, extensions, references⟩).1.outer houter).2
  refine ⟨?_, (hplaced _).2⟩
  have hset : ∀ combined : List Selector,
      (((a.alloc ⟨[], attributes, extensions, references⟩).put path a.nodes.size).register
        a.nodes.size combined).modify a.nodes.size (fun r => { r with selectors := combined }) =
      ((a.alloc ⟨combined, attributes, extensions, references⟩).put path a.nodes.size).register
        a.nodes.size combined := by
    intro combined
    have hmodify := put_modify (a := a) path ⟨[], attributes, extensions, references⟩
      fun r => { r with selectors := combined }
    exact congrArg (register · a.nodes.size combined) hmodify
  have hrule : ∀ combined : List Selector,
      (((a.alloc ⟨combined, attributes, extensions, references⟩).put path a.nodes.size).register
        a.nodes.size combined).selectors a.nodes.size = combined :=
    fun combined => (hplaced ⟨combined, attributes, extensions, references⟩).2
  rw [expand]
  simp only [hne, Bool.false_eq_true, if_false, hsame, hset, hrule]

mutual
theorem expand_mirrors (a : ArenaSession) (s : Session) (ρ : Equiv.Perm Nat) (hs : a.Sound)
    (h : Mirrors ρ front a s) (path : Option String) (outer : Option Nat)
    (houter : ∀ id ∈ outer, id < a.nodes.size) : ∀ inner : Section,
    a.Selects (a.expand path outer inner) ∧
      ∃ ρ', Mirrors ρ' front (a.expand path outer inner)
        (s.expand path (outer.map a.selectors) inner)
  | ⟨selectors, attributes, nested, extensions, references, media⟩ => by
    cases hne : selectors.isEmpty with
    | true =>
      rw [ArenaSession.expand, Session.expand]
      simp only [hne, if_true, queryText, Session.queryText_eq, h.calls, h.scope]
      generalize mediaQuery a.calls a.scope media = query
      have hnoted := hs.note query.2
      obtain ⟨ρ', hhost⟩ := (h.note query.2).hostAttributes hnoted
        (Session.mediaPath path query.1) query.1 outer attributes
      have hselects := hostAttributes_selects (a := a.note query.2)
        (Session.mediaPath path query.1) query.1 outer attributes
      obtain ⟨hvalid, hsame⟩ := hselects.outer houter
      obtain ⟨hrest, hmirrors⟩ := expandAll_mirrors _ _ ρ' (hnoted.hostAttributes _ _ _ _) hhost
        (some (Session.mediaPath path query.1)) outer hvalid nested
      rw [hsame] at hmirrors
      exact ⟨hselects.trans hrest, hmirrors⟩
    | false =>
      obtain ⟨hexpand, hrule⟩ := expand_of_selectors hne attributes nested extensions references
        media path houter
      rw [hexpand, Session.expand]
      simp only [hne, Bool.false_eq_true, if_false]
      generalize Session.combine selectors (outer.map a.selectors) = combined at *
      have hselects := (alloc_selects (a := a) ⟨combined, attributes, extensions, references⟩).trans
        (put_selects path a.nodes.size)
      obtain ⟨ρ', -, hid, hplaced⟩ := h.place hs path ⟨combined, attributes, extensions, references⟩
      obtain ⟨hsound, hlt⟩ := hs.place ⟨combined, attributes, extensions, references⟩ path
      generalize (a.alloc ⟨combined, attributes, extensions, references⟩).put path a.nodes.size = u
        at *
      generalize s.place path ⟨combined, attributes, extensions, references⟩ = v at *
      have hregistered := hplaced.register a.nodes.size combined
      have hsound' := hsound.register hlt combined
      rw [hid] at hregistered
      split
      · obtain ⟨ρ'', hbody⟩ := hregistered.body hsound' hlt nested
        rw [hid] at hbody
        exact ⟨hselects.trans (List.foldlRecOn nested _ (.refl u) fun b hb inner _ =>
          hb.trans (addNested_selects _ b inner)), ρ'', hbody⟩
      · obtain ⟨hrest, hmirrors⟩ := expandAll_mirrors _ _ ρ' hsound' hregistered path
          (some a.nodes.size) (fun _ hin => by cases hin; exact hlt) nested
        have hcombined : (u.register a.nodes.size combined).selectors a.nodes.size = combined :=
          hrule
        rw [Option.map_some, hcombined] at hmirrors
        exact ⟨hselects.trans hrest, hmirrors⟩
theorem expandAll_mirrors (a : ArenaSession) (s : Session) (ρ : Equiv.Perm Nat) (hs : a.Sound)
    (h : Mirrors ρ front a s) (path : Option String) (outer : Option Nat)
    (houter : ∀ id ∈ outer, id < a.nodes.size) : ∀ nested : List Section,
    a.Selects (a.expandAll path outer nested) ∧
      ∃ ρ', Mirrors ρ' front (a.expandAll path outer nested)
        (s.expandAll path (outer.map a.selectors) nested)
  | [] => by
    rw [ArenaSession.expandAll, Session.expandAll]
    exact ⟨.refl a, ρ, h⟩
  | inner :: rest => by
    rw [ArenaSession.expandAll, Session.expandAll]
    obtain ⟨hfirst, ρ', hmirrors⟩ := expand_mirrors a s ρ hs h path outer houter inner
    obtain ⟨hvalid, hsame⟩ := hfirst.outer houter
    obtain ⟨hrest, hlast⟩ := expandAll_mirrors _ _ ρ' (Sound.expand a hs path outer inner) hmirrors
      path outer hvalid rest
    rw [hsame] at hlast
    exact ⟨hfirst.trans hrest, hlast⟩
end

/-! Imports -/

/-- The arena is sound and the session with a table has what it has. -/
structure Related (a : ArenaSession) (s : Session) : Prop where
  sound : a.Sound
  mirrors : ∃ ρ, Mirrors ρ [] a s

namespace Related

theorem note (h : Related a s) (events : List Event) : Related (a.note events) (s.note events) := by
  obtain ⟨hs, ρ, hm⟩ := h
  exact ⟨hs.note events, ρ, hm.note events⟩

theorem enter (h : Related a s) (name : String) :
    Related { a with imported := name :: a.imported }
      { s with imported := name :: s.imported } := by
  obtain ⟨hs, ρ, hm⟩ := h
  exact ⟨⟨hs.forest, hs.targets⟩, ρ, { hm with imported := congrArg (name :: ·) hm.imported }⟩

theorem addTemplate (h : Related a s) (t : Template) :
    Related (a.addTemplate t) (s.addTemplate t) := by
  obtain ⟨hs, ρ, hm⟩ := h
  exact ⟨⟨hs.forest, hs.targets⟩, ρ,
    { hm with templates := congrArg ((t.name, t) :: ·) hm.templates }⟩

theorem declare (h : Related a s) (d : Declaration) : Related (a.declare d) (s.declare d) := by
  obtain ⟨hs, ρ, hm⟩ := h
  refine ⟨hs.declare d, ρ, ?_⟩
  unfold ArenaSession.declare Session.declare
  rw [hm.scope]
  split
  · exact hm.note _
  · exact { hm with scope := rfl }

theorem foldl {α : Type} {f : ArenaSession → α → ArenaSession} {g : Session → α → Session}
    (step : ∀ a s x, Related a s → Related (f a x) (g s x)) (h : Related a s) (xs : List α) :
    Related (xs.foldl f a) (xs.foldl g s) := by
  induction xs generalizing a s with
  | nil => exact h
  | cons x rest ih => exact ih (step a s x h)

theorem merge (h : Related a s) (sheet : Sheet) : Related (a.merge sheet) (s.merge sheet) := by
  have htemplates := h.foldl (fun _ _ t hk => hk.addTemplate t) sheet.templates
  have hdeclared := htemplates.foldl (fun _ _ d hk => hk.declare d) sheet.declarations
  obtain ⟨hs, ρ, hm⟩ := hdeclared
  refine ⟨Sound.expandAll _ hs none none sheet.sections, ?_⟩
  exact (expandAll_mirrors _ _ ρ hs hm none none (by simp) sheet.sections).2

/-- Two outcomes agree when the sessions do and both or neither failed, for one reason. -/
def Agree (o : Outcome) (o' : Session.Outcome) : Prop := Related o.1 o'.1 ∧ o.2 = o'.2

theorem each {step : ArenaSession → String → Outcome} {step' : Session → String → Session.Outcome}
    (hstep : ∀ a s name, Related a s → Agree (step a name) (step' s name)) (h : Related a s)
    (names : List String) : Agree (each step a names) (Session.each step' s names) := by
  induction names generalizing a s with
  | nil => exact ⟨h, rfl⟩
  | cons name rest ih =>
    obtain ⟨hnext, hresult⟩ := hstep a s name h
    rw [ArenaSession.each, Session.each]
    generalize step a name = o at *
    generalize step' s name = o' at *
    obtain ⟨next, result⟩ := o
    obtain ⟨next', result'⟩ := o'
    cases hresult
    cases result with
    | error e => exact ⟨hnext, rfl⟩
    | ok _ => exact ih hnext

theorem importNameWith {next : ArenaSession → Sheet → Outcome}
    {next' : Session → Sheet → Session.Outcome} (lib : Library)
    (hnext : ∀ a s sheet, Related a s → Agree (next a sheet) (next' s sheet)) (h : Related a s)
    (name : String) :
    Agree (importNameWith lib next a name) (Session.importNameWith lib next' s name) := by
  obtain ⟨ρ, hm⟩ := h.mirrors
  unfold ArenaSession.importNameWith Session.importNameWith
  simp only [hm.suffix, hm.imported]
  generalize Text.withEnding name a.suffix = file
  split
  · exact ⟨h.note _, rfl⟩
  · cases lib.load file with
    | error e => exact ⟨h.note _, rfl⟩
    | ok source =>
      cases hp : Sheet.parse file source with
      | error fault =>
        simp only [hp]
        exact ⟨h, rfl⟩
      | ok sheet =>
        simp only [hp]
        exact hnext a s sheet h

theorem importWithin (lib : Library) (fuel : Nat) (h : Related a s) (sheet : Sheet) :
    Agree (importWithin lib fuel a sheet) (Session.importWithin lib fuel s sheet) := by
  induction fuel generalizing a s sheet with
  | zero => exact ⟨h, rfl⟩
  | succ fuel ih =>
    obtain ⟨ρ, hm⟩ := h.mirrors
    unfold ArenaSession.importWithin Session.importWithin
    simp only [hm.imported]
    split
    · exact ⟨h.note _, rfl⟩
    · have hstart := (h.enter sheet.name).note [.importing sheet.name]
      rw [hm.imported] at hstart
      obtain ⟨hnext, hresult⟩ := hstart.each
        (fun _ _ name hk => hk.importNameWith lib (fun _ _ sheet hk => ih hk sheet) name)
        sheet.imports
      generalize ArenaSession.each _ _ sheet.imports = o at *
      generalize Session.each _ _ sheet.imports = o' at *
      obtain ⟨next, result⟩ := o
      obtain ⟨next', result'⟩ := o'
      cases hresult
      cases result with
      | error e => exact ⟨hnext, rfl⟩
      | ok _ => exact ⟨hnext.merge sheet, rfl⟩

end Related

def after (a : ArenaSession) : ImportStep → ArenaSession
  | .name lib name => (a.importName lib name).1
  | .sheet lib sheet => (a.importSheet lib sheet).1

theorem Related.after (h : Related a s) (step : ImportStep) :
    Related (a.after step) (s.after step) := by
  cases step with
  | name lib name =>
    exact (h.importNameWith lib (fun _ _ sheet hk => hk.importWithin lib _ sheet) name).1
  | sheet lib sheet => exact (h.importWithin lib _ sheet).1

theorem related_start (calls : Evaluator) (suffix : String) :
    Related { calls := calls, suffix := suffix } { calls := calls, suffix := suffix } := by
  refine ⟨⟨Arena.Forest.empty, by simp⟩, .refl Nat, ?_⟩
  constructor <;> try rfl
  exact ⟨rfl, fun _ _ => rfl, fun _ => rfl⟩

/-! The pass -/

/-- Stores rules as sections, and adds events. -/
def grow (a : ArenaSession) (rules : List Rule) (events : List Event) : ArenaSession :=
  { a with
    nodes := a.nodes ++ (rules.map fun rule => (⟨rule, []⟩ : RuleNode)).toArray
    sections := a.sections ++ List.range' a.nodes.size rules.length
    log := a.log ++ events }

theorem grow_grow (rules others : List Rule) (events more : List Event) :
    (a.grow rules events).grow others more = a.grow (rules ++ others) (events ++ more) := by
  simp [grow, Array.append_assoc]

theorem note_eq_grow (events : List Event) : a.note events = a.grow [] events := by
  simp [note, grow]

theorem append_eq_grow (rule : Rule) : a.append rule = a.grow [rule] [] := by
  simp [append, alloc, grow]

theorem foldl_append_eq_grow (rules : List Rule) : rules.foldl append a = a.grow rules [] := by
  induction rules generalizing a with
  | nil => simp [grow]
  | cons rule rest ih =>
    rw [List.foldl_cons, ih, append_eq_grow, grow_grow]
    rfl

theorem nodes_grow (rules : List Rule) (events : List Event) (hid : id < a.nodes.size) :
    (a.grow rules events).nodes[id]? = a.nodes[id]? :=
  Array.getElem?_append_left hid

theorem modify_grow (hid : id < a.nodes.size) (f : Rule → Rule) (rules : List Rule)
    (events : List Event) :
    (a.grow rules events).modify id f = (a.modify id f).grow rules events := by
  have hnodes : ∀ more : Array RuleNode,
      Arena.modifyRule (a.nodes ++ more) id f = Arena.modifyRule a.nodes id f ++ more := by
    intro more
    apply Array.ext_getElem?
    intro i
    simp only [Arena.getElem?_modifyRule, Array.getElem?_append, Arena.size_modifyRule]
    by_cases hi : i = id
    · simp [hi, hid]
    · simp [hi]
  simp [ArenaSession.modify, hnodes, grow]

theorem modify_modify (f g : Rule → Rule) : (a.modify id f).modify id g = a.modify id (g ∘ f) := by
  have hnodes : Arena.modifyRule (Arena.modifyRule a.nodes id f) id g =
      Arena.modifyRule a.nodes id (g ∘ f) := by
    apply Array.ext_getElem?
    intro i
    simp only [Arena.getElem?_modifyRule]
    split <;> simp [Function.comp_def]
  simp [ArenaSession.modify, hnodes]

theorem modify_congr {node : RuleNode} {f g : Rule → Rule} (hn : a.nodes[id]? = some node)
    (h : f node.rule = g node.rule) : a.modify id f = a.modify id g := by
  have hnodes : Arena.modifyRule a.nodes id f = Arena.modifyRule a.nodes id g := by
    apply Array.ext_getElem?
    intro i
    simp only [Arena.getElem?_modifyRule]
    split
    · next hi => simp [hi, hn, h]
    · rfl
  simp [ArenaSession.modify, hnodes]

theorem modify_id : a.modify id (fun r => r) = a := by
  have hnodes : Arena.modifyRule a.nodes id (fun r => r) = a.nodes := by
    apply Array.ext_getElem?
    intro i
    simp [Arena.getElem?_modifyRule]
  simp [ArenaSession.modify, hnodes]

theorem applyReferences_eq (hid : id < a.nodes.size) (references : List Reference) :
    a.applyReferences id references =
      (let calls := Expansion.ofReferences a.calls a.scope a.templates (a.selectors id) references
      (a.modify id fun r => { r with attributes := r.attributes ++ calls.attributes }).grow
        calls.rules calls.events) := by
  induction references generalizing a with
  | nil => simp [applyReferences, Expansion.ofReferences, modify_id, ← note_eq_grow, note]
  | cons r rest ih =>
    cases ht : a.templates.lookup r.name with
    | none =>
      simp [applyReferences, Expansion.ofReferences, ht, modify_id, warn, note_eq_grow]
    | some t =>
      have hcall : a.applyTemplate id r t =
          (a.modify id fun rule => { rule with attributes := rule.attributes ++
            (Expansion.ofCall a.calls a.scope (a.selectors id) r t).attributes }).grow
            (Expansion.ofCall a.calls a.scope (a.selectors id) r t).rules
            (Expansion.ofCall a.calls a.scope (a.selectors id) r t).events := by
        simp [applyTemplate, foldl_append_eq_grow, note_eq_grow, grow_grow]
      have hselectors : (a.applyTemplate id r t).selectors id = a.selectors id := by
        rw [hcall, selectors, nodes_grow _ _ (by simpa [ArenaSession.modify] using hid), selectors]
        simp [ArenaSession.modify, Arena.getElem?_modifyRule, Function.comp_def]
      have hsize : id < (a.applyTemplate id r t).nodes.size := by
        rw [hcall]
        simp [grow, ArenaSession.modify]
        omega
      rw [applyReferences, ht]
      simp only [ih hsize, hselectors]
      rw [hcall]
      simp only [Expansion.ofReferences, ht, Expansion.append]
      rw [modify_grow (by simpa [ArenaSession.modify] using hid), modify_modify, grow_grow]
      simp [Function.comp_def, grow, ArenaSession.modify]

theorem evalFirst_applyReferences {node : RuleNode} (hn : a.nodes[id]? = some node)
    (references : List Reference) :
    (a.applyReferences id references).evalFirst id node.rule.attributes.length =
      (let calls := Expansion.ofReferences a.calls a.scope a.templates (a.selectors id) references
      (a.grow calls.rules
        (calls.events ++ node.rule.attributes.flatMap (·.met a.calls a.scope))).modify id fun r =>
          { r with
            attributes :=
              node.rule.attributes.map (·.evaluated a.calls a.scope) ++ calls.attributes }) := by
  have hid : id < a.nodes.size := (Array.getElem?_eq_some_iff.1 hn).1
  rw [applyReferences_eq hid]
  simp only
  generalize Expansion.ofReferences a.calls a.scope a.templates (a.selectors id) references = calls
  have hrule : ((a.modify id fun r => { r with
      attributes := r.attributes ++ calls.attributes }).grow calls.rules calls.events).nodes[id]? =
        some { node with rule := { node.rule with
          attributes := node.rule.attributes ++ calls.attributes } } := by
    rw [nodes_grow _ _ (by simpa [ArenaSession.modify] using hid)]
    simp [ArenaSession.modify, Arena.getElem?_modifyRule, hn]
  simp only [evalFirst, hrule, Option.map_some, Option.getD_some, List.take_left]
  rw [modify_grow (by simpa [ArenaSession.modify] using hid), modify_modify, note_eq_grow,
    grow_grow, List.append_nil, modify_grow hid]
  refine congrArg (grow · calls.rules _) (modify_congr hn ?_)
  simp [grow, ArenaSession.modify]

namespace Mirrors

theorem extend (h : Mirrors ρ front a s) (id : Nat) (target : String) :
    Mirrors ρ front (a.extend id target) (s.extend (ρ id) target) := by
  have hlookup : s.targets.lookup target = (a.targets.lookup target).map ρ := by
    rw [h.targets, lookup_renumbered]
  cases hl : a.targets.lookup target with
  | none =>
    rw [Session.extend_of_none _ (by rw [hlookup, hl, Option.map_none]), h.selectors id]
    simp only [ArenaSession.extend, hl]
    exact h.note _
  | some found =>
    rw [Session.extend_of_some _ (by rw [hlookup, hl, Option.map_some]), h.selectors id]
    simp only [ArenaSession.extend, hl]
    exact h.modify found _

theorem extendAll (h : Mirrors ρ front a s) (id : Nat) (targets : List String) :
    Mirrors ρ front (targets.foldl (ArenaSession.extend id) a)
      (targets.foldl (Session.extend (ρ id)) s) := by
  induction targets generalizing a s with
  | nil => exact h
  | cons target rest ih => exact ih (h.extend id target)

theorem grow (h : Mirrors ρ front a s) (rules : List Rule) (events : List Event) :
    Mirrors ρ front (a.grow rules events) (s.grow rules events) := by
  induction rules generalizing a s with
  | nil =>
    rw [← ArenaSession.note_eq_grow, ← Session.note_eq_grow]
    exact h.note events
  | cons rule rest ih =>
    have hone : Mirrors ρ front (a.grow [rule] []) (s.grow [rule] []) := by
      have hnew := h.table.fixed a.nodes.size (Nat.le_refl _)
      rw [← append_eq_grow, ← Session.place_none_eq_grow]
      refine { h with table := h.table.push, sections := ?_ }
      simp [append, Session.place, h.sections, hnew, h.table.size]
    have hrest := ih hone
    rwa [ArenaSession.grow_grow, Session.grow_grow] at hrest

theorem rule? (h : Mirrors ρ front a s) (id : Nat) :
    s.table.rule? (ρ id) = a.nodes[id]?.map (·.rule) := by
  rw [RuleTable.rule?, h.table.nodes id, Option.map_map]
  rfl

theorem compileOne (h : Mirrors ρ front a s) (id : Nat) :
    Mirrors ρ front (a.compileOne id) (s.compileRule (ρ id)) := by
  cases hn : a.nodes[id]? with
  | none =>
    have hr : s.table.rule? (ρ id) = none := by rw [h.rule?, hn, Option.map_none]
    simpa [ArenaSession.compileOne, Session.compileRule, hn, hr] using h
  | some node =>
    have hr : s.table.rule? (ρ id) = some node.rule := by rw [h.rule?, hn, Option.map_some]
    have hextended := h.extendAll id node.rule.extensions
    have hkeeps := s.extendAll_keeps (ρ id) node.rule.extensions
    obtain ⟨more, hmore⟩ := s.extendAll_nodes (ρ id) node.rule.extensions (ρ id)
    rw [hextended.table.nodes, h.table.nodes, hn] at hmore
    rw [Session.compileRule_eq hr]
    simp only [ArenaSession.compileOne, hn]
    generalize node.rule.extensions.foldl (ArenaSession.extend id) a = b at *
    generalize node.rule.extensions.foldl (Session.extend (ρ id)) s = u at *
    obtain ⟨changed, hb, hchanged⟩ := Option.map_eq_some_iff.1 hmore
    have hattributes : changed.rule.attributes = node.rule.attributes :=
      congrArg (·.rule.attributes) hchanged
    have hsettled := evalFirst_applyReferences hb node.rule.references
    rw [hattributes] at hsettled
    rw [hsettled, hextended.selectors, ← hextended.calls, ← hextended.scope, ← hextended.templates,
      hkeeps.calls, hkeeps.scope, hkeeps.templates]
    simp only [Expansion.attributes_ofReferences]
    exact (hextended.grow _ _).modify id _

theorem gather (h : Mirrors ρ [] a s) : Mirrors ρ (s.containers.map (·.2)) a.gather s := by
  refine { h with sections := ?_ }
  have hsections := h.sections
  simp [ArenaSession.gather, hsections, h.containers, Function.comp_def]

theorem visits {order ids : List Nat} (h : Mirrors ρ front a s) (k : Visits a ids order b) :
    Mirrors ρ front b ((order.map ρ).foldl Session.compileRule s) := by
  induction k generalizing s with
  | done a => exact h
  | visit _ _ _ ihinside ihrest =>
    rw [List.cons_append, List.map_cons, List.map_append, List.foldl_cons, List.foldl_append]
    exact ihrest (ihinside (h.compileOne _))

end Mirrors

/-- The output of a session with an arena is that of the session with a table. -/
theorem Related.compile_eq {order reached : List Nat} {rules : List FlatRule}
    {dropped : List (List Selector)} (h : Related a s)
    (hforest : s.table.Forest s.roots)
    (hvisits : Visits a.gather a.gather.sections order b)
    (hspans : Arena.Spans a.nodes a.roots order)
    (hfinishes : Finishes b.nodes b.sections reached rules dropped) :
    s.compile = ⟨rules, b.log ++ dropped.map .pruned⟩ := by
  obtain ⟨ρ, hm⟩ := h.mirrors
  have hroots : a.roots.map ρ = s.roots := by
    have hsections := hm.sections
    simp [roots, Session.roots, hsections, hm.containers, Function.comp_def]
  have hcompiled := hm.gather.visits hvisits
  rw [hm.table.order_eq hspans, hroots] at hcompiled
  change Mirrors ρ _ b s.compileRules at hcompiled
  have hcontainers := (Session.compileRules_visited hforest).keeps.containers
  obtain ⟨hrules, hdropped⟩ := hcompiled.table.finishes hfinishes
  rw [hcompiled.sections, ← hcontainers] at hrules hdropped
  rw [Session.compile, hrules, hdropped, ← hcompiled.log]
  rfl

/-- After any imports every rule of the arena stands in one place and none inside itself. The pass
ends; it compiles every rule stored before it once and no other, and changes no children, extensions
or references. Building the output ends and meets every rule once. The output is that of the session
with a table, whose rules are those of the arena under other numbers. -/
theorem rules_owned_and_visited_once (calls : Evaluator) (suffix : String)
    (steps : List ImportStep) :
    let a := steps.foldl after ({ calls := calls, suffix := suffix } : ArenaSession)
    let s := steps.foldl Session.after ({ calls := calls, suffix := suffix } : Session)
    a.Owned ∧
    (∃ ρ, Mirrors ρ [] a s) ∧
    ∃ (order : List Nat) (b : ArenaSession), Visits a.gather a.gather.sections order b ∧
      (∀ order' b', Visits a.gather a.gather.sections order' b' → order' = order ∧ b' = b) ∧
      order.Perm (List.range a.nodes.size) ∧ a.Keeps b ∧
      ∃ (reached : List Nat) (rules : List FlatRule) (dropped : List (List Selector)),
        Finishes b.nodes b.sections reached rules dropped ∧
        (∀ reached' rules' dropped', Finishes b.nodes b.sections reached' rules' dropped' →
          reached' = reached ∧ rules' = rules ∧ dropped' = dropped) ∧
        reached.Perm (List.range b.nodes.size) ∧
        s.compile = ⟨rules, b.log ++ dropped.map .pruned⟩ := by
  intro a s
  have hrelated : Related a s := by
    have hrun : ∀ (steps : List ImportStep) (a : ArenaSession) (s : Session), Related a s →
        Related (steps.foldl after a) (steps.foldl Session.after s) := by
      intro steps
      induction steps with
      | nil => exact fun a s h => h
      | cons step rest ih => exact fun a s h => ih _ _ (h.after step)
    exact hrun steps _ _ (related_start calls suffix)
  have hstart : ({ calls := calls, suffix := suffix } : Session).Reachable :=
    ⟨[], .start calls suffix⟩
  obtain ⟨ys, hs⟩ : s.Reachable := hstart.afterAll steps
  obtain ⟨order, hspans, horder⟩ := hrelated.sound.forest
  obtain ⟨b, hvisits⟩ := exists_visits (b := a.gather) hspans (.refl a)
  obtain ⟨reached, hreached, hall⟩ := hvisits.steps.forest ⟨order, hspans, horder⟩
  obtain ⟨rules, dropped, hfinishes⟩ := exists_finishes hreached
  refine ⟨hrelated.sound.owned, hrelated.mirrors, order, b, hvisits, fun _ _ k => hvisits.unique k,
    horder, hvisits.steps.keeps, reached, rules, dropped, hfinishes,
    fun _ _ _ k => hfinishes.unique k, hall, ?_⟩
  exact hrelated.compile_eq hs.realizes.forest hvisits hspans hfinishes

end ArenaSession

end NestedStyles
