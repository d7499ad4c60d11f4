import NestedStyles.Proofs.Reports
import Mathlib.Data.List.Chain
import Mathlib.Data.List.TakeWhile

/-!
Extensions. A visit puts the selectors that a rule has by then before those of the rules it
extends. So a rule gets the selectors of every rule from which a chain of extensions leads to it, if
the rules of the chain are visited in the order of the chain.
-/

namespace NestedStyles

/-- The name of an extension that found no rule, and the selectors of the rule that has it. -/
def Warning.missing? : Warning → Option (String × List Selector)
  | .unknownTarget name selectors => some (name, selectors)
  | _ => none

theorem Warning.missing_apart : Warning.Apart Warning.missing? :=
  ⟨⟨fun _ => rfl, fun _ => rfl⟩, fun _ _ _ _ => rfl, fun _ _ => rfl⟩

theorem Session.History.missing_log {ys : List Yield} {s : Session} (h : History ys s) :
    reported Warning.missing? s.log = [] :=
  Warning.missing_apart.history (fun _ => rfl) h

def RuleTable.extensions (t : RuleTable) (id : Nat) : List String :=
  ((t.rule? id).map (·.extensions)).getD []

theorem RuleTable.selectors_of_node {t : RuleTable} {id : Nat} {node : RuleNode}
    (h : t.nodes[id]? = some node) : t.selectors id = node.rule.selectors :=
  selectors_of_rule? (rule?_of_node h)

theorem RuleTable.extensions_of_rule? {t : RuleTable} {id : Nat} {rule : Rule}
    (h : t.rule? id = some rule) : t.extensions id = rule.extensions := by
  simp [extensions, h]

theorem RuleTable.extensions_of_node {t : RuleTable} {id : Nat} {node : RuleNode}
    (h : t.nodes[id]? = some node) : t.extensions id = node.rule.extensions :=
  extensions_of_rule? (rule?_of_node h)

namespace Session

variable {s u : Session} {ys : List Yield} {id target first : Nat} {name : String}
  {names : List String} {x : Selector} {order : List Nat}

/-! A visit -/

theorem extend_selectors (s : Session) (id : Nat) (name : String) (h : target < s.table.size) :
    (s.extend id name).table.selectors target =
      if s.targets.lookup name = some target then
        s.table.selectors id ++ s.table.selectors target
      else s.table.selectors target := by
  obtain ⟨node, hn⟩ := RuleTable.node_of_lt_size h
  cases hl : s.targets.lookup name with
  | none =>
    rw [extend_of_none id hl]
    simp [warn, note]
  | some found =>
    rw [extend_of_some id hl]
    by_cases hfound : target = found
    · subst hfound
      simp [RuleTable.selectors, RuleTable.rule?, RuleTable.nodes_modify, hn]
    · simp [RuleTable.selectors, RuleTable.rule?, RuleTable.nodes_modify, hfound, Ne.symm hfound]

theorem mem_selectors_extend (s : Session) (id : Nat) (name : String)
    (h : target < s.table.size) :
    x ∈ (s.extend id name).table.selectors target ↔
      x ∈ s.table.selectors target ∨
        s.targets.lookup name = some target ∧ x ∈ s.table.selectors id := by
  rw [extend_selectors s id name h]
  by_cases hl : s.targets.lookup name = some target
  · simp [hl, or_comm]
  · simp [hl]

/-- A rule that extends itself repeats selectors and gets no new ones. -/
theorem mem_selectors_extend_self (s : Session) (name : String) (h : id < s.table.size) :
    x ∈ (s.extend id name).table.selectors id ↔ x ∈ s.table.selectors id := by
  rw [mem_selectors_extend s id name h]
  exact ⟨fun hx => hx.elim (fun hx => hx) (·.2), .inl⟩

theorem suffix_selectors_extend (s : Session) (id : Nat) (name : String)
    (h : target < s.table.size) :
    s.table.selectors target <:+ (s.extend id name).table.selectors target := by
  rw [extend_selectors s id name h]
  split
  · exact List.suffix_append _ _
  · exact List.suffix_refl _

theorem mem_selectors_extendAll (s : Session) (hid : id < s.table.size)
    (h : target < s.table.size) :
    x ∈ (names.foldl (extend id) s).table.selectors target ↔
      x ∈ s.table.selectors target ∨
        (∃ name ∈ names, s.targets.lookup name = some target) ∧ x ∈ s.table.selectors id := by
  induction names generalizing s with
  | nil => simp
  | cons name rest ih =>
    have hkeeps := s.extend_keeps id name
    rw [List.foldl_cons, ih _ (Nat.lt_of_lt_of_le hid hkeeps.size_le)
      (Nat.lt_of_lt_of_le h hkeeps.size_le), mem_selectors_extend s id name h,
      mem_selectors_extend_self s name hid, hkeeps.targets]
    simp only [List.mem_cons, exists_eq_or_imp]
    tauto

theorem missing_extend (s : Session) (id : Nat) (name : String) :
    reported Warning.missing? (s.extend id name).log =
      reported Warning.missing? s.log ++
        if s.targets.lookup name = none then [(name, s.table.selectors id)] else [] := by
  cases hl : s.targets.lookup name with
  | none =>
    rw [extend_of_none id hl, warn, note, reported_append, if_pos rfl]
    rfl
  | some found =>
    rw [extend_of_some id hl]
    simp

/-- A report of the extension `name`. The selectors it shows end in `own`, and they are the ones of
`all`, some of them more than once if the rule extends itself. -/
structure Reported (own : List Selector) (all : Selector → Prop) (name : String)
    (report : String × List Selector) : Prop where
  named : report.1 = name
  ends : own <:+ report.2
  mem_iff : ∀ x, x ∈ report.2 ↔ all x

theorem missing_extendAll (s : Session) (hid : id < s.table.size) (names : List String) :
    ∃ reports, reported Warning.missing? (names.foldl (extend id) s).log =
        reported Warning.missing? s.log ++ reports ∧
      List.Forall₂ (Reported (s.table.selectors id) (· ∈ s.table.selectors id))
        (names.filter fun name => s.targets.lookup name = none) reports := by
  induction names generalizing s with
  | nil => exact ⟨[], by simp, .nil⟩
  | cons name rest ih =>
    have hkeeps := s.extend_keeps id name
    obtain ⟨reports, hlog, hreported⟩ := ih _ (Nat.lt_of_lt_of_le hid hkeeps.size_le)
    rw [hkeeps.targets] at hreported
    have hrest : List.Forall₂ (Reported (s.table.selectors id) (· ∈ s.table.selectors id))
        (rest.filter fun name => s.targets.lookup name = none) reports := by
      refine hreported.imp fun other report hreport => ⟨hreport.named, ?_, fun x => ?_⟩
      · exact (s.suffix_selectors_extend id name hid).trans hreport.ends
      · rw [hreport.mem_iff, mem_selectors_extend_self s name hid]
    rw [List.foldl_cons, hlog, missing_extend, List.append_assoc]
    refine ⟨_, rfl, ?_⟩
    by_cases hl : s.targets.lookup name = none
    · simp only [hl, List.filter_cons, decide_true, if_true, List.singleton_append]
      exact .cons ⟨rfl, List.suffix_refl _, fun x => Iff.rfl⟩ hrest
    · simpa [hl, List.filter_cons] using hrest

theorem compileRule_selectors (s : Session) (id : Nat) (h : target < s.table.size) :
    (s.compileRule id).table.selectors target =
      ((s.table.extensions id).foldl (extend id) s).table.selectors target := by
  cases hr : s.table.rule? id with
  | none => simp [compileRule, RuleTable.extensions, hr]
  | some rule =>
    have hlt : target < (rule.extensions.foldl (extend id) s).table.size :=
      Nat.lt_of_lt_of_le h (s.extendAll_keeps id rule.extensions).size_le
    obtain ⟨node, hn⟩ := RuleTable.node_of_lt_size hlt
    rw [compileRule_eq hr, RuleTable.extensions_of_rule? hr, RuleTable.selectors_of_node hn]
    by_cases hid : target = id
    · show _ = (node.changed [] (rule.settled s.calls s.scope s.templates)).rule.selectors
      apply RuleTable.selectors_of_node
      rw [RuleTable.nodes_modify, if_pos hid, nodes_grow _ _ hlt, hn]
      rfl
    · apply RuleTable.selectors_of_node
      rw [RuleTable.nodes_modify, if_neg hid, nodes_grow _ _ hlt, hn]

theorem mem_selectors_compileRule (s : Session) (hid : id < s.table.size)
    (h : target < s.table.size) :
    x ∈ (s.compileRule id).table.selectors target ↔
      x ∈ s.table.selectors target ∨
        (∃ name ∈ s.table.extensions id, s.targets.lookup name = some target) ∧
          x ∈ s.table.selectors id := by
  rw [compileRule_selectors s id h, mem_selectors_extendAll s hid h]

theorem reported_compileRule {α : Type} {find : Warning → Option α} (hfind : Warning.Apart find)
    (s : Session) (id : Nat) :
    reported find (s.compileRule id).log =
      reported find ((s.table.extensions id).foldl (extend id) s).log := by
  cases hr : s.table.rule? id with
  | none => simp [compileRule, RuleTable.extensions, hr]
  | some rule => rw [RuleTable.extensions_of_rule? hr, hfind.compileRule hr]

/-! Chains of extensions -/

def ExtendsTo (s : Session) (yields : List Yield) (id target : Nat) : Prop :=
  ∃ name ∈ s.table.extensions id, s.Resolves yields name target

/-- Extensions lead from `first` over any number of rules to `target`. The rules before `target`
stand in `order` one after the other. -/
def ChainsTo (s : Session) (yields : List Yield) (order : List Nat) (first target : Nat) : Prop :=
  ∃ rest, (first :: rest).Sublist order ∧
    List.IsChain (s.ExtendsTo yields) (first :: rest ++ [target])

/-- A selector is one of `target` or of a rule from which a chain leads to it. -/
def Reaches (s : Session) (yields : List Yield) (order : List Nat) (x : Selector)
    (target : Nat) : Prop :=
  x ∈ s.table.selectors target ∨
    ∃ first, s.ChainsTo yields order first target ∧ x ∈ s.table.selectors first

theorem chainsTo_concat :
    s.ChainsTo ys (order ++ [id]) first target ↔
      s.ChainsTo ys order first target ∨
        s.ExtendsTo ys id target ∧ (first = id ∨ s.ChainsTo ys order first id) := by
  constructor
  · rintro ⟨rest, hsub, hchain⟩
    obtain ⟨before, last, hsplit, hbefore, hlast⟩ := List.sublist_append_iff.1 hsub
    -- `id` is the last rule of the chain or none of it
    rcases List.sublist_singleton.1 hlast with rfl | rfl
    · rw [List.append_nil] at hsplit
      exact .inl ⟨rest, hsplit ▸ hbefore, hchain⟩
    · right
      rw [hsplit, List.append_assoc, List.singleton_append, List.isChain_split,
        List.isChain_pair] at hchain
      refine ⟨hchain.2, ?_⟩
      cases before with
      | nil =>
        left
        exact (List.cons.inj hsplit).1
      | cons a before =>
        cases hsplit
        exact .inr ⟨before, hbefore, hchain.1⟩
  · rintro (⟨rest, hsub, hchain⟩ | ⟨hextends, rfl | ⟨rest, hsub, hchain⟩⟩)
    · exact ⟨rest, hsub.trans (List.sublist_append_left order [id]), hchain⟩
    · refine ⟨[], List.sublist_append_right order [first], ?_⟩
      exact List.isChain_pair.2 hextends
    · refine ⟨rest ++ [id], hsub.append_right [id], ?_⟩
      have hlink := List.isChain_split.2 ⟨hchain, List.isChain_pair.2 hextends⟩
      simpa using hlink

theorem reaches_concat :
    s.Reaches ys (order ++ [id]) x target ↔
      s.Reaches ys order x target ∨ s.ExtendsTo ys id target ∧ s.Reaches ys order x id := by
  simp only [Reaches, chainsTo_concat]
  constructor
  · rintro (hx | ⟨first, hchain | ⟨hextends, rfl | hchain⟩, hx⟩)
    · exact .inl (.inl hx)
    · exact .inl (.inr ⟨first, hchain, hx⟩)
    · exact .inr ⟨hextends, .inl hx⟩
    · exact .inr ⟨hextends, .inr ⟨first, hchain, hx⟩⟩
  · rintro ((hx | ⟨first, hchain, hx⟩) | ⟨hextends, hx | ⟨first, hchain, hx⟩⟩)
    · exact .inl hx
    · exact .inr ⟨first, .inl hchain, hx⟩
    · exact .inr ⟨id, .inr ⟨hextends, .inl rfl⟩, hx⟩
    · exact .inr ⟨first, .inr ⟨hextends, .inr hchain⟩, hx⟩

theorem not_chainsTo_nil : ¬ s.ChainsTo ys [] first target := by
  rintro ⟨rest, hsub, -⟩
  cases hsub

def visitedBefore (s : Session) (id : Nat) : List Nat := s.visitOrder.takeWhile (· ≠ id)

/-- The extensions of a rule that find nothing, since no yielded rule has their name. -/
def missing (s : Session) (yields : List Yield) (id : Nat) : List (Nat × String) :=
  ((s.table.extensions id).filter fun name => ∀ y ∈ yields, ¬ y.Names name).map (id, ·)

/-- What an extension that finds nothing is reported with: the selectors of its rule when that is
visited. -/
def ReportedAt (s : Session) (yields : List Yield) (found : Nat × String) :
    String × List Selector → Prop :=
  Reported (s.table.selectors found.1)
    (s.Reaches yields (s.visitedBefore found.1) · found.1) found.2

/-- What the pass has done after the rules of `visited`. -/
structure Extended (s : Session) (yields : List Yield) (visited : List Nat) (u : Session) :
    Prop where
  visits : s.Visited visited u
  selectors : ∀ target < s.table.size, ∀ x,
    x ∈ u.table.selectors target ↔ s.Reaches yields visited x target
  reports : List.Forall₂ (s.ReportedAt yields) (visited.flatMap (s.missing yields))
    (reported Warning.missing? u.log)

theorem Visited.selectors_suffix (h : s.Visited order u) (hid : id < s.table.size) :
    s.table.selectors id <:+ u.table.selectors id := by
  obtain ⟨node, hn⟩ := RuleTable.node_of_lt_size hid
  obtain ⟨more, hmore⟩ := h.nodes id node hn
  rw [RuleTable.selectors_of_node hn, RuleTable.selectors_of_node hmore]
  exact List.suffix_append more _

theorem Visited.extensions (h : s.Visited order u) (hid : id < s.table.size) :
    u.table.extensions id = s.table.extensions id := by
  obtain ⟨node, hn⟩ := RuleTable.node_of_lt_size hid
  obtain ⟨more, hmore⟩ := h.nodes id node hn
  rw [RuleTable.extensions_of_node hn, RuleTable.extensions_of_node hmore]
  rfl

theorem Extended.start (hlog : reported Warning.missing? s.log = []) : s.Extended ys [] s := by
  constructor
  · exact .start s
  · intro target _ x
    simp [Reaches, not_chainsTo_nil]
  · rw [hlog]
    exact .nil

/-- One visit adds the chains that end in the visited rule. -/
theorem Extended.step (hs : s.Realizes ys) (h : s.Extended ys order u) (hid : id < s.table.size)
    (hbefore : s.visitedBefore id = order) :
    s.Extended ys (order ++ [id]) (u.compileRule id) := by
  have hkeeps := h.visits.keeps
  have hid' : id < u.table.size := Nat.lt_of_lt_of_le hid hkeeps.size_le
  have hnew : id ∉ order := by
    rw [← hbefore]
    intro hin
    simpa using List.mem_takeWhile_imp hin
  constructor
  · exact h.visits.step hnew
  · intro target htarget x
    have hextends : (∃ name ∈ u.table.extensions id, u.targets.lookup name = some target) ↔
        s.ExtendsTo ys id target := by
      simp only [h.visits.extensions hid, hkeeps.targets, hs.resolved, ExtendsTo]
    -- `id` passes on the selectors it has by now: its own and those that chains brought before
    rw [mem_selectors_compileRule u hid' (Nat.lt_of_lt_of_le htarget hkeeps.size_le), hextends,
      h.selectors target htarget, h.selectors id hid, reaches_concat]
  · obtain ⟨reports, hlog, hreported⟩ :=
      missing_extendAll u hid' (u.table.extensions id)
    -- neither the calls of a rule nor its attributes report an extension
    rw [reported_compileRule Warning.missing_apart, hlog, List.flatMap_append]
    refine List.rel_append h.reports ?_
    simp only [List.flatMap_cons, List.flatMap_nil, List.append_nil, missing,
      List.forall₂_map_left_iff]
    rw [h.visits.extensions hid, hkeeps.targets] at hreported
    simp only [hs.lookup_eq_none_iff] at hreported
    refine hreported.imp fun name report hreport => ⟨hreport.named, ?_, fun x => ?_⟩
    · exact (h.visits.selectors_suffix hid).trans hreport.ends
    · rw [hreport.mem_iff, h.selectors id hid, hbefore]

theorem visitedBefore_eq (h : s.table.Forest s.roots) {later : List Nat}
    (horder : s.visitOrder = order ++ id :: later) : s.visitedBefore id = order := by
  have hnodup : (order ++ id :: later).Nodup := horder ▸ h.nodup
  have hne : ∀ x ∈ order, decide (x ≠ id) = true := by
    intro x hx
    simpa using (List.nodup_append.1 hnodup).2.2 x hx id (by simp)
  rw [visitedBefore, horder, List.takeWhile_append_of_pos hne, List.takeWhile_cons_of_neg (by simp),
    List.append_nil]

theorem Extended.run (hs : s.Realizes ys) (h : s.Extended ys order u) (later : List Nat)
    (horder : s.visitOrder = order ++ later) :
    s.Extended ys s.visitOrder (later.foldl compileRule u) := by
  induction later generalizing order u with
  | nil =>
    rw [horder, List.append_nil]
    exact h
  | cons id later ih =>
    have hid : id < s.table.size := by
      apply hs.forest.mem_visits.1
      show id ∈ s.visitOrder
      simp [horder]
    exact ih (h.step hs hid (visitedBefore_eq hs.forest horder)) (by simpa using horder)

theorem compileRules_extended (h : History ys s) : s.Extended ys s.visitOrder s.compileRules :=
  (Extended.start h.missing_log).run h.realizes s.visitOrder rfl

/-- Every rule keeps its selectors at the end of its list and gets those of the rules from which a
chain of extensions, in the order of the visits, leads to it. Every extension that finds nothing is
reported once, in that order. -/
theorem extensions_follow_chains (h : History ys s) :
    (∀ target rule, s.table.rule? target = some rule →
      rule.selectors <:+ s.compileRules.table.selectors target ∧
      ∀ x, x ∈ s.compileRules.table.selectors target ↔
        x ∈ rule.selectors ∨
          ∃ first, s.ChainsTo ys s.visitOrder first target ∧ x ∈ s.table.selectors first) ∧
    List.Forall₂ (s.ReportedAt ys) (s.visitOrder.flatMap (s.missing ys))
      (s.compile.warnings.filterMap Warning.missing?) := by
  have hpass := compileRules_extended h
  constructor
  · intro target rule hr
    have hlt := RuleTable.lt_size_of_rule? hr
    rw [← RuleTable.selectors_of_rule? hr]
    exact ⟨hpass.visits.selectors_suffix hlt, hpass.selectors target hlt⟩
  · rw [reported_compile]
    exact hpass.reports

/-- `.c` extends `.b`, which extends `.a` and a name that no rule has: `.a` gets `.c` as well, and
so does the report. -/
theorem extensions_follow_chains_twice :
    let sections : List Section :=
      [{ selectors := [[".a"]] }, { selectors := [[".c"]], extensions := [".b"] },
        { selectors := [[".b"]], extensions := [".a", ".d"] }]
    let s := ({} : Session).expandAll none none sections
    [".c"] ∈ s.compileRules.table.selectors 0 ∧
      ∃ selectors, s.compile.warnings.filterMap Warning.missing? = [(".d", selectors)] ∧
        [".c"] ∈ selectors := by
  intro sections s
  let ys := flattenAll Evaluator.written {} none none sections
  have hs : History ys s :=
    (History.start Evaluator.written defaultSuffix).expandAll none none sections
  have hfirst : s.ExtendsTo ys 1 2 :=
    ⟨".b", by decide +kernel, (hs.realizes.resolved _ _).1 (by decide +kernel)⟩
  have hsecond : s.ExtendsTo ys 2 0 :=
    ⟨".a", by decide +kernel, (hs.realizes.resolved _ _).1 (by decide +kernel)⟩
  have hrule : s.table.rule? 0 = some { selectors := [[".a"]] } := by decide +kernel
  have hmissing : s.visitOrder.flatMap (s.missing ys) = [(2, ".d")] := by decide +kernel
  obtain ⟨hselectors, hreports⟩ := extensions_follow_chains hs
  constructor
  · rw [(hselectors 0 _ hrule).2]
    refine .inr ⟨1, ⟨[2], by decide +kernel, ?_⟩, by decide +kernel⟩
    exact .cons_cons hfirst (.cons_cons hsecond (.singleton 0))
  · rw [hmissing] at hreports
    generalize s.compile.warnings.filterMap Warning.missing? = reported at hreports ⊢
    obtain ⟨report, rest, hreport, hrest, rfl⟩ := List.forall₂_cons_left_iff.1 hreports
    cases hrest
    have hname : report.1 = ".d" := hreport.named
    refine ⟨report.2, by rw [← hname], (hreport.mem_iff _).2 ?_⟩
    exact .inr ⟨1, ⟨[], by decide +kernel, .cons_cons hfirst (.singleton 2)⟩, by decide +kernel⟩

end Session

end NestedStyles
