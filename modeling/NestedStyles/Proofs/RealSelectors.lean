import NestedStyles.Build
import NestedStyles.Proofs.Lexemes
import NestedStyles.Proofs.Linking
import NestedStyles.Proofs.Provenance
import NestedStyles.Proofs.Pruning

/-!
The selectors of the output. A selector that is written has parts, none of them empty, and all that
nesting, calling and extending make of such selectors is of the same kind. A rule without selectors
comes from one place only: a media wrapper in the body of an at-rule, which is kept as it is
written.
-/

namespace NestedStyles

/-- A selector with something to select by: it has parts and none of them is empty. -/
def Selector.Real (s : Selector) : Prop := s ≠ [] ∧ ∀ part ∈ s, part ≠ ""

/-- A property of texts that joining them keeps, with a blank between them or without. -/
structure Joinable (P : String → Prop) : Prop where
  blank : P " "
  append : ∀ {a b : String}, P a → P b → P (a ++ b)

theorem joinable_ne_empty : Joinable (· ≠ "") where
  blank := by decide
  append _ hb hab := hb (String.append_eq_empty_iff.1 hab).2

/-! Selectors as they are read -/

namespace SelectorReader

variable {tokens : List Token} {P : String → Prop}

theorem forall_partsFrom (hP : Joinable P) (h : ∀ t ∈ tokens, P t.text) (depth : Nat)
    {compound : String} (hc : compound = "" ∨ P compound) :
    ∀ part ∈ partsFrom depth compound tokens, P part := by
  have hflush : ∀ {compound parts}, compound = "" ∨ P compound → (∀ part ∈ parts, P part) →
      ∀ part ∈ flush compound parts, P part := by
    intro compound parts hc hparts
    unfold flush
    split
    · exact hparts
    · next hne => exact List.forall_mem_cons.2 ⟨hc.resolve_left hne, hparts⟩
  have hjoin : ∀ {compound text : String}, compound = "" ∨ P compound → P text →
      P (compound ++ text) := by
    rintro compound text (rfl | hc) ht
    · simpa using ht
    · exact hP.append hc ht
  fun_induction partsFrom depth compound tokens with
  | case1 => exact hflush hc (by simp)
  | case2 _ t rest _ ih | case3 _ t rest _ _ ih =>
    obtain ⟨ht, hrest⟩ := List.forall_mem_cons.1 h
    exact hflush hc (List.forall_mem_cons.2 ⟨ht, ih hrest (.inl rfl)⟩)
  | case4 _ t rest _ _ _ _ ih =>
    obtain ⟨ht, hrest⟩ := List.forall_mem_cons.1 h
    exact hflush hc (ih hrest (.inr ht))
  | case5 _ t rest _ _ _ _ ih =>
    obtain ⟨ht, hrest⟩ := List.forall_mem_cons.1 h
    exact ih hrest (.inr (hjoin hc ht))
  | case6 _ _ t rest _ _ ih =>
    obtain ⟨ht, hrest⟩ := List.forall_mem_cons.1 h
    refine ih hrest (.inr ?_)
    cases t.spaced with
    | true => exact hP.append (hjoin hc hP.blank) ht
    | false => simpa using hjoin hc ht

theorem partsFrom_ne_nil (h : ∀ t ∈ tokens, t.text ≠ "") (depth : Nat) (compound : String)
    (hsome : compound ≠ "" ∨ tokens ≠ []) : partsFrom depth compound tokens ≠ [] := by
  have hflush : ∀ compound parts, parts ≠ [] → flush compound parts ≠ [] := by
    intro compound parts hparts
    unfold flush
    split
    · exact hparts
    · simp
  have hjoin : ∀ a b : String, b ≠ "" → a ++ b ≠ "" := by
    intro a b hb hab
    exact hb (String.append_eq_empty_iff.1 hab).2
  fun_induction partsFrom depth compound tokens with
  | case1 => simpa [flush] using hsome
  | case2 => exact hflush _ _ (by simp)
  | case3 => exact hflush _ _ (by simp)
  | case4 _ t rest _ _ _ _ ih =>
    obtain ⟨ht, hrest⟩ := List.forall_mem_cons.1 h
    exact hflush _ _ (ih hrest (.inl ht))
  | case5 _ t rest _ _ _ _ ih | case6 _ _ t rest _ _ ih =>
    obtain ⟨ht, hrest⟩ := List.forall_mem_cons.1 h
    exact ih hrest (.inl (hjoin _ _ ht))

theorem forall_partsOf (hP : Joinable P) (h : ∀ t ∈ tokens, P t.text) :
    ∀ part ∈ partsOf tokens, P part := by
  have hparts := forall_partsFrom hP h 0 (.inl rfl)
  unfold partsOf
  simp only
  split
  · exact fun part hin => hparts part (List.mem_of_mem_tail hin)
  · exact hparts

theorem partsOf_ne_nil (h : ∀ t ∈ tokens, t.text ≠ "") (hne : tokens ≠ []) :
    partsOf tokens ≠ [] := by
  unfold partsOf
  simp only
  split
  · next hs =>
    intro hnil
    have hlength := congrArg List.length hnil
    simp only [Bool.and_eq_true, decide_eq_true_eq, List.length_tail, List.length_nil] at hs hlength
    omega
  · exact partsFrom_ne_nil h 0 "" (.inr hne)

theorem mem_of_mem_alternatives (depth : Nat) (tokens : List Token) :
    ∀ alternative ∈ (alternatives depth tokens).1 :: (alternatives depth tokens).2.1,
      ∀ t ∈ alternative, t ∈ tokens := by
  fun_induction alternatives depth tokens <;> simp_all <;> grind

end SelectorReader

open SelectorReader in
theorem partsOf_of_readSelectors {stop : Span} {tokens rest : List Token}
    {selectors : List Selector} (h : readSelectors stop tokens = .ok (selectors, rest)) :
    ∀ s ∈ selectors, ∃ alternative ≠ [], (∀ t ∈ alternative, t ∈ tokens) ∧
      s = partsOf alternative := by
  have hmem := mem_of_mem_alternatives 0 tokens
  unfold readSelectors at h
  split at h
  next first later tail heq =>
  rw [heq] at hmem
  split at h
  · cases h
  next hempty =>
  split at h
  · cases h
  cases h
  intro s hs
  obtain ⟨alternative, hin, rfl⟩ := List.mem_map.1 hs
  refine ⟨alternative, ?_, hmem alternative hin, rfl⟩
  rintro rfl
  exact hempty (List.any_eq_true.2 ⟨[], hin, rfl⟩)

section Opened

variable {stop : Span} {all : List Token} {s : Section}

theorem Section.OpenedIn.partsOf (h : s.OpenedIn stop all) :
    ∀ selector ∈ s.selectors, ∃ alternative ≠ [], (∀ t ∈ alternative, t ∈ all) ∧
      selector = SelectorReader.partsOf alternative := by
  obtain ⟨tokens, rest, hall, hopens⟩ := h
  cases hopens with
  | media _ hm =>
    obtain ⟨query, hheader⟩ := header_readMedia hm
    have hnone : s.selectors = [] := congrArg Section.selectors hheader
    simp [hnone]
  | rule _ _ hr =>
    intro selector hs
    obtain ⟨alternative, hne, hmem, heq⟩ :=
      partsOf_of_readSelectors (header_readRule hr).2 selector hs
    exact ⟨alternative, hne, fun t ht => hall.subset (hmem t ht), heq⟩

theorem Section.OpenedIn.parts {P : String → Prop} (hP : Joinable P) (h : s.OpenedIn stop all)
    (htext : ∀ t ∈ all, P t.text) : ∀ selector ∈ s.selectors, ∀ part ∈ selector, P part := by
  intro selector hs
  obtain ⟨alternative, -, hmem, rfl⟩ := h.partsOf selector hs
  exact SelectorReader.forall_partsOf hP fun t ht => htext t (hmem t ht)

theorem Section.OpenedIn.real (h : s.OpenedIn stop all) (htext : ∀ t ∈ all, t.text ≠ "") :
    ∀ selector ∈ s.selectors, selector.Real := by
  intro selector hs
  refine ⟨?_, h.parts joinable_ne_empty htext selector hs⟩
  obtain ⟨alternative, hne, hmem, rfl⟩ := h.partsOf selector hs
  exact SelectorReader.partsOf_ne_nil (fun t ht => htext t (hmem t ht)) hne

end Opened

/-! What is made of selectors -/

namespace Selector

variable {child outer caller : Selector} {P : String → Prop}

theorem glue_ne_nil (hc : child ≠ []) : child.glue outer ≠ [] := by
  unfold Selector.glue
  split
  · simp
  · exact hc

theorem nest_ne_nil (hc : child ≠ []) (ho : outer ≠ []) : child.nest outer ≠ [] := by
  unfold Selector.nest
  split
  · exact glue_ne_nil hc
  split
  · simp [ho]
  · simp [hc]

theorem apply_ne_nil (hc : child ≠ []) (ho : caller ≠ []) : child.apply caller ≠ [] := by
  unfold Selector.apply
  split
  · simp [ho]
  split
  · exact glue_ne_nil hc
  · simp [hc]

theorem forall_glue (hP : Joinable P) (hc : ∀ part ∈ child, P part)
    (ho : ∀ part ∈ outer, P part) : ∀ part ∈ child.glue outer, P part := by
  unfold Selector.glue
  split
  · next first second rest last hlast =>
    have hjoined : P (last ++ second) :=
      hP.append (ho last (List.mem_of_getLast? hlast)) (hc second (by simp))
    intro part hpart
    rcases List.mem_append.1 hpart with hpart | hpart
    · exact ho part ((List.dropLast_subset outer) hpart)
    rcases List.mem_cons.1 hpart with rfl | hpart
    · exact hjoined
    · exact hc part (by simp [hpart])
  · exact hc

theorem forall_nest (hP : Joinable P) (hc : ∀ part ∈ child, P part)
    (ho : ∀ part ∈ outer, P part) : ∀ part ∈ child.nest outer, P part := by
  unfold Selector.nest
  split
  · exact forall_glue hP hc ho
  split
  · exact List.forall_mem_append.2 ⟨fun part hin => hc part ((List.dropLast_subset child) hin), ho⟩
  · exact List.forall_mem_append.2 ⟨ho, hc⟩

theorem forall_apply (hP : Joinable P) (hc : ∀ part ∈ child, P part)
    (ho : ∀ part ∈ caller, P part) : ∀ part ∈ child.apply caller, P part := by
  unfold Selector.apply
  split
  · exact List.forall_mem_append.2 ⟨fun part hin => hc part ((List.dropLast_subset child) hin), ho⟩
  split
  · exact forall_glue hP hc ho
  · exact List.forall_mem_append.2 ⟨ho, hc⟩

theorem Real.nest (hc : child.Real) (ho : outer.Real) : (child.nest outer).Real :=
  ⟨nest_ne_nil hc.1 ho.1, forall_nest joinable_ne_empty hc.2 ho.2⟩

theorem Real.apply (hc : child.Real) (ho : caller.Real) : (child.apply caller).Real :=
  ⟨apply_ne_nil hc.1 ho.1, forall_apply joinable_ne_empty hc.2 ho.2⟩

/-- A property of the selectors of a rule that calling and extending keep. -/
structure Passed (Q : List Selector → Prop) : Prop where
  apply : ∀ {children callers : List Selector}, Q children → Q callers →
    Q (cross Selector.apply children callers)
  append : ∀ {more own : List Selector}, Q more → Q own → Q (more ++ own)

/-- A property of the selectors of a rule that nesting keeps too, and that the containers have. -/
structure Hereditary (Q : List Selector → Prop) : Prop extends Passed Q where
  nest : ∀ {children outer : List Selector}, Q children → Q outer →
    Q (cross Selector.nest children outer)
  path : ∀ {path : String}, path ≠ "" → Q [[path]]

theorem forall_cross {combine : Selector → Selector → Selector} {P : Selector → Prop}
    (hcombine : ∀ {child outer : Selector}, P child → P outer → P (combine child outer))
    {children outer : List Selector} (hc : ∀ s ∈ children, P s) (ho : ∀ s ∈ outer, P s) :
    ∀ s ∈ cross combine children outer, P s := by
  intro s hs
  obtain ⟨child, hchild, hs⟩ := List.mem_flatMap.1 hs
  obtain ⟨around, haround, rfl⟩ := List.mem_map.1 hs
  exact hcombine (hc child hchild) (ho around haround)

theorem cross_ne_nil {combine : Selector → Selector → Selector} {children outer : List Selector}
    (hc : children ≠ []) (ho : outer ≠ []) : cross combine children outer ≠ [] := by
  obtain ⟨child, rest, rfl⟩ := List.exists_cons_of_ne_nil hc
  obtain ⟨around, others, rfl⟩ := List.exists_cons_of_ne_nil ho
  simp [cross]

theorem hereditary_real : Hereditary fun ss => ∀ s ∈ ss, s.Real where
  nest := forall_cross Real.nest
  apply := forall_cross Real.apply
  append hm ho s hs := (List.mem_append.1 hs).elim (hm s) (ho s)
  path hp := by simpa [Real] using hp

theorem hereditary_ne_nil : Hereditary fun ss => ss ≠ [] where
  nest := cross_ne_nil
  apply := cross_ne_nil
  append _ ho := by simp [ho]
  path _ := by simp

end Selector

/-! The rules of a session -/

namespace RuleTable

variable {t : RuleTable} {Q : List Selector → Prop} {rule : Rule} {id : Nat}

def Every (Q : List Selector → Prop) (t : RuleTable) : Prop :=
  ∀ (id : Nat) (node : RuleNode), t.nodes[id]? = some node → Q node.rule.selectors

theorem Every.push (h : t.Every Q) (hr : Q rule.selectors) : (t.push rule).Every Q := by
  intro i node hn
  rw [nodes_push] at hn
  split at hn
  · cases hn
    exact hr
  · exact h i node hn

theorem Every.pushInto (h : t.Every Q) (hr : Q rule.selectors) (parent : Nat) :
    (t.pushInto parent rule).Every Q := by
  intro i node hn
  rw [nodes_pushInto] at hn
  split at hn
  · cases hn
    exact hr
  split at hn
  · obtain ⟨old, ho, rfl⟩ := Option.map_eq_some_iff.1 hn
    exact h i old ho
  · exact h i node hn

theorem Every.modify (h : t.Every Q) {f : Rule → Rule}
    (hf : ∀ rule, t.rule? id = some rule → Q (f rule).selectors) : (t.modify id f).Every Q := by
  intro i node hn
  rw [nodes_modify] at hn
  split at hn
  · next hi =>
    obtain ⟨old, ho, rfl⟩ := Option.map_eq_some_iff.1 hn
    exact hf old.rule (rule?_of_node (hi ▸ ho))
  · exact h i node hn

theorem Every.selectors (h : t.Every Q) (hid : id < t.size) : Q (t.selectors id) := by
  obtain ⟨node, hn⟩ := node_of_lt_size hid
  rw [selectors_of_rule? (rule?_of_node hn)]
  exact h id node hn

mutual
theorem Every.addSection (t : RuleTable) (h : t.Every Q) (parent : Nat) :
    ∀ s : Section, (∀ inner : Section, inner.Within s → Q inner.selectors) →
      (t.addSection parent s).Every Q
  | ⟨selectors, attributes, nested, extensions, references, media⟩, hs => by
    rw [RuleTable.addSection]
    have hrule := hs _ (.refl _)
    exact Every.addSections _ (h.pushInto hrule parent) _ nested
      fun child hc inner hin => hs inner (.nested hc hin)
theorem Every.addSections (t : RuleTable) (h : t.Every Q) (parent : Nat) :
    ∀ nested : List Section, (∀ child ∈ nested, ∀ inner : Section, inner.Within child →
      Q inner.selectors) →
      (t.addSections parent nested).Every Q
  | [], _ => by
    rw [RuleTable.addSections]
    exact h
  | child :: rest, hs => by
    obtain ⟨hchild, hrest⟩ := List.forall_mem_cons.1 hs
    rw [RuleTable.addSections]
    exact Every.addSections _ (Every.addSection t h parent child hchild) parent rest hrest
end

end RuleTable

namespace Section

mutual
def wrapperFree : Section → Bool
  | ⟨selectors, _, nested, _, _, _⟩ => !selectors.isEmpty && wrapperFreeAll nested
def wrapperFreeAll : List Section → Bool
  | [] => true
  | inner :: rest => inner.wrapperFree && wrapperFreeAll rest
end

mutual
/-- No media wrapper stands in the body of an at-rule, where it would be kept as it is written. The
section is inside a rule with the selectors `parents` or inside none. -/
def confined (parents : Option (List Selector)) : Section → Bool
  | ⟨selectors, _, nested, _, _, _⟩ =>
    if selectors.isEmpty then confinedAll parents nested
    else
      let full := fullSelectors parents selectors
      if Selector.isAtRule full then wrapperFreeAll nested else confinedAll (some full) nested
def confinedAll (parents : Option (List Selector)) : List Section → Bool
  | [] => true
  | inner :: rest => inner.confined parents && confinedAll parents rest
end

theorem wrapperFreeAll_eq_all (nested : List Section) :
    wrapperFreeAll nested = nested.all wrapperFree := by
  induction nested with
  | nil => rfl
  | cons inner rest ih => rw [wrapperFreeAll, ih, List.all_cons]

theorem selectors_ne_of_wrapperFree {s inner : Section} (h : s.wrapperFree) (hin : inner.Within s) :
    inner.selectors ≠ [] := by
  have hparts : ∀ s : Section, s.wrapperFree →
      s.selectors ≠ [] ∧ ∀ child ∈ s.nested, child.wrapperFree := by
    intro s hs
    cases s
    rw [wrapperFree, wrapperFreeAll_eq_all] at hs
    simpa using hs
  induction hin with
  | refl => exact (hparts _ h).1
  | nested hc _ ih => exact ih ((hparts _ h).2 _ hc)

theorem confinedAll_eq_all (parents : Option (List Selector)) (nested : List Section) :
    confinedAll parents nested = nested.all (confined parents) := by
  induction nested with
  | nil => rfl
  | cons inner rest ih => rw [confinedAll, ih, List.all_cons]

/-- All rules that a section gives have selectors with the property. The section is inside a rule
with the selectors `parents` or inside none, and the body of an at-rule gives its rules as they are
written. -/
inductive Ensures (Q : List Selector → Prop) : Option (List Selector) → Section → Prop
  | wrapper {parents : Option (List Selector)} {s : Section} : s.selectors = [] →
      (∀ child ∈ s.nested, Ensures Q parents child) → Ensures Q parents s
  | atRule {parents : Option (List Selector)} {s : Section} : s.selectors ≠ [] →
      Q (fullSelectors parents s.selectors) →
      Selector.isAtRule (fullSelectors parents s.selectors) →
      (∀ child ∈ s.nested, ∀ inner : Section, inner.Within child → Q inner.selectors) →
      Ensures Q parents s
  | rule {parents : Option (List Selector)} {s : Section} : s.selectors ≠ [] →
      Q (fullSelectors parents s.selectors) →
      ¬ Selector.isAtRule (fullSelectors parents s.selectors) →
      (∀ child ∈ s.nested, Ensures Q (some (fullSelectors parents s.selectors)) child) →
      Ensures Q parents s

/-- The selectors of all rules that a section gives are made from some with the property: those
that are written in it have it, and media wrappers give no rules, or the empty list has it too. -/
structure Writes (Q : List Selector → Prop) (parents : Option (List Selector)) (s : Section) :
    Prop where
  written : ∀ inner : Section, inner.Within s → inner.selectors ≠ [] → Q inner.selectors
  confined : Q [] ∨ s.confined parents

namespace Writes

variable {Q : List Selector → Prop} {parents : Option (List Selector)} {s child : Section}

theorem of_wrapper (h : s.Writes Q parents) (hs : s.selectors = []) (hc : child ∈ s.nested) :
    child.Writes Q parents := by
  refine ⟨fun inner hin => h.written inner (.nested hc hin), h.confined.imp_right ?_⟩
  intro hconfined
  cases s
  cases hs
  rw [Section.confined, confinedAll_eq_all] at hconfined
  exact List.all_eq_true.1 hconfined child hc

theorem of_rule (h : s.Writes Q parents) (hs : s.selectors ≠ [])
    (hat : ¬ Selector.isAtRule (fullSelectors parents s.selectors)) (hc : child ∈ s.nested) :
    child.Writes Q (some (fullSelectors parents s.selectors)) := by
  refine ⟨fun inner hin => h.written inner (.nested hc hin), h.confined.imp_right ?_⟩
  intro hconfined
  cases s
  rw [Section.confined, if_neg (by simpa using hs), if_neg hat, confinedAll_eq_all] at hconfined
  exact List.all_eq_true.1 hconfined child hc

theorem of_atRule (h : s.Writes Q parents) (hs : s.selectors ≠ [])
    (hat : Selector.isAtRule (fullSelectors parents s.selectors)) (hc : child ∈ s.nested)
    {inner : Section} (hin : inner.Within child) : Q inner.selectors := by
  by_cases hinner : inner.selectors = []
  · rcases h.confined with hnil | hconfined
    · rw [hinner]
      exact hnil
    · cases s
      rw [Section.confined, wrapperFreeAll_eq_all, if_neg (by simpa using hs), if_pos hat]
        at hconfined
      exact absurd hinner (selectors_ne_of_wrapperFree (List.all_eq_true.1 hconfined child hc) hin)
  · exact h.written inner (.nested hc hin) hinner

/-- Nesting and the bodies of at-rules keep a property that all written selectors have. -/
theorem ensures (hQ : Selector.Hereditary Q) (h : s.Writes Q parents)
    (hparents : ∀ around ∈ parents, Q around) : s.Ensures Q parents := by
  induction s using Section.induction_nested generalizing parents with
  | step s ih =>
    by_cases hs : s.selectors = []
    · exact .wrapper hs fun child hc => ih child hc (h.of_wrapper hs hc) hparents
    have hown := h.written s (.refl s) hs
    have hfull : Q (fullSelectors parents s.selectors) := by
      cases parents with
      | none => exact hown
      | some around => exact hQ.nest hown (hparents around rfl)
    by_cases hat : Selector.isAtRule (fullSelectors parents s.selectors)
    · exact .atRule hs hfull hat fun child hc inner hin => h.of_atRule hs hat hc hin
    · refine .rule hs hfull hat fun child hc => ih child hc (h.of_rule hs hat hc) ?_
      rintro _ ⟨⟩
      exact hfull

end Writes

end Section

namespace Session

variable {s : Session} {Q : List Selector → Prop} {path : Option String}

theorem lt_length_mediaPath (path : Option String) (query : String) :
    1 < (mediaPath path query).length := by
  have hmedia : "@media ".length = 7 := rfl
  have hand : " and ".length = 5 := rfl
  unfold mediaPath
  split
  · rw [String.length_append, hmedia]
    omega
  · rw [String.length_append, String.length_append, hand]
    omega

theorem mediaPath_ne (path : Option String) (query : String) : mediaPath path query ≠ "" := by
  have hlong := lt_length_mediaPath path query
  intro hempty
  simp [hempty] at hlong

theorem every_place (h : s.table.Every Q) (hpath : ∀ p ∈ path, Q [[p]]) (rule : Rule)
    (hr : Q rule.selectors) : (s.place path rule).table.Every Q := by
  unfold place
  split
  · exact h.push hr
  next p =>
  split
  · exact h.pushInto hr _
  · exact (h.push (hpath p rfl)).pushInto hr _

theorem every_hostAttributes (h : s.table.Every Q) {path : String} (hpath : Q [[path]])
    (query : String) {outer : List Selector} (houter : outer ≠ [] → Q outer)
    (attributes : List Attribute) :
    (s.hostAttributes path query outer attributes).table.Every Q := by
  unfold hostAttributes
  split
  · exact h
  split
  · exact h
  · next hne =>
    refine every_place h ?_ _ (houter (by simpa using hne))
    rintro _ ⟨⟩
    exact hpath

theorem every_expandAll (h : s.table.Every Q) {outer : Option (List Selector)}
    {sections : List Section} (hstep : ∀ inner ∈ sections, ∀ u : Session, u.table.Every Q →
      (u.expand path outer inner).table.Every Q) :
    (s.expandAll path outer sections).table.Every Q := by
  induction sections generalizing s with
  | nil =>
    rw [expandAll]
    exact h
  | cons inner rest ih =>
    obtain ⟨hinner, hrest⟩ := List.forall_mem_cons.1 hstep
    rw [expandAll]
    exact ih (hinner s h) hrest

theorem every_expand (h : s.table.Every Q)
    (hpaths : ∀ (path : Option String) (query : String), Q [[mediaPath path query]])
    (hpath : ∀ p ∈ path, Q [[p]]) {outer : Option (List Selector)}
    (houter : ∀ around ∈ outer, Q around) {inner : Section} (hw : inner.Ensures Q outer) :
    (s.expand path outer inner).table.Every Q := by
  induction hw generalizing s path with
  | @wrapper outer inner hs _ ih =>
    obtain ⟨selectors, attributes, nested, extensions, references, media⟩ := inner
    rw [expand, if_pos (by simpa using hs), queryText_eq]
    have haround : outer.getD [] ≠ [] → Q (outer.getD []) := by
      cases outer with
      | none => simp
      | some around => exact fun _ => houter around rfl
    have hhost := every_hostAttributes (s := s.note (mediaQuery s.calls s.scope media).2) h
      (hpaths path (mediaQuery s.calls s.scope media).1)
      (mediaQuery s.calls s.scope media).1 haround attributes
    refine every_expandAll hhost fun child hc u hu => ih child hc hu ?_ houter
    rintro _ ⟨⟩
    exact hpaths path _
  | @atRule outer inner hs hfull hat hbody =>
    obtain ⟨selectors, attributes, nested, extensions, references, media⟩ := inner
    have hplaced := every_place h hpath
      ⟨fullSelectors outer selectors, attributes, extensions, references⟩ hfull
    rw [expand, if_neg (by simpa using hs),
      show combine selectors outer = fullSelectors outer selectors from rfl, if_pos hat]
    simp only [register_eq]
    exact RuleTable.Every.addSections _ hplaced _ nested hbody
  | @rule outer inner hs hfull hat _ ih =>
    obtain ⟨selectors, attributes, nested, extensions, references, media⟩ := inner
    have hplaced := every_place h hpath
      ⟨fullSelectors outer selectors, attributes, extensions, references⟩ hfull
    rw [expand, if_neg (by simpa using hs),
      show combine selectors outer = fullSelectors outer selectors from rfl, if_neg hat]
    simp only [register_eq]
    refine every_expandAll ?_ fun child hc u hu => ih child hc hu hpath ?_
    · exact hplaced
    · rintro _ ⟨⟩
      exact hfull

/-- The selectors of the rules and of the sections in templates have the property. -/
structure Obeys (Q : List Selector → Prop) (s : Session) : Prop where
  table : s.table.Every Q
  templates : ∀ name t, s.templates.lookup name = some t → ∀ child ∈ t.sections, Q child.selectors

/-- The selectors of the rules have a property that extending keeps, and the sections in templates
give selectors with this property to every caller that has it. -/
structure Upholds (Q : List Selector → Prop) (s : Session) : Prop where
  table : s.table.Every Q
  called : ∀ name t, s.templates.lookup name = some t → ∀ child ∈ t.sections,
    ∀ {callers : List Selector}, Q callers →
      Q (Selector.cross Selector.apply child.selectors callers)
  append : ∀ {more own : List Selector}, Q more → Q own → Q (more ++ own)

theorem Obeys.upholds (h : s.Obeys Q) (hQ : Selector.Passed Q) : s.Upholds Q :=
  ⟨h.table, fun name t hl child hc _ => hQ.apply (h.templates name t hl child hc), hQ.append⟩

/-- What a sheet gives to a session has the property. -/
structure Provides (Q : List Selector → Prop) (sheet : Sheet) : Prop where
  sections : ∀ inner ∈ sheet.sections, inner.Ensures Q none
  called : ∀ t ∈ sheet.templates, ∀ child ∈ t.sections, ∀ {callers : List Selector}, Q callers →
    Q (Selector.cross Selector.apply child.selectors callers)

/-- What is written in a sheet has the property. -/
structure Brings (Q : List Selector → Prop) (sheet : Sheet) : Prop where
  sections : ∀ inner ∈ sheet.sections, inner.Writes Q none
  templates : ∀ t ∈ sheet.templates, ∀ child ∈ t.sections, Q child.selectors

theorem Brings.provides {sheet : Sheet} (h : Brings Q sheet) (hQ : Selector.Hereditary Q) :
    Provides Q sheet where
  sections inner hin := (h.sections inner hin).ensures hQ (by simp)
  called t ht child hc _ := hQ.apply (h.templates t ht child hc)

theorem Upholds.merge (h : s.Upholds Q)
    (hpaths : ∀ (path : Option String) (query : String), Q [[mediaPath path query]])
    {sheet : Sheet} (hs : Provides Q sheet) : (s.merge sheet).Upholds Q := by
  refine ⟨?_, ?_, h.append⟩
  · obtain ⟨-, -, -, htable, -⟩ := s.declared_frame sheet
    refine every_expandAll (htable ▸ h.table) fun inner hin u hu => ?_
    exact every_expand hu hpaths (by simp) (by simp) (hs.sections inner hin)
  · intro name t hl child hc callers hcallers
    rcases template_of_merge hl with hin | hl
    · exact hs.called t hin child hc hcallers
    · exact h.called name t hl child hc hcallers

/-! The pass -/

theorem Upholds.extend (h : s.Upholds Q) {id : Nat} (hid : id < s.table.size) (name : String) :
    (s.extend id name).Upholds Q := by
  refine ⟨?_, ?_, h.append⟩
  · cases hl : s.targets.lookup name with
    | none =>
      rw [extend_of_none id hl]
      exact h.table
    | some found =>
      rw [extend_of_some id hl]
      refine h.table.modify fun rule hr => h.append (h.table.selectors hid) ?_
      rw [← RuleTable.selectors_of_rule? hr]
      exact h.table.selectors (RuleTable.lt_size_of_rule? hr)
  · rw [(s.extend_keeps id name).templates]
    exact h.called

theorem Upholds.extendAll (h : s.Upholds Q) {id : Nat} (hid : id < s.table.size)
    (names : List String) : (names.foldl (Session.extend id) s).Upholds Q := by
  induction names generalizing s with
  | nil => exact h
  | cons name rest ih =>
    exact ih (h.extend hid name) (Nat.lt_of_lt_of_le hid (s.extend_keeps id name).size_le)

theorem every_grow (h : s.table.Every Q) {rules : List Rule} (hr : ∀ rule ∈ rules, Q rule.selectors)
    (events : List Event) : (s.grow rules events).table.Every Q :=
  List.foldlRecOn _ _ h fun _ ht rule hin => ht.push (hr rule hin)

theorem Upholds.rules_ofReferences (h : s.Upholds Q) {callers : List Selector}
    (hcallers : Q callers) (references : List Reference) :
    ∀ rule ∈ (Expansion.ofReferences s.calls s.scope s.templates callers references).rules,
      Q rule.selectors := by
  intro rule hin
  obtain ⟨r, -, t, hl, child, hc, rfl⟩ := Expansion.exists_of_mem_rules hin
  exact h.called r.name t hl child hc hcallers

theorem Upholds.compileRule (h : s.Upholds Q) (id : Nat) : (s.compileRule id).Upholds Q := by
  refine ⟨?_, ?_, h.append⟩
  · cases hr : s.table.rule? id with
    | none => simpa [Session.compileRule, hr] using h.table
    | some rule =>
      have hid := RuleTable.lt_size_of_rule? hr
      have hextended := (h.extendAll hid rule.extensions).table
      have hsize := (s.extendAll_keeps id rule.extensions).size_le
      have hrules := h.rules_ofReferences
        (hextended.selectors (Nat.lt_of_lt_of_le hid hsize)) rule.references
      rw [compileRule_eq hr]
      refine (every_grow hextended hrules _).modify fun found hf => ?_
      rw [← RuleTable.selectors_of_rule? hf]
      exact (every_grow hextended hrules _).selectors (RuleTable.lt_size_of_rule? hf)
  · rw [(s.compileRule_keeps id).templates]
    exact h.called

theorem Upholds.compileRules (h : s.Upholds Q) : s.compileRules.Upholds Q :=
  List.foldlRecOn _ _ h fun _ hs id _ => hs.compileRule id

end Session

/-! The output -/

namespace Session

variable {s : Session} {Q : List Selector → Prop}

theorem Upholds.compile (h : s.Upholds Q) (hs : s.table.Forest s.roots) :
    ∀ content ∈ FlatRule.contentsAll s.compile.rules, Q content.1 := by
  intro content hin
  have htrees := (FlatRule.kept_pruneAll _).sublist.subset hin
  have hforest := compileRules_forest hs
  rw [RuleTable.contentsAll_trees hforest] at htrees
  obtain ⟨id, hid, rfl⟩ := List.mem_map.1 htrees
  exact h.compileRules.table.selectors (hforest.mem_visits.1 hid)

theorem Upholds.of_content {u : Session} (h : s.Upholds Q) (hc : u.content = s.content) :
    u.Upholds Q := by
  have htable : u.table = s.table := congrArg (·.table) hc
  have htemplates : u.templates = s.templates := congrArg (·.templates) hc
  exact ⟨htable ▸ h.table, htemplates ▸ h.called, h.append⟩

end Session

def Sheet.confined (sheet : Sheet) : Bool := Section.confinedAll none sheet.sections

theorem Sheet.brings_of_parse {name source : String} {sheet : Sheet} {Q : List Selector → Prop}
    (h : Sheet.parse name source = .ok sheet) (hQ : ∀ ss ≠ [], (∀ s ∈ ss, Selector.Real s) → Q ss)
    (hconfined : Q [] ∨ sheet.confined) : Session.Brings Q sheet := by
  obtain ⟨tokens, ht, hread⟩ := Sheet.readIn_of_parse h
  have htext := text_ne_of_tokenize ht
  constructor
  · intro s hs
    obtain ⟨hin, hopened⟩ := hread.sections s hs
    refine ⟨?_, hconfined.imp_right ?_⟩
    · intro inner hwithin hne
      exact hQ _ hne ((hin.within hopened hwithin).2.real htext)
    · intro hall
      rw [Sheet.confined, Section.confinedAll_eq_all] at hall
      exact List.all_eq_true.1 hall s hs
  · intro t ht s hs
    obtain ⟨-, hopened, hne⟩ := hread.templates t ht s hs
    exact hQ _ hne (hopened.real htext)

theorem exists_ok_of_decide {ε α : Type} {result : Except ε α} {P : α → Prop} [DecidablePred P]
    (h : result.toOption.map (fun a => decide (P a)) = some true) : ∃ a, result = .ok a ∧ P a := by
  cases result with
  | error e => cases h
  | ok a =>
    refine ⟨a, rfl, ?_⟩
    simpa [Except.toOption] using h

theorem Library.parse_of_find {sources : Sources} {file : String} {sheet : Sheet}
    (h : (Library.ofSources sources).find file = .ok sheet) :
    ∃ source, (file, source) ∈ sources ∧ Sheet.parse file source = .ok sheet := by
  unfold Library.find Library.ofSources at h
  simp only at h
  cases hl : sources.lookup file with
  | none => simp [hl] at h
  | some source =>
    obtain ⟨before, after, hs, -⟩ := List.lookup_eq_some_iff.1 hl
    simp only [hl] at h
    split at h
    · cases h
    · next hp =>
      cases h
      exact ⟨source, by simp [hs], hp⟩

theorem Linked.parsed {sources : Sources} {suffix : String} {seen : Set String}
    {names : List String} {sheet : Sheet}
    (h : Linked (.ofSources sources) suffix seen names sheet) :
    ∃ entry ∈ sources, Sheet.parse entry.1 entry.2 = .ok sheet := by
  cases h with
  | direct _ _ hf | through _ _ _ hf =>
    obtain ⟨source, hin, hp⟩ := Library.parse_of_find hf
    exact ⟨_, hin, hp⟩

/-- The sheets that take part in a compilation: the one of the given source and those that its
imports lead to. -/
def TakesPart (sources : Sources) (name source : String) (sheet : Sheet) : Prop :=
  ∃ main, Sheet.parse name source = .ok main ∧
    (sheet = main ∨ Linked (.ofSources sources) defaultSuffix {name} main.imports sheet)

theorem TakesPart.parsed {sources : Sources} {name source : String} {sheet : Sheet}
    (h : TakesPart sources name source sheet) :
    ∃ entry ∈ (name, source) :: sources, Sheet.parse entry.1 entry.2 = .ok sheet := by
  obtain ⟨main, hp, rfl | hlinked⟩ := h
  · exact ⟨(name, source), List.mem_cons_self, hp⟩
  · obtain ⟨entry, hin, hp⟩ := hlinked.parsed
    exact ⟨entry, List.mem_cons_of_mem _ hin, hp⟩

/-- The rules of the output have a property that extending keeps and that the containers have, if
the sheets that take part give it. -/
theorem upheld_of_compileSource {sources : Sources} {name source : String} {c : Compilation}
    {Q : List Selector → Prop} (h : compileSource (.ofSources sources) name source = .ok c)
    (happend : ∀ {more own : List Selector}, Q more → Q own → Q (more ++ own))
    (hpaths : ∀ (path : Option String) (query : String), Q [[Session.mediaPath path query]])
    (hsheets : ∀ sheet, TakesPart sources name source sheet → Session.Provides Q sheet) :
    ∀ content ∈ FlatRule.contentsAll c.rules, Q content.1 := by
  have hempty : ({} : Session).Upholds Q := by
    refine ⟨?_, by simp, happend⟩
    intro id node hn
    simp [RuleTable.empty] at hn
  unfold compileSource Session.importSource at h
  cases hp : Sheet.parse name source with
  | error fault => simp [hp, compileAfter] at h
  | ok sheet =>
    simp only [hp] at h
    obtain ⟨w, hw, hagrees⟩ := Session.importSheet_agrees sources {} sheet
    obtain ⟨ys, hs⟩ := Session.reachable_importClosed.importSheet (.ofSources sources) sheet
      ⟨[], .start Evaluator.written defaultSuffix⟩
    generalize Session.importSheet (.ofSources sources) {} sheet = out at h hagrees hs
    obtain ⟨u, result⟩ := out
    cases result with
    | error e => simp [compileAfter] at h
    | ok _ =>
      cases h
      have hdone : w.failure = none := by
        have hresult := hagrees.result
        unfold Walk.result at hresult
        split at hresult
        · next hnone => exact hnone
        · cases hresult
      have hmerged : (w.done.foldl Session.merge {}).Upholds Q := by
        refine List.foldlRecOn _ _ hempty fun s hs a ha => hs.merge hpaths (hsheets a ?_)
        have hpart := ((hw.mem_done_iff hdone).1 ha).2
        have hseen : insert sheet.name {n | n ∈ ({} : Session).imported} =
            ({name} : Set String) := by
          rw [Sheet.name_parse hp]
          simp
        rw [hseen] at hpart
        exact ⟨sheet, hp, hpart⟩
      exact (hmerged.of_content hagrees.tables).compile hs.realizes.forest

theorem rules_of_compileSource {sources : Sources} {name source : String} {c : Compilation}
    {Q : List Selector → Prop} (h : compileSource (.ofSources sources) name source = .ok c)
    (hQ : Selector.Hereditary Q)
    (hsheets : ∀ sheet, TakesPart sources name source sheet → Session.Brings Q sheet) :
    ∀ content ∈ FlatRule.contentsAll c.rules, Q content.1 := by
  have hpaths : ∀ (path : Option String) (query : String), Q [[Session.mediaPath path query]] :=
    fun path query => hQ.path (Session.mediaPath_ne path query)
  exact upheld_of_compileSource h hQ.append hpaths fun sheet hpart =>
    (hsheets sheet hpart).provides hQ

/-- Every selector of the output has parts, none of them empty, and every rule of the output has
selectors, unless a sheet that takes part has a media wrapper in the body of an at-rule. -/
theorem selectors_of_compileSource {sources : Sources} {name source : String} {c : Compilation}
    (h : compileSource (.ofSources sources) name source = .ok c) :
    (∀ content ∈ FlatRule.contentsAll c.rules, ∀ s ∈ content.1, Selector.Real s) ∧
    ((∀ sheet, TakesPart sources name source sheet → sheet.confined) →
      ∀ content ∈ FlatRule.contentsAll c.rules, content.1 ≠ []) := by
  constructor
  · apply rules_of_compileSource h Selector.hereditary_real
    intro sheet hpart
    obtain ⟨entry, -, hp⟩ := hpart.parsed
    exact Sheet.brings_of_parse hp (fun _ _ hreal => hreal) (.inl (by simp))
  · intro hconfined
    apply rules_of_compileSource h Selector.hereditary_ne_nil
    intro sheet hpart
    obtain ⟨entry, -, hp⟩ := hpart.parsed
    exact Sheet.brings_of_parse hp (fun _ hne _ => hne) (.inr (hconfined sheet hpart))

/-- A call, an extension and a media wrapper: the rules of all three have selectors. -/
theorem selectors_of_compileSource_imported :
    let sources : Sources := [("base.bss", "@func box($w)\x7bp\x7bm: $w\x7d\x7d .x\x7bc: d\x7d")]
    let source :=
      "@import base; .a\x7b@extend .x; @media print\x7be: f; .b\x7b@func box(1px)\x7d\x7d\x7d"
    ∃ c, compileSource (.ofSources sources) "main.bss" source = .ok c ∧ c.rules.length = 3 ∧
      ∀ content ∈ FlatRule.contentsAll c.rules, content.1 ≠ [] ∧
        ∀ s ∈ content.1, Selector.Real s := by
  intro sources source
  have hconfined : ∀ entry ∈ ("main.bss", source) :: sources,
      (Sheet.parse entry.1 entry.2).toOption.all Sheet.confined := by
    decide +kernel
  obtain ⟨c, hc, hlength⟩ : ∃ c, compileSource (.ofSources sources) "main.bss" source = .ok c ∧
      c.rules.length = 3 := by
    have hrun : ((compileSource (.ofSources sources) "main.bss" source).toOption.map
        fun c => c.rules.length) = some 3 := by
      decide +kernel
    cases hc : compileSource (.ofSources sources) "main.bss" source with
    | error e => simp [hc, Except.toOption] at hrun
    | ok c => exact ⟨c, rfl, by simpa [hc, Except.toOption] using hrun⟩
  obtain ⟨hreal, hne⟩ := selectors_of_compileSource hc
  refine ⟨c, hc, hlength, fun content hin => ⟨hne ?_ content hin, hreal content hin⟩⟩
  intro sheet hpart
  obtain ⟨entry, hentry, hp⟩ := hpart.parsed
  simpa [hp, Except.toOption] using hconfined entry hentry

/-- A media wrapper in the body of `@supports` is written as a rule without selectors. -/
theorem wrapper_in_atRule_emitted :
    let source := "@supports x \x7b @media print \x7b a \x7b b: c \x7d \x7d \x7d"
    ∃ c, compileSource (.ofSources []) "main.bss" source = .ok c ∧
      ∃ content ∈ FlatRule.contentsAll c.rules, content.1 = [] := by
  refine ⟨⟨[⟨[["@supports", "x"]], [], [⟨[], [], [⟨[["a"]], [⟨"b", .text "c"⟩], []⟩]⟩]⟩],
    [.importing "main.bss"]⟩, ?_, ?_⟩
  · decide +kernel
  · exact ⟨([], []), by decide, rfl⟩

end NestedStyles
