import NestedStyles.Proofs.RealSelectors

/-!
Where `&` goes. Nesting a selector in a rule, or calling it from one, puts the selectors of the rule
in the place of an `&` at either end. Both do the same, except to a selector with one at each end.
So no `&` is left in the output, if each is written where something stands around it and outside the
bodies of at-rules, which are kept as they are written.
-/

namespace NestedStyles

namespace Selector

variable {child outer caller : Selector}

/-- At most one part is `&`, and it stands first or last. -/
def Anchored (s : Selector) : Prop :=
  s.count parent ≤ 1 ∧ (parent ∈ s → s.head? = some parent ∨ s.getLast? = some parent)

instance (s : Selector) : Decidable s.Anchored := inferInstanceAs (Decidable (_ ∧ _))

/-- A real selector that needs nothing around it. -/
structure Complete (s : Selector) : Prop where
  real : s.Real
  parent_notMem : parent ∉ s

theorem append_ne_parent {a b : String} (ha : a ≠ "") (hb : b ≠ "") : a ++ b ≠ parent := by
  intro h
  have hlength := congrArg String.length h
  have hone : parent.length = 1 := rfl
  have hpos : ∀ s : String, s ≠ "" → 0 < s.length := by
    intro s hs
    exact Nat.pos_of_ne_zero (mt String.length_eq_zero_iff.1 hs)
  rw [String.length_append, hone] at hlength
  have := hpos a ha
  have := hpos b hb
  omega

theorem parent_notMem_tail (h : child.count parent ≤ 1) (hhead : child.head? = some parent) :
    parent ∉ child.tail := by
  cases child with
  | nil => cases hhead
  | cons first rest =>
    cases hhead
    rw [List.count_cons_self] at h
    rw [List.tail_cons]
    exact List.count_eq_zero.1 (by omega)

theorem parent_notMem_dropLast (h : child.count parent ≤ 1)
    (hlast : child.getLast? = some parent) : parent ∉ child.dropLast := by
  obtain ⟨front, rfl⟩ := List.getLast?_eq_some_iff.1 hlast
  rw [List.count_append, List.count_singleton_self] at h
  rw [List.dropLast_concat]
  exact List.count_eq_zero.1 (by omega)

theorem parent_notMem_glue (hc : child.Real) (hcount : child.count parent ≤ 1)
    (hhead : child.head? = some parent) (hlength : 1 < child.length) (ho : outer.Complete) :
    parent ∉ child.glue outer := by
  have htail := parent_notMem_tail hcount hhead
  match child with
  | first :: second :: rest =>
    have hlast := List.getLast?_eq_some_getLast ho.real.1
    generalize outer.getLast ho.real.1 = last at hlast
    have hjoined : last ++ second ≠ parent :=
      append_ne_parent (ho.real.2 last (List.mem_of_getLast? hlast)) (hc.2 second (by simp))
    simp only [glue, hlast]
    intro hin
    rcases List.mem_append.1 hin with hin | hin
    · exact ho.parent_notMem (List.dropLast_subset outer hin)
    rcases List.mem_cons.1 hin with heq | hin
    · exact hjoined heq.symm
    · exact htail (List.mem_cons_of_mem second hin)

theorem one_lt_length_of_head (hhead : child.head? = some parent)
    (hlast : child.getLast? ≠ some parent) : 1 < child.length := by
  match child with
  | [first] =>
    cases hhead
    exact absurd rfl hlast
  | _ :: _ :: _ => simp

theorem Anchored.one_lt_length (h : child.Anchored) (hin : parent ∈ child)
    (hlast : child.getLast? ≠ some parent) : child.head? = some parent ∧ 1 < child.length := by
  have hhead := (h.2 hin).resolve_right hlast
  exact ⟨hhead, one_lt_length_of_head hhead hlast⟩

theorem complete_path (path : Option String) (query : String) :
    ∀ s ∈ ([[Session.mediaPath path query]] : List Selector), s.Complete := by
  have hreal := hereditary_real.path (Session.mediaPath_ne path query)
  refine List.forall_mem_singleton.2 ⟨hreal _ (by simp), ?_⟩
  have hlong := Session.lt_length_mediaPath path query
  intro hin
  rw [← List.mem_singleton.1 hin] at hlong
  exact absurd hlong (by decide)

theorem complete_nest (hc : child.Real) (ha : child.Anchored) (ho : outer.Complete) :
    (child.nest outer).Complete := by
  refine ⟨hc.nest ho.real, ?_⟩
  unfold nest
  split
  · next h => exact parent_notMem_glue hc ha.1 h.2.2 h.1 ho
  next hlead =>
  split
  · next hlast =>
    rw [List.mem_append, not_or]
    exact ⟨parent_notMem_dropLast ha.1 hlast, ho.parent_notMem⟩
  · next hlast =>
    rw [List.mem_append, not_or]
    refine ⟨ho.parent_notMem, fun hin => hlead ?_⟩
    obtain ⟨hhead, hlength⟩ := ha.one_lt_length hin hlast
    exact ⟨hlength, ho.real.1, hhead⟩

theorem complete_apply (hc : child.Real) (ha : child.Anchored) (ho : caller.Complete) :
    (child.apply caller).Complete := by
  refine ⟨hc.apply ho.real, ?_⟩
  unfold apply
  split
  · next hlast =>
    rw [List.mem_append, not_or]
    exact ⟨parent_notMem_dropLast ha.1 hlast, ho.parent_notMem⟩
  next hlast =>
  split
  · next hhead =>
    have hin : parent ∈ child := List.mem_of_head? hhead
    exact parent_notMem_glue hc ha.1 hhead (ha.one_lt_length hin hlast).2 ho
  · next hhead =>
    rw [List.mem_append, not_or]
    exact ⟨ho.parent_notMem, fun hin => hhead (ha.one_lt_length hin hlast).1⟩

/-! Nesting and calling -/

def Enclosed (s : Selector) : Prop :=
  1 < s.length ∧ s.head? = some parent ∧ s.getLast? = some parent

theorem glue_nil (child : Selector) : child.glue [] = child := by
  unfold glue
  split
  · next hlast => cases hlast
  · rfl

theorem length_glue (hc : 1 < child.length) (ho : outer ≠ []) :
    (child.glue outer).length + 2 = outer.length + child.length := by
  match child with
  | first :: second :: rest =>
    have hpos := List.length_pos_iff.2 ho
    simp only [glue, List.getLast?_eq_some_getLast ho, List.length_append, List.length_dropLast,
      List.length_cons]
    omega

/-- With an `&` at each end, nesting joins the first to what follows it and keeps the last, and
calling replaces the last one. -/
theorem lengths_of_enclosed (hc : child.Enclosed) (ho : outer ≠ []) :
    (child.nest outer).length + 2 = outer.length + child.length ∧
    (child.apply outer).length + 1 = outer.length + child.length := by
  obtain ⟨hlength, hhead, hlast⟩ := hc
  constructor
  · rw [nest, if_pos ⟨hlength, ho, hhead⟩]
    exact length_glue hlength ho
  · rw [apply, if_pos hlast, List.length_append, List.length_dropLast]
    omega

theorem nest_eq_apply (h : ¬ (outer ≠ [] ∧ child.Enclosed)) :
    child.nest outer = child.apply outer := by
  unfold nest apply
  split
  · next hlead =>
    have hlast : child.getLast? ≠ some parent := fun hlast =>
      h ⟨hlead.2.1, hlead.1, hlead.2.2, hlast⟩
    rw [if_neg hlast, if_pos hlead.2.2]
  next hlead =>
  split
  · rfl
  next hlast =>
  split
  · next hhead =>
    -- nesting passes over a leading `&` that has nothing to be joined to
    have hnone : outer = [] := by
      by_contra ho
      exact hlead ⟨one_lt_length_of_head hhead hlast, ho, hhead⟩
    rw [hnone, glue_nil, List.nil_append]
  · rfl

theorem nest_ne_apply (hc : child.Enclosed) (ho : outer ≠ []) :
    child.nest outer ≠ child.apply outer := by
  intro heq
  obtain ⟨hnest, happly⟩ := lengths_of_enclosed hc ho
  rw [heq] at hnest
  omega

theorem cross_eq_cross_iff {f g : Selector → Selector → Selector}
    {children outers : List Selector} :
    cross f children outers = cross g children outers ↔
      ∀ child ∈ children, ∀ outer ∈ outers, f child outer = g child outer := by
  induction children with
  | nil => simp [cross]
  | cons child children ih =>
    have hlength : (outers.map (f child)).length = (outers.map (g child)).length := by simp
    rw [List.forall_mem_cons, ← ih, ← List.map_inj_left]
    constructor
    · exact fun h => List.append_inj h hlength
    · rintro ⟨hchild, hrest⟩
      exact congrArg₂ (· ++ ·) hchild hrest

/-- A selector nested in a rule and the same selector in a template that the rule calls become the
same, unless it has an `&` at each end and the rule has something to put in their place; then their
lengths tell them apart. A section becomes the same rule in both ways, if each of its selectors does
with each of those around it. -/
theorem nest_eq_apply_iff (child outer : Selector) :
    (child.nest outer = child.apply outer ↔ ¬ (outer ≠ [] ∧ child.Enclosed)) ∧
    (child.nest outer ≠ child.apply outer →
      (child.nest outer).length + 2 = outer.length + child.length ∧
      (child.apply outer).length + 1 = outer.length + child.length) ∧
    ∀ children outers : List Selector, cross nest children outers = cross apply children outers ↔
      ∀ child ∈ children, ∀ outer ∈ outers, ¬ (outer ≠ [] ∧ child.Enclosed) := by
  have hiff : ∀ child outer : Selector,
      child.nest outer = child.apply outer ↔ ¬ (outer ≠ [] ∧ child.Enclosed) :=
    fun child outer => ⟨fun heq hboth => nest_ne_apply hboth.2 hboth.1 heq, nest_eq_apply⟩
  refine ⟨hiff child outer, fun hne => ?_, fun children outers => ?_⟩
  · obtain ⟨ho, hc⟩ := not_not.1 (mt (hiff child outer).2 hne)
    exact lengths_of_enclosed hc ho
  · simp only [cross_eq_cross_iff, hiff]

example : nest ["&", "b", "&"] [".c", ".a"] = [".c", ".ab", "&"] ∧
    apply ["&", "b", "&"] [".c", ".a"] = ["&", "b", ".c", ".a"] := by decide

end Selector

/-! Where `&` may be written -/

namespace Section

mutual
def ampersandFree : Section → Bool
  | ⟨selectors, _, nested, _, _, _⟩ =>
    selectors.all (Selector.parent ∉ ·) && ampersandFreeAll nested
def ampersandFreeAll : List Section → Bool
  | [] => true
  | inner :: rest => inner.ampersandFree && ampersandFreeAll rest
end

mutual
/-- Every `&` in the section is at an end of its selector, alone there, inside a rule and outside
the bodies of at-rules. The section is inside a rule with the selectors `parents` or inside none. -/
def ampersandsPlaced (parents : Option (List Selector)) : Section → Bool
  | ⟨selectors, _, nested, _, _, _⟩ =>
    if selectors.isEmpty then ampersandsPlacedAll parents nested
    else
      let full := fullSelectors parents selectors
      (selectors.all fun s => s.Anchored && (parents.isSome || Selector.parent ∉ s)) &&
        if Selector.isAtRule full then ampersandFreeAll nested
        else ampersandsPlacedAll (some full) nested
def ampersandsPlacedAll (parents : Option (List Selector)) : List Section → Bool
  | [] => true
  | inner :: rest => inner.ampersandsPlaced parents && ampersandsPlacedAll parents rest
end

theorem ampersandFreeAll_eq_all (nested : List Section) :
    ampersandFreeAll nested = nested.all ampersandFree := by
  induction nested with
  | nil => rfl
  | cons inner rest ih => rw [ampersandFreeAll, ih, List.all_cons]

theorem ampersandsPlacedAll_eq_all (parents : Option (List Selector)) (nested : List Section) :
    ampersandsPlacedAll parents nested = nested.all (ampersandsPlaced parents) := by
  induction nested with
  | nil => rfl
  | cons inner rest ih => rw [ampersandsPlacedAll, ih, List.all_cons]

variable {parents : Option (List Selector)} {s inner : Section}

theorem parent_notMem_of_ampersandFree (h : s.ampersandFree) (hin : inner.Within s) :
    ∀ selector ∈ inner.selectors, Selector.parent ∉ selector := by
  have hparts : ∀ s : Section, s.ampersandFree →
      (∀ selector ∈ s.selectors, Selector.parent ∉ selector) ∧
        ∀ child ∈ s.nested, child.ampersandFree := by
    intro s hs
    cases s
    rw [ampersandFree, ampersandFreeAll_eq_all] at hs
    simpa using hs
  induction hin with
  | refl => exact (hparts _ h).1
  | nested hc _ ih => exact ih ((hparts _ h).2 _ hc)

theorem complete_fullSelectors {selectors : List Selector}
    (hparents : ∀ around ∈ parents, ∀ s ∈ around, Selector.Complete s)
    (hreal : ∀ s ∈ selectors, Selector.Real s)
    (hplaced : ∀ s ∈ selectors, s.Anchored ∧ (parents.isSome ∨ Selector.parent ∉ s)) :
    ∀ s ∈ fullSelectors parents selectors, Selector.Complete s := by
  cases parents with
  | none => exact fun s hs => ⟨hreal s hs, (hplaced s hs).2.resolve_left (by simp)⟩
  | some around =>
    intro s hs
    obtain ⟨child, hchild, hs⟩ := List.mem_flatMap.1 hs
    obtain ⟨outer, houter, rfl⟩ := List.mem_map.1 hs
    exact Selector.complete_nest (hreal child hchild) (hplaced child hchild).1
      (hparents around rfl outer houter)

/-- The rules of a section have complete selectors, if those of the rule around it are. -/
theorem ensures_complete (h : s.ampersandsPlaced parents)
    (hreal : ∀ inner : Section, inner.Within s → ∀ selector ∈ inner.selectors, selector.Real)
    (hparents : ∀ around ∈ parents, ∀ s ∈ around, Selector.Complete s) :
    s.Ensures (fun ss => ∀ selector ∈ ss, selector.Complete) parents := by
  induction s using Section.induction_nested generalizing parents with
  | step s ih =>
    have hnested : ∀ child ∈ s.nested, ∀ inner : Section, inner.Within child →
        ∀ selector ∈ inner.selectors, selector.Real :=
      fun child hc inner hin => hreal inner (.nested hc hin)
    obtain ⟨selectors, attributes, nested, extensions, references, media⟩ := s
    rw [ampersandsPlaced] at h
    split at h
    · next hs =>
      rw [ampersandsPlacedAll_eq_all, List.all_eq_true] at h
      exact .wrapper (by simpa using hs) fun child hc =>
        ih child hc (h child hc) (hnested child hc) hparents
    next hs =>
    have hne : selectors ≠ [] := by simpa using hs
    simp only [Bool.and_eq_true, List.all_eq_true, decide_eq_true_eq, Bool.or_eq_true] at h
    obtain ⟨hown, hbody⟩ := h
    have hfull := complete_fullSelectors hparents (hreal _ (.refl _)) hown
    split at hbody
    · next hat =>
      rw [ampersandFreeAll_eq_all, List.all_eq_true] at hbody
      refine .atRule hne hfull hat fun child hc inner hin selector hsel => ?_
      exact ⟨hnested child hc inner hin selector hsel,
        parent_notMem_of_ampersandFree (hbody child hc) hin selector hsel⟩
    · next hat =>
      rw [ampersandsPlacedAll_eq_all, List.all_eq_true] at hbody
      refine .rule hne hfull hat fun child hc => ih child hc (hbody child hc) (hnested child hc) ?_
      rintro _ ⟨⟩
      exact hfull

end Section

/-- Every `&` of the sheet is at an end of its selector, alone there, and stands for something: it
is in a section of a template, or inside a rule and outside the bodies of at-rules. -/
def Sheet.ampersandsPlaced (sheet : Sheet) : Bool :=
  Section.ampersandsPlacedAll none sheet.sections &&
    sheet.templates.all fun t => t.sections.all fun child => child.selectors.all (·.Anchored)

theorem Sheet.provides_complete {name source : String} {sheet : Sheet}
    (hp : Sheet.parse name source = .ok sheet) (h : sheet.ampersandsPlaced) :
    Session.Provides (fun ss => ∀ s ∈ ss, s.Complete) sheet := by
  have hreal : Session.Brings (fun ss => ∀ s ∈ ss, s.Real) sheet :=
    Sheet.brings_of_parse hp (fun _ _ hreal => hreal) (.inl (by simp))
  simp only [Sheet.ampersandsPlaced, Section.ampersandsPlacedAll_eq_all, Bool.and_eq_true,
    List.all_eq_true, decide_eq_true_eq] at h
  obtain ⟨hsections, htemplates⟩ := h
  constructor
  · intro s hs
    refine Section.ensures_complete (hsections s hs) (fun inner hin => ?_) (by simp)
    by_cases hne : inner.selectors = []
    · simp [hne]
    · exact (hreal.sections s hs).written inner hin hne
  · intro t ht child hc callers hcallers s hs
    obtain ⟨own, hown, hs⟩ := List.mem_flatMap.1 hs
    obtain ⟨caller, hcaller, rfl⟩ := List.mem_map.1 hs
    exact Selector.complete_apply (hreal.templates t ht child hc own hown)
      (htemplates t ht child hc own hown) (hcallers caller hcaller)

/-- No selector of the output has an `&`, if every `&` in the sheets that take part is at an end of
its selector and stands for something. -/
theorem parent_notMem_of_compileSource {sources : Sources} {name source : String}
    {c : Compilation} (h : compileSource (.ofSources sources) name source = .ok c)
    (hplaced : ∀ sheet, TakesPart sources name source sheet → sheet.ampersandsPlaced) :
    ∀ content ∈ FlatRule.contentsAll c.rules, ∀ s ∈ content.1, Selector.parent ∉ s := by
  have hcomplete : ∀ content ∈ FlatRule.contentsAll c.rules, ∀ s ∈ content.1, s.Complete := by
    refine upheld_of_compileSource (Q := fun ss => ∀ s ∈ ss, s.Complete) h ?_ ?_ ?_
    · exact fun hmore hown => List.forall_mem_append.2 ⟨hmore, hown⟩
    · exact Selector.complete_path
    · intro sheet hpart
      obtain ⟨entry, -, hp⟩ := hpart.parsed
      exact Sheet.provides_complete hp (hplaced sheet hpart)
  exact fun content hin s hs => (hcomplete content hin s hs).parent_notMem

/-- An `&` at either end, in nested sections, below a media wrapper and in an imported template. -/
theorem parent_notMem_of_compileSource_imported :
    let sources : Sources :=
      [("base.bss", "@func tip()\x7b&:hover\x7bc: d\x7d .dark &\x7be: f\x7d\x7d")]
    let source := "@import base; .a\x7b&.on\x7bg: h\x7d .x &\x7b@func tip()\x7d " ++
      "@media print\x7b&:focus\x7b@extend .b; i: j\x7d\x7d\x7d .b\x7bk: l\x7d"
    ∃ c, compileSource (.ofSources sources) "main.bss" source = .ok c ∧
      (FlatRule.contentsAll c.rules).map Prod.fst =
        [[["@media print"]], [[".a:focus"]], [[".a.on"]], [[".a:focus"], [".b"]],
          [[".x", ".a:hover"]], [[".dark", ".x", ".a"]]] ∧
      ∀ content ∈ FlatRule.contentsAll c.rules, ∀ s ∈ content.1, Selector.parent ∉ s := by
  intro sources source
  have hplaced : ∀ entry ∈ ("main.bss", source) :: sources,
      (Sheet.parse entry.1 entry.2).toOption.all Sheet.ampersandsPlaced := by
    decide +kernel
  obtain ⟨c, hc, hselectors⟩ : ∃ c, compileSource (.ofSources sources) "main.bss" source = .ok c ∧
      (FlatRule.contentsAll c.rules).map Prod.fst =
        [[["@media print"]], [[".a:focus"]], [[".a.on"]], [[".a:focus"], [".b"]],
          [[".x", ".a:hover"]], [[".dark", ".x", ".a"]]] :=
    exists_ok_of_decide (by decide +kernel)
  refine ⟨c, hc, hselectors, parent_notMem_of_compileSource hc fun sheet hpart => ?_⟩
  obtain ⟨entry, hin, hp⟩ := hpart.parsed
  simpa [hp, Except.toOption] using hplaced entry hin

end NestedStyles
