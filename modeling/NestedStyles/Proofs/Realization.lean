import NestedStyles.Proofs.Flattening

/-!
What a list of yields says about the tables of a session: which rules stand in which media path,
in which order the containers were made, and which rule an extension finds. Emitting a yield keeps
the tables and the list in step.
-/

namespace NestedStyles

/-- The rules that were yielded in a media path, or outside all of them, in order. -/
def treesAt (path : Option String) (yields : List Yield) : List RuleTree :=
  ((yields.filterMap Yield.placed).filter fun found => found.1 = path).map (·.2)

/-- Adds a media path to those used before, unless it is one of them or none. -/
def usePath (used : List String) : Option String → List String
  | none => used
  | some path => if path ∈ used then used else used ++ [path]

/-- The media paths of the yielded rules in the order of their first use. -/
def mediaPaths (yields : List Yield) : List String :=
  ((yields.filterMap Yield.placed).map (·.1)).foldl usePath []

@[simp] theorem treesAt_append (path : Option String) (ys zs : List Yield) :
    treesAt path (ys ++ zs) = treesAt path ys ++ treesAt path zs := by
  simp [treesAt]

theorem treesAt_singleton {y : Yield} {path : Option String} {tree : RuleTree}
    (h : y.placed = some (path, tree)) (q : Option String) :
    treesAt q [y] = if q = path then [tree] else [] := by
  by_cases hq : q = path
  · simp [treesAt, h, hq]
  · simp [treesAt, h, hq, Ne.symm hq]

theorem mem_treesAt {y : Yield} {path : Option String} {tree : RuleTree} {ys : List Yield}
    (hy : y ∈ ys) (h : y.placed = some (path, tree)) : tree ∈ treesAt path ys := by
  refine List.mem_map.2 ⟨(path, tree), List.mem_filter.2 ⟨?_, by simp⟩, rfl⟩
  exact List.mem_filterMap.2 ⟨y, hy, h⟩

theorem mediaPaths_concat {y : Yield} {path : Option String} {tree : RuleTree}
    (ys : List Yield) (h : y.placed = some (path, tree)) :
    mediaPaths (ys ++ [y]) = usePath (mediaPaths ys) path := by
  simp [mediaPaths, h]

theorem usePath_nodup {used : List String} (h : used.Nodup) (path : Option String) :
    (usePath used path).Nodup := by
  cases path with
  | none => exact h
  | some p =>
    by_cases hp : p ∈ used
    · simpa [usePath, hp] using h
    · rw [usePath, if_neg hp, ← List.concat_eq_append]
      exact h.concat hp

theorem mediaPaths_nodup (ys : List Yield) : (mediaPaths ys).Nodup := by
  unfold mediaPaths
  generalize (ys.filterMap Yield.placed).map (·.1) = paths
  suffices hrun : ∀ used : List String, used.Nodup → (paths.foldl usePath used).Nodup from
    hrun [] List.nodup_nil
  induction paths with
  | nil => exact fun used h => h
  | cons path rest ih => exact fun used h => ih _ (usePath_nodup h path)

theorem placed_of_mem_mediaPaths {ys : List Yield} {path : String} (h : path ∈ mediaPaths ys) :
    ∃ y ∈ ys, ∃ tree, y.placed = some (some path, tree) := by
  have hused : ∀ (paths : List (Option String)) (used : List String),
      path ∈ paths.foldl usePath used → path ∈ used ∨ some path ∈ paths := by
    intro paths
    induction paths with
    | nil => exact fun used hin => .inl hin
    | cons first rest ih =>
      intro used hin
      rcases ih _ hin with hin | hin
      · unfold usePath at hin
        split at hin
        · exact .inl hin
        · split at hin
          · exact .inl hin
          · rcases List.mem_append.1 hin with hin | hin
            · exact .inl hin
            · exact .inr (by simp [List.mem_singleton.1 hin])
      · exact .inr (List.mem_cons_of_mem _ hin)
  rcases hused _ _ h with hin | hin
  · cases hin
  · obtain ⟨⟨_, tree⟩, hfound, rfl⟩ := List.mem_map.1 hin
    obtain ⟨y, hy, hplaced⟩ := List.mem_filterMap.1 hfound
    exact ⟨y, hy, tree, hplaced⟩

namespace RuleTable.Forest

variable {t : RuleTable} {roots : List Nat}

theorem roots_nodup (h : t.Forest roots) : roots.Nodup := by
  refine (List.nodup_flatMap.1 h.nodup).2.imp_of_mem ?_
  rintro a b ha - hd rfl
  exact hd (mem_preorder_self (h.valid a ha)) (mem_preorder_self (h.valid a ha))

end RuleTable.Forest

namespace Session

variable {s u : Session} {path : Option String} {tree : RuleTree} {rule : Rule} {id x c : Nat}
  {name : String} {ys : List Yield} {y : Yield}

/-- The rules that stand in a media path, or outside all of them, in order. -/
def rulesAt (s : Session) : Option String → List Nat
  | none => s.top
  | some path => ((s.containers.lookup path).map s.table.children).getD []

/-- An extension finds the last yielded rule with its name as a selector. The rule is known by its
place among those of its media path. -/
def Resolves (s : Session) (yields : List Yield) (name : String) (id : Nat) : Prop :=
  ∃ earlier y later path tree, yields = earlier ++ y :: later ∧ y.Names name ∧
    (∀ z ∈ later, ¬ z.Names name) ∧ y.placed = some (path, tree) ∧
    (s.rulesAt path)[(treesAt path earlier).length]? = some id

/-- The tables of a session hold what the yields say and nothing else. -/
structure Realizes (s : Session) (yields : List Yield) : Prop where
  forest : s.table.Forest s.roots
  paths : s.containers.map (·.1) = mediaPaths yields
  containers : ∀ path id, s.containers.lookup path = some id →
    s.table.rule? id = some { selectors := [[path]] }
  placed : ∀ path, (s.rulesAt path).map s.table.ruleTree = treesAt path yields
  resolved : ∀ name id, s.targets.lookup name = some id ↔ s.Resolves yields name id

theorem mem_roots_of_lookup {p : String} (h : s.containers.lookup p = some c) : c ∈ s.roots := by
  obtain ⟨before, after, hs, -⟩ := List.lookup_eq_some_iff.1 h
  simp [roots, hs]

theorem rulesAt_of_container {p : String} {node : RuleNode}
    (hc : s.containers.lookup p = some c) (hn : s.table.nodes[c]? = some node) :
    s.rulesAt (some p) = node.children := by
  simp [rulesAt, hc, RuleTable.children_of_node hn]

theorem mem_rulesAt_some {p : String} (h : x ∈ s.rulesAt (some p)) :
    ∃ c node, s.containers.lookup p = some c ∧ s.table.nodes[c]? = some node ∧
      x ∈ node.children := by
  cases hc : s.containers.lookup p with
  | none => simp [rulesAt, hc] at h
  | some c =>
    cases hn : s.table.nodes[c]? with
    | none => simp [rulesAt, hc, RuleTable.children, hn] at h
    | some node =>
      rw [rulesAt_of_container hc hn] at h
      exact ⟨c, node, rfl, hn, h⟩

theorem lt_size_of_mem_rulesAt (h : s.table.Forest s.roots) (hx : x ∈ s.rulesAt path) :
    x < s.table.size := by
  cases path with
  | none => exact h.valid x (List.mem_append_right _ hx)
  | some p =>
    obtain ⟨c, node, -, hn, hin⟩ := mem_rulesAt_some hx
    exact (s.table.later c node hn x hin).2

theorem container_not_mem_preorder (h : s.table.Forest s.roots) {p : String}
    (hc : s.containers.lookup p = some c) (hx : x ∈ s.rulesAt path) :
    c ≠ x ∧ c ∉ s.table.preorder x := by
  have hroot := mem_roots_of_lookup hc
  have hne : c ≠ x := by
    rintro rfl
    cases path with
    | none =>
      obtain ⟨before, after, hs, -⟩ := List.lookup_eq_some_iff.1 hc
      have hdisjoint := (List.nodup_append.1 h.roots_nodup).2.2
      exact hdisjoint c (by simp [hs]) c hx rfl
    | some q =>
      obtain ⟨d, node, -, hn, hin⟩ := mem_rulesAt_some hx
      exact h.root_not_child hroot hn hin
  exact ⟨hne, h.root_not_mem_preorder hroot hne⟩

theorem container_injective (h : s.table.Forest s.roots) {p q : String}
    (hp : s.containers.lookup p = some c) (hq : s.containers.lookup q = some c) : p = q := by
  have hnodup : (s.containers.map (·.2)).Nodup := (List.nodup_append.1 h.roots_nodup).1
  obtain ⟨before, after, hs, -⟩ := List.lookup_eq_some_iff.1 hp
  obtain ⟨before', after', hs', -⟩ := List.lookup_eq_some_iff.1 hq
  have hpair := List.inj_on_of_nodup_map hnodup (x := (p, c)) (by simp [hs]) (y := (q, c))
    (by simp [hs']) rfl
  exact congrArg Prod.fst hpair

theorem Realizes.lookup_container {p : String} (h : s.Realizes ys) (hc : (p, c) ∈ s.containers) :
    s.containers.lookup p = some c := by
  have hnodup : (s.containers.map (·.1)).Nodup := by
    rw [h.paths]
    exact mediaPaths_nodup ys
  cases hd : s.containers.lookup p with
  | none =>
    have := List.lookup_eq_none_iff.1 hd (p, c) hc
    simp at this
  | some d =>
    obtain ⟨before, after, hs, -⟩ := List.lookup_eq_some_iff.1 hd
    have hpair := List.inj_on_of_nodup_map hnodup (x := (p, c)) hc (y := (p, d)) (by simp [hs]) rfl
    cases hpair
    rfl

/-- `u` is `s` with one more rule, the last one of its media path. -/
structure Gains (s u : Session) (path : Option String) (id : Nat) (tree : RuleTree) : Prop where
  forest : u.table.Forest u.roots
  fresh : s.table.size ≤ id
  rules : ∀ q, u.rulesAt q = if q = path then s.rulesAt q ++ [id] else s.rulesAt q
  kept : ∀ q, ∀ x ∈ s.rulesAt q,
    u.table.preorder x = s.table.preorder x ∧ u.table.ruleTree x = s.table.ruleTree x
  new : u.table.ruleTree id = tree
  paths : u.containers.map (·.1) = usePath (s.containers.map (·.1)) path
  containers : ∀ q d, u.containers.lookup q = some d →
    u.table.rule? d = some { selectors := [[q]] } ∨
      s.containers.lookup q = some d ∧ u.table.rule? d = s.table.rule? d

theorem place_none_gains (h : s.table.Forest s.roots) (rule : Rule) :
    Gains s (s.place none rule) none s.table.size ⟨rule, []⟩ := by
  have hnew : (s.table.push rule).nodes[s.table.size]? = some ⟨rule, []⟩ := by
    rw [RuleTable.nodes_push, if_pos rfl]
  have hchildren : ∀ p d, s.containers.lookup p = some d →
      (s.table.push rule).nodes[d]? = s.table.nodes[d]? := by
    intro p d hd
    exact RuleTable.nodes_push_of_lt (h.valid d (mem_roots_of_lookup hd))
  constructor
  · exact h.push.perm (by simp [roots, place])
  · exact Nat.le_refl _
  · intro q
    cases q with
    | none => simp [rulesAt, place]
    | some p =>
      cases hd : s.containers.lookup p with
      | none => simp [rulesAt, place, hd]
      | some d => simp [rulesAt, place, hd, RuleTable.children, hchildren p d hd]
  · intro q x hx
    apply RuleTable.preorder_ruleTree_congr (lt_size_of_mem_rulesAt h hx)
    intro i hi
    exact RuleTable.nodes_push_of_lt (RuleTable.le_and_lt_size_of_mem_preorder hi).2
  · exact RuleTable.ruleTree_of_node hnew
  · rfl
  · intro q d hd
    refine .inr ⟨hd, ?_⟩
    simp [RuleTable.rule?, place, hchildren q d hd]

theorem place_old_gains {p : String} (h : s.table.Forest s.roots)
    (hc : s.containers.lookup p = some c) (rule : Rule) :
    Gains s (s.place (some p) rule) (some p) s.table.size ⟨rule, []⟩ := by
  have hlt : c < s.table.size := h.valid c (mem_roots_of_lookup hc)
  have hadds := RuleTable.Adds.pushInto rule hlt
  have hplace : s.place (some p) rule = { s with table := s.table.pushInto c rule } := by
    simp [place, hc]
  have hnew : (s.table.pushInto c rule).nodes[s.table.size]? = some ⟨rule, []⟩ := by
    rw [RuleTable.nodes_pushInto, if_pos rfl]
  obtain ⟨node, hn⟩ := RuleTable.node_of_lt_size hlt
  rw [hplace]
  constructor
  · exact h.pushInto hlt
  · exact Nat.le_refl _
  · intro q
    cases q with
    | none => simp [rulesAt]
    | some q =>
      by_cases hq : q = p
      · subst hq
        simp [rulesAt, hc, RuleTable.children, hadds.parent_node, hn]
      · cases hd : s.containers.lookup q with
        | none => simp [rulesAt, hd, hq]
        | some d =>
          have hne : d ≠ c := by
            rintro rfl
            exact hq (container_injective h hd hc)
          have hsame := hadds.others d (h.valid d (mem_roots_of_lookup hd)) hne
          simp [rulesAt, hd, hq, RuleTable.children, hsame]
  · intro q x hx
    exact hadds.ruleTree_eq (lt_size_of_mem_rulesAt h hx) (container_not_mem_preorder h hc hx).2
  · exact RuleTable.ruleTree_of_node hnew
  · have hmem : p ∈ s.containers.map (·.1) := by
      obtain ⟨before, after, hs, -⟩ := List.lookup_eq_some_iff.1 hc
      simp [hs]
    exact (if_pos hmem).symm
  · intro q d hd
    refine .inr ⟨hd, ?_⟩
    have hdlt : d < s.table.size := h.valid d (mem_roots_of_lookup hd)
    by_cases hne : d = c
    · subst hne
      simp [RuleTable.rule?, hadds.parent_node, Function.comp_def]
    · simp [RuleTable.rule?, hadds.others d hdlt hne]

theorem place_new_gains {p : String} (h : s.table.Forest s.roots)
    (hc : s.containers.lookup p = none) (rule : Rule) :
    Gains s (s.place (some p) rule) (some p) (s.table.size + 1) ⟨rule, []⟩ := by
  let pushed := s.table.push { selectors := [[p]] }
  have hplace : s.place (some p) rule =
      { s with
        table := pushed.pushInto s.table.size rule
        containers := s.containers ++ [(p, s.table.size)] } := by
    simp only [place, hc, pushed]
  have hsize : pushed.size = s.table.size + 1 := RuleTable.size_push
  have hold : ∀ i < s.table.size,
      (pushed.pushInto s.table.size rule).nodes[i]? = s.table.nodes[i]? := by
    intro i hi
    rw [RuleTable.nodes_pushInto_of_ne (by omega) (by omega), RuleTable.nodes_push_of_lt hi]
  have hcontainer : (pushed.pushInto s.table.size rule).nodes[s.table.size]? =
      some ⟨{ selectors := [[p]] }, [s.table.size + 1]⟩ := by
    rw [RuleTable.nodes_pushInto, if_neg (by omega), if_pos rfl, RuleTable.nodes_push,
      if_pos rfl, hsize]
    rfl
  have hnew : (pushed.pushInto s.table.size rule).nodes[s.table.size + 1]? =
      some ⟨rule, []⟩ := by
    rw [RuleTable.nodes_pushInto, if_pos hsize.symm]
  have hlookup : ∀ q, (s.containers ++ [(p, s.table.size)]).lookup q =
      if q = p then some s.table.size else s.containers.lookup q := by
    intro q
    by_cases hq : q = p
    · subst hq
      rw [List.lookup_append, hc, Option.none_or, List.lookup_cons_self, if_pos rfl]
    · rw [List.lookup_append, if_neg hq, List.lookup_cons, beq_false_of_ne hq, List.lookup_nil,
        Option.or_none]
  rw [hplace]
  constructor
  · apply (h.push.pushInto (by simp)).perm
    simp only [roots, List.map_append, List.map_cons, List.map_nil, List.append_assoc]
    exact List.Perm.append_left _ List.perm_append_comm
  · omega
  · intro q
    cases q with
    | none => simp [rulesAt]
    | some q =>
      by_cases hq : q = p
      · subst hq
        simp [rulesAt, hlookup, hc, RuleTable.children, hcontainer]
      · cases hd : s.containers.lookup q with
        | none => simp [rulesAt, hlookup, hd, hq]
        | some d =>
          have hsame := hold d (h.valid d (mem_roots_of_lookup hd))
          simp [rulesAt, hlookup, hd, hq, RuleTable.children, hsame]
  · intro q x hx
    apply RuleTable.preorder_ruleTree_congr (lt_size_of_mem_rulesAt h hx)
    intro i hi
    exact hold i (RuleTable.le_and_lt_size_of_mem_preorder hi).2
  · exact RuleTable.ruleTree_of_node hnew
  · have hmem : p ∉ s.containers.map (·.1) := by
      intro hin
      obtain ⟨⟨q, d⟩, hpair, rfl⟩ := List.mem_map.1 hin
      simpa using List.lookup_eq_none_iff.1 hc _ hpair
    simp only [List.map_append, List.map_cons, List.map_nil]
    exact (if_neg hmem).symm
  · intro q d hd
    simp only [hlookup] at hd
    split at hd
    · next hq =>
      cases hd
      left
      rw [RuleTable.rule?_of_node hcontainer, hq]
    · refine .inr ⟨hd, ?_⟩
      simp [RuleTable.rule?, hold d (h.valid d (mem_roots_of_lookup hd))]

theorem place_gains (h : s.table.Forest s.roots) (path : Option String) (rule : Rule) :
    Gains s (s.place path rule) path ((s.place path rule).table.size - 1) ⟨rule, []⟩ ∧
      (s.place path rule).table.nodes[(s.place path rule).table.size - 1]? = some ⟨rule, []⟩ := by
  cases path with
  | none =>
    refine ⟨?_, ?_⟩
    · simpa [place] using place_none_gains h rule
    · simp [place, RuleTable.nodes_push]
  | some p =>
    cases hc : s.containers.lookup p with
    | none =>
      refine ⟨?_, ?_⟩
      · simpa [place, hc] using place_new_gains h hc rule
      · simp [place, hc, RuleTable.nodes_pushInto]
    | some c =>
      refine ⟨?_, ?_⟩
      · simpa [place, hc] using place_old_gains h hc rule
      · simp [place, hc, RuleTable.nodes_pushInto]

theorem Gains.register (g : Gains s u path id tree) (selectors : List Selector) :
    Gains s (u.register id selectors) path id tree := by
  rw [register_eq]
  exact ⟨g.forest, g.fresh, g.rules, g.kept, g.new, g.paths, g.containers⟩

theorem Gains.body (g : Gains s u path id ⟨rule, []⟩)
    (hnode : u.table.nodes[id]? = some ⟨rule, []⟩) (nested : List Section) :
    Gains s { u with table := u.table.addSections id nested } path id
      ⟨rule, RuleTree.ofSections nested⟩ := by
  have hlt : id < u.table.size := RuleTable.lt_size_of_node hnode
  obtain ⟨ids, hadds, htrees, -⟩ := RuleTable.addSections_adds u.table id hlt nested
  have hmem : id ∈ u.rulesAt path := by rw [g.rules, if_pos rfl]; simp
  have hcontainer : ∀ q d, u.containers.lookup q = some d →
      (u.table.addSections id nested).nodes[d]? = u.table.nodes[d]? := by
    intro q d hd
    exact hadds.others d (g.forest.valid d (mem_roots_of_lookup hd))
      (container_not_mem_preorder g.forest hd hmem).1
  constructor
  · exact RuleTable.Forest.addSections u.table id g.forest hlt nested
  · exact g.fresh
  · intro q
    rw [← g.rules q]
    cases q with
    | none => rfl
    | some q =>
      cases hd : u.containers.lookup q with
      | none => simp [rulesAt, hd]
      | some d => simp [rulesAt, hd, RuleTable.children, hcontainer q d hd]
  · intro q x hx
    have hxu : x ∈ u.rulesAt q := by
      rw [g.rules q]
      split
      · exact List.mem_append_left _ hx
      · exact hx
    obtain ⟨hpre, htree⟩ := g.kept q x hx
    have hnot : id ∉ u.table.preorder x := by
      rw [hpre]
      intro hin
      have := RuleTable.le_and_lt_size_of_mem_preorder hin
      have := g.fresh
      omega
    obtain ⟨hpre', htree'⟩ := hadds.ruleTree_eq (lt_size_of_mem_rulesAt g.forest hxu) hnot
    exact ⟨hpre'.trans hpre, htree'.trans htree⟩
  · have hparent := hadds.parent_node
    rw [hnode] at hparent
    rw [RuleTable.ruleTree_of_node hparent]
    simp [htrees]
  · exact g.paths
  · intro q d hd
    have hsame : (u.table.addSections id nested).rule? d = u.table.rule? d := by
      simp [RuleTable.rule?, hcontainer q d hd]
    rw [hsame]
    exact g.containers q d hd

theorem lookup_registrations (id : Nat) (selectors : List Selector)
    (targets : List (String × Nat)) (name : String) :
    (registrations id selectors ++ targets).lookup name =
      if [name] ∈ selectors then some id else targets.lookup name := by
  have hmem : ∀ entry, entry ∈ registrations id selectors ↔
      [entry.1] ∈ selectors ∧ entry.2 = id := by
    rintro ⟨part, i⟩
    simp only [registrations, List.mem_reverse, List.mem_filterMap]
    constructor
    · rintro ⟨selector, hs, heq⟩
      split at heq
      · simp only [Option.some.injEq, Prod.mk.injEq] at heq
        obtain ⟨rfl, rfl⟩ := heq
        exact ⟨hs, rfl⟩
      · cases heq
    · rintro ⟨hs, rfl⟩
      exact ⟨[part], hs, rfl⟩
  rw [List.lookup_append]
  cases hl : (registrations id selectors).lookup name with
  | some found =>
    obtain ⟨before, after, hr, -⟩ := List.lookup_eq_some_iff.1 hl
    obtain ⟨hs, rfl⟩ := (hmem (name, found)).1 (by simp [hr])
    rw [if_pos hs, Option.some_or]
  | none =>
    rw [Option.none_or, if_neg]
    intro hs
    simpa using List.lookup_eq_none_iff.1 hl (name, id) ((hmem _).2 ⟨hs, rfl⟩)

theorem Gains.getElem?_rulesAt (g : Gains s u path id tree) {q : Option String} {n : Nat}
    (hn : n < (s.rulesAt q).length) : (u.rulesAt q)[n]? = (s.rulesAt q)[n]? := by
  rw [g.rules q]
  split
  · exact List.getElem?_append_left hn
  · rfl

theorem resolves_concat_of_not_names (hname : ¬ y.Names name) :
    s.Resolves (ys ++ [y]) name x ↔ s.Resolves ys name x := by
  constructor
  · rintro ⟨earlier, z, later, q, found, hys, hz, hlater, hq, hx⟩
    rcases List.eq_nil_or_concat' later with rfl | ⟨rest, w, rfl⟩
    · obtain ⟨-, hzy⟩ := List.append_inj' hys rfl
      cases hzy
      exact absurd hz hname
    · have hsplit : ys ++ [y] = (earlier ++ z :: rest) ++ [w] := by simpa using hys
      obtain ⟨hrest, -⟩ := List.append_inj' hsplit rfl
      refine ⟨earlier, z, rest, q, found, hrest, hz, ?_, hq, hx⟩
      intro w hw
      exact hlater w (List.mem_append_left _ hw)
  · rintro ⟨earlier, z, later, q, found, rfl, hz, hlater, hq, hx⟩
    refine ⟨earlier, z, later ++ [y], q, found, by simp, hz, ?_, hq, hx⟩
    intro w hw
    rcases List.mem_append.1 hw with hw | hw
    · exact hlater w hw
    · rw [List.mem_singleton.1 hw]
      exact hname

theorem resolves_concat_of_names (hname : y.Names name) (hy : y.placed = some (path, tree)) :
    s.Resolves (ys ++ [y]) name x ↔ (s.rulesAt path)[(treesAt path ys).length]? = some x := by
  constructor
  · rintro ⟨earlier, z, later, q, found, hys, hz, hlater, hq, hx⟩
    rcases List.eq_nil_or_concat' later with rfl | ⟨rest, w, rfl⟩
    · obtain ⟨rfl, hzy⟩ := List.append_inj' hys rfl
      cases hzy
      rw [hy] at hq
      cases hq
      exact hx
    · have hsplit : ys ++ [y] = (earlier ++ z :: rest) ++ [w] := by simpa using hys
      obtain ⟨-, hyw⟩ := List.append_inj' hsplit rfl
      cases hyw
      exact absurd hname (hlater y (by simp))
  · intro hx
    exact ⟨ys, y, [], path, tree, rfl, hname, by simp, hy, hx⟩

theorem Gains.resolves_iff (g : Gains s u path id tree)
    (hlength : ∀ q, (treesAt q ys).length = (s.rulesAt q).length) :
    u.Resolves ys name x ↔ s.Resolves ys name x := by
  have hplace : ∀ earlier z later q found, ys = earlier ++ z :: later →
      z.placed = some (q, found) →
      (u.rulesAt q)[(treesAt q earlier).length]? = (s.rulesAt q)[(treesAt q earlier).length]? := by
    rintro earlier z later q found rfl hq
    apply g.getElem?_rulesAt
    rw [← hlength q, treesAt_append, ← List.singleton_append (l := later), treesAt_append,
      treesAt_singleton hq, if_pos rfl]
    simp
  constructor
  · rintro ⟨earlier, z, later, q, found, hys, hz, hlater, hq, hx⟩
    rw [hplace earlier z later q found hys hq] at hx
    exact ⟨earlier, z, later, q, found, hys, hz, hlater, hq, hx⟩
  · rintro ⟨earlier, z, later, q, found, hys, hz, hlater, hq, hx⟩
    rw [← hplace earlier z later q found hys hq] at hx
    exact ⟨earlier, z, later, q, found, hys, hz, hlater, hq, hx⟩

/-- A session that gains the rule of a yield keeps in step with the yields. -/
theorem Realizes.gain (h : s.Realizes ys) (g : Gains s u path id tree)
    (hy : y.placed = some (path, tree))
    (htargets : ∀ name, y.Names name ∧ u.targets.lookup name = some id ∨
      ¬ y.Names name ∧ u.targets.lookup name = s.targets.lookup name) :
    u.Realizes (ys ++ [y]) := by
  constructor
  · exact g.forest
  · rw [g.paths, h.paths, mediaPaths_concat ys hy]
  · intro q d hd
    rcases g.containers q d hd with hnew | ⟨hold, hsame⟩
    · exact hnew
    · rw [hsame]
      exact h.containers q d hold
  · intro q
    have hkept : (s.rulesAt q).map u.table.ruleTree = treesAt q ys := by
      rw [← h.placed q]
      exact List.map_congr_left fun x hx => (g.kept q x hx).2
    rw [g.rules q, treesAt_append, treesAt_singleton hy]
    split
    · rw [List.map_append, hkept, List.map_cons, List.map_nil, g.new]
    · rw [hkept, List.append_nil]
  · intro name x
    have hlength : ∀ q, (treesAt q ys).length = (s.rulesAt q).length := by
      intro q
      rw [← h.placed q, List.length_map]
    rcases htargets name with ⟨hname, hl⟩ | ⟨hname, hl⟩
    · rw [hl, resolves_concat_of_names hname hy, g.rules, if_pos rfl, hlength,
        List.getElem?_concat_length]
    · rw [hl, h.resolved, resolves_concat_of_not_names hname, g.resolves_iff hlength]

theorem exists_last_names (h : ∃ y ∈ ys, y.Names name) :
    ∃ earlier y later, ys = earlier ++ y :: later ∧ y.Names name ∧ ∀ z ∈ later, ¬ z.Names name := by
  induction ys with
  | nil => simp at h
  | cons y rest ih =>
    by_cases hrest : ∃ z ∈ rest, z.Names name
    · obtain ⟨earlier, z, later, rfl, hz, hlater⟩ := ih hrest
      exact ⟨y :: earlier, z, later, rfl, hz, hlater⟩
    · obtain ⟨z, hz, hname⟩ := h
      rcases List.mem_cons.1 hz with rfl | hz
      · exact ⟨[], z, rest, rfl, hname, fun w hw hn => hrest ⟨w, hw, hn⟩⟩
      · exact absurd ⟨z, hz, hname⟩ hrest

/-- An extension finds nothing if and only if no yielded rule has its name as a selector. -/
theorem Realizes.lookup_eq_none_iff (h : s.Realizes ys) :
    s.targets.lookup name = none ↔ ∀ y ∈ ys, ¬ y.Names name := by
  constructor
  · intro hnone y hy hname
    obtain ⟨earlier, z, later, hys, hz, hlater⟩ := exists_last_names ⟨y, hy, hname⟩
    obtain ⟨path, tree, hplaced⟩ : ∃ path tree, z.placed = some (path, tree) := by
      cases z with
      | rule => exact ⟨_, _, rfl⟩
      | host => exact ⟨_, _, rfl⟩
      | events => cases hz
    -- the rule of `z` has a number: as many rules were placed in its path as were yielded there
    have hlt : (treesAt path earlier).length < (s.rulesAt path).length := by
      rw [← List.length_map (f := s.table.ruleTree), h.placed path, hys, treesAt_append,
        ← List.singleton_append (l := later), treesAt_append, treesAt_singleton hplaced, if_pos rfl]
      simp
    have hresolves : s.Resolves ys name (s.rulesAt path)[(treesAt path earlier).length] :=
      ⟨earlier, z, later, path, tree, hys, hz, hlater, hplaced, List.getElem?_eq_getElem hlt⟩
    rw [← h.resolved, hnone] at hresolves
    cases hresolves
  · intro hnames
    cases hl : s.targets.lookup name with
    | none => rfl
    | some id =>
      obtain ⟨earlier, y, later, path, tree, rfl, hy, -⟩ := (h.resolved name id).1 hl
      exact absurd hy (hnames y (by simp))

theorem Realizes.note (h : s.Realizes ys) (met : List Event) : (s.note met).Realizes ys :=
  ⟨h.forest, h.paths, h.containers, h.placed, h.resolved⟩

theorem emit_realizes (h : s.Realizes ys) (y : Yield) : (s.emit y).Realizes (ys ++ [y]) := by
  cases y with
  | rule path selectors origin =>
    obtain ⟨g, hnode⟩ := place_gains h.forest path
      ⟨selectors, origin.attributes, origin.extensions, origin.references⟩
    have hframe := (s.place_frame path
      ⟨selectors, origin.attributes, origin.extensions, origin.references⟩).2.2.2.2.2.1
    generalize hu : s.place path
      ⟨selectors, origin.attributes, origin.extensions, origin.references⟩ = u at g hnode hframe
    have htargets : ∀ name,
        [name] ∈ selectors ∧ (u.register (u.table.size - 1) selectors).targets.lookup name =
          some (u.table.size - 1) ∨
        [name] ∉ selectors ∧ (u.register (u.table.size - 1) selectors).targets.lookup name =
          s.targets.lookup name := by
      intro name
      rw [register_eq, lookup_registrations, hframe]
      by_cases hname : [name] ∈ selectors
      · exact .inl ⟨hname, if_pos hname⟩
      · exact .inr ⟨hname, if_neg hname⟩
    simp only [emit, hu]
    -- the body of an at-rule goes into the rule just placed and is never a target
    by_cases hat : Selector.isAtRule selectors
    · rw [if_pos hat]
      have hbody := (g.register selectors).body (by rw [register_eq]; exact hnode) origin.nested
      exact h.gain hbody (by simp [Yield.placed, hat]) htargets
    · rw [if_neg hat]
      exact h.gain (g.register selectors) (by simp [Yield.placed, hat]) htargets
  | host path selectors wrapper =>
    have hframe := (s.place_frame (some path)
      { selectors := selectors, attributes := wrapper.attributes }).2.2.2.2.2.1
    obtain ⟨g, -⟩ := place_gains h.forest (some path)
      { selectors := selectors, attributes := wrapper.attributes }
    refine h.gain g rfl fun name => .inr ⟨fun hname => hname, ?_⟩
    rw [← hframe]
    rfl
  | events met =>
    have hy : (Yield.events met).placed = none := rfl
    have hn := h.note met
    constructor
    · exact hn.forest
    · have hpaths : mediaPaths (ys ++ [.events met]) = mediaPaths ys := by simp [mediaPaths, hy]
      rw [hpaths]
      exact hn.paths
    · exact hn.containers
    · intro q
      have htrees : treesAt q [.events met] = [] := by simp [treesAt, hy]
      rw [treesAt_append, htrees, List.append_nil]
      exact hn.placed q
    · intro name x
      have hname : ¬ (Yield.events met).Names name := fun hname => hname
      rw [resolves_concat_of_not_names hname]
      exact hn.resolved name x

theorem emitAll_realizes (h : s.Realizes ys) (zs : List Yield) :
    (s.emitAll zs).Realizes (ys ++ zs) := by
  induction zs generalizing s ys with
  | nil => simpa [emitAll] using h
  | cons z zs ih => simpa [emitAll] using ih (emit_realizes h z)

end Session

end NestedStyles
