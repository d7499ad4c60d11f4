import NestedStyles.Session.Import
import Mathlib.Data.List.Nodup
import Mathlib.Data.Set.Insert

/-!
The order in which the sheets of an import graph are merged. Imports are followed depth first and
in the order they are written, a sheet comes after what it imports, and a name that was seen before
is passed over. The walk ends at the first name without a sheet. No session takes part in it.
-/

namespace NestedStyles

def Library.find (lib : Library) (file : String) : Except Error Sheet :=
  match lib.load file with
  | .error e => .error e
  | .ok source =>
    match Sheet.parse file source with
    | .error fault => .error (.parse file fault)
    | .ok sheet => .ok sheet

/-- How far the imports were followed: the sheets that came to their end, in that order, the names
of those that did not, the outermost first, and why the walk ended early. -/
structure Walk where
  done : List Sheet := []
  opened : List String := []
  failure : Option Error := none

def Walk.names (w : Walk) : List String := w.done.map (·.name) ++ w.opened

def Walk.result (w : Walk) : Except Error Unit :=
  match w.failure with
  | none => .ok ()
  | some e => .error e

/-- Following a list of imports when the names of `seen` were met before. -/
inductive Follows (lib : Library) (suffix : String) : Set String → List String → Walk → Prop
  | nil {seen : Set String} : Follows lib suffix seen [] {}
  | skip {seen : Set String} {name : String} {rest : List String} {w : Walk} :
      Text.withEnding name suffix ∈ seen → Follows lib suffix seen rest w →
      Follows lib suffix seen (name :: rest) w
  | missing {seen : Set String} {name : String} {rest : List String} {e : Error} :
      Text.withEnding name suffix ∉ seen → lib.find (Text.withEnding name suffix) = .error e →
      Follows lib suffix seen (name :: rest) { failure := some e }
  | stuck {seen : Set String} {name : String} {rest : List String} {sheet : Sheet}
      {done : List Sheet} {opened : List String} {e : Error} :
      Text.withEnding name suffix ∉ seen → lib.find (Text.withEnding name suffix) = .ok sheet →
      Follows lib suffix (insert sheet.name seen) sheet.imports ⟨done, opened, some e⟩ →
      Follows lib suffix seen (name :: rest) ⟨done, sheet.name :: opened, some e⟩
  | sheet {seen : Set String} {name : String} {rest : List String} {sheet : Sheet}
      {done more : List Sheet} {opened : List String} {failure : Option Error} :
      Text.withEnding name suffix ∉ seen → lib.find (Text.withEnding name suffix) = .ok sheet →
      Follows lib suffix (insert sheet.name seen) sheet.imports ⟨done, [], none⟩ →
      Follows lib suffix (seen ∪ {n | n ∈ (done ++ [sheet]).map (·.name)}) rest
        ⟨more, opened, failure⟩ →
      Follows lib suffix seen (name :: rest) ⟨done ++ sheet :: more, opened, failure⟩

/-- Following a sheet: its imports, then the sheet itself. -/
inductive Links (lib : Library) (suffix : String) (seen : Set String) (sheet : Sheet) : Walk → Prop
  | known : sheet.name ∈ seen → Links lib suffix seen sheet {}
  | stuck {done : List Sheet} {opened : List String} {e : Error} : sheet.name ∉ seen →
      Follows lib suffix (insert sheet.name seen) sheet.imports ⟨done, opened, some e⟩ →
      Links lib suffix seen sheet ⟨done, sheet.name :: opened, some e⟩
  | merged {done : List Sheet} : sheet.name ∉ seen →
      Follows lib suffix (insert sheet.name seen) sheet.imports ⟨done, [], none⟩ →
      Links lib suffix seen sheet ⟨done ++ [sheet], [], none⟩

/-- The sheets that a list of imports leads to through names outside `seen`. -/
inductive Linked (lib : Library) (suffix : String) (seen : Set String) (names : List String) :
    Sheet → Prop
  | direct {name : String} {sheet : Sheet} : name ∈ names → Text.withEnding name suffix ∉ seen →
      lib.find (Text.withEnding name suffix) = .ok sheet → Linked lib suffix seen names sheet
  | through {name : String} {outer sheet : Sheet} : Linked lib suffix seen names outer →
      name ∈ outer.imports → Text.withEnding name suffix ∉ seen →
      lib.find (Text.withEnding name suffix) = .ok sheet → Linked lib suffix seen names sheet

/-- The names of sheets that import each other, from a sheet to one that imports a name without a
sheet. -/
inductive Broken (lib : Library) (suffix : String) (e : Error) : Sheet → List String → Prop
  | here {name : String} {sheet : Sheet} : name ∈ sheet.imports →
      lib.find (Text.withEnding name suffix) = .error e → Broken lib suffix e sheet [sheet.name]
  | inside {name : String} {sheet inner : Sheet} {path : List String} : name ∈ sheet.imports →
      lib.find (Text.withEnding name suffix) = .ok inner → Broken lib suffix e inner path →
      Broken lib suffix e sheet (sheet.name :: path)

section Names

open SheetReader

private theorem name_readStatements {stop : Span} {sheet parsed : Sheet} {tokens : List Token}
    (h : readStatements stop sheet tokens = .ok parsed) : parsed.name = sheet.name := by
  fun_induction readStatements stop sheet tokens with
  | case1 sheet =>
    cases h
    rfl
  | case2 => cases h
  | case3 sheet t rest statement tail hr _ ih =>
    rw [ih h]
    cases statement <;> rfl

theorem Sheet.name_parse {name source : String} {sheet : Sheet}
    (h : Sheet.parse name source = .ok sheet) : sheet.name = name := by
  unfold Sheet.parse at h
  split at h
  · cases h
  · exact name_readStatements h

theorem Library.name_find {lib : Library} {file : String} {sheet : Sheet}
    (h : lib.find file = .ok sheet) : sheet.name = file := by
  unfold Library.find at h
  split at h
  · cases h
  · split at h
    · cases h
    · next hp =>
      cases h
      exact Sheet.name_parse hp

end Names

variable {lib : Library} {suffix : String} {seen : Set String} {names : List String} {w v : Walk}
  {sheet other : Sheet}

theorem Follows.unique (h : Follows lib suffix seen names w) (k : Follows lib suffix seen names v) :
    w = v := by
  induction h generalizing v with
  | nil =>
    cases k
    rfl
  | skip hs _ ih =>
    cases k with
    | skip _ k => exact ih k
    | missing hn => exact absurd hs hn
    | stuck hn => exact absurd hs hn
    | sheet hn => exact absurd hs hn
  | missing hn he =>
    cases k with
    | skip hs => exact absurd hs hn
    | missing _ he' =>
      rw [he] at he'
      cases he'
      rfl
    | stuck _ ho =>
      rw [he] at ho
      cases ho
    | sheet _ ho =>
      rw [he] at ho
      cases ho
  | stuck hn ho _ ih =>
    cases k with
    | skip hs => exact absurd hs hn
    | missing _ he =>
      rw [ho] at he
      cases he
    | stuck _ ho' k =>
      rw [ho] at ho'
      cases ho'
      cases ih k
      rfl
    | sheet _ ho' k =>
      rw [ho] at ho'
      cases ho'
      cases ih k
  | sheet hn ho _ _ ih ih' =>
    cases k with
    | skip hs => exact absurd hs hn
    | missing _ he =>
      rw [ho] at he
      cases he
    | stuck _ ho' k =>
      rw [ho] at ho'
      cases ho'
      cases ih k
    | sheet _ ho' k k' =>
      rw [ho] at ho'
      cases ho'
      cases ih k
      cases ih' k'
      rfl

theorem Links.unique (h : Links lib suffix seen sheet w) (k : Links lib suffix seen sheet v) :
    w = v := by
  cases h with
  | known hs =>
    cases k with
    | known => rfl
    | stuck hn => exact absurd hs hn
    | merged hn => exact absurd hs hn
  | stuck hn h =>
    cases k with
    | known hs => exact absurd hs hn
    | stuck _ k =>
      cases h.unique k
      rfl
    | merged _ k => cases h.unique k
  | merged hn h =>
    cases k with
    | known hs => exact absurd hs hn
    | stuck _ k => cases h.unique k
    | merged _ k =>
      cases h.unique k
      rfl

theorem Follows.opened_nil (h : Follows lib suffix seen names w) (hf : w.failure = none) :
    w.opened = [] := by
  induction h with
  | nil => rfl
  | skip _ _ ih => exact ih hf
  | missing => cases hf
  | stuck => cases hf
  | sheet _ _ _ _ _ ih => exact ih hf

private theorem fresh_middle {x : String} {before after : List String} (hx : x ∉ seen)
    (hfresh : ∀ n ∈ before ++ after, n ∉ insert x seen) (hnodup : (before ++ after).Nodup) :
    (∀ n ∈ before ++ x :: after, n ∉ seen) ∧ (before ++ x :: after).Nodup := by
  constructor
  · intro n hin hseen
    rcases List.perm_middle.mem_iff.1 hin with _ | ⟨_, hin⟩
    · exact hx hseen
    · exact hfresh n hin (Set.mem_insert_of_mem _ hseen)
  · rw [List.nodup_middle, List.nodup_cons]
    exact ⟨fun hin => hfresh x hin (Set.mem_insert _ _), hnodup⟩

theorem Follows.fresh (h : Follows lib suffix seen names w) :
    (∀ n ∈ w.names, n ∉ seen) ∧ w.names.Nodup := by
  induction h with
  | nil => simp [Walk.names]
  | skip _ _ ih => exact ih
  | missing => simp [Walk.names]
  | @stuck seen name rest sheet done opened e hn ho _ ih =>
    rw [← Library.name_find ho] at hn
    exact fresh_middle hn ih.1 ih.2
  | @sheet seen name rest sheet done more opened failure hn ho _ _ ih ih' =>
    rw [← Library.name_find ho] at hn
    obtain ⟨hfresh, hnodup⟩ := ih
    obtain ⟨hfresh', hnodup'⟩ := ih'
    simp only [Walk.names, List.append_nil, List.map_append, List.map_cons, List.map_nil]
      at hfresh hnodup hfresh' hnodup' ⊢
    rw [List.append_assoc, List.cons_append]
    apply fresh_middle hn
    · intro n hin
      rcases List.mem_append.1 hin with hin | hin
      · exact hfresh n hin
      · rintro (rfl | hseen)
        · exact hfresh' _ hin (Or.inr (by simp))
        · exact hfresh' n hin (Or.inl hseen)
    · refine List.nodup_append.2 ⟨hnodup, hnodup', ?_⟩
      rintro n hin m hin' rfl
      exact hfresh' n hin' (Or.inr (List.mem_append_left _ hin))

theorem Follows.found (h : Follows lib suffix seen names w) :
    ∀ a ∈ w.done, lib.find a.name = .ok a := by
  induction h with
  | nil => simp
  | skip _ _ ih => exact ih
  | missing => simp
  | stuck _ _ _ ih => exact ih
  | sheet _ ho _ _ ih ih' =>
    intro a ha
    rcases List.mem_append.1 ha with ha | ha
    · exact ih a ha
    · rcases List.mem_cons.1 ha with rfl | ha
      · rwa [Library.name_find ho]
      · exact ih' a ha

theorem Linked.weaken {seen' : Set String} {names' : List String}
    (h : Linked lib suffix seen' names' sheet) (hseen : seen ⊆ seen')
    (hnames : ∀ name ∈ names', name ∈ names) : Linked lib suffix seen names sheet := by
  induction h with
  | direct hm hn hf => exact .direct (hnames _ hm) (fun hs => hn (hseen hs)) hf
  | through _ hm hn hf ih => exact .through ih hm (fun hs => hn (hseen hs)) hf

theorem Linked.inside {seen' : Set String} (h : Linked lib suffix seen' sheet.imports other)
    (hseen : seen ⊆ seen') (hsheet : Linked lib suffix seen names sheet) :
    Linked lib suffix seen names other := by
  induction h with
  | direct hm hn hf => exact .through hsheet hm (fun hs => hn (hseen hs)) hf
  | through _ hm hn hf ih => exact .through ih hm (fun hs => hn (hseen hs)) hf

theorem Follows.linked (h : Follows lib suffix seen names w) :
    ∀ a ∈ w.done, Linked lib suffix seen names a := by
  induction h with
  | nil => simp
  | skip _ _ ih =>
    intro a ha
    exact (ih a ha).weaken (fun _ hs => hs) fun _ hm => List.mem_cons_of_mem _ hm
  | missing => simp
  | stuck hn ho _ ih =>
    intro a ha
    exact (ih a ha).inside (Set.subset_insert _ _) (.direct List.mem_cons_self hn ho)
  | @sheet seen name rest sheet done more opened failure hn ho _ _ ih ih' =>
    have hsheet : Linked lib suffix seen (name :: rest) sheet :=
      .direct List.mem_cons_self hn ho
    intro a ha
    rcases List.mem_append.1 ha with ha | ha
    · exact (ih a ha).inside (Set.subset_insert _ _) hsheet
    · rcases List.mem_cons.1 ha with rfl | ha
      · exact hsheet
      · exact (ih' a ha).weaken Set.subset_union_left fun _ hm => List.mem_cons_of_mem _ hm

/-- When no sheet is missing, every import that was met leads to a name seen before or to a sheet
that came to its end. -/
theorem Follows.closed (h : Follows lib suffix seen names w) (hf : w.failure = none) :
    (∀ name ∈ names, Text.withEnding name suffix ∈ seen ∨
      Text.withEnding name suffix ∈ w.done.map (·.name)) ∧
    ∀ a ∈ w.done, ∀ name ∈ a.imports, Text.withEnding name suffix ∈ seen ∨
      Text.withEnding name suffix ∈ w.done.map (·.name) := by
  induction h with
  | nil => simp
  | skip hs _ ih =>
    obtain ⟨hnames, hinside⟩ := ih hf
    refine ⟨?_, hinside⟩
    intro name hm
    rcases List.mem_cons.1 hm with rfl | hm
    · exact .inl hs
    · exact hnames name hm
  | missing => cases hf
  | stuck => cases hf
  | @sheet seen name rest sheet done more opened failure hn ho _ _ ih ih' =>
    obtain ⟨hnames, hinside⟩ := ih rfl
    obtain ⟨hnames', hinside'⟩ := ih' hf
    have hname := Library.name_find ho
    -- what was met inside the sheet, and what was met after it
    have hbefore : ∀ n, n ∈ insert sheet.name seen ∨ n ∈ done.map (·.name) →
        n ∈ seen ∨ n ∈ (done ++ sheet :: more).map (·.name) := by
      rintro n ((rfl | hs) | hd)
      · exact .inr (by simp)
      · exact .inl hs
      · exact .inr (by simp only [List.map_append, List.mem_append]; exact .inl hd)
    have hafter : ∀ n, n ∈ seen ∪ {n | n ∈ (done ++ [sheet]).map (·.name)} ∨
        n ∈ more.map (·.name) → n ∈ seen ∨ n ∈ (done ++ sheet :: more).map (·.name) := by
      rintro n ((hs | hd) | hm)
      · exact .inl hs
      · refine .inr ?_
        simp only [Set.mem_ofPred_eq, List.map_append, List.map_cons, List.map_nil,
          List.mem_append, List.mem_cons, List.not_mem_nil, or_false] at hd ⊢
        rcases hd with hd | hd
        · exact .inl hd
        · exact .inr (.inl hd)
      · refine .inr ?_
        simp only [List.map_append, List.map_cons, List.mem_append, List.mem_cons]
        exact .inr (.inr hm)
    constructor
    · intro n hm
      rcases List.mem_cons.1 hm with rfl | hm
      · rw [← hname]
        exact .inr (by simp)
      · exact hafter _ (hnames' n hm)
    · intro a ha n hm
      rcases List.mem_append.1 ha with ha | ha
      · exact hbefore _ (hinside a ha n hm)
      · rcases List.mem_cons.1 ha with rfl | ha
        · exact hbefore _ (hnames n hm)
        · exact hafter _ (hinside' a ha n hm)

theorem Follows.mem_done_iff (h : Follows lib suffix seen names w) (hf : w.failure = none) :
    sheet ∈ w.done ↔ Linked lib suffix seen names sheet := by
  obtain ⟨hnames, hinside⟩ := h.closed hf
  have hfound : ∀ {file a}, lib.find file = .ok a → file ∉ seen →
      file ∈ seen ∨ file ∈ w.done.map (·.name) → a ∈ w.done := by
    intro file a ha hn hor
    obtain ⟨b, hb, rfl⟩ := List.mem_map.1 (hor.resolve_left hn)
    rw [h.found b hb] at ha
    cases ha
    exact hb
  constructor
  · exact h.linked sheet
  · intro hl
    induction hl with
    | direct hm hn ho => exact hfound ho hn (hnames _ hm)
    | through _ hm hn ho ih => exact hfound ho hn (hinside _ ih _ hm)

theorem Links.fresh (h : Links lib suffix seen sheet w) :
    (∀ n ∈ w.names, n ∉ seen) ∧ w.names.Nodup := by
  cases h with
  | known => simp [Walk.names]
  | stuck hn h => exact fresh_middle hn h.fresh.1 h.fresh.2
  | merged hn h =>
    obtain ⟨hfresh, hnodup⟩ := h.fresh
    simpa [Walk.names] using fresh_middle hn hfresh hnodup

theorem Links.opened_nil (h : Links lib suffix seen sheet w) (hf : w.failure = none) :
    w.opened = [] := by
  cases h with
  | known => rfl
  | stuck => cases hf
  | merged => rfl

/-- When no sheet is missing, the sheets that came to their end are the sheet itself, unless its
name was seen before, and those that its imports lead to. -/
theorem Links.mem_done_iff (h : Links lib suffix seen sheet w) (hf : w.failure = none) :
    other ∈ w.done ↔ sheet.name ∉ seen ∧
      (other = sheet ∨ Linked lib suffix (insert sheet.name seen) sheet.imports other) := by
  cases h with
  | known hs => simp [hs]
  | stuck => cases hf
  | merged hn h =>
    have hdone : other ∈ _ ↔ _ := h.mem_done_iff rfl
    simp only at hdone
    simp [hn, hdone, or_comm]

theorem Follows.broken {e : Error} (h : Follows lib suffix seen names w)
    (hf : w.failure = some e) (hnames : ∀ name ∈ names, name ∈ sheet.imports) :
    Broken lib suffix e sheet (sheet.name :: w.opened) := by
  induction h generalizing sheet with
  | nil => cases hf
  | skip _ _ ih => exact ih hf fun name hm => hnames name (List.mem_cons_of_mem _ hm)
  | missing _ he =>
    cases hf
    exact .here (hnames _ List.mem_cons_self) he
  | stuck _ ho _ ih => exact .inside (hnames _ List.mem_cons_self) ho (ih hf fun _ hm => hm)
  | sheet _ _ _ _ _ ih => exact ih hf fun name hm => hnames name (List.mem_cons_of_mem _ hm)

theorem Links.broken {e : Error} (h : Links lib suffix seen sheet w) (hf : w.failure = some e) :
    Broken lib suffix e sheet w.opened := by
  cases h with
  | known => cases hf
  | stuck _ h => exact h.broken hf fun _ hm => hm
  | merged => cases hf

end NestedStyles
