import NestedStyles.Build
import Mathlib.Data.List.DropRight

/-!
Which file a build reads. The path of a file and the path made of its directory and its file name
lead to the same file. So a build without a directory in its settings compiles the very file it is
given, when the name of that file has the ending of sheets; in all other cases it looks for the name
as it does for that of an import.
-/

namespace NestedStyles

namespace Text

variable {mark c : Char} {xs ys piece : List Char} {pieces : List (List Char)}

theorem exists_splitAt (mark : Char) (cs : List Char) :
    ∃ piece pieces, splitAt mark cs = piece :: pieces := by
  fun_cases splitAt mark cs <;> simp

theorem splitAt_mark (mark : Char) (cs : List Char) :
    splitAt mark (mark :: cs) = [] :: splitAt mark cs := by
  obtain ⟨piece, pieces, h⟩ := exists_splitAt mark cs
  simp [splitAt, h]

theorem splitAt_cons (hc : c ≠ mark) (h : splitAt mark xs = piece :: pieces) :
    splitAt mark (c :: xs) = (c :: piece) :: pieces := by
  simp [splitAt, h, hc]

theorem splitAt_append (mark : Char) (xs ys : List Char) :
    splitAt mark (xs ++ mark :: ys) = splitAt mark xs ++ splitAt mark ys := by
  induction xs with
  | nil => simp [splitAt_mark, splitAt]
  | cons c xs ih =>
    by_cases hc : c = mark
    · rw [hc, List.cons_append, splitAt_mark, splitAt_mark, ih, List.cons_append]
    · obtain ⟨piece, pieces, h⟩ := exists_splitAt mark xs
      rw [h, List.cons_append] at ih
      rw [List.cons_append, splitAt_cons hc ih, splitAt_cons hc h, List.cons_append]

example : splitAt '/' "a//b".toList = ["a".toList, [], "b".toList] := by decide +kernel

theorem splitAt_of_not_mem (h : mark ∉ xs) : splitAt mark xs = [xs] := by
  induction xs with
  | nil => rfl
  | cons c xs ih =>
    simp only [List.mem_cons, not_or] at h
    exact splitAt_cons (Ne.symm h.1) (ih h.2)

theorem not_mem_of_mem_splitAt (h : piece ∈ splitAt mark xs) : mark ∉ piece := by
  induction xs generalizing piece with
  | nil => simp_all [splitAt]
  | cons c xs ih =>
    obtain ⟨first, rest, hs⟩ := exists_splitAt mark xs
    rw [hs] at ih
    by_cases hc : c = mark
    · rw [hc, splitAt_mark, hs] at h
      rcases List.mem_cons.1 h with rfl | h
      · simp
      · exact ih h
    · rw [splitAt_cons hc hs] at h
      rcases List.mem_cons.1 h with rfl | h
      · simpa [Ne.symm hc] using ih List.mem_cons_self
      · exact ih (List.mem_cons_of_mem _ h)

theorem splitAt_intercalate (hne : pieces ≠ []) (h : ∀ piece ∈ pieces, mark ∉ piece) :
    splitAt mark ([mark].intercalate pieces) = pieces := by
  induction pieces with
  | nil => exact absurd rfl hne
  | cons piece rest ih =>
    obtain ⟨hpiece, hrest⟩ := List.forall_mem_cons.1 h
    cases rest with
    | nil => simpa using splitAt_of_not_mem hpiece
    | cons next rest =>
      rw [List.intercalate_cons_cons, List.append_assoc, List.singleton_append, splitAt_append,
        splitAt_of_not_mem hpiece, ih (by simp) hrest, List.singleton_append]

end Text

namespace Path

variable {path base name last : String} {front ps : List String}

/-- The pieces that lead somewhere. -/
def components (path : String) : List String := (pieces path).filter (!isVoid ·)

theorem pieces_append (a b : String) : pieces (a ++ "/" ++ b) = pieces a ++ pieces b := by
  have htext : (a ++ "/" ++ b).toList = a.toList ++ '/' :: b.toList := by simp
  rw [pieces, htext, Text.splitAt_append, List.map_append]
  rfl

theorem slash_not_mem (h : name ∈ pieces path) : '/' ∉ name.toList := by
  obtain ⟨piece, hp, rfl⟩ := List.mem_map.1 h
  simpa using Text.not_mem_of_mem_splitAt hp

theorem pieces_intercalate (hne : ps ≠ []) (h : ∀ p ∈ ps, '/' ∉ p.toList) :
    pieces ("/".intercalate ps) = ps := by
  have htext : ("/".intercalate ps).toList = ['/'].intercalate (ps.map String.toList) := by simp
  rw [pieces, htext, Text.splitAt_intercalate (by simpa using hne) (by simpa using h),
    List.map_map]
  simp [Function.comp_def]

theorem pieces_of_piece (h : '/' ∉ name.toList) : pieces name = [name] := by
  simp [pieces, Text.splitAt_of_not_mem h]

theorem isAbsolute_iff :
    isAbsolute path = true ↔ ∃ second rest, pieces path = "" :: second :: rest := by
  unfold isAbsolute pieces
  cases path.toList with
  | nil => simp [Text.splitAt]
  | cons c cs =>
    obtain ⟨piece, rest, h⟩ := Text.exists_splitAt '/' cs
    by_cases hc : c = '/'
    · simp [hc, Text.splitAt_mark, h]
    · simp [hc, Text.splitAt_cons hc h]

theorem trimEnd_concat (front : List String) (h : isVoid last = false) :
    trimEnd (front ++ [last]) = front ++ [last] :=
  List.rdropWhile_concat_neg isVoid front last (by simp [h])

theorem trimEnd_prefix (ps : List String) : trimEnd ps <+: ps :=
  List.rdropWhile_prefix isVoid ps

theorem filter_trimEnd (ps : List String) :
    (trimEnd ps).filter (!isVoid ·) = ps.filter (!isVoid ·) := by
  induction ps using List.reverseRecOn with
  | nil => rfl
  | append_singleton front last ih =>
    cases hv : isVoid last with
    | false => rw [trimEnd_concat front hv]
    | true =>
      have htrim : trimEnd (front ++ [last]) = trimEnd front :=
        List.rdropWhile_concat_pos isVoid front last hv
      rw [htrim, ih]
      simp [hv]

/-- How a path with a last component is split: what comes first, and the pieces between it and that
component. -/
inductive Anchored (path : String) (front : List String) : String → List String → Prop
  | root {rest : List String} : isAbsolute path = true → front = "" :: rest →
      Anchored path front "/" rest
  | here {rest : List String} : isAbsolute path = false → front = "." :: rest →
      Anchored path front "." ("" :: rest)
  | plain : isAbsolute path = false → Anchored path front "" front

theorem splitAnchor_anchored (hp : pieces path = front ++ [last]) (hv : isVoid last = false) :
    ∃ anchor lead, splitAnchor path = (anchor, lead ++ [last]) ∧
      Anchored path front anchor lead := by
  have hlast : last ≠ "" ∧ last ≠ "." := by simpa [isVoid] using hv
  have habsolute : isAbsolute path = true ↔ ∃ second rest, front ++ [last] = "" :: second :: rest :=
    hp ▸ isAbsolute_iff
  unfold splitAnchor
  rw [hp]
  cases front with
  | nil =>
    refine ⟨"", [], ?_, .plain ?_⟩
    · split <;> simp_all
    · simpa using habsolute
  | cons first rest =>
    by_cases hempty : first = ""
    · subst hempty
      refine ⟨"/", rest, ?_, .root ?_ rfl⟩
      · cases rest <;> rfl
      · rw [habsolute]
        cases rest <;> simp
    · have hnot : isAbsolute path = false := by
        rw [← Bool.not_eq_true, habsolute]
        simp [hempty]
      by_cases hdot : first = "."
      · subst hdot
        refine ⟨".", "" :: rest, ?_, .here hnot rfl⟩
        cases rest <;> rfl
      · refine ⟨"", first :: rest, ?_, .plain hnot⟩
        split <;> simp_all

theorem fileName?_of_pieces (hp : pieces path = front ++ [last]) (hv : isVoid last = false)
    (hup : last ≠ "..") : fileName? path = some last := by
  obtain ⟨anchor, lead, hs, -⟩ := splitAnchor_anchored hp hv
  simp [fileName?, hs, trimEnd_concat lead hv, hup]

theorem components_append (a b : String) :
    components (a ++ "/" ++ b) = components a ++ components b := by
  rw [components, pieces_append, List.filter_append]
  rfl

theorem components_of_piece (hs : '/' ∉ name.toList) (hv : isVoid name = false) :
    components name = [name] := by
  simp [components, pieces_of_piece hs, hv]

theorem components_intercalate (h : ∀ p ∈ ps, '/' ∉ p.toList) :
    components ("/".intercalate ps) = ps.filter (!isVoid ·) := by
  cases ps with
  | nil => rfl
  | cons p rest => rw [components, pieces_intercalate (by simp) h]

theorem components_dot_intercalate (h : ∀ p ∈ ps, '/' ∉ p.toList) :
    components ("." ++ "/".intercalate ("" :: ps)) = ps.filter (!isVoid ·) := by
  cases ps with
  | nil => rfl
  | cons p rest =>
    rw [String.intercalate_cons_cons, String.empty_append, ← String.append_assoc,
      components_append, components_intercalate h]
    rfl

theorem components_parent (hp : pieces path = front ++ [last]) (hv : isVoid last = false) :
    components (parent path) = front.filter (!isVoid ·) ∧
      isAbsolute (parent path) = isAbsolute path := by
  obtain ⟨anchor, lead, hs, hanchor⟩ := splitAnchor_anchored hp hv
  have hparent : parent path = anchor ++ "/".intercalate (trimEnd lead) := by
    simp only [parent, hs, trimEnd_concat lead hv]
    split
    · next hnil => simp at hnil
    · simp
  have hslash : ∀ p ∈ front, '/' ∉ p.toList := by
    intro p hin
    have hpiece : p ∈ pieces path := by simp [hp, hin]
    exact slash_not_mem hpiece
  have htrim := trimEnd_prefix lead
  rw [hparent, ← filter_trimEnd]
  cases hanchor with
  | root habsolute hrest =>
    subst hrest
    refine ⟨?_, by rw [habsolute]; simp [isAbsolute]⟩
    have hroot := components_append "" ("/".intercalate (trimEnd lead))
    rw [String.empty_append, components_intercalate fun p hin =>
      hslash p (List.mem_cons_of_mem _ (htrim.subset hin)), filter_trimEnd] at hroot
    rw [hroot, filter_trimEnd]
    rfl
  | @here rest habsolute hrest =>
    subst hrest
    refine ⟨?_, by rw [habsolute]; simp [isAbsolute]⟩
    have hfilter := filter_trimEnd ("" :: rest)
    rw [filter_trimEnd, List.filter_cons_of_neg (by decide)]
    rw [List.filter_cons_of_neg (by decide)] at hfilter
    rw [← hfilter]
    -- if a piece is left, the empty one is, so that a slash comes after the dot
    rcases List.prefix_cons_iff.1 htrim with hnil | ⟨more, hmore, hinit⟩
    · rw [hnil]
      rfl
    · rw [hmore, components_dot_intercalate fun p hin =>
        hslash p (List.mem_cons_of_mem _ (hinit.subset hin))]
      rfl
  | plain habsolute =>
    have htrimmed : ∀ p ∈ trimEnd front, '/' ∉ p.toList := fun p hin => hslash p (htrim.subset hin)
    rw [String.empty_append, components_intercalate htrimmed]
    refine ⟨rfl, ?_⟩
    rw [habsolute, ← Bool.not_eq_true, isAbsolute_iff]
    rintro ⟨second, more, hpieces⟩
    cases hnil : trimEnd front with
    | nil => simp [hnil, pieces, Text.splitAt] at hpieces
    | cons p rest =>
      rw [pieces_intercalate (by simp [hnil]) htrimmed] at hpieces
      obtain ⟨after, hafter⟩ := htrim
      have hall : isAbsolute path = true := by
        rw [isAbsolute_iff, hp, ← hafter, hpieces]
        exact ⟨second, more ++ after ++ [last], by simp⟩
      rw [habsolute] at hall
      cases hall

example : (parent "./s/./main", fileName? "./s/./main") = ("./s", some "main") := by decide +kernel

theorem isAbsolute_append (hne : base ≠ "") : isAbsolute (base ++ name) = isAbsolute base := by
  have hchars : base.toList ≠ [] := by simpa using hne
  simp [isAbsolute, List.head?_append_of_ne_nil _ hchars]

theorem components_join (hs : '/' ∉ name.toList) (hv : isVoid name = false) (base : String) :
    components (join base name) = components base ++ [name] ∧
      isAbsolute (join base name) = isAbsolute base ∧
      (pieces (join base name)).getLast? = some name := by
  have hname : isAbsolute name = false := by
    rw [← Bool.not_eq_true, isAbsolute_iff, pieces_of_piece hs]
    simp
  have hcomponents := components_of_piece hs hv
  have hjoined : ∀ b : String, components (b ++ "/" ++ name) = components b ++ [name] ∧
      (pieces (b ++ "/" ++ name)).getLast? = some name := by
    intro b
    rw [components_append, hcomponents, pieces_append, pieces_of_piece hs]
    simp
  unfold join
  by_cases hbase : base = ""
  · subst hbase
    simp only [hname, Bool.false_or, decide_true, if_true]
    exact ⟨hcomponents, rfl, by simp [pieces_of_piece hs]⟩
  simp only [hname, hbase, decide_false, Bool.or_false, Bool.false_eq_true, if_false]
  split
  · next hslash =>
    obtain ⟨front, hfront⟩ := List.getLast?_eq_some_iff.1 hslash
    have htext : base = String.ofList front ++ "/" := by
      apply String.ext
      simp [hfront]
    have hend : components base = components (String.ofList front) := by
      have happend := components_append (String.ofList front) ""
      rw [String.append_empty, ← htext] at happend
      simpa [components, pieces, Text.splitAt, isVoid] using happend
    rw [isAbsolute_append hbase, hend]
    obtain ⟨hparts, hlast⟩ := hjoined (String.ofList front)
    rw [← htext] at hparts hlast
    exact ⟨hparts, rfl, hlast⟩
  · rw [String.append_assoc, isAbsolute_append hbase, ← String.append_assoc]
    exact ⟨(hjoined base).1, rfl, (hjoined base).2⟩

example : join "s/" "a" = "s/a" ∧ join "" "a" = "a" ∧ join "s" "/a" = "/a" := by decide +kernel

end Path

namespace FileTree

variable {t : FileTree} {place ps : List String} {path source name : String}

/-- Pieces that lead nowhere can be left out, as long as the last piece stays. -/
theorem walk_filter (t : FileTree) (place : List String) (hlast : ps.getLast? = some name)
    (hv : Path.isVoid name = false) :
    t.walk place (ps.filter (!Path.isVoid ·)) = t.walk place ps := by
  induction ps generalizing place with
  | nil => rfl
  | cons piece rest ih =>
    cases rest with
    | nil =>
      have hpiece : piece = name := by simpa using hlast
      rw [List.filter_cons_of_pos (by simp [hpiece, hv])]
      rfl
    | cons next more =>
      rw [List.getLast?_cons_cons] at hlast
      have hkept : name ∈ (next :: more).filter (!Path.isVoid ·) :=
        List.mem_filter.2 ⟨List.mem_of_getLast? hlast, by simp [hv]⟩
      cases hpiece : Path.isVoid piece with
      | true =>
        rw [List.filter_cons_of_neg (by simp [hpiece]), ih place hlast]
        simp [walk, hpiece]
      | false =>
        rw [List.filter_cons_of_pos (by simp [hpiece])]
        generalize (next :: more).filter (!Path.isVoid ·) = kept at ih hkept
        have hempty : kept.isEmpty = false := by
          rw [List.isEmpty_eq_false_iff]
          exact List.ne_nil_of_mem hkept
        rw [walk, walk]
        simp only [hpiece, Bool.false_eq_true, if_false, ih _ hlast, hempty, List.isEmpty_cons]

theorem last_of_walk {found : List String} (h : t.walk place ps = .ok (found, .text source)) :
    ∃ front last, ps = front ++ [last] ∧ Path.isVoid last = false ∧ last ≠ ".." := by
  fun_induction walk t place ps with
  | case1 => cases h
  | case2 place piece rest _ ih =>
    obtain ⟨front, last, rfl, hlast⟩ := ih h
    exact ⟨piece :: front, last, rfl, hlast⟩
  | case3 place rest _ ih =>
    obtain ⟨front, last, rfl, hlast⟩ := ih h
    exact ⟨".." :: front, last, rfl, hlast⟩
  | case4 => cases h
  | case5 place piece rest _ _ _ ih =>
    obtain ⟨front, last, rfl, hlast⟩ := ih h
    exact ⟨piece :: front, last, rfl, hlast⟩
  | case6 place piece rest hvoid hup _ _ _ hempty =>
    rw [List.isEmpty_iff] at hempty
    exact ⟨[], piece, by simp [hempty], by simpa using hvoid, hup⟩
  | case7 => cases h

theorem read_congr {other : String} (habsolute : Path.isAbsolute other = Path.isAbsolute path)
    (hcomponents : Path.components other = Path.components path)
    (hpath : (Path.pieces path).getLast? = some name)
    (hother : (Path.pieces other).getLast? = some name) (hv : Path.isVoid name = false) :
    t.read other = t.read path := by
  have hne : ∀ {p : String}, (Path.pieces p).getLast? = some name → p ≠ "" := by
    rintro p hp rfl
    have hempty : name = "" := by simpa [Path.pieces, Text.splitAt] using hp.symm
    simp [hempty, Path.isVoid] at hv
  rw [read, read, if_neg (hne hpath), if_neg (hne hother), ← walk_filter t _ hpath hv,
    ← walk_filter t _ hother hv, start, start, habsolute]
  rw [Path.components, Path.components] at hcomponents
  rw [hcomponents]

/-- A file is read through its directory and its name. -/
theorem read_join_parent (h : t.read path = .ok source) :
    ∃ name, Path.fileName? path = some name ∧
      t.read (Path.join (Path.parent path) name) = .ok source := by
  have hne : path ≠ "" := by
    rintro rfl
    simp [read] at h
  obtain ⟨found, hwalk⟩ : ∃ found, t.walk (start t.here path) (Path.pieces path) =
      .ok (found, .text source) := by
    rw [read, if_neg hne] at h
    split at h
    · cases h
    · cases h
    · cases h
    · next found content hw =>
      cases h
      exact ⟨found, hw⟩
  obtain ⟨front, name, hpieces, hv, hup⟩ := last_of_walk hwalk
  have hpiece : name ∈ Path.pieces path := by simp [hpieces]
  have hslash := Path.slash_not_mem hpiece
  obtain ⟨hparent, habsolute⟩ := Path.components_parent hpieces hv
  obtain ⟨hjoin, hroot, hlast⟩ := Path.components_join hslash hv (Path.parent path)
  refine ⟨name, Path.fileName?_of_pieces hpieces hv hup, ?_⟩
  rw [← h]
  refine read_congr (hroot.trans habsolute) ?_ (by simp [hpieces]) hlast hv
  rw [hjoin, hparent, Path.components, hpieces, List.filter_append]
  simp [hv]

end FileTree

/-- The build of a text as the sheet of a name, with imports looked for in a directory. -/
def compileText (disk : Disk) (settings : Settings) (base name source : String) :
    Except (Error × List Event) Compilation :=
  compileAfter (({ suffix := settings.suffix } : Session).importSource (disk.library base) name
    source)

theorem importName_of_load {s : Session} {lib : Library} {name : String} (hs : s.imported = []) :
    s.importName lib name =
      match lib.load (Text.withEnding name s.suffix) with
      | .error e => (s.note [.unreadable (Text.withEnding name s.suffix)], .error e)
      | .ok source => s.importSource lib (Text.withEnding name s.suffix) source := by
  rw [Session.importName, Session.importNameWith, hs]
  exact if_neg List.not_mem_nil

/-- A build looks for the file name of its path as for an import: with the ending of sheets, and in
the directory of the settings if they have one. -/
theorem compileFile_eq (disk : Disk) (settings : Settings) (path : String) :
    let base := settings.baseDir.getD (Path.parent path)
    let file := Text.withEnding ((Path.fileName? path).getD "") settings.suffix
    compileFile disk settings path =
      match disk.read (Path.join base file) with
      | .error reason => .error (.resolution (Path.join base file) reason, [.unreadable file])
      | .ok source => compileText disk settings base file source := by
  intro base file
  rw [compileFile, importName_of_load rfl]
  simp only [Disk.library]
  cases disk.read (Path.join base file) <;> rfl

/-- The build of a readable file is that of its content under its file name if the name has the
ending of sheets and the settings name no directory, or one with a file of that name and content.
In all cases it is the build of the file found under the name of an import, or fails without one. -/
theorem compileFile_of_readable (tree : FileTree) (settings : Settings) {path source : String}
    (h : tree.read path = .ok source) :
    ∃ name, Path.fileName? path = some name ∧
      let base := settings.baseDir.getD (Path.parent path)
      let file := Text.withEnding name settings.suffix
      (∀ text, tree.read (Path.join base file) = .ok text →
        compileFile tree.disk settings path = compileText tree.disk settings base file text) ∧
      (∀ reason, tree.read (Path.join base file) = .error reason →
        compileFile tree.disk settings path =
          .error (.resolution (Path.join base file) reason, [.unreadable file])) ∧
      (Text.endsWith name settings.suffix →
        (∀ dir, settings.baseDir = some dir → tree.read (Path.join dir name) = .ok source) →
        compileFile tree.disk settings path = compileText tree.disk settings base name source) := by
  obtain ⟨name, hname, hparent⟩ := FileTree.read_join_parent h
  refine ⟨name, hname, ?_⟩
  intro base file
  have heq := compileFile_eq tree.disk settings path
  have hdisk : tree.disk.read = tree.read := rfl
  simp only [hname, Option.getD_some, hdisk] at heq
  refine ⟨fun text ht => ?_, fun reason hr => ?_, fun hending hdir => ?_⟩
  · rw [heq, ht]
  · rw [heq, hr]
  · have hfile : file = name := by simp [file, Text.withEnding, hending]
    have hread : tree.read (Path.join base file) = .ok source := by
      rw [hfile]
      cases hbase : settings.baseDir with
      | none => simpa [base, hbase] using hparent
      | some dir => simpa [base, hbase] using hdir dir hbase
    calc compileFile tree.disk settings path
        = compileText tree.disk settings base file source := by rw [heq, hread]
      _ = compileText tree.disk settings base name source := by rw [hfile]

/-- A file with an import beside it, given by its path from the root and by one that leads out of
the working directory first, with the directory of the file in the settings. -/
theorem compileFile_of_readable_beside :
    let source := "@import x; a\x7bb: $c\x7d"
    let tree := FileTree.inDirectory ["home", "me"]
      [("s/main.bss", .text source), ("s/x.bss", .text "$c: d;")]
    let settings : Settings := { baseDir := some "/home/me/s" }
    tree.read "/home/me/s/./main.bss" = .ok source ∧
      compileFile tree.disk {} "/home/me/s/./main.bss" =
        compileText tree.disk {} "/home/me/s" "main.bss" source ∧
      tree.read "../me/s/main.bss" = .ok source ∧
      compileFile tree.disk settings "../me/s/main.bss" =
        compileText tree.disk settings "/home/me/s" "main.bss" source ∧
      (compileText tree.disk settings "/home/me/s" "main.bss" source).toOption.map (·.rules) =
        some [⟨[["a"]], [⟨"b", .text "d"⟩], []⟩] := by
  intro source tree settings
  have hfixed : tree.read "/home/me/s/./main.bss" = .ok source := by decide +kernel
  have hrelative : tree.read "../me/s/main.bss" = .ok source := by decide +kernel
  refine ⟨hfixed, ?_, hrelative, ?_, by decide +kernel⟩
  · obtain ⟨name, hname, -, -, hsame⟩ := compileFile_of_readable tree {} hfixed
    have hparts : Path.fileName? "/home/me/s/./main.bss" = some "main.bss" := by decide +kernel
    have hbase : Path.parent "/home/me/s/./main.bss" = "/home/me/s" := by decide +kernel
    obtain rfl : "main.bss" = name := Option.some.inj (hparts.symm.trans hname)
    have hbuild := hsame (by decide) (fun dir hdir => by cases hdir)
    rwa [Option.getD_none, hbase] at hbuild
  · obtain ⟨name, hname, -, -, hsame⟩ := compileFile_of_readable tree settings hrelative
    have hparts : Path.fileName? "../me/s/main.bss" = some "main.bss" := by decide +kernel
    obtain rfl : "main.bss" = name := Option.some.inj (hparts.symm.trans hname)
    refine hsame (by decide) fun dir hdir => ?_
    cases hdir
    decide +kernel

/-- With a directory in the settings that has no file of its name, a readable file is not found. -/
theorem compileFile_misses_readable :
    let tree := FileTree.ofFiles [("s/main.bss", .text "a\x7bb: c\x7d")]
    let settings : Settings := { baseDir := some "lib" }
    tree.read "s/main.bss" = .ok "a\x7bb: c\x7d" ∧
      compileFile tree.disk settings "s/main.bss" ≠
        compileText tree.disk settings "lib" "main.bss" "a\x7bb: c\x7d" := by
  decide +kernel

end NestedStyles
