import NestedStyles.Proofs.Respelling
import Mathlib.Data.List.TakeWhile

/-!
What is read from a text does not depend on what follows it. A text that was read with some end
after it, in which no comment and no quoted text was closed, is read in the same way with any other
end that continues no word.
-/

namespace NestedStyles

namespace Lexer

variable {cs body rest tail pad more : List Char} {c : Char} {previous last : Option Char}
  {spaced held : Bool} {item : Item} {kind : TokenKind} {ls ms : List Lexeme}

/-! Items -/

/-- An end of a text that neither continues nor closes what is open before it. -/
structure Inert (pad : List Char) : Prop where
  ends : Ends pad
  plain : ∀ c ∈ pad, c ≠ '/' ∧ c ≠ '\n' ∧ Quote.of? c = none

/-- From the text `cs` a reader takes `item` and leaves `rest`, whatever end comes after it. -/
def Takes (read : List Char → Except Problem (Item × List Char)) (cs : List Char) (item : Item)
    (rest : List Char) : Prop :=
  ∀ more, Ends more → read (cs ++ more) = .ok (item, rest ++ more)

theorem closed_before (h : cs ++ pad = body ++ c :: tail) (hc : c ∉ pad) :
    ∃ rest, cs = body ++ c :: rest ∧ tail = rest ++ pad := by
  rcases List.append_eq_append_iff.1 h with ⟨front, -, rfl⟩ | ⟨closing, rfl, hclosing⟩
  · simp at hc
  · cases closing with
    | nil => exact absurd (List.nil_append pad ▸ hclosing ▸ List.mem_cons_self) hc
    | cons d rest =>
      obtain ⟨rfl, rfl⟩ := List.cons.inj hclosing
      exact ⟨rest, rfl, rfl⟩

theorem splitComment_append (h : splitComment cs = some (body, rest)) (more : List Char) :
    splitComment (body ++ '*' :: '/' :: more) = some (body, more) := by
  fun_induction splitComment cs generalizing body with
  | case1 => cases h
  | case2 =>
    cases h
    rfl
  | case3 c later hnot ih =>
    simp only [Option.map_eq_some_iff, Prod.exists, Prod.mk.injEq] at h
    obtain ⟨inner, _, hinner, rfl, rfl⟩ := h
    have hlater := append_of_splitComment hinner
    rw [List.cons_append, splitComment, ih hinner]
    · rfl
    · rintro after rfl hafter
      cases inner with
      | nil => cases hafter
      | cons d inner =>
        cases hafter
        exact hnot _ rfl hlater

theorem takes_readName {found : String → TokenKind} {problem : Problem} (hpad : Ends pad)
    (h : readName found problem (cs ++ pad) = .ok (item, tail)) :
    ∃ rest, tail = rest ++ pad ∧ Takes (readName found problem) cs item rest := by
  unfold readName at h
  rw [splitWord_append_ends cs hpad] at h
  split at h
  · cases h
  next name after hne hs =>
  cases h
  cases hs
  refine ⟨_, rfl, fun more hmore => ?_⟩
  rw [readName, splitWord_append_ends cs hmore]
  split
  · next hnil => exact absurd (congrArg Prod.fst hnil) hne
  · next heq =>
    cases heq
    rfl

theorem takes_readToken (hpad : Inert pad) (h : readToken c (cs ++ pad) = .ok (item, tail)) :
    ∃ rest, tail = rest ++ pad ∧ Takes (readToken c) cs item rest := by
  unfold readToken at h
  split at h
  · next hmark =>
    cases h
    exact ⟨cs, rfl, fun _ _ => by rw [readToken, hmark]⟩
  next hmark =>
  split at h
  · next quote hquote =>
    split at h
    · cases h
    next body after hs =>
    cases h
    have hnot : c ∉ pad := by
      intro hin
      rw [(hpad.plain c hin).2.2] at hquote
      cases hquote
    obtain ⟨rest, rfl, rfl⟩ := closed_before (append_of_splitQuoted hs) hnot
    refine ⟨rest, rfl, fun more _ => ?_⟩
    have hslash : c ≠ '\\' := char_of_quote hquote ▸ quote_ne_backslash quote
    rw [readToken, hmark]
    simp only [hquote, List.append_assoc, List.cons_append, splitQuoted_append hs hslash]
  next hquote =>
  have hread : readToken c = fun text =>
      if c = '$' then readName .var .namelessVariable text
      else if c = '@' then readName .directive .namelessDirective text
      else .ok (.token (.word (String.ofList (c :: (splitWord text).1))), (splitWord text).2) := by
    funext text
    rw [readToken, hmark]
    simp only [hquote]
  rw [hread]
  split at h
  · next hdollar =>
    simp only [if_pos hdollar]
    exact takes_readName hpad.ends h
  next hdollar =>
  split at h
  · next hat =>
    simp only [if_neg hdollar, if_pos hat]
    exact takes_readName hpad.ends h
  · next hat =>
    rw [splitWord_append_ends cs hpad.ends] at h
    cases h
    refine ⟨_, rfl, fun more hmore => ?_⟩
    simp only [if_neg hdollar, if_neg hat, splitWord_append_ends cs hmore]

theorem splitComment_before (hpad : Inert pad) (h : splitComment (cs ++ pad) = some (body, tail)) :
    ∃ rest, tail = rest ++ pad ∧ ∀ more, splitComment (cs ++ more) = some (body, rest ++ more) := by
  have hclosed : cs ++ pad = (body ++ ['*']) ++ '/' :: tail := by
    simpa using append_of_splitComment h
  obtain ⟨rest, rfl, rfl⟩ := closed_before hclosed fun hin => (hpad.plain _ hin).1 rfl
  refine ⟨rest, rfl, fun more => ?_⟩
  simpa using splitComment_append h (rest ++ more)

theorem line_append {p : Char → Bool} (h : cs.dropWhile p ≠ []) (more : List Char) :
    (cs ++ more).takeWhile p = cs.takeWhile p ∧
      (cs ++ more).dropWhile p = cs.dropWhile p ++ more := by
  have hlength : (cs.takeWhile p).length ≠ cs.length := by
    intro hall
    have hsplit := congrArg List.length (List.takeWhile_append_dropWhile (p := p) (l := cs))
    rw [List.length_append, hall] at hsplit
    exact h (List.eq_nil_of_length_eq_zero (by omega))
  rw [List.takeWhile_append, if_neg hlength, List.dropWhile_append, if_neg (by simpa using h)]
  exact ⟨rfl, rfl⟩

/-- An item is taken before the end of a text, or it is a comment that has no end before it. -/
theorem takes_readItem (hpad : Inert pad)
    (h : readItem previous c (cs ++ pad) = .ok (item, tail)) :
    (∃ rest, tail = rest ++ pad ∧ Takes (readItem previous c) cs item rest) ∨
      tail = [] ∧ ∃ text body, item = .lineComment text ∧
        readItem previous c cs = .ok (.lineComment body, []) := by
  unfold readItem at h
  rw [(opens_append previous hpad.ends).1, (opens_append previous hpad.ends).2] at h
  split at h
  · next hblank =>
    cases h
    exact .inl ⟨cs, rfl, fun _ _ => by rw [readItem, if_pos hblank]⟩
  next hblank =>
  split at h
  · next hblock =>
    obtain ⟨text, rfl⟩ : ∃ text, cs = '*' :: text := by
      obtain ⟨text, htext⟩ := opensBlockComment_iff.1 hblock
      exact ⟨text, (List.cons.inj htext).2.symm⟩
    split at h
    · cases h
    next body after hs =>
    cases h
    obtain ⟨rest, rfl, hagain⟩ := splitComment_before hpad hs
    refine .inl ⟨rest, rfl, fun more hmore => ?_⟩
    rw [readItem, if_neg hblank, (opens_append previous hmore).1, if_pos hblock]
    simp only [List.cons_append, List.drop_succ_cons, List.drop_zero, hagain]
  next hblock =>
  split at h
  · next hline =>
    obtain ⟨text, rfl⟩ : ∃ text, cs = '/' :: text := by
      obtain ⟨text, htext⟩ := slashes_of_opensLineComment hline
      exact ⟨text, (List.cons.inj htext).2.symm⟩
    have hread : ∀ more, Ends more → readItem previous c ('/' :: text ++ more) =
        .ok (.lineComment ((text ++ more).takeWhile (· ≠ '\n')),
          (text ++ more).dropWhile (· ≠ '\n')) := by
      intro more hmore
      obtain ⟨hb, hl⟩ := opens_append previous hmore
      rw [readItem, if_neg hblank, hb, if_neg hblock, hl, if_pos hline]
      rfl
    cases h
    by_cases hend : text.dropWhile (· ≠ '\n') = []
    · have hpadded : (text ++ pad).dropWhile (· ≠ '\n') = [] := by
        rw [List.dropWhile_eq_nil_iff, List.forall_mem_append]
        exact ⟨List.dropWhile_eq_nil_iff.1 hend, fun d hd => by simpa using (hpad.plain d hd).2.1⟩
      have halone := hread [] (by simp [Ends])
      rw [List.append_nil, List.append_nil, hend] at halone
      exact .inr ⟨hpadded, _, _, rfl, halone⟩
    · refine .inl ⟨text.dropWhile (· ≠ '\n'), (line_append hend pad).2, fun more hmore => ?_⟩
      rw [hread more hmore, (line_append hend more).1, (line_append hend more).2,
        ← (line_append hend pad).1]
      rfl
  · next hline =>
    obtain ⟨rest, rfl, htakes⟩ := takes_readToken hpad h
    refine .inl ⟨rest, rfl, fun more hmore => ?_⟩
    obtain ⟨hb, hl⟩ := opens_append previous hmore
    rw [readItem, if_neg hblank, hb, if_neg hblock, hl, if_neg hline]
    exact htakes more hmore

/-! Texts -/

/-- Reading `cs` gives the lexemes `ls` and comes to a place after the character `last`, where a
token counts as spaced if `held` says so. What is read from there comes from the end of the text. -/
def Passes (previous : Option Char) (spaced : Bool) (cs : List Char) (ls : List Lexeme)
    (last : Option Char) (held : Bool) : Prop :=
  ∀ more ms, Ends more →
    (Scans previous spaced (cs ++ more) ms ↔ ∃ rest, ms = ls ++ rest ∧ Scans last held more rest)

theorem Passes.nil : Passes previous spaced [] [] previous spaced := by
  simp [Passes]

theorem Passes.token (h : Takes (readItem previous c) cs (.token kind) rest)
    (hrest : Passes kind.text.toList.getLast? false rest ls last held) :
    Passes previous spaced (c :: cs) (⟨kind, spaced⟩ :: ls) last held := by
  intro more ms hmore
  rw [List.cons_append, scans_token_iff (h more hmore)]
  constructor
  · rintro ⟨later, rfl, hs⟩
    obtain ⟨after, rfl, hlast⟩ := (hrest more later hmore).1 hs
    exact ⟨after, rfl, hlast⟩
  · rintro ⟨after, rfl, hlast⟩
    exact ⟨ls ++ after, rfl, (hrest more _ hmore).2 ⟨after, rfl, hlast⟩⟩

theorem Passes.gap (h : Takes (readItem previous c) cs item rest) (hne : ∀ kind, item ≠ .token kind)
    (hrest : Passes item.text.getLast? true rest ls last held) :
    Passes previous spaced (c :: cs) ls last held := by
  intro more ms hmore
  rw [List.cons_append, scans_gap_iff (h more hmore) hne]
  exact hrest more ms hmore

/-- A text that was read with an inert end is read up to it, unless a comment has taken the end in;
then it is read as if it had none. -/
theorem Scans.passes {text : List Char} (h : Scans previous spaced text ls) (hpad : Inert pad)
    (htext : text = cs ++ pad) :
    (∃ ms last held, Passes previous spaced cs ms last held) ∨ Scans previous spaced cs ls := by
  induction h generalizing cs with
  | @done previous spaced =>
    obtain ⟨rfl, -⟩ := List.append_eq_nil_iff.1 htext.symm
    exact .inl ⟨[], previous, spaced, .nil⟩
  | @token previous spaced c later tail kind ls hi hs ih =>
    cases cs with
    | nil => exact .inl ⟨[], previous, spaced, .nil⟩
    | cons d cs =>
      obtain ⟨rfl, rfl⟩ := List.cons.inj htext
      rcases takes_readItem hpad hi with ⟨rest, rfl, htakes⟩ | ⟨-, _, _, hcomment, -⟩
      · rcases ih rfl with ⟨ms, last, held, hpasses⟩ | hclosed
        · exact .inl ⟨_, last, held, .token htakes hpasses⟩
        · exact .inr (.token (by simpa using htakes [] (by simp [Ends])) hclosed)
      · cases hcomment
  | @gap previous spaced c later tail item ls hi hne hs ih =>
    cases cs with
    | nil => exact .inl ⟨[], previous, spaced, .nil⟩
    | cons d cs =>
      obtain ⟨rfl, rfl⟩ := List.cons.inj htext
      rcases takes_readItem hpad hi with ⟨rest, rfl, htakes⟩ | ⟨rfl, _, _, -, hcomment⟩
      · rcases ih rfl with ⟨ms, last, held, hpasses⟩ | hclosed
        · exact .inl ⟨ms, last, held, .gap htakes hne hpasses⟩
        · exact .inr (.gap (by simpa using htakes [] (by simp [Ends])) hne hclosed)
      · cases hs
        exact .inr (.gap hcomment (by simp) .done)

end Lexer

end NestedStyles
