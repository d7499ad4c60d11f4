/-!
Control characters in texts that are shown on a terminal. Those a terminal acts on are spelled out
with their code, so that a shown text cannot move the cursor or change colours; line breaks, tabs
and the other controls stay.
-/

namespace NestedStyles.Text

/-- The controls of seven bits that are spelled out: bell, backspace, form feed, escape and
delete. -/
def isTerminalControl (c : Char) : Bool :=
  c == '\x07' || c == '\x08' || c == '\x0c' || c == '\x1b' || c == '\x7f'

/-- The controls of eight bits, all of which are spelled out. -/
def isHighControl (c : Char) : Bool := 0x80 ≤ c.toNat && c.toNat ≤ 0x9F

def hexPair (n : Nat) : List Char := [Nat.digitChar (n / 16), Nat.digitChar (n % 16)]

def spellControl (c : Char) : List Char :=
  if isTerminalControl c then '\\' :: 'x' :: hexPair c.toNat
  else if isHighControl c then '\\' :: 'u' :: '{' :: hexPair c.toNat ++ ['}']
  else [c]

def spellControls (text : String) : String := String.ofList (text.toList.flatMap spellControl)

theorem plain_digitChar (n : Nat) :
    isTerminalControl (Nat.digitChar n) = false ∧ isHighControl (Nat.digitChar n) = false := by
  by_cases h : n < 16
  · exact (by decide : ∀ m < 16, isTerminalControl (Nat.digitChar m) = false ∧
      isHighControl (Nat.digitChar m) = false) n h
  · have hn : Nat.digitChar n = '*' := by
      unfold Nat.digitChar
      repeat rw [if_neg (by omega)]
    rw [hn]
    decide

theorem plain_of_mem_hexPair {n : Nat} {c : Char} (h : c ∈ hexPair n) :
    isTerminalControl c = false ∧ isHighControl c = false := by
  simp only [hexPair, List.mem_cons, List.not_mem_nil, or_false] at h
  rcases h with rfl | rfl
  · exact plain_digitChar _
  · exact plain_digitChar _

theorem plain_of_mem_spellControl {c d : Char} (h : d ∈ spellControl c) :
    isTerminalControl d = false ∧ isHighControl d = false := by
  unfold spellControl at h
  split at h
  · simp only [List.mem_cons] at h
    rcases h with rfl | rfl | h
    · decide
    · decide
    · exact plain_of_mem_hexPair h
  split at h
  · simp only [List.mem_cons, List.cons_append, List.mem_append, List.not_mem_nil, or_false] at h
    rcases h with rfl | rfl | rfl | h | rfl
    · decide
    · decide
    · decide
    · exact plain_of_mem_hexPair h
    · decide
  · simp_all

/-- No character that is to be spelled out is left in a shown text. -/
theorem plain_of_mem_spellControls {text : String} {c : Char}
    (h : c ∈ (spellControls text).toList) :
    isTerminalControl c = false ∧ isHighControl c = false := by
  simp only [spellControls, String.toList_ofList, List.mem_flatMap] at h
  obtain ⟨d, -, hd⟩ := h
  exact plain_of_mem_spellControl hd

example : spellControls "a\x1b[31m\x7f\u0085\x01\t" = "a\\x1b[31m\\x7f\\u\x7b85\x7d\x01\t" := by
  decide +kernel

end NestedStyles.Text
