/-!
# Control characters

Where control characters cannot stand as they are, they are written by their code. A log line may quote any part of a
template, and a terminal takes some control characters for commands; `disarm` writes exactly those by their code, so
that no text of a template steers the terminal on which its log is shown.
-/

namespace TemplateSyntax.Text

/-- The hexadecimal digits of a number below 256. -/
def hexPair (n : Nat) : List Char :=
  [Nat.digitChar (n / 16), Nat.digitChar (n % 16)]

/-- Bell, backspace, form feed, escape and delete. -/
def isTerminalCommand (c : Char) : Bool :=
  c == '\x07' || c == '\x08' || c == '\x0c' || c == '\x1b' || c == '\x7f'

/-- The control characters U+0080 to U+009F, each of which stands for an escape sequence. -/
def isUpperControl (c : Char) : Bool :=
  0x80 ≤ c.toNat && c.toNat ≤ 0x9F

def steersTerminal (c : Char) : Bool :=
  isTerminalCommand c || isUpperControl c

def disarm (c : Char) : List Char :=
  if isTerminalCommand c then '\\' :: 'x' :: hexPair c.toNat
  else if isUpperControl c then '\\' :: 'u' :: '{' :: hexPair c.toNat ++ ['}']
  else [c]

/-- The text with every character that steers a terminal written by its code. -/
def disarmed (text : String) : String :=
  String.ofList (text.toList.flatMap disarm)

private theorem toNat_lt_of_isTerminalCommand {c : Char} (h : isTerminalCommand c = true) : c.toNat < 256 := by
  simp only [isTerminalCommand, Bool.or_eq_true, beq_iff_eq] at h
  rcases h with (((rfl | rfl) | rfl) | rfl) | rfl <;> decide

theorem steersTerminal_of_mem_hexPair {n : Nat} (hn : n < 256) {d : Char} (h : d ∈ hexPair n) :
    steersTerminal d = false := by
  have digit : ∀ k < 16, steersTerminal (Nat.digitChar k) = false := by decide
  simp only [hexPair, List.mem_cons, List.not_mem_nil, or_false] at h
  rcases h with rfl | rfl
  · exact digit _ (by omega)
  · exact digit _ (by omega)

/-- Nothing that steers a terminal is left. -/
theorem steersTerminal_of_mem_disarm {c d : Char} (h : d ∈ disarm c) : steersTerminal d = false := by
  unfold disarm at h
  split at h
  · next hc =>
    rcases List.mem_cons.mp h with rfl | h
    · decide
    rcases List.mem_cons.mp h with rfl | h
    · decide
    exact steersTerminal_of_mem_hexPair (toNat_lt_of_isTerminalCommand hc) h
  · next hc =>
    split at h
    · next hu =>
      have hn : c.toNat < 256 := by simp only [isUpperControl, Bool.and_eq_true, decide_eq_true_eq] at hu; omega
      simp only [List.cons_append, List.mem_cons, List.mem_append, List.not_mem_nil, or_false] at h
      rcases h with rfl | rfl | rfl | h | rfl
      · decide
      · decide
      · decide
      · exact steersTerminal_of_mem_hexPair hn h
      · decide
    · next hu =>
      rw [List.mem_singleton.mp h]
      simp [steersTerminal, hc, hu]

/-- A text without such characters stays as it is. -/
theorem disarm_of_plain {c : Char} (h : steersTerminal c = false) : disarm c = [c] := by
  simp only [steersTerminal, Bool.or_eq_false_iff] at h
  simp [disarm, h]

end TemplateSyntax.Text
