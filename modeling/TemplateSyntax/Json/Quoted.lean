import TemplateSyntax.Text.Control

/-!
# Quoted strings

A JSON string is written between double quotes. Only the quote, the backslash and the control characters below
U+0020 are escaped: five of those by a letter, the others by their code in lower-case hexadecimal. Everything else
stands as it is.
-/

namespace TemplateSyntax.Json

open Text (hexPair)

def escape (c : Char) : List Char :=
  if c = '"' then ['\\', '"']
  else if c = '\\' then ['\\', '\\']
  else if c = '\x08' then ['\\', 'b']
  else if c = '\t' then ['\\', 't']
  else if c = '\n' then ['\\', 'n']
  else if c = '\x0c' then ['\\', 'f']
  else if c = '\r' then ['\\', 'r']
  else if c.toNat < 0x20 then '\\' :: 'u' :: '0' :: '0' :: hexPair c.toNat
  else [c]

def quoted (s : String) : List Char :=
  '"' :: s.toList.flatMap escape ++ ['"']

theorem escape_ne_nil (c : Char) : escape c ≠ [] := by
  unfold escape; repeat' split
  all_goals simp

theorem escape_of_plain {c : Char} (hq : c ≠ '"') (hb : c ≠ '\\') (hc : 0x20 ≤ c.toNat) : escape c = [c] := by
  have low : ∀ d : Char, d.toNat < 0x20 → c ≠ d := fun d hd e => by subst e; omega
  simp [escape, hq, hb, low '\x08' (by decide), low '\t' (by decide), low '\n' (by decide), low '\x0c' (by decide),
    low '\r' (by decide), Nat.not_lt.mpr hc]

end TemplateSyntax.Json
