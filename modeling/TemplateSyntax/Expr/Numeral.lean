import TemplateSyntax.Decimal.Binary64

/-!
# Numerals

A numeral has a whole part, a fraction or both, and may have an exponent: `12`, `1.5`, `.5`, `5.`, `2e-3`. It keeps
its characters part by part, so its text and its value are two functions on one thing.
-/

namespace TemplateSyntax.Expr

open Decimal (Binary64)

structure Exponent where
  mark : Char
  sign : Option Char
  digits : List Char
deriving DecidableEq, Inhabited

structure Numeral where
  whole : List Char
  fraction : Option (List Char)
  exponent : Option Exponent
deriving DecidableEq, Inhabited

def Exponent.chars (e : Exponent) : List Char :=
  e.mark :: e.sign.toList ++ e.digits

def Exponent.value (e : Exponent) : Int :=
  let n : Int := Nat.ofDigitChars 10 e.digits 0
  if e.sign = some '-' then -n else n

namespace Numeral

def fractionChars : Option (List Char) → List Char
  | none => []
  | some digits => '.' :: digits

def chars (n : Numeral) : List Char :=
  n.whole ++ fractionChars n.fraction ++ (n.exponent.map Exponent.chars).getD []

/-- The double nearest to what the numeral says. -/
def value (n : Numeral) : Binary64 :=
  let fraction := n.fraction.getD []
  Binary64.ofDecimal (Nat.ofDigitChars 10 (n.whole ++ fraction) 0)
    ((n.exponent.map Exponent.value).getD 0 - fraction.length)

end Numeral

/-! ### Reading -/

/-- The digits before and after the period as a numeral without exponent, and the rest. -/
def mantissa (cs : List Char) : Numeral × List Char :=
  match cs.dropWhile Char.isDigit with
  | '.' :: rest =>
    (⟨cs.takeWhile Char.isDigit, some (rest.takeWhile Char.isDigit), none⟩, rest.dropWhile Char.isDigit)
  | rest => (⟨cs.takeWhile Char.isDigit, none, none⟩, rest)

/-- The start of a text read as an exponent: there is none, there is one, or there is a mark and perhaps a sign without
a digit after it. -/
inductive ExponentPart where
  | absent
  | present (exponent : Exponent) (rest : List Char)
  | broken (used rest : List Char)
deriving DecidableEq

def signPart : List Char → Option Char × List Char
  | [] => (none, [])
  | c :: cs => if c = '+' ∨ c = '-' then (some c, cs) else (none, c :: cs)

def exponentPart : List Char → ExponentPart
  | [] => .absent
  | c :: cs =>
    if c = 'e' ∨ c = 'E' then
      let (sign, rest) := signPart cs
      match rest.takeWhile Char.isDigit with
      | [] => .broken (c :: sign.toList) rest
      | d :: ds => .present ⟨c, sign, d :: ds⟩ (rest.dropWhile Char.isDigit)
    else .absent

@[simp] theorem Numeral.chars_mk_none (whole : List Char) (fraction : Option (List Char)) :
    (⟨whole, fraction, none⟩ : Numeral).chars = whole ++ fractionChars fraction := by
  simp [chars]

theorem Numeral.chars_of_exponent {n : Numeral} (h : n.exponent = none) (e : Exponent) :
    ({ n with exponent := some e } : Numeral).chars = n.chars ++ e.chars := by
  simp [chars, h]

theorem mantissa_exponent (cs : List Char) : (mantissa cs).1.exponent = none := by
  unfold mantissa; split <;> rfl

theorem append_mantissa (cs : List Char) : (mantissa cs).1.chars ++ (mantissa cs).2 = cs := by
  have h := List.takeWhile_append_dropWhile (p := Char.isDigit) (l := cs)
  unfold mantissa
  split
  · next rest e => rw [e] at h; simpa [Numeral.fractionChars, List.takeWhile_append_dropWhile] using h
  · simp [Numeral.fractionChars]

/-- A text that starts with a digit or a period starts with a numeral. -/
theorem mantissa_ne_nil {c : Char} (h : c.isDigit = true ∨ c = '.') (cs : List Char) :
    (mantissa (c :: cs)).1.chars ≠ [] := by
  unfold mantissa
  split
  · simp [Numeral.fractionChars]
  · next hd =>
    rcases h with h | rfl
    · simp [h]
    · exact absurd rfl (hd cs)

theorem append_signPart (cs : List Char) : (signPart cs).1.toList ++ (signPart cs).2 = cs := by
  cases cs with
  | nil => rfl
  | cons c cs => rw [signPart]; split <;> rfl

theorem append_of_exponentPart_present {cs rest : List Char} {e : Exponent}
    (h : exponentPart cs = .present e rest) : e.chars ++ rest = cs := by
  cases cs with
  | nil => cases h
  | cons c cs =>
    rw [exponentPart] at h
    split at h
    · simp only at h
      split at h
      · cases h
      · next d ds ht =>
        cases h
        rw [Exponent.chars, ← ht, List.cons_append, List.cons_append, List.append_assoc,
          List.takeWhile_append_dropWhile, append_signPart]
    · cases h

theorem append_of_exponentPart_broken {cs used rest : List Char} (h : exponentPart cs = .broken used rest) :
    used ++ rest = cs := by
  cases cs with
  | nil => cases h
  | cons c cs =>
    rw [exponentPart] at h
    split at h
    · simp only at h
      split at h
      · cases h; simp [append_signPart]
      · cases h
    · cases h

end TemplateSyntax.Expr
