/-!
# Positions

A position names a place in a template to a reader: its line and its column, both counted from one. Columns count
characters, while offsets count bytes, so an offset inside a character has no position, nor has one beyond the end.
-/

namespace TemplateSyntax

structure Position where
  line : Nat
  column : Nat
deriving DecidableEq, Inhabited

namespace Position

/-- The position after `c`. -/
def after (c : Char) (p : Position) : Position :=
  if c = '\n' then ⟨p.line + 1, 1⟩ else ⟨p.line, p.column + 1⟩

/-- The position `offset` bytes further on, from `p` at the start of `cs`. -/
def advance? (p : Position) : List Char → (offset : Nat) → Option Position
  | _, 0 => some p
  | [], _ + 1 => none
  | c :: cs, offset + 1 =>
    if c.utf8Size ≤ offset + 1 then (p.after c).advance? cs (offset + 1 - c.utf8Size) else none

/-- The position of a byte offset in a source. -/
def at? (source : String) (offset : Nat) : Option Position :=
  (⟨1, 1⟩ : Position).advance? source.toList offset

theorem advance?_utf8Size_add (p : Position) (c : Char) (cs : List Char) (n : Nat) :
    p.advance? (c :: cs) (c.utf8Size + n) = (p.after c).advance? cs n := by
  obtain ⟨k, hk⟩ : ∃ k, c.utf8Size + n = k + 1 := ⟨c.utf8Size + n - 1, by have := c.utf8Size_pos; omega⟩
  rw [hk, advance?, if_pos (by omega), ← hk, Nat.add_sub_cancel_left]

theorem advance?_of_lt {p : Position} {c : Char} {cs : List Char} {n : Nat} (h0 : 0 < n) (h : n < c.utf8Size) :
    p.advance? (c :: cs) n = none := by
  obtain ⟨k, rfl⟩ : ∃ k, n = k + 1 := ⟨n - 1, by omega⟩
  rw [advance?, if_neg (by omega)]

end Position

end TemplateSyntax
