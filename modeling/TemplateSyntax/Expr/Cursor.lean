import TemplateSyntax.Text.Blank
import TemplateSyntax.Text.Bytes
import TemplateSyntax.Expr.Reading

/-!
# Tokens of an expression

A cursor walks over the parameters of a tag. Each step skips blanks and reads one token, or fails and leaves the
cursor where the reader stopped; at the end it gives the end token for ever. Offsets start from a base, the place of
the parameters in the template.
-/

namespace TemplateSyntax.Expr

open Text (isBlank byteLength)

/-- Where the next token is read, and whether the token before it ended an operand. -/
structure Cursor where
  rest : List Char
  offset : Nat
  afterOperand : Bool
deriving DecidableEq, Inhabited

/-- A string that is not closed is at fault as a whole, anything else at the character where its reader stopped. -/
def Reading.faultSpan (start : Nat) (r : Reading) (fault : Fault) : Span :=
  let here := start + byteLength r.used
  match fault with
  | .unclosedQuote _ => ⟨start, here⟩
  | _ => ⟨here, here + (r.rest.head?.map Char.utf8Size).getD 0⟩

/-- The token or error of a reading that began at offset `start`. -/
def Reading.answer (start : Nat) (r : Reading) : Except ExprError Token :=
  match r.result with
  | .ok kind => .ok ⟨kind, String.ofList r.used, ⟨start, start + byteLength r.used⟩⟩
  | .error fault => .error ⟨fault, r.faultSpan start fault⟩

def endToken (stop : Nat) : Token :=
  ⟨.eof, "", ⟨stop, stop⟩⟩

namespace Cursor

/-- At the start of a text whose first byte has offset `base`. -/
def ofSource (source : String) (base : Nat) : Cursor :=
  ⟨source.toList, base, false⟩

/-- A failed step keeps the memory of the token before it. -/
def next (c : Cursor) : Except ExprError Token × Cursor :=
  let start := c.offset + byteLength (c.rest.takeWhile isBlank)
  match c.rest.dropWhile isBlank with
  | [] => (.ok (endToken start), ⟨[], start, c.afterOperand⟩)
  | d :: ds =>
    let r := readToken c.afterOperand d ds
    let afterOperand :=
      match r.result with
      | .ok kind => kind.endsOperand
      | .error _ => c.afterOperand
    (r.answer start, ⟨r.rest, start + byteLength r.used, afterOperand⟩)

/-- The results of `n` steps one after the other. -/
def run : (n : Nat) → Cursor → List (Except ExprError Token)
  | 0, _ => []
  | n + 1, c => c.next.1 :: run n c.next.2

theorem length_lt_of_next {c c' : Cursor} {t : Token} (h : c.next = (.ok t, c')) (ht : t.kind ≠ .eof) :
    c'.rest.length < c.rest.length := by
  have hle : (c.rest.dropWhile isBlank).length ≤ c.rest.length := (List.dropWhile_sublist _).length_le
  unfold next at h
  simp only at h
  split at h
  · cases h; exact absurd rfl ht
  · next d ds hd =>
    simp only [Prod.mk.injEq] at h
    obtain ⟨hans, rfl⟩ := h
    have happ := congrArg List.length (append_readToken c.afterOperand d ds)
    rw [hd] at hle
    rw [List.length_append] at happ
    rcases used_ne_nil_or c.afterOperand d ds with hu | hu
    · have := List.length_pos_iff.mpr hu
      simp only
      omega
    · rw [hu] at hans; cases hans

/-- The tokens from a cursor to the end, and the offset of the end. -/
def tokens (c : Cursor) : Except ExprError (List Token × Nat) :=
  match _h : c.next with
  | (.error e, _) => .error e
  | (.ok t, c') =>
    if _ht : t.kind = .eof then .ok ([], t.span.start)
    else
      match c'.tokens with
      | .error e => .error e
      | .ok (ts, stop) => .ok (t :: ts, stop)
termination_by c.rest.length
decreasing_by exact length_lt_of_next _h _ht

theorem tokens_eq (c : Cursor) :
    c.tokens =
      match c.next with
      | (.error e, _) => .error e
      | (.ok t, c') =>
        if t.kind = .eof then .ok ([], t.span.start)
        else
          match c'.tokens with
          | .error e => .error e
          | .ok (ts, stop) => .ok (t :: ts, stop) := by
  rw [tokens]
  split <;> simp_all

end Cursor

/-- The tokens of a text whose first byte has offset `base`; the last is the end token. -/
def tokenizeAt (source : String) (base : Nat) : Except ExprError (List Token) :=
  match (Cursor.ofSource source base).tokens with
  | .error e => .error e
  | .ok (ts, stop) => .ok (ts ++ [endToken stop])

end TemplateSyntax.Expr
