import TemplateSyntax.Expr.Cursor
import TemplateSyntax.Expr.Reader

/-!
# Parameters as one expression

The parameters of a tag are expressions side by side, with commas and semicolons anywhere between them. None of them
makes no expression, one stands for itself, and several make a compound.
-/

namespace TemplateSyntax.Expr

namespace Reader

/-- The expressions of a token list, separators skipped. -/
def items (stop : Nat) : List Token → Except ExprError (List Expr)
  | [] => .ok []
  | t :: ts =>
    if t.is .semicolon || t.is .comma then items stop ts
    else
      match expression stop (t :: ts) with
      | .error e _ _ => .error e
      | .ok e rest _used =>
        match items stop rest with
        | .error e => .error e
        | .ok es => .ok (e :: es)
termination_by ts => ts.length
decreasing_by
  · exact Nat.lt_succ_self _
  · exact _used

end Reader

/-- The one expression that several make. -/
def ofItems : List Expr → Option Expr
  | [] => none
  | [e] => some e
  | first :: second :: rest =>
    let last := (second :: rest).getLast (List.cons_ne_nil _ _)
    some (.compound (first :: second :: rest) (first.span.upTo last.span))

/-- The expression of a text whose first byte has offset `base`; a blank text has none. -/
def parseAt (source : String) (base : Nat) : Except ExprError (Option Expr) :=
  match (Cursor.ofSource source base).tokens with
  | .error e => .error e
  | .ok (ts, stop) => (Reader.items stop ts).map ofItems

theorem parseAt_eq_error {source : String} {base : Nat} {e : ExprError} (h : parseAt source base = .error e) :
    (Cursor.ofSource source base).tokens = .error e ∨
      ∃ ts stop, (Cursor.ofSource source base).tokens = .ok (ts, stop) ∧ Reader.items stop ts = .error e := by
  unfold parseAt at h
  split at h
  · next htokens =>
    cases h
    exact .inl htokens
  · next ts stop htokens =>
    refine .inr ⟨ts, stop, htokens, ?_⟩
    cases hitems : Reader.items stop ts with
    | ok es =>
      rw [hitems] at h
      cases h
    | error e' =>
      rw [hitems] at h
      cases h
      rfl

/-- The results of reading `n` expressions one after the other, each from where the one before it stopped. -/
def parseEach (source : String) (base n : Nat) : Except ExprError (List (Except ExprError Expr)) :=
  match (Cursor.ofSource source base).tokens with
  | .error e => .error e
  | .ok (ts, stop) => .ok (Reader.expressions stop n ts)

theorem items_ofItems {es : List Expr} {e : Expr} (h : ofItems es = some e) (hc : ∀ x ∈ es, x.items = [x]) :
    e.items = es := by
  match es, h with
  | [_], h => cases h; exact hc e (List.mem_singleton_self e)
  | _ :: _ :: _, h => cases h; rfl

end TemplateSyntax.Expr
