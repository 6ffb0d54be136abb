import TemplateSyntax.Expr.Reader

/-!
# The equation of the expression reader

The parts of an expression call the reader for bracketed parts on shorter lists only. So the depth that bounds the
nesting of brackets does not matter as long as there are no more tokens than that, and `expression` is a fixed point
of `expressionOver`: `expression_eq`.
-/

namespace TemplateSyntax.Expr.Reader

theorem bind_congr {α β : Type} {m n : Nat} {o : Outcome α m} {hm : m ≤ n}
    {f g : (a : α) → (rest : List Token) → rest.length < m → Outcome β n}
    (h : ∀ a rest used, f a rest used = g a rest used) : o.bind hm f = o.bind hm g := by
  cases o with
  | ok a rest used => exact h a rest used
  | error e rest kept => rfl

section Congruence

variable {stop n : Nat} {item item' : Reader Expr} (hitem : ∀ ts, ts.length < n → item ts = item' ts)

include hitem

theorem elements_congr (b : Bracket) (opener : Span) (ts : List Token) (hn : ts.length < n) :
    elements item b opener ts = elements item' b opener ts := by
  match ts, hn with
  | [], _ => rw [elements, elements]
  | t :: ts, hn =>
    rw [elements, elements, hitem _ hn]
    split
    · rfl
    · refine bind_congr fun x rest h => ?_
      cases rest with
      | nil => rfl
      | cons sep rest =>
        have hlt : rest.length < (t :: ts).length := Nat.lt_of_succ_lt h
        dsimp only
        rw [elements_congr b opener rest (Nat.lt_trans hlt hn)]
termination_by ts.length
decreasing_by exact hlt

theorem entries_congr (opener : Span) (ts : List Token) (hn : ts.length < n) :
    entries item opener ts = entries item' opener ts := by
  rw [entries, entries, hitem _ hn]
  refine bind_congr fun key rest h => ?_
  match rest, h with
  | [], _ => rfl
  | colon :: rest, h =>
    have hlt : rest.length < ts.length := Nat.lt_of_succ_lt h
    dsimp only
    split
    · rw [hitem rest (Nat.lt_trans hlt hn)]
      refine bind_congr fun value rest' h' => ?_
      match rest', h' with
      | [], _ => rfl
      | sep :: rest', h' =>
        have hlt' : rest'.length < ts.length := Nat.lt_trans (Nat.lt_of_succ_lt h') hlt
        dsimp only
        rw [entries_congr opener rest' (Nat.lt_trans hlt' hn)]
    · rfl
termination_by ts.length
decreasing_by exact hlt'

theorem mapBody_congr (opener : Span) (ts : List Token) (hn : ts.length < n) :
    mapBody item opener ts = mapBody item' opener ts := by
  cases ts <;> simp only [mapBody, entries_congr hitem opener _ hn]

theorem primary_congr (ts : List Token) (hn : ts.length ≤ n) : primary stop item ts = primary stop item' ts := by
  cases ts with
  | nil => rfl
  | cons t ts =>
    have hlt : ts.length < n := hn
    simp only [primary, elements_congr hitem _ _ ts hlt, mapBody_congr hitem _ ts hlt, hitem ts hlt]

theorem suffix?_congr (e : Expr) (ts : List Token) (hn : ts.length ≤ n) :
    suffix? stop item e ts = suffix? stop item' e ts := by
  cases ts with
  | nil => rfl
  | cons t ts =>
    have hlt : ts.length < n := hn
    simp only [suffix?, elements_congr hitem _ _ ts hlt, hitem ts hlt]

theorem suffixes_congr {m : Nat} (e : Expr) (ts : List Token) (h : ts.length < m) (hn : ts.length ≤ n) :
    suffixes stop item e ts h = suffixes stop item' e ts h := by
  rw [suffixes, suffixes, suffix?_congr hitem e ts hn]
  split
  · rfl
  · refine bind_congr fun e rest h' => suffixes_congr e rest _ (by omega)
termination_by ts.length

theorem operand_congr (ts : List Token) (hn : ts.length ≤ n) : operand stop item ts = operand stop item' ts := by
  unfold operand
  rw [primary_congr hitem ts hn]
  exact bind_congr fun e rest h => suffixes_congr hitem e rest h (by omega)

theorem unary_congr (ts : List Token) (hn : ts.length ≤ n) : unary stop item ts = unary stop item' ts := by
  induction ts with
  | nil => exact operand_congr hitem [] hn
  | cons t ts ih => simp only [unary, ih (Nat.le_of_lt hn), operand_congr hitem (t :: ts) hn]

theorem chain_congr {m : Nat} (ts : List Token) (h : ts.length < m) (hn : ts.length ≤ n) :
    chain stop item ts h = chain stop item' ts h := by
  match ts, h, hn with
  | [], _, _ => rw [chain, chain]
  | t :: ts, h, hn =>
    rw [chain, chain]
    split
    · rfl
    · split
      · rfl
      · rw [unary_congr hitem ts (Nat.le_of_lt hn)]
        refine bind_congr fun e rest h' => ?_
        have hlt : rest.length < (t :: ts).length := Nat.lt_succ_of_lt h'
        rw [chain_congr rest _ (Nat.le_of_lt (Nat.lt_of_lt_of_le hlt hn))]
termination_by ts.length

theorem expressionOver_congr (ts : List Token) (hn : ts.length ≤ n) :
    expressionOver stop item ts = expressionOver stop item' ts := by
  unfold expressionOver
  rw [unary_congr hitem ts hn]
  refine bind_congr fun first rest h => ?_
  rw [chain_congr hitem rest h (by omega)]

end Congruence

/-- Without tokens there is no expression. -/
theorem expressionOver_nil (stop : Nat) (item : Reader Expr) :
    expressionOver stop item [] = .error ⟨.unexpectedEnd, ⟨stop, stop⟩⟩ [] (Nat.le_refl _) := rfl

/-- Any depth from the number of tokens on gives the same. -/
theorem expressionWithin_eq (stop : Nat) (d : Nat) (ts : List Token) (h : ts.length ≤ d) :
    expressionWithin stop d ts = expression stop ts := by
  induction d using Nat.strongRecOn generalizing ts with
  | ind d ih =>
    unfold expression
    match d, ts, h with
    | 0, [], _ => rfl
    | d + 1, [], _ => rfl
    | d + 1, t :: ts, h =>
      change expressionOver stop (expressionWithin stop d) (t :: ts) =
        expressionOver stop (expressionWithin stop ts.length) (t :: ts)
      refine expressionOver_congr (fun ts' (h' : ts'.length < (t :: ts).length) => ?_) _ (Nat.le_refl _)
      simp only [List.length_cons] at h h'
      rw [ih d (by omega) ts' (by omega), ih ts.length (by omega) ts' (by omega)]

theorem expression_eq (stop : Nat) (ts : List Token) :
    expression stop ts = expressionOver stop (expression stop) ts := by
  rw [← expressionWithin_eq stop (ts.length + 1) ts (Nat.le_succ _), expressionWithin]
  exact expressionOver_congr (fun ts' h => expressionWithin_eq stop _ ts' (Nat.le_of_lt h)) ts (Nat.le_refl _)

end TemplateSyntax.Expr.Reader
