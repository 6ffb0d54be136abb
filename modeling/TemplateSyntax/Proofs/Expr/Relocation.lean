import TemplateSyntax.Proofs.Expr.WellFormed

/-!
# Expressions at other places

The readers hand on the places of tokens and do nothing else with them but to join those from one to another. So if all
places are changed by a function that keeps joins, the readers take the same tokens in the same way and fail in the same
way (`items_mapSpan`). To move all places is such a function, and to forget them is one.
-/

namespace TemplateSyntax

/-- The function takes the span from `s` to `t` to the one from the place of `s` to that of `t`. -/
def Span.KeepsJoins (place : Span → Span) : Prop :=
  ∀ s t : Span, place (s.upTo t) = (place s).upTo (place t)

def ExprError.mapSpan (place : Span → Span) (e : ExprError) : ExprError :=
  { e with span := place e.span }

/-- The value changed by `move`, or the error at its other place. -/
def relocate {α β : Type} (place : Span → Span) (move : α → β) : Except ExprError α → Except ExprError β
  | .ok a => .ok (move a)
  | .error e => .error (e.mapSpan place)

namespace Expr

/-! ### Expressions and tokens -/

def Token.mapSpan (place : Span → Span) (t : Token) : Token :=
  { t with span := place t.span }

variable {place : Span → Span} {stop stop' : Nat}

@[simp] theorem span_mapSpans (e : Expr) : (e.mapSpans place).span = place e.span := by
  cases e <;> rfl

theorem mapSpans_array (elements : List Expr) (s : Span) :
    (Expr.array elements s).mapSpans place = .array (elements.map (mapSpans place)) (place s) :=
  congrArg (Expr.array · (place s)) (listMapSpans_eq_map place elements)

theorem mapSpans_map (entries : List (Expr × Expr)) (s : Span) :
    (Expr.map entries s).mapSpans place = .map (entries.map (Prod.map (mapSpans place) (mapSpans place))) (place s) :=
  congrArg (Expr.map · (place s)) (entriesMapSpans_eq_map place entries)

theorem mapSpans_call (callee : Expr) (arguments : List Expr) (s : Span) :
    (Expr.call callee arguments s).mapSpans place =
      .call (callee.mapSpans place) (arguments.map (mapSpans place)) (place s) :=
  congrArg (Expr.call (callee.mapSpans place) · (place s)) (listMapSpans_eq_map place arguments)

theorem mapSpans_compound (items : List Expr) (s : Span) :
    (Expr.compound items s).mapSpans place = .compound (items.map (mapSpans place)) (place s) :=
  congrArg (Expr.compound · (place s)) (listMapSpans_eq_map place items)

theorem nextSpan_mapSpan (hstop : place ⟨stop, stop⟩ = ⟨stop', stop'⟩) (ts : List Token) :
    nextSpan stop' (ts.map (Token.mapSpan place)) = place (nextSpan stop ts) := by
  cases ts with
  | nil => exact hstop.symm
  | cons t ts => rfl

theorem named_mapSpan (name : String) (t : Token) :
    Reader.named name (t.mapSpan place) = (Reader.named name t).mapSpans place := by
  unfold Reader.named
  split <;> rfl

/-! ### Chains of operands -/

section Chains

variable (hplace : Span.KeepsJoins place)

include hplace

theorem join?_mapSpans (op : InfixOp) (left right : Expr) :
    join? op (left.mapSpans place) (right.mapSpans place) = relocate place (mapSpans place) (join? op left right) := by
  unfold join?
  rw [isAssignable_mapSpans, span_mapSpans, span_mapSpans, ← hplace]
  split <;> rfl

theorem release_mapSpans (op : InfixOp) (held : Held) (right : Expr) :
    release op (held.map (Prod.map (mapSpans place) id)) (right.mapSpans place) =
      relocate place (Prod.map (List.map (Prod.map (mapSpans place) id)) (mapSpans place)) (release op held right) := by
  induction held generalizing right with
  | nil => rfl
  | cons first held ih =>
    obtain ⟨left, op'⟩ := first
    unfold release
    simp only [List.map_cons, Prod.map_apply, id]
    split
    · rw [join?_mapSpans hplace]
      cases join? op' left right with
      | error e => rfl
      | ok e => exact ih e
    · rfl

theorem releaseAll_mapSpans (held : Held) (right : Expr) :
    releaseAll (held.map (Prod.map (mapSpans place) id)) (right.mapSpans place) =
      relocate place (mapSpans place) (releaseAll held right) := by
  induction held generalizing right with
  | nil => rfl
  | cons first held ih =>
    obtain ⟨left, op⟩ := first
    unfold releaseAll
    simp only [List.map_cons, Prod.map_apply, id]
    rw [join?_mapSpans hplace]
    cases join? op left right with
    | error e => rfl
    | ok e => exact ih e

theorem resolve_mapSpans (held : Held) (operand : Expr) (links : List (InfixOp × Expr)) :
    resolve (held.map (Prod.map (mapSpans place) id)) (operand.mapSpans place)
        (links.map (Prod.map id (mapSpans place))) =
      relocate place (mapSpans place) (resolve held operand links) := by
  induction links generalizing held operand with
  | nil => exact releaseAll_mapSpans hplace held operand
  | cons link links ih =>
    obtain ⟨op, next⟩ := link
    unfold resolve
    simp only [List.map_cons, Prod.map_apply, id]
    rw [release_mapSpans hplace]
    cases release op held operand with
    | error e => rfl
    | ok r =>
      obtain ⟨held', left⟩ := r
      exact ih ((left, op) :: held') next

end Chains

/-! ### Outcomes -/

namespace Outcome

variable {α β : Type} {k l m m' : Nat} {move : α → α} {move' : β → β} {o : Outcome α m} {o' : Outcome α m'}

/-- The second outcome is the first, with its value changed by `move` and all else at its other place. -/
def Moved (place : Span → Span) (move : α → α) : Outcome α m → Outcome α m' → Prop
  | .ok a rest _, .ok a' rest' _ => a' = move a ∧ rest' = rest.map (Token.mapSpan place)
  | .error e rest _, .error e' rest' _ => e' = e.mapSpan place ∧ rest' = rest.map (Token.mapSpan place)
  | _, _ => False

theorem Moved.result_rest (ho : o.Moved place move o') :
    o'.result = relocate place move o.result ∧ o'.rest = o.rest.map (Token.mapSpan place) := by
  match o, o', ho with
  | .ok _ _ _, .ok _ _ _, ho => exact ⟨congrArg Except.ok ho.1, ho.2⟩
  | .error _ _ _, .error _ _ _, ho => exact ⟨congrArg Except.error ho.1, ho.2⟩

theorem Moved.bind (ho : o.Moved place move o') (h : m ≤ k) (h' : m' ≤ l)
    {f : (a : α) → (rest : List Token) → rest.length < m → Outcome β k}
    {f' : (a : α) → (rest : List Token) → rest.length < m' → Outcome β l}
    (hf : ∀ a rest used used', (f a rest used).Moved place move' (f' (move a) (rest.map (Token.mapSpan place)) used')) :
    (o.bind h f).Moved place move' (o'.bind h' f') := by
  cases o with
  | ok a rest used =>
    cases o' with
    | ok a' rest' used' =>
      obtain ⟨rfl, rfl⟩ := ho
      exact hf a rest used used'
    | error => exact ho.elim
  | error e rest kept =>
    cases o' with
    | ok => exact ho.elim
    | error e' rest' kept' => exact ho

theorem Moved.map (ho : o.Moved place move o') {f f' : α → β} (hf : ∀ a, f' (move a) = move' (f a)) :
    (o.map f).Moved place move' (o'.map f') := by
  cases o with
  | ok a rest used =>
    cases o' with
    | ok a' rest' used' =>
      obtain ⟨rfl, rfl⟩ := ho
      exact ⟨hf a, rfl⟩
    | error => exact ho.elim
  | error e rest kept =>
    cases o' with
    | ok => exact ho.elim
    | error e' rest' kept' => exact ho

theorem Moved.widen (ho : o.Moved place move o') (h : m ≤ k) (h' : m' ≤ l) :
    (o.widen h).Moved place move (o'.widen h') := by
  cases o <;> cases o' <;> exact ho

end Outcome

/-! ### Readers -/

namespace Reader

open Outcome

theorem moved_closing (b : Bracket) (opener : Span) (ts : List Token) :
    (closing b opener ts).Moved place place (closing b (place opener) (ts.map (Token.mapSpan place))) := by
  cases ts with
  | nil => exact ⟨rfl, rfl⟩
  | cons t ts =>
    rw [List.map_cons, closing, closing]
    change Moved place _ (if t.is b.closer then _ else _) (if t.is b.closer then _ else _)
    split
    · exact ⟨rfl, rfl⟩
    · exact ⟨rfl, rfl⟩

section Readers

variable {item item' : Reader Expr}
  (hitem : ∀ ts, (item ts).Moved place (mapSpans place) (item' (ts.map (Token.mapSpan place))))

include hitem

theorem moved_elements (b : Bracket) (opener : Span) (ts : List Token) :
    (elements item b opener ts).Moved place (Prod.map (List.map (mapSpans place)) place)
      (elements item' b (place opener) (ts.map (Token.mapSpan place))) := by
  match ts with
  | [] =>
    rw [List.map_nil, elements, elements]
    exact ⟨rfl, rfl⟩
  | t :: ts =>
    rw [List.map_cons, elements, elements]
    change Moved place _ (if t.is b.closer then _ else _) (if t.is b.closer then _ else _)
    split
    · exact ⟨rfl, rfl⟩
    · refine (hitem (t :: ts)).bind _ _ fun x rest used used' => ?_
      cases rest with
      | nil => exact ⟨rfl, rfl⟩
      | cons sep rest =>
        have hlt : rest.length < (t :: ts).length := Nat.lt_of_succ_lt used
        change Moved place _ (if sep.is .comma then _ else if sep.is b.closer then _ else _)
          (if sep.is .comma then _ else if sep.is b.closer then _ else _)
        split
        · refine Moved.widen ?_ _ _
          exact (moved_elements b opener rest).map fun _ => rfl
        · split
          · exact ⟨rfl, rfl⟩
          · exact ⟨rfl, rfl⟩
termination_by ts.length
decreasing_by exact hlt

theorem moved_entries (opener : Span) (ts : List Token) :
    (entries item opener ts).Moved place (Prod.map (List.map (Prod.map (mapSpans place) (mapSpans place))) place)
      (entries item' (place opener) (ts.map (Token.mapSpan place))) := by
  rw [entries, entries]
  refine (hitem ts).bind _ _ fun key rest used used' => ?_
  cases rest with
  | nil => exact ⟨rfl, rfl⟩
  | cons colon rest =>
    have hlt : rest.length < ts.length := Nat.lt_of_succ_lt used
    change Moved place _ (if colon.is .colon then _ else _) (if colon.is .colon then _ else _)
    split
    · refine (hitem rest).bind _ _ fun value rest' used₂ used₂' => ?_
      cases rest' with
      | nil => exact ⟨rfl, rfl⟩
      | cons sep rest' =>
        have hlt' : rest'.length < ts.length := Nat.lt_trans (Nat.lt_of_succ_lt used₂) hlt
        change Moved place _ (if sep.is .comma then _ else if sep.is .braceClose then _ else _)
          (if sep.is .comma then _ else if sep.is .braceClose then _ else _)
        split
        · refine Moved.widen ?_ _ _
          exact (moved_entries opener rest').map fun _ => rfl
        · split
          · exact ⟨rfl, rfl⟩
          · exact ⟨rfl, rfl⟩
    · exact ⟨rfl, rfl⟩
termination_by ts.length
decreasing_by exact hlt'

theorem moved_mapBody (opener : Span) (ts : List Token) :
    (mapBody item opener ts).Moved place (Prod.map (List.map (Prod.map (mapSpans place) (mapSpans place))) place)
      (mapBody item' (place opener) (ts.map (Token.mapSpan place))) := by
  cases ts with
  | nil => exact moved_entries hitem opener []
  | cons t ts =>
    change Moved place _ (if t.is .braceClose then _ else _) (if t.is .braceClose then _ else _)
    split
    · exact ⟨rfl, rfl⟩
    · exact moved_entries hitem opener (t :: ts)

/-! ### Operands -/

variable (hplace : Span.KeepsJoins place) (hstop : place ⟨stop, stop⟩ = ⟨stop', stop'⟩)

include hplace hstop

theorem moved_primary (ts : List Token) :
    (primary stop item ts).Moved place (mapSpans place) (primary stop' item' (ts.map (Token.mapSpan place))) := by
  cases ts with
  | nil => exact ⟨congrArg (ExprError.mk _) hstop.symm, rfl⟩
  | cons t ts =>
    obtain ⟨kind, text, s⟩ := t
    cases kind with
    | number | string | eof => exact ⟨rfl, rfl⟩
    | identifier name => exact ⟨named_mapSpan name _, rfl⟩
    | punctuator p =>
      cases p with
      | bracketOpen =>
        refine Moved.widen ?_ (Nat.le_succ _) (Nat.le_succ _)
        exact (moved_elements hitem .square s ts).map fun (xs, close) => by
          rw [mapSpans_array, hplace]
          rfl
      | braceOpen =>
        refine Moved.widen ?_ (Nat.le_succ _) (Nat.le_succ _)
        exact (moved_mapBody hitem s ts).map fun (es, close) => by
          rw [mapSpans_map, hplace]
          rfl
      | parenOpen =>
        refine (hitem ts).bind (Nat.le_succ _) (Nat.le_succ _) fun e rest used used' => ?_
        refine Moved.widen ?_ (Nat.le_of_lt (Nat.lt_succ_of_lt used)) (Nat.le_of_lt (Nat.lt_succ_of_lt used'))
        exact (moved_closing .paren s rest).map fun _ => rfl
      | _ => exact ⟨rfl, rfl⟩

theorem moved_suffix? (e : Expr) (ts : List Token) :
    Option.Rel (Moved place (mapSpans place)) (suffix? stop item e ts)
      (suffix? stop' item' (e.mapSpans place) (ts.map (Token.mapSpan place))) := by
  cases ts with
  | nil => exact .none
  | cons t ts =>
    obtain ⟨kind, text, s⟩ := t
    have hupdate (op : UpdateOp) :
        Moved place (mapSpans place)
          (if e.isAssignable then .ok (.update op e false (e.span.upTo s)) ts (Nat.lt_succ_self _)
            else .error ⟨.updateTarget, e.span⟩ ts (Nat.le_succ _) : Outcome Expr (ts.length + 1))
          (if (e.mapSpans place).isAssignable then
              .ok (.update op (e.mapSpans place) false ((e.mapSpans place).span.upTo (place s)))
                (ts.map (Token.mapSpan place)) (Nat.lt_succ_self _)
            else .error ⟨.updateTarget, (e.mapSpans place).span⟩ (ts.map (Token.mapSpan place)) (Nat.le_succ _) :
              Outcome Expr ((ts.map (Token.mapSpan place)).length + 1)) := by
      rw [isAssignable_mapSpans, span_mapSpans, ← hplace]
      split
      · exact ⟨rfl, rfl⟩
      · exact ⟨rfl, rfl⟩
    cases kind with
    | number | string | identifier | eof => exact .none
    | punctuator p =>
      cases p with
      | dot =>
        cases ts with
        | nil => exact .some ⟨congrArg (ExprError.mk _) hstop.symm, rfl⟩
        | cons t ts =>
          obtain ⟨kind, text', s'⟩ := t
          cases kind with
          | identifier name => exact .some ⟨congrArg (Expr.field _ name _) (by rw [span_mapSpans, hplace]), rfl⟩
          | _ => exact .some ⟨rfl, rfl⟩
      | bracketOpen =>
        refine .some ((hitem ts).bind (Nat.le_succ _) (Nat.le_succ _) fun key rest used used' => ?_)
        refine Moved.widen ?_ (Nat.le_of_lt (Nat.lt_succ_of_lt used)) (Nat.le_of_lt (Nat.lt_succ_of_lt used'))
        exact (moved_closing .square s rest).map fun close => by
          rw [span_mapSpans, ← hplace]
          rfl
      | parenOpen =>
        refine .some (Moved.widen ?_ (Nat.le_succ _) (Nat.le_succ _))
        exact (moved_elements hitem .paren s ts).map fun (arguments, close) => by
          rw [span_mapSpans, mapSpans_call, hplace]
          rfl
      | plusPlus => exact .some (hupdate .increment)
      | minusMinus => exact .some (hupdate .decrement)
      | _ => exact .none

theorem moved_suffixes {m m' : Nat} (e : Expr) (ts : List Token) (h : ts.length < m)
    (h' : (ts.map (Token.mapSpan place)).length < m') :
    (suffixes stop item e ts h).Moved place (mapSpans place)
      (suffixes stop' item' (e.mapSpans place) (ts.map (Token.mapSpan place)) h') := by
  have hfirst : Option.Rel (Moved place (mapSpans place)) (suffix? stop item e ts)
      (suffix? stop' item' (e.mapSpans place) (ts.map (Token.mapSpan place))) :=
    moved_suffix? hitem hplace hstop e ts
  rw [suffixes, suffixes]
  cases ho : suffix? stop item e ts with
  | none =>
    cases ho' : suffix? stop' item' (e.mapSpans place) (ts.map (Token.mapSpan place)) with
    | none => exact ⟨rfl, rfl⟩
    | some o' =>
      rw [ho, ho'] at hfirst
      cases hfirst
  | some o =>
    cases ho' : suffix? stop' item' (e.mapSpans place) (ts.map (Token.mapSpan place)) with
    | none =>
      rw [ho, ho'] at hfirst
      cases hfirst
    | some o' =>
      rw [ho, ho'] at hfirst
      cases hfirst with
      | some hmoved => exact hmoved.bind _ _ fun e rest used used' => moved_suffixes e rest _ _
termination_by ts.length
decreasing_by exact used

theorem moved_operand (ts : List Token) :
    (operand stop item ts).Moved place (mapSpans place) (operand stop' item' (ts.map (Token.mapSpan place))) :=
  (moved_primary hitem hplace hstop ts).bind _ _ fun e rest used used' =>
    moved_suffixes hitem hplace hstop e rest used used'

theorem moved_unary (ts : List Token) :
    (unary stop item ts).Moved place (mapSpans place) (unary stop' item' (ts.map (Token.mapSpan place))) := by
  induction ts with
  | nil => exact moved_operand hitem hplace hstop []
  | cons t ts ih =>
    have hkind : (t.mapSpan place).kind = t.kind := rfl
    rw [List.map_cons, unary, unary, hkind]
    split
    · exact ih.bind _ _ fun e rest used used' => ⟨by rw [span_mapSpans, mapSpans, hplace]; rfl, rfl⟩
    · refine ih.bind _ _ fun e rest used used' => ?_
      rw [isAssignable_mapSpans, span_mapSpans]
      split
      · exact ⟨congrArg (Expr.update _ _ true) (hplace t.span e.span).symm, rfl⟩
      · exact ⟨rfl, rfl⟩
    · exact moved_operand hitem hplace hstop (t :: ts)

theorem moved_chain {m m' : Nat} (ts : List Token) (h : ts.length < m)
    (h' : (ts.map (Token.mapSpan place)).length < m') :
    (chain stop item ts h).Moved place (List.map (Prod.map id (mapSpans place)))
      (chain stop' item' (ts.map (Token.mapSpan place)) h') := by
  match ts, h, h' with
  | [], _, _ =>
    rw [chain]
    change Moved place _ _ (chain stop' item' [] _)
    rw [chain]
    exact ⟨rfl, rfl⟩
  | t :: ts, h, h' =>
    change Moved place _ _ (chain stop' item' (t.mapSpan place :: ts.map (Token.mapSpan place)) _)
    have hkind : (t.mapSpan place).kind = t.kind := rfl
    rw [chain, chain, hkind]
    split
    · exact ⟨rfl, rfl⟩
    · rw [List.isEmpty_map]
      split
      · exact ⟨rfl, rfl⟩
      · refine (moved_unary hitem hplace hstop ts).bind _ _ fun e rest used used' => ?_
        have hlt : rest.length < (t :: ts).length := Nat.lt_succ_of_lt used
        exact (moved_chain rest _ _).map fun _ => rfl
termination_by ts.length
decreasing_by exact hlt

theorem moved_expressionOver (ts : List Token) :
    (expressionOver stop item ts).Moved place (mapSpans place)
      (expressionOver stop' item' (ts.map (Token.mapSpan place))) := by
  refine (moved_unary hitem hplace hstop ts).bind _ _ fun first rest used used' => ?_
  refine (moved_chain hitem hplace hstop rest used used').bind _ _ fun links rest' h h' => ?_
  have hresolve := resolve_mapSpans hplace [] first links
  rw [List.map_nil] at hresolve
  rw [hresolve]
  cases resolve [] first links with
  | ok e => exact ⟨rfl, rfl⟩
  | error e => exact ⟨rfl, rfl⟩

end Readers

section Expressions

variable (hplace : Span.KeepsJoins place) (hstop : place ⟨stop, stop⟩ = ⟨stop', stop'⟩)

include hplace hstop

theorem moved_expressionWithin (depth : Nat) (ts : List Token) :
    (expressionWithin stop depth ts).Moved place (mapSpans place)
      (expressionWithin stop' depth (ts.map (Token.mapSpan place))) := by
  induction depth generalizing ts with
  | zero =>
    refine ⟨?_, rfl⟩
    rw [nextSpan_mapSpan hstop]
    rfl
  | succ depth ih => exact moved_expressionOver ih hplace hstop ts

theorem moved_expression (ts : List Token) :
    (expression stop ts).Moved place (mapSpans place) (expression stop' (ts.map (Token.mapSpan place))) := by
  have hlength : (ts.map (Token.mapSpan place)).length ≤ ts.length := Nat.le_of_eq (List.length_map _)
  rw [← expressionWithin_eq stop' ts.length _ hlength]
  exact moved_expressionWithin hplace hstop ts.length ts

/-- Readings one after the other, errors included, are the same at other places. -/
theorem expressions_mapSpan (n : Nat) (ts : List Token) :
    expressions stop' n (ts.map (Token.mapSpan place)) =
      (expressions stop n ts).map (relocate place (mapSpans place)) := by
  induction n generalizing ts with
  | zero => rfl
  | succ n ih =>
    obtain ⟨hresult, hrest⟩ := (moved_expression hplace hstop ts).result_rest
    rw [expressions, hresult, hrest, ih]
    rfl

/-- The readers take tokens at other places in the same way. -/
theorem items_mapSpan (ts : List Token) :
    items stop' (ts.map (Token.mapSpan place)) = relocate place (List.map (mapSpans place)) (items stop ts) := by
  induction hn : ts.length using Nat.strongRecOn generalizing ts with
  | ind k ih =>
    cases ts with
    | nil =>
      rw [List.map_nil, items, items]
      rfl
    | cons t ts =>
      have hfirst := moved_expression hplace hstop (t :: ts)
      rw [List.map_cons] at hfirst ⊢
      rw [items, items]
      change (if t.is .semicolon || t.is .comma then _ else _) = _
      split
      · exact ih ts.length (hn ▸ Nat.lt_succ_self _) ts rfl
      · cases hexpression : expression stop (t :: ts) with
        | error e rest kept =>
          cases hexpression' : expression stop' (t.mapSpan place :: ts.map (Token.mapSpan place)) with
          | error e' rest' kept' =>
            rw [hexpression, hexpression'] at hfirst
            obtain ⟨rfl, -⟩ := hfirst
            rfl
          | ok =>
            rw [hexpression, hexpression'] at hfirst
            exact hfirst.elim
        | ok e rest used =>
          cases hexpression' : expression stop' (t.mapSpan place :: ts.map (Token.mapSpan place)) with
          | error =>
            rw [hexpression, hexpression'] at hfirst
            exact hfirst.elim
          | ok e' rest' used' =>
            rw [hexpression, hexpression'] at hfirst
            obtain ⟨rfl, rfl⟩ := hfirst
            dsimp only
            rw [ih rest.length (hn ▸ used) rest rfl]
            cases items stop rest <;> rfl

end Expressions

end Reader

theorem ofItems_mapSpans (hplace : Span.KeepsJoins place) (es : List Expr) :
    ofItems (es.map (mapSpans place)) = (ofItems es).map (mapSpans place) := by
  match es with
  | [] => rfl
  | [e] => rfl
  | first :: second :: rest =>
    let last := (second :: rest).getLast (List.cons_ne_nil _ _)
    have hlast : ((second :: rest).map (mapSpans place)).getLast (List.cons_ne_nil _ _) = last.mapSpans place :=
      List.getLast_map _
    change some (Expr.compound ((first :: second :: rest).map (mapSpans place)) ((first.mapSpans place).span.upTo
      (((second :: rest).map (mapSpans place)).getLast (List.cons_ne_nil _ _)).span)) = _
    rw [hlast, span_mapSpans, span_mapSpans, ← hplace]
    exact congrArg some (mapSpans_compound (first :: second :: rest) (first.span.upTo last.span)).symm

/-- What several expressions make is read in the same way as well. -/
theorem map_ofItems_items_mapSpan (hplace : Span.KeepsJoins place) (hstop : place ⟨stop, stop⟩ = ⟨stop', stop'⟩)
    (ts : List Token) :
    (Reader.items stop' (ts.map (Token.mapSpan place))).map ofItems =
      relocate place (Option.map (mapSpans place)) ((Reader.items stop ts).map ofItems) := by
  rw [Reader.items_mapSpan hplace hstop]
  cases Reader.items stop ts with
  | error e => rfl
  | ok es => exact congrArg Except.ok (ofItems_mapSpans hplace es)

end Expr

end TemplateSyntax
