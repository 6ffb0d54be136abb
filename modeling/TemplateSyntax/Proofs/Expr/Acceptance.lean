import TemplateSyntax.Expr.Parse
import TemplateSyntax.Expr.Reader.Lemmas
import TemplateSyntax.Proofs.Expr.Grammar

/-!
# The readers accept the grammar

What a reader yields is derived, and what is derived the reader for its phrase yields. The first direction goes by the
number of tokens, since bracketed parts are shorter (`derives_of_yields`), the second by the derivation
(`reads_of_derives`). So the parameters of a tag are read if and only if the grammar derives their tokens
(`parseAt_iff_items`).
-/

namespace TemplateSyntax.Expr

/-! ### Yields -/

namespace Outcome

variable {α β : Type} {m n : Nat}

/-- The reading succeeds with the value and leaves the rest. -/
def Yields (o : Outcome α n) (a : α) (rest : List Token) : Prop :=
  match o with
  | .ok a' rest' _ => a' = a ∧ rest' = rest
  | .error _ _ _ => False

theorem Yields.length_lt {o : Outcome α n} {a : α} {rest : List Token} (h : o.Yields a rest) : rest.length < n := by
  cases o with
  | ok a' rest' used =>
    obtain ⟨-, rfl⟩ := h
    exact used
  | error => exact h.elim

theorem yields_iff {o : Outcome α n} {a : α} {rest : List Token} :
    o.Yields a rest ↔ ∃ used, o = .ok a rest used := by
  cases o with
  | ok a' rest' used =>
    constructor
    · rintro ⟨rfl, rfl⟩
      exact ⟨used, rfl⟩
    · rintro ⟨_, h⟩
      cases h
      exact ⟨rfl, rfl⟩
  | error =>
    constructor
    · exact False.elim
    · rintro ⟨_, h⟩
      cases h

theorem yields_bind {o : Outcome α m} {h : m ≤ n} {f : (a : α) → (rest : List Token) → rest.length < m → Outcome β n}
    {b : β} {rest : List Token} :
    (o.bind h f).Yields b rest ↔ ∃ a us used, o.Yields a us ∧ (f a us used).Yields b rest := by
  cases o with
  | ok a us used =>
    constructor
    · exact fun hf => ⟨a, us, used, ⟨rfl, rfl⟩, hf⟩
    · rintro ⟨_, _, _, ⟨rfl, rfl⟩, hf⟩
      exact hf
  | error =>
    constructor
    · exact False.elim
    · rintro ⟨_, _, _, h, -⟩
      exact h.elim

theorem yields_map {f : α → β} {o : Outcome α n} {b : β} {rest : List Token} :
    (o.map f).Yields b rest ↔ ∃ a, o.Yields a rest ∧ f a = b := by
  cases o with
  | ok a us used =>
    constructor
    · rintro ⟨rfl, rfl⟩
      exact ⟨a, ⟨rfl, rfl⟩, rfl⟩
    · rintro ⟨_, ⟨rfl, rfl⟩, rfl⟩
      exact ⟨rfl, rfl⟩
  | error =>
    constructor
    · exact False.elim
    · rintro ⟨_, h, -⟩
      exact h.elim

theorem yields_widen {h : m ≤ n} {o : Outcome α m} {a : α} {rest : List Token} :
    (o.widen h).Yields a rest ↔ o.Yields a rest := by
  cases o <;> rfl

end Outcome

namespace Reader

open Outcome

/-! ### What is read is derived -/

theorem exists_of_closing {b : Bracket} {opener s : Span} {ts rest : List Token}
    (h : (closing b opener ts).Yields s rest) : ∃ t, ts = t :: rest ∧ t.is b.closer = true ∧ t.span = s := by
  cases ts with
  | nil => exact h.elim
  | cons t ts =>
    rw [closing] at h
    split at h
    · next hc =>
      obtain ⟨rfl, rfl⟩ := h
      exact ⟨t, rfl, hc, rfl⟩
    · exact h.elim

section Soundness

variable {stop n : Nat} {item : Reader Expr}
  (hitem : ∀ ts e rest, ts.length < n → (item ts).Yields e rest → Derives (.expression e) ts rest)

include hitem

theorem derives_of_elements {b : Bracket} {opener : Span} {xs : List Expr} {close : Span} {ts rest : List Token}
    (hn : ts.length < n) (h : (elements item b opener ts).Yields (xs, close) rest) :
    Derives (.elements b xs close) ts rest := by
  match ts, hn with
  | [], _ =>
    rw [elements] at h
    exact h.elim
  | t :: ts, hn =>
    rw [elements] at h
    split at h
    · next hc =>
      obtain ⟨heq, rfl⟩ := h
      cases heq
      exact .endElements hc
    · obtain ⟨x, us, used, hx, h⟩ := yields_bind.mp h
      have hx := hitem _ _ _ hn hx
      -- behind the item stands a comma or the closing bracket
      cases us with
      | nil => exact h.elim
      | cons sep us =>
        have hlt : us.length < (t :: ts).length := Nat.lt_of_succ_lt used
        dsimp only at h
        split at h
        · next hcomma =>
          obtain ⟨⟨xs', close'⟩, hxs, heq⟩ := yields_map.mp (yields_widen.mp h)
          cases heq
          exact .element hx hcomma (derives_of_elements (Nat.lt_trans hlt hn) hxs)
        · split at h
          · next hclose =>
            obtain ⟨heq, rfl⟩ := h
            cases heq
            exact .lastElement hx hclose
          · exact h.elim
termination_by ts.length
decreasing_by exact hlt

theorem derives_of_entries {opener : Span} {es : List (Expr × Expr)} {close : Span} {ts rest : List Token}
    (hn : ts.length < n) (h : (entries item opener ts).Yields (es, close) rest) :
    Derives (.entries es close) ts rest := by
  rw [entries] at h
  obtain ⟨key, us, used, hkey, h⟩ := yields_bind.mp h
  have hkey := hitem _ _ _ hn hkey
  cases us with
  | nil => exact h.elim
  | cons colon us =>
    have hus : us.length < ts.length := Nat.lt_of_succ_lt used
    dsimp only at h
    split at h
    · next hcolon =>
      obtain ⟨value, vs, used', hvalue, h⟩ := yields_bind.mp h
      have hvalue := hitem _ _ _ (Nat.lt_trans hus hn) hvalue
      cases vs with
      | nil => exact h.elim
      | cons sep vs =>
        have hvs : vs.length < ts.length := Nat.lt_trans (Nat.lt_of_succ_lt used') hus
        dsimp only at h
        split at h
        · next hcomma =>
          obtain ⟨⟨es', close'⟩, hes, heq⟩ := yields_map.mp (yields_widen.mp h)
          cases heq
          exact .entry hkey hcolon hvalue hcomma (derives_of_entries (Nat.lt_trans hvs hn) hes)
        · split at h
          · next hclose =>
            obtain ⟨heq, rfl⟩ := h
            cases heq
            exact .lastEntry hkey hcolon hvalue hclose
          · exact h.elim
    · exact h.elim
termination_by ts.length
decreasing_by exact hvs

theorem derives_of_mapBody {opener : Span} {es : List (Expr × Expr)} {close : Span} {t : Token}
    {ts rest : List Token} (ht : t.is .braceOpen = true) (hn : ts.length < n)
    (h : (mapBody item opener ts).Yields (es, close) rest) :
    Derives (.primary (.map es (t.span.upTo close))) (t :: ts) rest := by
  cases ts with
  | nil => exact .map ht (derives_of_entries hitem hn h)
  | cons c ts =>
    rw [mapBody] at h
    split at h
    · next hc =>
      obtain ⟨heq, rfl⟩ := h
      cases heq
      exact .emptyMap ht hc
    · exact .map ht (derives_of_entries hitem hn h)

theorem derives_of_primary {e : Expr} {ts rest : List Token} (hn : ts.length ≤ n)
    (h : (primary stop item ts).Yields e rest) : Derives (.primary e) ts rest := by
  cases ts with
  | nil => exact h.elim
  | cons t ts =>
    have hlt : ts.length < n := hn
    rw [primary] at h
    split at h
    · next hk =>
      obtain ⟨rfl, rfl⟩ := h
      exact .number hk
    · next hk =>
      obtain ⟨rfl, rfl⟩ := h
      exact .string hk
    · next hk =>
      obtain ⟨rfl, rfl⟩ := h
      exact .name hk
    · next hk =>
      obtain ⟨⟨xs, close⟩, hxs, rfl⟩ := yields_map.mp (yields_widen.mp h)
      exact .array (Token.is_iff.mpr hk) (derives_of_elements hitem hlt hxs)
    · next hk =>
      obtain ⟨⟨es, close⟩, hes, rfl⟩ := yields_map.mp (yields_widen.mp h)
      exact derives_of_mapBody hitem (Token.is_iff.mpr hk) hlt hes
    · next hk =>
      obtain ⟨e', us, used, he, hgroup⟩ := yields_bind.mp h
      obtain ⟨close, hclose, rfl⟩ := yields_map.mp (yields_widen.mp hgroup)
      obtain ⟨c, rfl, hc, -⟩ := exists_of_closing hclose
      exact .group (Token.is_iff.mpr hk) (hitem _ _ _ hlt he) hc
    · exact h.elim

/-- One step of a chain of suffixes, in front of the others. -/
theorem derives_of_suffix? {object object' e : Expr} {ts us rest : List Token} {o : Outcome Expr ts.length}
    (hn : ts.length ≤ n) (ho : suffix? stop item object ts = some o) (h : o.Yields object' us)
    (hs : Derives (.suffixes object' e) us rest) : Derives (.suffixes object e) ts rest := by
  cases ts with
  | nil => cases ho
  | cons t ts =>
    have hlt : ts.length < n := hn
    unfold suffix? at ho
    dsimp only at ho
    split at ho
    · next hk =>
      split at ho
      · cases ho
        obtain ⟨rfl, rfl⟩ := h
        exact .field (Token.is_iff.mpr hk) rfl hs
      · cases ho
        exact h.elim
    · next hk =>
      cases ho
      obtain ⟨key, vs, used, hkey, hindex⟩ := yields_bind.mp h
      obtain ⟨close, hclose, rfl⟩ := yields_map.mp (yields_widen.mp hindex)
      obtain ⟨c, rfl, hc, rfl⟩ := exists_of_closing hclose
      exact .index (Token.is_iff.mpr hk) (hitem _ _ _ hlt hkey) hc hs
    · next hk =>
      cases ho
      obtain ⟨⟨arguments, close⟩, hargs, rfl⟩ := yields_map.mp (yields_widen.mp h)
      exact .call (Token.is_iff.mpr hk) (derives_of_elements hitem hlt hargs) hs
    · obtain ⟨op, hop, rfl⟩ := Option.map_eq_some_iff.mp ho
      split at h
      · next ha =>
        obtain ⟨rfl, rfl⟩ := h
        exact .trailingUpdate hop ha hs
      · exact h.elim

omit hitem in
/-- No step is made where the next token does not extend the operand. -/
theorem suffix?_eq_none_iff {e : Expr} {ts : List Token} :
    suffix? stop item e ts = none ↔ ∀ t ∈ ts.head?, t.extendsOperand = false := by
  cases ts with
  | nil => simp [suffix?]
  | cons t ts =>
    simp only [List.head?_cons, Option.mem_def, Option.some.injEq, forall_eq']
    unfold suffix?
    dsimp only
    split
    · next hk =>
      have hextends : t.extendsOperand = true := by simp [Token.extendsOperand, Token.is, hk]
      rw [hextends]
      split <;> simp
    · next hk => simp [Token.extendsOperand, Token.is, hk]
    · next hk => simp [Token.extendsOperand, Token.is, hk]
    · next hdot hbracket hparen =>
      have hdot : t.is .dot = false := by simpa [Token.is] using hdot
      have hbracket : t.is .bracketOpen = false := by simpa [Token.is] using hbracket
      have hparen : t.is .parenOpen = false := by simpa [Token.is] using hparen
      rw [Option.map_eq_none_iff, Token.extendsOperand, hdot, hbracket, hparen]
      simp

theorem derives_of_suffixes {m : Nat} {object e : Expr} {ts rest : List Token} (hm : ts.length < m)
    (hn : ts.length ≤ n) (h : (suffixes stop item object ts hm).Yields e rest) :
    Derives (.suffixes object e) ts rest := by
  rw [suffixes] at h
  split at h
  · next hnone =>
    obtain ⟨rfl, rfl⟩ := h
    exact .endSuffixes (suffix?_eq_none_iff.mp hnone)
  · next o ho =>
    obtain ⟨object', us, used, hstep, hrest⟩ := yields_bind.mp h
    have hs := derives_of_suffixes _ (Nat.le_trans (Nat.le_of_lt used) hn) hrest
    exact derives_of_suffix? hitem hn ho hstep hs
termination_by ts.length
decreasing_by exact used

theorem derives_of_operand {e : Expr} {ts rest : List Token} (hn : ts.length ≤ n)
    (h : (operand stop item ts).Yields e rest) : Derives (.unary e) ts rest := by
  obtain ⟨object, us, used, hp, hs⟩ := yields_bind.mp h
  exact .operand (derives_of_primary hitem hn hp)
    (derives_of_suffixes hitem used (Nat.le_trans (Nat.le_of_lt used) hn) hs)

theorem derives_of_unary {e : Expr} {ts rest : List Token} (hn : ts.length ≤ n)
    (h : (unary stop item ts).Yields e rest) : Derives (.unary e) ts rest := by
  induction ts generalizing e rest with
  | nil => exact derives_of_operand hitem hn h
  | cons t ts ih =>
    have hle : ts.length ≤ n := Nat.le_trans (Nat.le_succ _) hn
    unfold unary at h
    split at h
    · next op _ hop =>
      obtain ⟨e', us, used, he, heq⟩ := yields_bind.mp h
      obtain ⟨rfl, rfl⟩ := heq
      exact .sign hop (ih hle he)
    · next op _ hop =>
      obtain ⟨e', us, used, he, hupdate⟩ := yields_bind.mp h
      split at hupdate
      · next ha =>
        obtain ⟨rfl, rfl⟩ := hupdate
        exact .leadingUpdate hop (ih hle he) ha
      · exact hupdate.elim
    · exact derives_of_operand hitem hn h

theorem derives_of_chain {m : Nat} {ls : List (InfixOp × Expr)} {ts rest : List Token} (hm : ts.length < m)
    (hn : ts.length ≤ n) (h : (chain stop item ts hm).Yields ls rest) : Derives (.links ls) ts rest := by
  match ts, hm, hn with
  | [], hm, _ =>
    rw [chain] at h
    obtain ⟨rfl, rfl⟩ := h
    exact .endLinks (by simp)
  | t :: ts, hm, hn =>
    rw [chain] at h
    split at h
    · next hop =>
      obtain ⟨rfl, rfl⟩ := h
      exact .endLinks (by simpa using hop)
    · next op hop =>
      split at h
      · exact h.elim
      · -- the operand stands behind the operator
        obtain ⟨e, us, used, he, hlinks⟩ := yields_bind.mp h
        obtain ⟨ls', hls', rfl⟩ := yields_map.mp hlinks
        have hlt : us.length < (t :: ts).length := Nat.lt_succ_of_lt used
        have hle : ts.length ≤ n := Nat.le_trans (Nat.le_succ _) hn
        exact .link hop (derives_of_unary hitem hle he) (derives_of_chain _ (Nat.le_trans (Nat.le_of_lt used) hle) hls')
termination_by ts.length
decreasing_by exact hlt

theorem derives_of_expressionOver {e : Expr} {ts rest : List Token} (hn : ts.length ≤ n)
    (h : (expressionOver stop item ts).Yields e rest) : Derives (.expression e) ts rest := by
  obtain ⟨first, us, used, hu, hchain⟩ := yields_bind.mp h
  obtain ⟨ls, vs, used', hl, hresolve⟩ := yields_bind.mp hchain
  split at hresolve
  · next hok =>
    obtain ⟨rfl, rfl⟩ := hresolve
    exact .expression (derives_of_unary hitem hn hu)
      (derives_of_chain hitem used (Nat.le_trans (Nat.le_of_lt used) hn) hl) (resolve_eq_ok_iff.mp hok)
  · exact hresolve.elim

end Soundness

/-- Bracketed parts are shorter than what they stand in, so the readers are sound for lists of any length. -/
theorem derives_of_yields {stop : Nat} {e : Expr} {ts rest : List Token} (h : (expression stop ts).Yields e rest) :
    Derives (.expression e) ts rest := by
  induction hn : ts.length using Nat.strongRecOn generalizing ts e rest with
  | ind n ih =>
    rw [expression_eq] at h
    exact derives_of_expressionOver (fun us e rest hlt hyields => ih us.length hlt hyields rfl) (Nat.le_of_eq hn) h

/-! ### What is derived is read -/

section Completeness

variable {stop : Nat} {item : Reader Expr}

theorem yields_suffixes {m : Nat} {object object' e : Expr} {ts us rest : List Token} {o : Outcome Expr ts.length}
    (hm : ts.length < m) (ho : suffix? stop item object ts = some o) (h : o.Yields object' us)
    (hs : ∀ m (hm : us.length < m), (suffixes stop item object' us hm).Yields e rest) :
    (suffixes stop item object ts hm).Yields e rest := by
  rw [suffixes, ho]
  exact yields_bind.mpr ⟨object', us, h.length_lt, h, hs _ _⟩

theorem yields_closing {b : Bracket} {opener : Span} {c : Token} {rest : List Token} (hc : c.is b.closer = true) :
    (closing b opener (c :: rest)).Yields c.span rest := by
  rw [closing, if_pos hc]
  exact ⟨rfl, rfl⟩

theorem comma_of_closer {b : Bracket} {c : Token} (hc : c.is b.closer = true) : c.is .comma = false := by
  refine Token.not_is_of_is hc ?_
  cases b <;> decide

theorem yields_elements {b : Bracket} {opener close : Span} {x : Expr} {xs : List Expr} {t c : Token}
    {ts us rest : List Token} (ht : t.startsExpression = true) (hx : (item (t :: ts)).Yields x (c :: us))
    (h : c.is .comma = true ∧ (elements item b opener us).Yields (xs, close) rest ∨
      c.is b.closer = true ∧ xs = [] ∧ close = c.span ∧ us = rest) :
    (elements item b opener (t :: ts)).Yields (x :: xs, close) rest := by
  have hclose : ¬t.is b.closer = true := by
    intro hclose
    rw [Bracket.startsExpression_of_closer hclose] at ht
    cases ht
  rw [elements, if_neg hclose]
  refine yields_bind.mpr ⟨x, c :: us, hx.length_lt, hx, ?_⟩
  dsimp only
  rcases h with ⟨hcomma, hxs⟩ | ⟨hc, rfl, rfl, rfl⟩
  · rw [if_pos hcomma]
    exact yields_widen.mpr (yields_map.mpr ⟨(xs, close), hxs, rfl⟩)
  · rw [if_neg (by rw [comma_of_closer hc]; exact Bool.false_ne_true), if_pos hc]
    exact ⟨rfl, rfl⟩

theorem yields_entries {opener close : Span} {key value : Expr} {es : List (Expr × Expr)} {colon c : Token}
    {ts us vs rest : List Token} (hkey : (item ts).Yields key (colon :: us)) (hcolon : colon.is .colon = true)
    (hvalue : (item us).Yields value (c :: vs))
    (h : c.is .comma = true ∧ (entries item opener vs).Yields (es, close) rest ∨
      c.is .braceClose = true ∧ es = [] ∧ close = c.span ∧ vs = rest) :
    (entries item opener ts).Yields ((key, value) :: es, close) rest := by
  rw [entries]
  refine yields_bind.mpr ⟨key, colon :: us, hkey.length_lt, hkey, ?_⟩
  dsimp only
  rw [if_pos hcolon]
  refine yields_bind.mpr ⟨value, c :: vs, hvalue.length_lt, hvalue, ?_⟩
  dsimp only
  rcases h with ⟨hcomma, hes⟩ | ⟨hc, rfl, rfl, rfl⟩
  · rw [if_pos hcomma]
    exact yields_widen.mpr (yields_map.mpr ⟨(es, close), hes, rfl⟩)
  · rw [if_neg (by rw [Token.not_is_of_is hc (by decide)]; exact Bool.false_ne_true), if_pos hc]
    exact ⟨rfl, rfl⟩

theorem yields_mapBody {opener close : Span} {es : List (Expr × Expr)} {t : Token} {ts rest : List Token}
    (ht : t.startsExpression = true) (h : (entries item opener (t :: ts)).Yields (es, close) rest) :
    (mapBody item opener (t :: ts)).Yields (es, close) rest := by
  have hclose : ¬t.is .braceClose = true := by
    intro hclose
    rw [@Bracket.startsExpression_of_closer .brace t hclose] at ht
    cases ht
  rw [mapBody, if_neg hclose]
  exact h

theorem yields_operand {object e : Expr} {ts us rest : List Token} (hp : (primary stop item ts).Yields object us)
    (hs : ∀ m (hm : us.length < m), (suffixes stop item object us hm).Yields e rest) :
    (operand stop item ts).Yields e rest :=
  yields_bind.mpr ⟨object, us, hp.length_lt, hp, hs _ _⟩

/-- An update is no other operator in front of an operand, and begins no other suffix. -/
theorem kind_of_update? {kind : TokenKind} {op : UpdateOp} (h : kind.update? = some op) :
    kind = .punctuator .plusPlus ∨ kind = .punctuator .minusMinus := by
  cases kind with
  | punctuator p =>
    cases p with
    | plusPlus => exact .inl rfl
    | minusMinus => exact .inr rfl
    | _ => cases h
  | _ => cases h

theorem yields_trailingUpdate {m : Nat} {op : UpdateOp} {object e : Expr} {t : Token} {ts rest : List Token}
    (hm : (t :: ts).length < m) (ht : t.kind.update? = some op) (ha : object.isAssignable = true)
    (hs : ∀ m (hm : ts.length < m),
      (suffixes stop item (.update op object false (object.span.upTo t.span)) ts hm).Yields e rest) :
    (suffixes stop item object (t :: ts) hm).Yields e rest := by
  obtain ⟨kind, text, span⟩ := t
  have hstep : suffix? stop item object (⟨kind, text, span⟩ :: ts) =
      some (.ok (.update op object false (object.span.upTo span)) ts (Nat.lt_succ_self _)) := by
    rcases kind_of_update? ht with rfl | rfl <;> cases ht <;> simp [suffix?, TokenKind.update?, Punctuator.update?, ha]
  exact yields_suffixes hm hstep ⟨rfl, rfl⟩ hs

theorem yields_sign {op : UnaryOp} {e : Expr} {t : Token} {ts rest : List Token} (ht : t.kind.unary? = some op)
    (h : (unary stop item ts).Yields e rest) :
    (unary stop item (t :: ts)).Yields (.unary op e (t.span.upTo e.span)) rest := by
  unfold unary
  rw [ht]
  exact yields_bind.mpr ⟨e, rest, h.length_lt, h, rfl, rfl⟩

theorem yields_leadingUpdate {op : UpdateOp} {e : Expr} {t : Token} {ts rest : List Token}
    (ht : t.kind.update? = some op) (ha : e.isAssignable = true) (h : (unary stop item ts).Yields e rest) :
    (unary stop item (t :: ts)).Yields (.update op e true (t.span.upTo e.span)) rest := by
  have hsign : t.kind.unary? = none := by
    rcases kind_of_update? ht with hk | hk <;> rw [hk] <;> rfl
  unfold unary
  rw [hsign, ht]
  refine yields_bind.mpr ⟨e, rest, h.length_lt, h, ?_⟩
  rw [if_pos ha]
  exact ⟨rfl, rfl⟩

theorem yields_unary {e : Expr} {t : Token} {ts rest : List Token} (hsign : t.kind.unary? = none)
    (hupdate : t.kind.update? = none) (h : (operand stop item (t :: ts)).Yields e rest) :
    (unary stop item (t :: ts)).Yields e rest := by
  unfold unary
  rw [hsign, hupdate]
  exact h

theorem yields_endChain {m : Nat} {rest : List Token} (hm : rest.length < m)
    (h : ∀ t ∈ rest.head?, t.kind.infix? = none) : (chain stop item rest hm).Yields [] rest := by
  cases rest with
  | nil =>
    rw [chain]
    exact ⟨rfl, rfl⟩
  | cons t rest =>
    rw [chain, h t rfl]
    exact ⟨rfl, rfl⟩

theorem yields_chain {m : Nat} {op : InfixOp} {e : Expr} {ls : List (InfixOp × Expr)} {t : Token}
    {ts us rest : List Token} (hm : (t :: ts).length < m) (ht : t.kind.infix? = some op)
    (he : (unary stop item ts).Yields e us) (hl : ∀ m (hm : us.length < m), (chain stop item us hm).Yields ls rest) :
    (chain stop item (t :: ts) hm).Yields ((op, e) :: ls) rest := by
  -- an operand was read behind the operator, so a token is left there
  have hne : ¬ts.isEmpty = true := by
    intro hempty
    have hlt := he.length_lt
    rw [List.isEmpty_iff.mp hempty] at hlt
    exact Nat.not_lt_zero _ hlt
  rw [chain, ht]
  dsimp only
  rw [if_neg hne]
  exact yields_bind.mpr ⟨e, us, he.length_lt, he, yields_map.mpr ⟨ls, hl _ _, rfl⟩⟩

theorem yields_expressionOver {first e : Expr} {ls : List (InfixOp × Expr)} {ts us rest : List Token}
    (hu : (unary stop item ts).Yields first us) (hg : Groups first ls e)
    (hl : ∀ m (hm : us.length < m), (chain stop item us hm).Yields ls rest) :
    (expressionOver stop item ts).Yields e rest := by
  have hl := hl _ hu.length_lt
  refine yields_bind.mpr ⟨first, us, hu.length_lt, hu, yields_bind.mpr ⟨ls, rest, hl.length_lt, hl, ?_⟩⟩
  rw [resolve_eq_ok_iff.mpr hg]
  exact ⟨rfl, rfl⟩

end Completeness

/-- The reader for the phrase yields it. -/
def Reads (stop : Nat) : Phrase → List Token → List Token → Prop
  | .expression e, ts, rest => (expression stop ts).Yields e rest
  | .links ls, ts, rest => ∀ m (hm : ts.length < m), (chain stop (expression stop) ts hm).Yields ls rest
  | .unary e, ts, rest => (unary stop (expression stop) ts).Yields e rest
  | .suffixes object e, ts, rest =>
    ∀ m (hm : ts.length < m), (suffixes stop (expression stop) object ts hm).Yields e rest
  | .primary e, ts, rest => (primary stop (expression stop) ts).Yields e rest
  | .elements b xs close, ts, rest => ∀ opener, (elements (expression stop) b opener ts).Yields (xs, close) rest
  | .entries es close, ts, rest => ∀ opener, (entries (expression stop) opener ts).Yields (es, close) rest

private theorem exists_entries_first {es : List (Expr × Expr)} {close : Span} {ts rest : List Token}
    (h : Derives (.entries es close) ts rest) : ∃ t us, ts = t :: us ∧ t.startsExpression = true := by
  cases h with
  | lastEntry hk => exact hk.expression_first
  | entry hk => exact hk.expression_first

theorem reads_of_derives {p : Phrase} {ts rest : List Token} (h : Derives p ts rest) (stop : Nat) :
    Reads stop p ts rest := by
  induction h with
  | expression _ _ hg ihu ihl =>
    show (Reader.expression stop _).Yields _ _
    rw [expression_eq]
    exact yields_expressionOver ihu hg ihl
  | endLinks h => exact fun m hm => yields_endChain hm h
  | link ht _ _ ihu ihl => exact fun m hm => yields_chain hm ht ihu ihl
  | sign ht _ ihu => exact yields_sign ht ihu
  | leadingUpdate ht _ ha ihu => exact yields_leadingUpdate ht ha ihu
  | operand hp _ ihp ihs =>
    -- a primary begins with no sign, so the reader goes on to the operand
    obtain ⟨t, us, rfl, -, hsign, hupdate⟩ := hp.primary_first
    exact yields_unary hsign hupdate (yields_operand ihp ihs)
  | endSuffixes h =>
    intro m hm
    rw [suffixes, suffix?_eq_none_iff.mpr h]
    exact ⟨rfl, rfl⟩
  | @field object e name t n ts rest ht hn _ ihs =>
    intro m hm
    obtain ⟨kind, text, span⟩ := t
    obtain ⟨kind', text', span'⟩ := n
    obtain rfl : kind = _ := Token.is_iff.mp ht
    obtain rfl : kind' = _ := hn
    exact yields_suffixes hm rfl ⟨rfl, rfl⟩ ihs
  | @index object key e t c ts us rest ht _ hc _ ihk ihs =>
    intro m hm
    obtain ⟨kind, text, span⟩ := t
    obtain rfl : kind = _ := Token.is_iff.mp ht
    refine yields_suffixes hm rfl ?_ ihs
    refine yields_bind.mpr ⟨key, c :: us, ihk.length_lt, ihk, ?_⟩
    exact yields_widen.mpr (yields_map.mpr ⟨c.span, yields_closing hc, rfl⟩)
  | @call object e arguments close t ts us rest ht _ _ iha ihs =>
    intro m hm
    obtain ⟨kind, text, span⟩ := t
    obtain rfl : kind = _ := Token.is_iff.mp ht
    refine yields_suffixes hm rfl ?_ ihs
    exact (yields_widen (h := Nat.le_succ _)).mpr (yields_map.mpr ⟨(arguments, close), iha span, rfl⟩)
  | trailingUpdate ht ha _ ihs =>
    intro m hm
    exact yields_trailingUpdate hm ht ha ihs
  | @number value t rest ht =>
    obtain ⟨kind, text, span⟩ := t
    obtain rfl : kind = _ := ht
    exact ⟨rfl, rfl⟩
  | @string value t rest ht =>
    obtain ⟨kind, text, span⟩ := t
    obtain rfl : kind = _ := ht
    exact ⟨rfl, rfl⟩
  | @name name t rest ht =>
    obtain ⟨kind, text, span⟩ := t
    obtain rfl : kind = _ := ht
    exact ⟨rfl, rfl⟩
  | @array xs close t ts rest ht _ ihx =>
    obtain ⟨kind, text, span⟩ := t
    obtain rfl : kind = _ := Token.is_iff.mp ht
    exact (yields_widen (h := Nat.le_succ _)).mpr (yields_map.mpr ⟨(xs, close), ihx span, rfl⟩)
  | @emptyMap t c rest ht hc =>
    obtain ⟨kind, text, span⟩ := t
    obtain rfl : kind = _ := Token.is_iff.mp ht
    refine (yields_widen (h := Nat.le_succ _)).mpr (yields_map.mpr ⟨([], c.span), ?_, rfl⟩)
    rw [mapBody, if_pos hc]
    exact ⟨rfl, rfl⟩
  | @map es close t ts rest ht hes ihe =>
    obtain ⟨kind, text, span⟩ := t
    obtain rfl : kind = _ := Token.is_iff.mp ht
    obtain ⟨t, us, rfl, hstarts⟩ := exists_entries_first hes
    exact (yields_widen (h := Nat.le_succ _)).mpr (yields_map.mpr ⟨(es, close), yields_mapBody hstarts (ihe span), rfl⟩)
  | @group e t c ts rest ht _ hc ihe =>
    obtain ⟨kind, text, span⟩ := t
    obtain rfl : kind = _ := Token.is_iff.mp ht
    refine (yields_bind (h := Nat.le_succ _)).mpr ⟨e, c :: rest, ihe.length_lt, ihe, ?_⟩
    exact yields_widen.mpr (yields_map.mpr ⟨c.span, yields_closing hc, rfl⟩)
  | endElements hc =>
    intro opener
    rw [elements, if_pos hc]
    exact ⟨rfl, rfl⟩
  | lastElement hx hc ihx =>
    intro opener
    obtain ⟨t, us, rfl, hstarts⟩ := hx.expression_first
    exact yields_elements hstarts ihx (.inr ⟨hc, rfl, rfl, rfl⟩)
  | element hx hc _ ihx ihxs =>
    intro opener
    obtain ⟨t, us, rfl, hstarts⟩ := hx.expression_first
    exact yields_elements hstarts ihx (.inl ⟨hc, ihxs opener⟩)
  | lastEntry _ hcolon _ hc ihk ihv =>
    intro opener
    exact yields_entries ihk hcolon ihv (.inr ⟨hc, rfl, rfl, rfl⟩)
  | entry _ hcolon _ hc _ ihk ihv ihes =>
    intro opener
    exact yields_entries ihk hcolon ihv (.inl ⟨hc, ihes opener⟩)

theorem expression_yields_iff {stop : Nat} {e : Expr} {ts rest : List Token} :
    (expression stop ts).Yields e rest ↔ Derives (.expression e) ts rest :=
  ⟨derives_of_yields, fun h => reads_of_derives h stop⟩

/-! ### Expressions side by side -/

private theorem items_of_items_eq_ok {stop : Nat} {ts : List Token} {es : List Expr} (h : items stop ts = .ok es) :
    Items ts es := by
  induction hn : ts.length using Nat.strongRecOn generalizing ts es with
  | ind n ih =>
    cases ts with
    | nil =>
      rw [items] at h
      cases h
      exact .nil
    | cons t ts =>
      rw [List.length_cons] at hn
      rw [items] at h
      split at h
      · next hsep =>
        rw [Bool.or_eq_true] at hsep
        exact .separator hsep (ih ts.length (by omega) h rfl)
      · split at h
        · cases h
        · next e rest used he =>
          have hyields : (expression stop (t :: ts)).Yields e rest := Outcome.yields_iff.mpr ⟨used, he⟩
          rw [List.length_cons] at used
          split at h
          · cases h
          · next es' hes =>
            cases h
            exact .expression (expression_yields_iff.mp hyields) (ih rest.length (by omega) hes rfl)

theorem items_separator {stop : Nat} {t : Token} (ht : t.is .semicolon = true ∨ t.is .comma = true) (ts : List Token) :
    items stop (t :: ts) = items stop ts := by
  rw [items, if_pos (by rw [Bool.or_eq_true]; exact ht)]

theorem items_expression {e : Expr} {ts rest : List Token} (he : Derives (.expression e) ts rest) (stop : Nat) :
    items stop ts = (items stop rest).map (e :: ·) := by
  obtain ⟨used, heq⟩ := Outcome.yields_iff.mp (reads_of_derives he stop)
  obtain ⟨t, us, rfl, hstarts⟩ := he.expression_first
  have hsep : ¬(t.is .semicolon || t.is .comma) = true := by
    rw [Bool.or_eq_true, Token.is_iff, Token.is_iff]
    rintro (hk | hk) <;> rw [Token.startsExpression, hk] at hstarts <;> cases hstarts
  rw [items, if_neg hsep, heq]
  dsimp only
  cases items stop rest <;> rfl

private theorem items_eq_ok_of_items {ts : List Token} {es : List Expr} (h : Items ts es) (stop : Nat) :
    items stop ts = .ok es := by
  induction h with
  | nil => rw [items]
  | separator ht _ ih => rw [items_separator ht, ih]
  | expression he _ ih =>
    rw [items_expression he, ih]
    rfl

theorem items_eq_ok_iff {stop : Nat} {ts : List Token} {es : List Expr} : items stop ts = .ok es ↔ Items ts es :=
  ⟨items_of_items_eq_ok, fun h => items_eq_ok_of_items h stop⟩

end Reader

theorem ofItems_eq_none_iff {es : List Expr} : ofItems es = none ↔ es = [] := by
  match es with
  | [] => simp [ofItems]
  | [_] => simp [ofItems]
  | _ :: _ :: _ => simp [ofItems]

theorem parseAt_eq_ok_iff {source : String} {base : Nat} {r : Option Expr} :
    parseAt source base = .ok r ↔
      ∃ ts stop es, (Cursor.ofSource source base).tokens = .ok (ts, stop) ∧ Items ts es ∧ ofItems es = r := by
  unfold parseAt
  constructor
  · intro h
    split at h
    · cases h
    · next ts stop hts =>
      cases hread : Reader.items stop ts with
      | error e =>
        rw [hread] at h
        cases h
      | ok es =>
        rw [hread] at h
        exact ⟨ts, stop, es, hts, Reader.items_eq_ok_iff.mp hread, Except.ok.inj h⟩
  · rintro ⟨ts, stop, es, hts, hes, rfl⟩
    rw [hts]
    dsimp only
    rw [Reader.items_eq_ok_iff.mpr hes]
    rfl

/-- A text that falls into tokens is read if and only if the grammar derives the tokens in front of the end token.
Without an expression among them nothing is read, and otherwise what they make. -/
theorem parseAt_iff_items {source : String} {base : Nat} {tokens : List Token}
    (hlex : tokenizeAt source base = .ok tokens) :
    ∃ ts stop, tokens = ts ++ [endToken stop] ∧
      ((∃ result, parseAt source base = .ok result) ↔ ∃ es, Items ts es) ∧
      (parseAt source base = .ok none ↔ Items ts []) ∧
      ∀ es, Items ts es → parseAt source base = .ok (ofItems es) := by
  unfold tokenizeAt at hlex
  split at hlex
  · cases hlex
  · next ts stop hcursor =>
    cases hlex
    have hparse : parseAt source base = (Reader.items stop ts).map ofItems := by
      rw [parseAt, hcursor]
    have hitems : ∀ es, Items ts es → parseAt source base = .ok (ofItems es) := by
      intro es h
      rw [hparse, Reader.items_eq_ok_iff.mpr h]
      rfl
    have hok : ∀ result, parseAt source base = .ok result → ∃ es, Items ts es ∧ ofItems es = result := by
      intro result h
      rw [hparse] at h
      cases hread : Reader.items stop ts with
      | error e => rw [hread] at h; cases h
      | ok es =>
        rw [hread] at h
        cases h
        exact ⟨es, Reader.items_eq_ok_iff.mp hread, rfl⟩
    refine ⟨ts, stop, rfl, ?_, ?_, hitems⟩
    · constructor
      · rintro ⟨result, h⟩
        obtain ⟨es, hes, -⟩ := hok result h
        exact ⟨es, hes⟩
      · rintro ⟨es, hes⟩
        exact ⟨_, hitems es hes⟩
    · constructor
      · intro h
        obtain ⟨es, hes, hnone⟩ := hok none h
        rw [ofItems_eq_none_iff] at hnone
        rwa [hnone] at hes
      · exact hitems []

/-- A sign behind an operand is an operator, not the start of the next expression. -/
theorem parseAt_difference :
    parseAt "a -b" 0 =
      .ok (some (.join (.binary .sub) (.identifier "a" ⟨0, 1⟩) (.identifier "b" ⟨3, 4⟩) ⟨0, 4⟩)) := by
  let a : Token := ⟨.identifier "a", "a", ⟨0, 1⟩⟩
  let minus : Token := ⟨.punctuator .minus, "-", ⟨2, 3⟩⟩
  let b : Token := ⟨.identifier "b", "b", ⟨3, 4⟩⟩
  have htokens : (tokenizeAt "a -b" 0).toOption = some [a, minus, b, endToken 4] := by decide +kernel
  have hlex : tokenizeAt "a -b" 0 = .ok [a, minus, b, endToken 4] := by
    cases h : tokenizeAt "a -b" 0 with
    | error e => rw [h] at htokens; cases htokens
    | ok tokens => rw [h] at htokens; exact congrArg Except.ok (Option.some.inj htokens)
  obtain ⟨ts, stop, htokens', -, -, hparse⟩ := parseAt_iff_items hlex
  have happend : [a, minus, b] ++ [endToken 4] = ts ++ [endToken stop] := htokens'
  obtain ⟨rfl, -⟩ := List.append_inj' happend rfl
  have hfirst : Derives (.unary (.identifier "a" ⟨0, 1⟩)) [a, minus, b] [minus, b] :=
    .operand (.name rfl) (.endSuffixes (by simp; rfl))
  have hsecond : Derives (.unary (.identifier "b" ⟨3, 4⟩)) [b] [] := .operand (.name rfl) (.endSuffixes (by simp))
  have hlinks : Derives (.links [(.binary .sub, .identifier "b" ⟨3, 4⟩)]) [minus, b] [] :=
    .link rfl hsecond (.endLinks (by simp))
  have hgroups : Groups (.identifier "a" ⟨0, 1⟩) [(.binary .sub, .identifier "b" ⟨3, 4⟩)] _ :=
    @Groups.join _ _ _ _ [] [] _ (.operand _) (.operand _) (by simp) (by simp) (by simp [InfixOp.isAssign])
  exact hparse _ (.expression (.expression hfirst hlinks hgroups) .nil)

end TemplateSyntax.Expr
