import Mathlib.Logic.Relation
import TemplateSyntax.Proofs.Expr.Acceptance
import TemplateSyntax.Proofs.Expr.Steps
import TemplateSyntax.Proofs.Span

/-!
# Places of expressions

The tokens of a text lie one behind the other in it, and what is read of them lies where they do: an expression covers
its first token and all others up to its last, parentheses around it apart. So the parts of an expression lie inside it
one behind the other, down to its leaves (`nested_of_parseAt`).
-/

namespace TemplateSyntax.Expr

open TemplateSyntax.Span (InOrder)
open Text (byteLength)

/-! ### Nested expressions -/

/-- The parts of an expression in the order in which they are written. The name of a field is one of them. -/
def children : Expr → List Expr
  | .literal _ _ _ | .identifier _ _ => []
  | .field object name nameSpan _ => [object, .identifier name nameSpan]
  | .index object key _ => [object, key]
  | .call callee arguments _ => callee :: arguments
  | .array elements _ => elements
  | .map entries _ => entries.flatMap fun (key, value) => [key, value]
  | .unary _ argument _ | .update _ argument _ _ => [argument]
  | .join _ left right _ => [left, right]
  | .compound items _ => items

/-- No span of the expression is empty, and its parts lie inside it one behind the other. -/
inductive Nested : Expr → Prop
  | intro {e : Expr} (nonempty : e.span.start < e.span.stop)
      (children : InOrder e.span.start (e.children.map span) e.span.stop) (below : ∀ c ∈ e.children, c.Nested) :
      Nested e

theorem Nested.nonempty {e : Expr} (h : e.Nested) : e.span.start < e.span.stop := by
  cases h with | intro nonempty => exact nonempty

theorem Nested.of_mem {e c : Expr} (h : e.Nested) (hc : c ∈ e.children) :
    c.Nested ∧ e.span.start ≤ c.span.start ∧ c.span.stop ≤ e.span.stop := by
  cases h with
  | intro _ hin below =>
    obtain ⟨hle, -, hge⟩ := hin.of_mem (List.mem_map_of_mem hc)
    exact ⟨below c hc, hle, hge⟩

/-- `x` is the expression `e`, one of its parts, or below those. -/
def Holds (e x : Expr) : Prop :=
  Relation.ReflTransGen (fun parent child => child ∈ parent.children) e x

theorem Nested.of_holds {e x : Expr} (h : e.Nested) (hx : e.Holds x) :
    x.Nested ∧ e.span.start ≤ x.span.start ∧ x.span.stop ≤ e.span.stop := by
  induction hx with
  | refl => exact ⟨h, Nat.le_refl _, Nat.le_refl _⟩
  | tail _ hc ih =>
    obtain ⟨hnested, hstart, hstop⟩ := ih
    obtain ⟨hnested, hstart', hstop'⟩ := hnested.of_mem hc
    exact ⟨hnested, Nat.le_trans hstart hstart', Nat.le_trans hstop' hstop⟩

/-- An expression from one span to another, between which its parts lie. -/
theorem nested_upTo (e : Expr) {first last : Span} {mid rest : List Span} {a b : Nat}
    (h : InOrder a (first :: mid ++ last :: rest) b) (he : e.span = first.upTo last)
    (hsub : (e.children.map span).Sublist (first :: mid ++ [last])) (hc : ∀ c ∈ e.children, c.Nested) :
    e.Nested ∧ InOrder a (e.span :: rest) b := by
  obtain ⟨hrest, hinner⟩ := h.upTo
  rw [he]
  refine ⟨.intro ?_ ?_ hc, hrest⟩
  · rw [he]
    exact hrest.2.1
  · rw [he]
    exact hinner.sublist hsub

/-- An argument with a sign in front of it. -/
theorem nested_leading (e : Expr) {x : Expr} {sign : Span} {rest : List Span} {a b : Nat}
    (h : InOrder a (sign :: x.span :: rest) b) (he : e.span = sign.upTo x.span) (hc : e.children = [x])
    (hx : x.Nested) : e.Nested ∧ InOrder a (e.span :: rest) b := by
  have hboth : InOrder a (sign :: [] ++ x.span :: rest) b := h
  refine nested_upTo e hboth he ?_ ?_
  · rw [hc]
    exact List.sublist_cons_self _ _
  · rw [hc]
    exact List.forall_mem_singleton.mpr hx

/-- An expression of one token. -/
theorem nested_leaf (e : Expr) {s : Span} {rest : List Span} {a b : Nat} (h : InOrder a (s :: rest) b)
    (he : e.span = s) (hc : e.children = []) : e.Nested ∧ InOrder a (e.span :: rest) b := by
  subst he
  refine ⟨.intro h.2.1 ?_ (by simp [hc]), h⟩
  rw [hc]
  exact Nat.le_of_lt h.2.1

/-! ### Places of tokens -/

theorem Cursor.Reads.inOrder {c c' : Cursor} {ts : List Token} (h : c.Reads ts c') :
    InOrder c.offset (ts.map Token.span) c'.offset := by
  induction h with
  | done c => exact Nat.le_refl _
  | @step c c₁ c₂ t ts h ht _ ih =>
    obtain ⟨hspan, hoffset⟩ := span_of_next h ht
    obtain ⟨d, ds, -, -, htext, -⟩ := exists_of_next h ht
    have hpos : 0 < byteLength t.text.toList := Text.byteLength_pos (by rw [htext]; exact List.cons_ne_nil d ds)
    rw [List.map_cons, hspan]
    exact ⟨Nat.le_add_right .., hoffset ▸ Nat.lt_add_of_pos_right hpos, ih⟩

/-- The tokens of a text lie one behind the other between its ends. -/
theorem Cursor.inOrder_of_tokens {c : Cursor} {ts : List Token} {stop : Nat} (h : c.tokens = .ok (ts, stop)) :
    stop = c.offset + byteLength c.rest ∧ InOrder c.offset (ts.map Token.span) stop := by
  obtain ⟨c', hreads, -, rfl⟩ := exists_reads_of_tokens h
  exact ⟨hreads.byteLength_eq, hreads.inOrder.mono (Nat.le_refl _) (Nat.le_add_right ..)⟩

/-! ### Places of phrases -/

/-- The expression in front of the phrase, if the phrase goes on with one. -/
def Phrase.objects : Phrase → List Expr
  | .suffixes object _ => [object]
  | _ => []

/-- The expressions that the phrase makes. -/
def Phrase.exprs : Phrase → List Expr
  | .expression e | .unary e | .primary e | .suffixes _ e => [e]
  | .links ls => ls.map Prod.snd
  | .elements _ xs _ => xs
  | .entries es _ => es.flatMap fun (key, value) => [key, value]

/-- The closing bracket at the end of the phrase. -/
def Phrase.close? : Phrase → Option Span
  | .elements _ _ close | .entries _ close => some close
  | _ => none

theorem named_leaf (name : String) (t : Token) :
    (Reader.named name t).span = t.span ∧ (Reader.named name t).children = [] := by
  unfold Reader.named
  split <;> exact ⟨rfl, rfl⟩

/-- What an operator joins lies on both sides of it. -/
theorem nested_of_groups {first e : Expr} {links : List (InfixOp × Expr)} (h : Groups first links e)
    {rest : List Span} {a b : Nat} (hfirst : first.Nested) (hlinks : ∀ l ∈ links, l.2.Nested)
    (hin : InOrder a (first.span :: links.map (fun l => l.2.span) ++ rest) b) :
    e.Nested ∧ InOrder a (e.span :: rest) b := by
  induction h generalizing a rest with
  | operand e => exact ⟨hfirst, hin⟩
  | @join first second left right before after op _ _ _ _ _ ihl ihr =>
    rw [List.map_append, List.map_cons, ← List.cons_append, List.append_assoc] at hin
    obtain ⟨hleft, hin⟩ := ihl hfirst (fun l hl => hlinks l (List.mem_append_left _ hl)) hin
    obtain ⟨hright, hin'⟩ := ihr (hlinks _ (List.mem_append_right _ (List.mem_cons_self ..)))
      (fun l hl => hlinks l (List.mem_append_right _ (List.mem_cons_of_mem _ hl))) hin.2.2
    have hboth : InOrder a (left.span :: [] ++ right.span :: rest) b := ⟨hin.1, hin.2.1, hin'⟩
    exact nested_upTo (.join op left right _) hboth rfl (List.Sublist.refl _) (by simp [children, hleft, hright])

/-- Where the tokens of a phrase were, its expressions lie, and its closing bracket behind them. -/
theorem nested_of_derives {p : Phrase} {ts rest : List Token} (h : Derives p ts rest) {a b : Nat}
    (hobject : ∀ x ∈ p.objects, x.Nested) (hin : InOrder a (p.objects.map span ++ ts.map Token.span) b) :
    (∀ x ∈ p.exprs, x.Nested) ∧ InOrder a (p.exprs.map span ++ (p.close?.toList ++ rest.map Token.span)) b := by
  have hnone : ∀ x ∈ ([] : List Expr), x.Nested := fun x hx => absurd hx List.not_mem_nil
  induction h generalizing a with
  | expression _ _ hg ihu ihl =>
    obtain ⟨hfirst, hle, hlt, hin⟩ := ihu hnone hin
    obtain ⟨hlinks, hin⟩ := ihl hnone hin
    rw [Phrase.exprs, List.map_map] at hin
    have hexpr := nested_of_groups hg (List.forall_mem_singleton.mp hfirst)
      (fun l hl => hlinks l.2 (List.mem_map_of_mem hl)) ⟨hle, hlt, hin⟩
    exact hexpr.imp_left List.forall_mem_singleton.mpr
  | endLinks | endElements => exact ⟨hnone, hin⟩
  | link _ _ _ ihu ihl =>
    obtain ⟨he, hle, hlt, hin⟩ := ihu hnone hin.skip
    obtain ⟨hls, hin⟩ := ihl hnone hin
    exact ⟨List.forall_mem_cons.mpr ⟨List.forall_mem_singleton.mp he, hls⟩, hle, hlt, hin⟩
  | @sign op e t ts rest _ _ ihu =>
    obtain ⟨he, hin'⟩ := ihu hnone hin.2.2
    have hexpr := nested_leading (.unary op e (t.span.upTo e.span)) ⟨hin.1, hin.2.1, hin'⟩ rfl rfl
      (List.forall_mem_singleton.mp he)
    exact hexpr.imp_left List.forall_mem_singleton.mpr
  | @leadingUpdate op e t ts rest _ _ _ ihu =>
    obtain ⟨he, hin'⟩ := ihu hnone hin.2.2
    have hexpr := nested_leading (.update op e true (t.span.upTo e.span)) ⟨hin.1, hin.2.1, hin'⟩ rfl rfl
      (List.forall_mem_singleton.mp he)
    exact hexpr.imp_left List.forall_mem_singleton.mpr
  | operand _ _ ihp ihs =>
    obtain ⟨hprimary, hin⟩ := ihp hobject hin
    exact ihs hprimary hin
  | endSuffixes => exact ⟨hobject, hin⟩
  | @field object e name t n ts rest _ _ _ ihs =>
    have hboth : InOrder a (object.span :: [t.span] ++ n.span :: ts.map Token.span) b := hin
    obtain ⟨hname, -⟩ := nested_leaf (.identifier name n.span) hin.skip.skip rfl rfl
    have hparts := List.forall_mem_cons.mpr ⟨List.forall_mem_singleton.mp hobject, List.forall_mem_singleton.mpr hname⟩
    obtain ⟨hexpr, hin⟩ := nested_upTo (.field object name n.span (object.span.upTo n.span)) hboth rfl
      (by simp [children, span]) hparts
    exact ihs (List.forall_mem_singleton.mpr hexpr) hin
  | @index object key e t c ts us rest _ _ _ _ ihk ihs =>
    obtain ⟨hle, hlt, hle', hlt', hin⟩ := hin
    obtain ⟨hkey, hin⟩ := ihk hnone hin
    have hboth : InOrder a (object.span :: [t.span, key.span] ++ c.span :: us.map Token.span) b :=
      ⟨hle, hlt, hle', hlt', hin⟩
    have hparts := List.forall_mem_cons.mpr ⟨List.forall_mem_singleton.mp hobject, hkey⟩
    obtain ⟨hexpr, hin⟩ := nested_upTo (.index object key (object.span.upTo c.span)) hboth rfl
      (by simp [children]) hparts
    exact ihs (List.forall_mem_singleton.mpr hexpr) hin
  | @call object e arguments close t ts us rest _ _ _ iha ihs =>
    obtain ⟨hle, hlt, hle', hlt', hin⟩ := hin
    obtain ⟨hargs, hin⟩ := iha hnone hin
    have hboth : InOrder a (object.span :: (t.span :: arguments.map span) ++ close :: us.map Token.span) b :=
      ⟨hle, hlt, hle', hlt', hin⟩
    have hparts := List.forall_mem_cons.mpr ⟨List.forall_mem_singleton.mp hobject, hargs⟩
    obtain ⟨hexpr, hin⟩ := nested_upTo (.call object arguments (object.span.upTo close)) hboth rfl
      (by simp [children]) hparts
    exact ihs (List.forall_mem_singleton.mpr hexpr) hin
  | @trailingUpdate op object e t ts rest _ _ _ ihs =>
    have hboth : InOrder a (object.span :: [] ++ t.span :: ts.map Token.span) b := hin
    obtain ⟨hexpr, hin⟩ := nested_upTo (.update op object false (object.span.upTo t.span)) hboth rfl
      (by simp [children]) hobject
    exact ihs (List.forall_mem_singleton.mpr hexpr) hin
  | @number value t rest _ =>
    exact (nested_leaf (.literal (.number value) t.text t.span) hin rfl rfl).imp_left List.forall_mem_singleton.mpr
  | @string value t rest _ =>
    exact (nested_leaf (.literal (.string value) t.text t.span) hin rfl rfl).imp_left List.forall_mem_singleton.mpr
  | @name name t rest _ =>
    obtain ⟨hspan, hchildren⟩ := named_leaf name t
    exact (nested_leaf (Reader.named name t) hin hspan hchildren).imp_left List.forall_mem_singleton.mpr
  | @array xs close t ts rest _ _ ihx =>
    obtain ⟨hle, hlt, hin⟩ := hin
    obtain ⟨hxs, hin⟩ := ihx hnone hin
    have hboth : InOrder a (t.span :: xs.map span ++ close :: rest.map Token.span) b := ⟨hle, hlt, hin⟩
    have hexpr := nested_upTo (.array xs (t.span.upTo close)) hboth rfl (by simp [children]) hxs
    exact hexpr.imp_left List.forall_mem_singleton.mpr
  | @emptyMap t c rest _ _ =>
    have hboth : InOrder a (t.span :: [] ++ c.span :: rest.map Token.span) b := hin
    have hexpr := nested_upTo (.map [] (t.span.upTo c.span)) hboth rfl (List.nil_sublist _) hnone
    exact hexpr.imp_left List.forall_mem_singleton.mpr
  | @map es close t ts rest _ _ ihe =>
    obtain ⟨hle, hlt, hin⟩ := hin
    obtain ⟨hes, hin⟩ := ihe hnone hin
    have hboth : InOrder a (t.span :: (Expr.map es (t.span.upTo close)).children.map span ++
        close :: rest.map Token.span) b := ⟨hle, hlt, hin⟩
    have hexpr := nested_upTo (.map es (t.span.upTo close)) hboth rfl (by simp) hes
    exact hexpr.imp_left List.forall_mem_singleton.mpr
  | group _ _ _ ihe =>
    -- the parentheses are left out
    obtain ⟨he, hle, hlt, hin⟩ := ihe hnone hin.skip
    exact ⟨he, hle, hlt, hin.skip⟩
  | lastElement _ _ ihx => exact ihx hnone hin
  | element _ _ _ ihx ihxs =>
    obtain ⟨hx, hle, hlt, hin⟩ := ihx hnone hin
    obtain ⟨hxs, hin⟩ := ihxs hnone hin.skip
    exact ⟨List.forall_mem_cons.mpr ⟨List.forall_mem_singleton.mp hx, hxs⟩, hle, hlt, hin⟩
  | lastEntry _ _ _ _ ihk ihv =>
    obtain ⟨hk, hle, hlt, hin⟩ := ihk hnone hin
    obtain ⟨hv, hin⟩ := ihv hnone hin.skip
    exact ⟨List.forall_mem_cons.mpr ⟨List.forall_mem_singleton.mp hk, hv⟩, hle, hlt, hin⟩
  | entry _ _ _ _ _ ihk ihv ihes =>
    obtain ⟨hk, hle, hlt, hin⟩ := ihk hnone hin
    obtain ⟨hv, hle', hlt', hin⟩ := ihv hnone hin.skip
    obtain ⟨hes, hin⟩ := ihes hnone hin.skip
    have hrest := List.forall_mem_cons.mpr ⟨List.forall_mem_singleton.mp hv, hes⟩
    exact ⟨List.forall_mem_cons.mpr ⟨List.forall_mem_singleton.mp hk, hrest⟩, hle, hlt, hle', hlt', hin⟩

/-! ### Places of parameters -/

theorem nested_of_items {ts : List Token} {es : List Expr} (h : Items ts es) {a b : Nat}
    (hin : InOrder a (ts.map Token.span) b) : (∀ e ∈ es, e.Nested) ∧ InOrder a (es.map span) b := by
  induction h generalizing a with
  | nil => exact ⟨fun e he => absurd he List.not_mem_nil, hin⟩
  | separator _ _ ih => exact ih hin.skip
  | expression he _ ih =>
    obtain ⟨he, hle, hlt, hin⟩ := nested_of_derives he (fun x hx => absurd hx List.not_mem_nil) hin
    obtain ⟨hes, hin⟩ := ih hin
    exact ⟨List.forall_mem_cons.mpr ⟨List.forall_mem_singleton.mp he, hes⟩, hle, hlt, hin⟩

theorem nested_of_ofItems {es : List Expr} {e : Expr} (h : ofItems es = some e) {a b : Nat}
    (hes : ∀ x ∈ es, x.Nested) (hin : InOrder a (es.map span) b) : e.Nested ∧ InOrder a [e.span] b := by
  match es, h with
  | [_], h =>
    cases h
    exact ⟨List.forall_mem_singleton.mp hes, hin⟩
  | first :: second :: rest, h =>
    cases h
    have hlast := List.dropLast_concat_getLast (List.cons_ne_nil second rest)
    generalize (second :: rest).dropLast = mid at *
    generalize (second :: rest).getLast (List.cons_ne_nil _ _) = last at *
    rw [← hlast] at hes hin ⊢
    have hboth : InOrder a (first.span :: mid.map span ++ last.span :: []) b := by simpa using hin
    exact nested_upTo (.compound (first :: (mid ++ [last])) (first.span.upTo last.span)) hboth rfl
      (by simp [children]) hes

/-- The parts of what is read lie in the text, each inside the one that it is a part of. -/
theorem nested_of_parseAt {source : String} {base : Nat} {e : Expr} (h : parseAt source base = .ok (some e)) :
    e.Nested ∧ InOrder base [e.span] (base + byteLength source.toList) := by
  obtain ⟨ts, stop, es, hts, hitems, hof⟩ := parseAt_eq_ok_iff.mp h
  obtain ⟨hstop, hin⟩ := Cursor.inOrder_of_tokens hts
  obtain ⟨hes, hin⟩ := nested_of_items hitems hin
  have hexpr := nested_of_ofItems hof hes hin
  rwa [hstop] at hexpr

end TemplateSyntax.Expr
