import TemplateSyntax.Proofs.Tree.Push

/-!
# What ends the building of a template

Whether a token ends the building is a matter of the token alone: its parameters are read, and are no expression. What
the builder was fed before, what is open or pending and what was reported already play no part (`push_fst`). So a list
of tokens makes a program unless one of its tokens has such parameters, and the first of these gives the error
(`ofTokens_eq_error_iff`).
-/

namespace TemplateSyntax

open Markup (Token)

/-! ### Tokens -/

namespace Markup.Token

/-- The parameters of the token are read, and `e` is what is wrong with them. Those of closing tags, of tags with an
unknown name, of text and of comments are not read. -/
structure FailsWith (t : Token) (e : ExprError) : Prop where
  opening : t.closing = false
  kind : ∃ kind, Kind.ofToken? t = some kind ∧ kind ≠ .text ∧ kind ≠ .comment
  params : ∃ p, t.params = some p ∧ Expr.parseAt p.text p.span.start = .error e

/-- The error in the parameters of the token, if they are read and there is one. -/
def fault? (t : Token) : Option ExprError :=
  match t.closing, Kind.ofToken? t with
  | false, some kind =>
    match kind.readParams t with
    | .error e => some e
    | .ok _ => none
  | _, _ => none

end Markup.Token

theorem Kind.readParams_eq_error_iff {kind : Kind} {t : Token} {e : ExprError} :
    kind.readParams t = .error e ↔
      (kind ≠ .text ∧ kind ≠ .comment) ∧ ∃ p, t.params = some p ∧ Expr.parseAt p.text p.span.start = .error e := by
  unfold Kind.readParams
  split
  · simp
  · simp
  · next hp => simp [hp]
  · next kind _ _ p htext hcomment hp =>
    have hread : kind ≠ .text ∧ kind ≠ .comment := ⟨htext, hcomment⟩
    simp [hp, hread]

theorem Markup.Token.fault?_eq_some_iff {t : Token} {e : ExprError} : t.fault? = some e ↔ t.FailsWith e := by
  unfold fault?
  constructor
  · intro h
    split at h
    · next kind hopening hkind =>
      split at h
      · next e' herror =>
        cases h
        obtain ⟨hread, hparams⟩ := Kind.readParams_eq_error_iff.mp herror
        exact ⟨hopening, ⟨kind, hkind, hread⟩, hparams⟩
      · cases h
    · cases h
  · rintro ⟨hopening, ⟨kind, hkind, hread⟩, hparams⟩
    have herror := Kind.readParams_eq_error_iff.mpr ⟨hread, hparams⟩
    simp only [hopening, hkind, herror]

theorem Markup.Token.fault?_eq_none_iff {t : Token} : t.fault? = none ↔ ∀ e, ¬t.FailsWith e := by
  simp only [Option.eq_none_iff_forall_ne_some, ne_eq, fault?_eq_some_iff]

/-! ### The builder -/

namespace Builder

/-- Whatever the state, a push answers with the error of its token. -/
theorem push_fst (b : Builder) (t : Token) : (b.push t).1 = t.fault? := by
  cases habsorb : b.absorb? t with
  | some b' =>
    -- only a closing tag is absorbed, and its parameters are not read
    have hclosing : t.closing = true := by
      unfold absorb? at habsorb
      split at habsorb
      · cases habsorb
      · split at habsorb
        · next h => exact (Bool.and_eq_true_iff.mp h).1
        · cases habsorb
    simp only [push, habsorb, Markup.Token.fault?, hclosing]
  | none =>
    rw [push_of_absorb?_eq_none habsorb, Markup.Token.fault?]
    cases Kind.ofToken? t with
    | none => cases t.closing <;> rfl
    | some kind =>
      cases t.closing with
      | true => rfl
      | false => cases h : kind.readParams t <;> simp [h]

theorem pushAll_fst (b : Builder) (ts : List Token) : (b.pushAll ts).1 = ts.findSome? Markup.Token.fault? := by
  induction ts generalizing b with
  | nil => rfl
  | cons t ts ih =>
    rw [pushAll, List.findSome?_cons, ← push_fst b t]
    generalize b.push t = pushed
    obtain ⟨_ | e, b'⟩ := pushed
    · exact ih b'
    · rfl

end Builder

/-- Two states of the builder, whatever their history, take a token without an error or fail at it with the same one. So
the building of a list of tokens fails at the first token whose parameters are read and are no expression, and with that
error; without such a token there is a program. -/
theorem Program.ofTokens_eq_error_iff (ts : List Token) (stop : Nat) :
    (∀ (b b' : Builder) (t : Token), (b.push t).1 = (b'.push t).1 ∧ ∀ e, (b.push t).1 = some e ↔ t.FailsWith e) ∧
    ((∃ e, Program.ofTokens ts stop = .error e) ↔ ∃ t ∈ ts, ∃ e, t.FailsWith e) ∧
    ∀ e, Program.ofTokens ts stop = .error e ↔
      ∃ before t after, ts = before ++ t :: after ∧ t.FailsWith e ∧ ∀ u ∈ before, ∀ e', ¬u.FailsWith e' := by
  have hfirst (e : ExprError) : Program.ofTokens ts stop = .error e ↔ ts.findSome? Markup.Token.fault? = some e := by
    rw [← Builder.pushAll_fst (Builder.new stop) ts, Program.ofTokens]
    generalize (Builder.new stop).pushAll ts = pushed
    obtain ⟨_ | e', b⟩ := pushed <;> simp
  refine ⟨fun b b' t => ⟨?_, fun e => ?_⟩, ?_, fun e => ?_⟩
  · rw [Builder.push_fst, Builder.push_fst]
  · rw [Builder.push_fst, Markup.Token.fault?_eq_some_iff]
  · simp only [hfirst, ← Option.isSome_iff_exists, List.findSome?_isSome_iff]
    simp only [Option.isSome_iff_exists, Markup.Token.fault?_eq_some_iff]
  · rw [hfirst, List.findSome?_eq_some_iff]
    simp only [Markup.Token.fault?_eq_some_iff, Markup.Token.fault?_eq_none_iff]

end TemplateSyntax
