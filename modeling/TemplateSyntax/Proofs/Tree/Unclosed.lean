import TemplateSyntax.Proofs.Expr.Balance
import TemplateSyntax.Proofs.Tree.Fatal

/-!
# The scanner finds what is unclosed

Strings and brackets are read twice, by the scanner to find the end of a tag and by the readers of expressions. The
scanner does not tell one kind of bracket from another and knows no escapes but the backslash itself; still, what it
takes for closed is closed for the readers (`balance_of_tokenize`), so they have something else to complain about.
-/

namespace TemplateSyntax

open Markup (Token)

namespace Builder

variable {b b' : Builder} {ts : List Token} {error : ExprError}

/-- Only unreadable parameters stop the builder, and those of closing tags are not read. -/
theorem exists_opening_of_pushAll_error (h : b.pushAll ts = (some error, b')) :
    ∃ t ∈ ts, t.closing = false ∧ ∃ kind : Kind, kind.readParams t = .error error := by
  have hfirst := pushAll_fst b ts
  rw [h] at hfirst
  obtain ⟨t, ht, hfault⟩ := List.exists_of_findSome?_eq_some hfirst.symm
  obtain ⟨hopening, ⟨kind, -, hread⟩, hparams⟩ := Markup.Token.fault?_eq_some_iff.mp hfault
  exact ⟨t, ht, hopening, kind, Kind.readParams_eq_error_iff.mpr ⟨hread, hparams⟩⟩

theorem exists_of_pushAll_error (h : b.pushAll ts = (some error, b')) :
    ∃ t ∈ ts, ∃ kind : Kind, kind.readParams t = .error error := by
  obtain ⟨t, ht, -, hread⟩ := exists_opening_of_pushAll_error h
  exact ⟨t, ht, hread⟩

end Builder

theorem Kind.exists_of_readParams_error {kind : Kind} {t : Token} {error : ExprError}
    (h : kind.readParams t = .error error) : ∃ p ∈ t.params, Expr.parseAt p.text p.span.start = .error error :=
  (readParams_eq_error_iff.mp h).2

/-- The brackets of the parameters of a scanned token cancel out, and no message about them is about an open string or
an open bracket. -/
theorem balance_of_tokenize {source : String} {ts : List Token} (h : Markup.tokenize source = .ok ts) :
    (∀ t ∈ ts, ∀ p ∈ t.params, ∀ base,
      (∀ es stop, (Expr.Cursor.ofSource p.text base).tokens = .ok (es, stop) → Expr.balance es = 0) ∧
        ∀ error, Expr.parseAt p.text base = .error error → ¬"Unclosed".toList <+: error.message.toList) ∧
    ∀ stop error, Program.ofTokens ts stop = .error error → ¬"Unclosed".toList <+: error.message.toList := by
  have hcloses := Markup.closes_of_tokenize h
  have hparse : ∀ t ∈ ts, ∀ p ∈ t.params, ∀ base error, Expr.parseAt p.text base = .error error →
      ¬"Unclosed".toList <+: error.message.toList := by
    intro t ht p hp base error herror hmessage
    have hclosed := Expr.isUnclosed_of_parseAt (hcloses t ht p hp) herror
    rw [Expr.Fault.isUnclosed_of_message hmessage] at hclosed
    cases hclosed
  refine ⟨fun t ht p hp base => ⟨fun es stop htokens => ?_, hparse t ht p hp base⟩, fun stop error herror => ?_⟩
  · have hrest : Markup.Closes (.plain 0) (Expr.Cursor.ofSource p.text base).rest := hcloses t ht p hp
    have hbalance := Expr.Cursor.balance_tokens hrest
    rw [htokens] at hbalance
    dsimp only at hbalance
    omega
  · unfold Program.ofTokens at herror
    split at herror
    · cases herror
    · next hpushAll =>
      cases herror
      obtain ⟨t, ht, kind, hread⟩ := Builder.exists_of_pushAll_error hpushAll
      obtain ⟨p, hp, hparams⟩ := kind.exists_of_readParams_error hread
      exact hparse t ht p hp _ error hparams

/-- The scanner lets a parenthesis be closed by a square bracket. The readers do not, but miss a comma or another
closing bracket there. -/
theorem balance_of_tokenize_mismatch :
    ∃ ts error, Markup.tokenize "$\x7bf(a]\x7d" = .ok ts ∧ Program.ofTokens ts 7 = .error error ∧
      error.fault = .missingSeparator .paren ∧ ¬"Unclosed".toList <+: error.message.toList := by
  let params : Markup.Params := ⟨"f(a]", ⟨2, 6⟩, [⟨"f(a]", ⟨2, 6⟩⟩]⟩
  let call : Token := ⟨.interpolation, ⟨0, 7⟩, "$\x7bf(a]\x7d", none, some params, false, false⟩
  have hscan : Markup.scan "$\x7bf(a]\x7d" = ([call], none) := by
    decide +kernel
  have htokens : Markup.tokenize "$\x7bf(a]\x7d" = .ok [call] := by
    rw [Markup.tokenize, hscan]
  have hpush : ((Builder.new 7).pushAll [call]).1 = some ⟨.missingSeparator .paren, ⟨5, 6⟩⟩ := by
    decide +kernel
  have hprogram : Program.ofTokens [call] 7 = .error ⟨.missingSeparator .paren, ⟨5, 6⟩⟩ := by
    unfold Program.ofTokens
    split
    · next hnone =>
      rw [hnone] at hpush
      cases hpush
    · next hsome =>
      rw [hsome] at hpush
      cases hpush
      rfl
  obtain ⟨-, hbuild⟩ := balance_of_tokenize htokens
  exact ⟨[call], _, htokens, hprogram, rfl, hbuild 7 _ hprogram⟩

end TemplateSyntax
