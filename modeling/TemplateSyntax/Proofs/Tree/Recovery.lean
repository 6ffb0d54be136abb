import TemplateSyntax.Proofs.Tree.Invariant

/-!
# Recovery from a rejected token

A token that cannot be taken is skipped. Whatever the builder was fed, a rejected token leaves the state that it found,
with the pending node settled, and at most one more error (`rejected_push_feed`): a token whose parameters are no
expression leaves just that state, any other one has its own span reported. A closing tag is absorbed by the pending
node, closes the innermost node that has a closing tag of its own, or is rejected. The one error that is recorded for a
token that is taken is about an `<#attempt>` closed without its `<#recover>`.
-/

namespace TemplateSyntax

open Markup (Token)

namespace Builder

/-! ### What may happen to a token -/

/-- The token is left out with a report about it. -/
def Rejects (t : Token) (b b' : Builder) : Prop :=
  ∃ fault, b' = b.report fault t.span

/-- The token is the closing tag of the pending node. -/
def Absorbs (t : Token) (b b' : Builder) : Prop :=
  ∃ n, b.pending = some n ∧ Kind.ofToken? t = some n.kind ∧ Adds (n.endAt t.span.stop) { b with pending := none } b'

/-- The token closes the node `o` with the chain of conditions above it; the finished node `n` is the last content of
what was below. -/
def ClosesNode (t : Token) (b b' : Builder) : Prop :=
  ∃ chain o rest n closed, b.stack = chain ++ o :: rest ∧ (∀ c ∈ chain, c.chained = true) ∧ o.chained = false ∧
    n.head = o.node.head ∧ n.span = ⟨o.node.span.start, t.span.stop⟩ ∧ Unwinds t.span b closed ∧
    Adds n { b with stack := rest } closed ∧
    b' = if o.node.lacksRecover then closed.report .missingRecover n.span else closed

/-- The token closes an attempt that has no fallback, which is reported. -/
def ClosesAttempt (t : Token) (b b' : Builder) : Prop :=
  ClosesNode t b b' ∧ ∃ o rest, b.stack = o :: rest ∧ o.node.kind = .attempt ∧ o.node.branch = none ∧
    b'.errors = b.errors ++ [⟨.missingRecover, ⟨o.node.span.start, t.span.stop⟩⟩]

/-! ### Closing tags -/

/-- A chain of conditions continues a condition. -/
theorem Stacked.kind_of_chained {chain rest : List OpenNode} {o : OpenNode} (hs : Stacked (chain ++ o :: rest))
    (hchain : ∀ c ∈ chain, c.chained = true) (hne : chain ≠ []) : o.node.kind = .condition := by
  obtain ⟨init, a, rfl⟩ := (List.eq_nil_or_concat chain).resolve_left hne
  have ha : a.chained = true := hchain a (by simp)
  rw [List.concat_eq_append, List.append_assoc] at hs
  obtain ⟨hr, -⟩ := hs.of_append.under a (o :: rest) rfl
  cases hr with
  | content hc => rw [ha] at hc; cases hc
  | chained _ _ hp => exact hp

/-- Only an attempt is closed with a report, and nothing is chained to an attempt. -/
private theorem lacksRecover_of_unwound {chain rest below : List OpenNode} {o top : OpenNode}
    (hs : Stacked (top :: below)) (hst : top :: below = chain ++ o :: rest) (hchain : ∀ c ∈ chain, c.chained = true) :
    top.node.lacksRecover = o.node.lacksRecover ∧ (top.node.lacksRecover = true → top = o) := by
  cases chain with
  | nil =>
    cases hst
    exact ⟨rfl, fun _ => rfl⟩
  | cons c chain =>
    have ho : o.node.kind = .condition := by
      rw [hst] at hs
      exact hs.kind_of_chained hchain (List.cons_ne_nil _ _)
    have htop : top.node.kind = .condition := by
      have hc : top.chained = true := by
        rw [(List.cons.inj hst).1]
        exact hchain c (List.mem_cons_self ..)
      obtain ⟨hr, -⟩ := hs.under top below rfl
      cases hr with
      | outermost hc' => rw [hc] at hc'; cases hc'
      | content hc' => rw [hc] at hc'; cases hc'
      | chained _ hk => exact hk
    rw [lacksRecover_of_condition htop, lacksRecover_of_condition ho]
    exact ⟨rfl, fun h => by cases h⟩

private theorem closes_of_unwinds {t : Token} {b closed : Builder} {top : OpenNode} {below : List OpenNode}
    (hs : Stacked b.stack) (hst : b.stack = top :: below) (hu : Unwinds t.span b closed) :
    ClosesNode t b (if top.node.lacksRecover then closed.report .missingRecover (top.node.endAt t.span.stop).span
      else closed) := by
  have hstacked := hs
  rw [hst] at hstacked
  obtain ⟨hr, hbelow⟩ := hs.under top below hst
  obtain ⟨chain, o, rest, n, hsplit, hchain, ho, hhead, hspan, -, ha⟩ := hu.removes hst hr hbelow
  obtain ⟨heq, htop⟩ := lacksRecover_of_unwound hstacked (hst.symm.trans hsplit) hchain
  refine ⟨chain, o, rest, n, closed, hsplit, hchain, ho, hhead, hspan, hu, ha, ?_⟩
  cases hl : top.node.lacksRecover with
  | false =>
    rw [← heq, hl]
    rfl
  | true =>
    obtain rfl := htop hl
    rw [hl, hspan]
    rfl

/-! ### The state that a token finds -/

theorem Adds.eq_add {n : Node} {b b' : Builder} (h : Adds n b b') : b' = b.add n := by
  cases h with
  | outermost hst => simp only [add, hst]
  | inner hst hn => simp only [add, hst, hn]

theorem Settles.eq_settle {b b' : Builder} (h : Settles b b') : b' = b.settle := by
  cases h with
  | idle hp => simp only [settle, hp]
  | held hp ha => simpa only [settle, hp] using ha.eq_add

/-! ### Errors -/

/-- A token that is taken adds no error, unless it closes an attempt too early. -/
private theorem Takes.outcome {t : Token} {b b' : Builder} {out : Option ExprError} (h : Takes t b out b')
    (hs : Stacked b.stack) :
    (out.isSome ∧ t.closing = false ∧ b' = b) ∨
      out = none ∧ (Rejects t b b' ∨ t.closing = true ∧ ClosesAttempt t b b' ∨
        b'.errors = b.errors ∧ (t.closing = true → ClosesNode t b b')) := by
  have hopening {kind : Kind} {params : Option Expr} (htag : IsTag kind params t) (b' : Builder) :
      t.closing = true → ClosesNode t b b' := fun hc => by rw [htag.opening] at hc; cases hc
  cases h with
  | faults fault => exact .inr ⟨rfl, .inl ⟨fault, rfl⟩⟩
  | fails hc => exact .inl ⟨rfl, hc, rfl⟩
  | @closes _ top below closed hc _ hst _ hu =>
    have hcloses := closes_of_unwinds hs hst hu
    refine .inr ⟨rfl, .inr ?_⟩
    cases hl : top.node.lacksRecover with
    | false =>
      rw [hl] at hcloses
      exact .inr ⟨hu.errors_eq, fun _ => hcloses⟩
    | true =>
      rw [hl] at hcloses
      rw [Node.lacksRecover, Bool.and_eq_true, beq_iff_eq, Option.isNone_iff_eq_none] at hl
      refine .inl ⟨hc, hcloses, top, below, hst, hl.1, hl.2, ?_⟩
      simp only [↓reduceIte, report, hu.errors_eq, Node.endAt]
  | skips htag => exact .inr ⟨rfl, .inr (.inr ⟨rfl, hopening htag _⟩)⟩
  | chains htag => exact .inr ⟨rfl, .inr (.inr ⟨rfl, hopening htag _⟩)⟩
  | begins htag => exact .inr ⟨rfl, .inr (.inr ⟨rfl, hopening htag _⟩)⟩
  | opens htag => exact .inr ⟨rfl, .inr (.inr ⟨rfl, hopening htag _⟩)⟩
  | holds htag => exact .inr ⟨rfl, .inr (.inr ⟨rfl, hopening htag _⟩)⟩
  | places htag _ _ _ _ ha => exact .inr ⟨rfl, .inr (.inr ⟨ha.errors_eq, hopening htag _⟩)⟩

/-- What a push comes to, for the state that it finds and for the error list. -/
theorem Pushes.outcome {t : Token} {b b' : Builder} {out : Option ExprError} (h : Pushes t b out b')
    (hb : b.Sound) :
    (out.isSome ∧ t.closing = false ∧ b' = b.settle) ∨
      out = none ∧ (Rejects t b.settle b' ∨ t.closing = true ∧ ClosesAttempt t b.settle b' ∨
        b'.errors = b.errors ∧ (t.closing = true → Absorbs t b b' ∨ ClosesNode t b.settle b')) := by
  cases h with
  | @absorbs n _ hp hc hk ha =>
    exact .inr ⟨rfl, .inr (.inr ⟨ha.errors_eq, fun _ => .inl ⟨n, hp, hk, ha⟩⟩)⟩
  | takes _ hs htakes =>
    obtain rfl := hs.eq_settle
    rw [← hs.errors_eq]
    rcases htakes.outcome (hs.stacked hb.stack) with h | ⟨rfl, h | h | ⟨herrors, hcloses⟩⟩
    · exact .inl h
    · exact .inr ⟨rfl, .inl h⟩
    · exact .inr ⟨rfl, .inr (.inl h)⟩
    · exact .inr ⟨rfl, .inr (.inr ⟨herrors, fun hc => .inr (hcloses hc)⟩)⟩

/-- Whatever the builder was fed, a token that is rejected changes nothing but the list of errors. The state `s` is the
one that the token finds: the pending node, if there is one, has been added to the content. -/
theorem rejected_push_feed (stop : Nat) (ts : List Token) (t : Token) :
    let b := (new stop).feed ts
    let s := b.settle
    let out := (b.push t).1
    let b' := (b.push t).2
    Settles b s ∧
      (out.isSome → b' = s) ∧
      (t.closing = false → out = none → b'.errors ≠ b.errors → Rejects t s b') ∧
      (t.closing = true → out = none ∧ (Absorbs t b b' ∨ ClosesNode t s b' ∨ Rejects t s b')) ∧
      (b'.errors = b.errors ∨ ∃ e, b'.errors = b.errors ++ [e]) ∧
      (out = none → b'.errors ≠ b.errors → Rejects t s b' ∨ t.closing = true ∧ ClosesAttempt t s b') := by
  intro b s out b'
  have hb : b.Sound := sound_feed (sound_new stop) ts
  have hsettles : Settles b s := settles_settle hb.stack hb.pending
  have herrors : s.errors = b.errors := hsettles.errors_eq
  refine ⟨hsettles, ?_⟩
  rcases (pushes_push hb t).outcome hb with
    ⟨hsome, hopen, heq⟩ | ⟨hnone, ⟨fault, heq⟩ | ⟨hc, hattempt⟩ | ⟨hsame, hcloses⟩⟩
  · have hne : out ≠ none := Option.isSome_iff_ne_none.mp hsome
    refine ⟨fun _ => heq, fun _ h => absurd h hne, fun h => ?_, .inl ((congrArg errors heq).trans herrors),
      fun h => absurd h hne⟩
    rw [hopen] at h
    cases h
  · have hrejects : Rejects t s b' := ⟨fault, heq⟩
    have hone : b'.errors = b.errors ++ [⟨fault, t.span⟩] := by
      rw [← herrors]
      exact congrArg errors heq
    exact ⟨fun h => absurd hnone (Option.isSome_iff_ne_none.mp h), fun _ _ _ => hrejects,
      fun _ => ⟨hnone, .inr (.inr hrejects)⟩, .inr ⟨_, hone⟩, fun _ _ => .inl hrejects⟩
  · have hcloses : ClosesNode t s b' := hattempt.1
    obtain ⟨o, rest, -, -, -, hone⟩ := hattempt.2
    rw [herrors] at hone
    refine ⟨fun h => absurd hnone (Option.isSome_iff_ne_none.mp h), fun h => ?_,
      fun _ => ⟨hnone, .inr (.inl hcloses)⟩, .inr ⟨_, hone⟩, fun _ _ => .inr ⟨hc, hattempt⟩⟩
    rw [hc] at h
    cases h
  · refine ⟨fun h => absurd hnone (Option.isSome_iff_ne_none.mp h), fun _ _ h => absurd hsame h,
      fun hc => ⟨hnone, ?_⟩, .inl hsame, fun _ h => absurd hsame h⟩
    exact (hcloses hc).elim .inl fun h => .inr (.inl h)

end Builder

end TemplateSyntax
