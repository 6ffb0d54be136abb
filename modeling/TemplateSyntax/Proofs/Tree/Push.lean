import TemplateSyntax.Proofs.Tree.Open
import TemplateSyntax.Tree.Builder

/-!
# What one token does

The moves of the builder as relations that leave no way to lose a node: a finished node needs a place (`Adds`), and a
chained condition needs the condition that it continues, which must not have an alternative yet (`Attaches`). In a sound
state a token makes one of the moves of `Pushes`, and the end of the template those of `Drains`. Everything else about
runs of the builder is read off these relations.
-/

namespace TemplateSyntax

open Markup (Token)

/-- What the rule for parameters admits. -/
def Kind.ParamRule.Allows : Kind.ParamRule → Option Expr → Prop
  | .required, none => False
  | .forbidden, some _ => False
  | _, _ => True

/-- The token is an opening tag, or no tag at all, of the given kind and with the given parameters. -/
structure IsTag (kind : Kind) (params : Option Expr) (t : Token) : Prop where
  opening : t.closing = false
  ofToken : Kind.ofToken? t = some kind
  read : kind.readParams t = .ok params
  rule : kind.paramRule.Allows params

namespace Builder

/-! ### Sound states -/

/-- What an open node needs below it: a place for it, or the condition that it continues. -/
inductive Rests (o : OpenNode) : List OpenNode → Prop
  | outermost (hc : o.chained = false) : Rests o []
  | content {p : OpenNode} {below : List OpenNode} (hc : o.chained = false) (hp : p.node.awaitsCase = false) :
      Rests o (p :: below)
  | chained {p : OpenNode} {below : List OpenNode} (hc : o.chained = true) (ho : o.node.kind = .condition)
      (hp : p.node.kind = .condition) (hb : p.node.branch = none) : Rests o (p :: below)

/-- The stack, innermost node first: every node is open and rests on the ones below it. -/
inductive Stacked : List OpenNode → Prop
  | nil : Stacked []
  | cons {o : OpenNode} {below : List OpenNode} (ho : o.node.IsOpen) (hr : Rests o below) (hs : Stacked below) :
      Stacked (o :: below)

structure Sound (b : Builder) : Prop where
  stack : Stacked b.stack
  /-- A pending node has a place to go to. -/
  pending : b.pending.isSome → b.awaitsCase = false

/-! ### Moves -/

/-- `b'` is `b` with `n` where content is received. -/
inductive Adds (n : Node) (b : Builder) : Builder → Prop
  | outermost (h : b.stack = []) : Adds n b { b with body := b.body ++ [n] }
  | inner {top : OpenNode} {below : List OpenNode} {node : Node} (h : b.stack = top :: below)
      (hn : top.node.add? n = some node) : Adds n b { b with stack := { top with node } :: below }

inductive Attaches (o : OpenNode) (b : Builder) : Builder → Prop
  | alternative {parent : OpenNode} {below : List OpenNode} (hc : o.chained = true) (h : b.stack = parent :: below)
      (hk : parent.node.kind = .condition) (hb : parent.node.branch = none) :
      Attaches o b { b with stack := { parent with node := { parent.node with branch := some [o.node] } } :: below }
  | content {b' : Builder} (hc : o.chained = false) (h : Adds o.node b b') : Attaches o b b'

/-- The innermost open node is finished. -/
inductive Releases (partStop stop : Nat) (b : Builder) : OpenNode → Builder → Prop
  | mk {top : OpenNode} {below : List OpenNode} {b' : Builder} (h : b.stack = top :: below)
      (ha : Attaches { top with node := (top.node.endPart partStop).endAt stop } { b with stack := below } b') :
      Releases partStop stop b top b'

/-- A closing tag finishes the chained conditions, and the node that they continue. -/
inductive Unwinds (span : Span) : Builder → Builder → Prop
  | last {top : OpenNode} {b b' : Builder} (hc : top.chained = false)
      (h : Releases span.start span.stop b top b') : Unwinds span b b'
  | chained {top : OpenNode} {b b' b'' : Builder} (hc : top.chained = true)
      (h : Releases span.start span.start b top b') (hu : Unwinds span b' b'') : Unwinds span b b''

/-- The end of the template finishes all open nodes. -/
inductive Drains (stop : Nat) : Builder → Builder → Prop
  | done {b : Builder} (h : b.stack = []) : Drains stop b b
  | step {top : OpenNode} {b b' b'' : Builder} (h : Releases stop stop b top b') (hd : Drains stop b' b'') :
      Drains stop b b''

inductive Settles (b : Builder) : Builder → Prop
  | idle (h : b.pending = none) : Settles b b
  | held {n : Node} {b' : Builder} (h : b.pending = some n) (ha : Adds n { b with pending := none } b') : Settles b b'

/-- What a token does when no node is pending. -/
inductive Takes (t : Token) (b : Builder) : Option ExprError → Builder → Prop
  | faults (fault : StructuralFault) : Takes t b none (b.report fault t.span)
  | fails {kind : Kind} {e : ExprError} (hc : t.closing = false) (hk : Kind.ofToken? t = some kind)
      (hp : kind.readParams t = .error e) : Takes t b (some e) b
  | closes {kind : Kind} {top : OpenNode} {below : List OpenNode} {b' : Builder} (hc : t.closing = true)
      (hk : Kind.ofToken? t = some kind) (hs : b.stack = top :: below) (hm : top.node.closedBy kind t.tag = true)
      (hu : Unwinds t.span b b') :
      Takes t b none
        (if top.node.lacksRecover then b'.report .missingRecover (top.node.endAt t.span.stop).span else b')
  | skips {params : Option Expr} (h : IsTag .text params t) (hb : t.raw.toList.all Text.isBlank = true)
      (hw : b.awaitsCase = true) : Takes t b none b
  | chains {test : Expr} {top : OpenNode} {below : List OpenNode} (h : IsTag .elseIf (some test) t)
      (hs : b.stack = top :: below) (hk : top.node.kind = .condition) (hb : top.node.branch = none) :
      Takes t b none { b with stack := ⟨⟨.condition test, t.span, some [], none⟩, true⟩ :: b.stack }
  | begins {kind : Kind} {params : Option Expr} {top : OpenNode} {below : List OpenNode} {node : Node}
      (h : IsTag kind params t) (hs : b.stack = top :: below) (hn : Node.Begins kind t params top.node node) :
      Takes t b none { b with stack := { top with node } :: below }
  | opens {kind : Kind} {params : Option Expr} {n : Node} (h : IsTag kind params t) (hw : b.awaitsCase = false)
      (hn : n.IsNew kind t params) (hb : n.body.isSome) (hself : t.selfClosing = false) :
      Takes t b none { b with stack := ⟨n, false⟩ :: b.stack }
  | holds {sort : Single} {params : Option Expr} {n : Node} (h : IsTag (.single sort) params t)
      (hw : b.awaitsCase = false) (hn : n.IsNew (.single sort) t params) (hself : t.selfClosing = false) :
      Takes t b none { b with pending := some n }
  | places {kind : Kind} {params : Option Expr} {n : Node} {b' : Builder} (h : IsTag kind params t)
      (hw : b.awaitsCase = false) (hn : n.IsNew kind t params) (hb : t.selfClosing = true ∨ n.body = none)
      (hself : t.selfClosing = true ∨ ∀ sort, kind ≠ .single sort) (ha : Adds n b b') : Takes t b none b'

/-- What a token does: it ends the pending node, or acts once that is settled. -/
inductive Pushes (t : Token) (b : Builder) : Option ExprError → Builder → Prop
  | absorbs {n : Node} {b' : Builder} (h : b.pending = some n) (hc : t.closing = true)
      (hk : Kind.ofToken? t = some n.kind) (ha : Adds (n.endAt t.span.stop) { b with pending := none } b') :
      Pushes t b none b'
  | takes {out : Option ExprError} {b' b'' : Builder}
      (ha : ∀ n, b.pending = some n → t.closing = true → Kind.ofToken? t ≠ some n.kind)
      (hs : Settles b b') (h : Takes t b' out b'') : Pushes t b out b''

/-! ### Finished nodes find a place -/

/-- What the innermost node of a stack rests on is well made itself. -/
theorem Stacked.under {stack : List OpenNode} (h : Stacked stack) :
    ∀ top below, stack = top :: below → Rests top below ∧ Stacked below := by
  rintro top below rfl
  cases h with | cons _ hr hs => exact ⟨hr, hs⟩

theorem Stacked.tail {o : OpenNode} {below : List OpenNode} (h : Stacked (o :: below)) : Stacked below := by
  cases h with | cons _ _ hs => exact hs

theorem adds_add {b : Builder} (hs : Stacked b.stack) (hw : b.awaitsCase = false) (n : Node) : Adds n b (b.add n) := by
  unfold add
  split
  · next hst => exact .outermost hst
  · next top below hst =>
    rw [hst] at hs
    rw [awaitsCase, hst] at hw
    cases hs with
    | cons ho _ _ =>
      obtain ⟨node, hn, -⟩ := ho.add? hw n
      rw [hn]
      exact .inner hst hn

theorem Rests.congr {o o' : OpenNode} {below : List OpenNode} (h : Rests o below) (hc : o'.chained = o.chained)
    (hk : o'.node.kind = o.node.kind) : Rests o' below := by
  cases h with
  | outermost h => exact .outermost (hc.trans h)
  | content h hp => exact .content (hc.trans h) hp
  | chained h ho hp hb => exact .chained (hc.trans h) (hk.trans ho) hp hb

theorem Adds.stacked {n : Node} {b b' : Builder} (h : Adds n b b') (hs : Stacked b.stack) : Stacked b'.stack := by
  cases h with
  | outermost => exact hs
  | inner hst hn =>
    rw [hst] at hs
    cases hs with
    | cons ho hr hs =>
      exact .cons (ho.of_add? hn).2.2 (hr.congr rfl (congrArg Head.kind (Node.add?_head hn))) hs

/-- Content leaves a node that takes content one that does. -/
theorem Adds.awaitsCase {n : Node} {b b' : Builder} (h : Adds n b b') (hs : Stacked b.stack) :
    b'.awaitsCase = false := by
  cases h with
  | outermost hst => simp only [Builder.awaitsCase, hst]
  | inner hst hn =>
    rw [hst] at hs
    cases hs with
    | cons ho _ _ =>
      obtain ⟨hw, hgrows, -⟩ := ho.of_add? hn
      exact hgrows.awaitsCase hw

theorem Adds.pending_eq {n : Node} {b b' : Builder} (h : Adds n b b') : b'.pending = b.pending := by
  cases h <;> rfl

theorem Adds.errors_eq {n : Node} {b b' : Builder} (h : Adds n b b') : b'.errors = b.errors := by
  cases h <;> rfl

theorem Adds.stop_eq {n : Node} {b b' : Builder} (h : Adds n b b') : b'.stop = b.stop := by
  cases h <;> rfl

/-- What content does not change in an open node. -/
def outline (o : OpenNode) : Bool × Head × Span :=
  (o.chained, o.node.head, o.node.span)

theorem Adds.outline_eq {n : Node} {b b' : Builder} (h : Adds n b b') (hs : Stacked b.stack) :
    b'.stack.map outline = b.stack.map outline := by
  cases h with
  | outermost => rfl
  | inner hst hn =>
    rw [hst] at hs ⊢
    cases hs with
    | cons ho _ _ =>
      obtain ⟨-, hgrows, -⟩ := ho.of_add? hn
      simp [outline, hgrows.head_eq, hgrows.span_eq]

/-! ### Finished nodes are attached -/

theorem attaches_attach {o : OpenNode} {b : Builder} (hr : Rests o b.stack) (hs : Stacked b.stack) :
    Attaches o b (b.attach o) := by
  unfold attach
  split
  · next parent below hc hst =>
    rw [hst] at hr
    cases hr with
    | content hc' => rw [hc] at hc'; cases hc'
    | chained _ _ hp hb =>
      rw [if_pos hp]
      exact .alternative hc hst hp hb
  · next hne =>
    cases hst : b.stack with
    | nil =>
      rw [hst] at hr
      cases hr with
      | outermost hc => exact .content hc (adds_add hs (by simp only [Builder.awaitsCase, hst]) _)
    | cons p below =>
      rw [hst] at hr
      cases hr with
      | content hc hp => exact .content hc (adds_add hs (by simpa only [Builder.awaitsCase, hst] using hp) _)
      | chained hc => exact absurd hst (hne p below hc)

/-- A chained node leaves the condition below it on top, now with an alternative. -/
theorem Attaches.of_chained {o : OpenNode} {b b' : Builder} (h : Attaches o b b') (hc : o.chained = true)
    (hs : Stacked b.stack) :
    ∃ parent below, b.stack = parent :: below ∧ parent.node.kind = .condition ∧ parent.node.branch = none ∧
      Rests parent below ∧ Stacked below ∧
      b' = { b with stack := { parent with node := { parent.node with branch := some [o.node] } } :: below } := by
  cases h with
  | @alternative parent below _ hst hk hb =>
    rw [hst] at hs
    cases hs with
    | cons _ hr hs => exact ⟨parent, below, hst, hk, hb, hr, hs, rfl⟩
  | content hc' => rw [hc] at hc'; cases hc'

theorem Attaches.of_not_chained {o : OpenNode} {b b' : Builder} (h : Attaches o b b') (hc : o.chained = false) :
    Adds o.node b b' := by
  cases h with
  | alternative hc' => rw [hc] at hc'; cases hc'
  | content _ h => exact h

theorem Attaches.pending_eq {o : OpenNode} {b b' : Builder} (h : Attaches o b b') : b'.pending = b.pending := by
  cases h with
  | alternative => rfl
  | content _ h => exact h.pending_eq

theorem Attaches.errors_eq {o : OpenNode} {b b' : Builder} (h : Attaches o b b') : b'.errors = b.errors := by
  cases h with
  | alternative => rfl
  | content _ h => exact h.errors_eq

theorem releases_release {b : Builder} {top : OpenNode} {below : List OpenNode} (h : b.stack = top :: below)
    (hr : Rests top below) (hs : Stacked below) (partStop stop : Nat) :
    Releases partStop stop b top (b.release partStop stop) := by
  refine .mk h ?_
  have hr' : Rests { top with node := (top.node.endPart partStop).endAt stop } below :=
    hr.congr rfl (congrArg Head.kind (Node.endPart_head partStop top.node))
  rw [release, h]
  exact attaches_attach hr' hs

/-! ### Closing -/

theorem repeat_succ {α : Type} (f : α → α) (n : Nat) (a : α) :
    Nat.repeat f (n + 1) a = Nat.repeat f n (f a) := by
  induction n with
  | zero => rfl
  | succ n ih => exact congrArg f ih

theorem Releases.attaches {partStop stop : Nat} {b b' : Builder} {top o : OpenNode} {below : List OpenNode}
    (h : Releases partStop stop b o b') (hst : b.stack = top :: below) :
    o = top ∧
      Attaches { top with node := (top.node.endPart partStop).endAt stop } { b with stack := below } b' := by
  cases h with
  | mk hst' ha =>
    rw [hst] at hst'
    cases hst'
    exact ⟨rfl, ha⟩

/-- Releasing a chained condition uncovers the one that it continues. -/
theorem Releases.of_chained {partStop stop : Nat} {b b' : Builder} {top o : OpenNode} {below : List OpenNode}
    (h : Releases partStop stop b o b') (hst : b.stack = top :: below) (hc : top.chained = true) (hs : Stacked below) :
    ∃ parent rest alternative, below = parent :: rest ∧ parent.node.kind = .condition ∧ Rests parent rest ∧
      Stacked rest ∧
      b' = { b with stack := { parent with node := { parent.node with branch := some [alternative] } } :: rest } := by
  obtain ⟨-, ha⟩ := h.attaches hst
  obtain ⟨parent, rest, hbelow, hk, -, hr, hs, heq⟩ := ha.of_chained hc hs
  exact ⟨parent, rest, _, hbelow, hk, hr, hs, heq⟩

/-- The chained conditions are released one by one. The node that they continue is on top then; it is the old top, or
both are conditions. -/
private theorem unwinds_repeat (span : Span) {b : Builder} {top : OpenNode} {below : List OpenNode}
    (h : b.stack = top :: below) (hr : Rests top below) (hs : Stacked below) :
    ∃ o rest, (Nat.repeat (release span.start span.start) b.chainLength b).stack = o :: rest ∧
      (o = top ∨ top.node.kind = .condition ∧ o.node.kind = .condition) ∧
      Unwinds span b ((Nat.repeat (release span.start span.start) b.chainLength b).release span.start span.stop) := by
  induction below generalizing b top with
  | nil =>
    cases hr with
    | outermost hc =>
      have hzero : b.chainLength = 0 := by simp [chainLength, h, hc]
      rw [hzero]
      exact ⟨top, [], h, .inl rfl, .last hc (releases_release h (.outermost hc) hs _ _)⟩
  | cons p below ih =>
    cases hc : top.chained with
    | false =>
      have hzero : b.chainLength = 0 := by simp [chainLength, h, hc]
      rw [hzero]
      exact ⟨top, p :: below, h, .inl rfl, .last hc (releases_release h hr hs _ _)⟩
    | true =>
      have hrel := releases_release h hr hs span.start span.start
      obtain ⟨parent, rest, alternative, hbelow, hk, hrests, hstacked, heq⟩ := hrel.of_chained h hc hs
      cases hbelow
      -- the condition below is on top now, and the chain is shorter by one
      have hst' := congrArg stack heq
      have hlength : b.chainLength = (b.release span.start span.start).chainLength + 1 := by
        simp only [chainLength, h, hst', List.takeWhile_cons, hc, ↓reduceIte, List.length_cons]
        split <;> rfl
      obtain ⟨o, rest, ho, hor, hu⟩ := ih hst' (hrests.congr rfl rfl) hstacked
      have htop : top.node.kind = .condition := by
        cases hr with
        | content hc' => rw [hc] at hc'; cases hc'
        | chained _ ho _ _ => exact ho
      rw [hlength, repeat_succ]
      refine ⟨o, rest, ho, .inr ⟨htop, ?_⟩, .chained hc hrel hu⟩
      rcases hor with rfl | ⟨-, hok⟩
      · exact hk
      · exact hok

theorem lacksRecover_of_condition {n : Node} (h : n.kind = .condition) : n.lacksRecover = false := by
  simp [Node.lacksRecover, h]

theorem unwinds_closeTop (span : Span) {b : Builder} {top : OpenNode} {below : List OpenNode}
    (h : b.stack = top :: below) (hr : Rests top below) (hs : Stacked below) :
    ∃ b', Unwinds span b b' ∧ b.closeTop span =
      if top.node.lacksRecover then b'.report .missingRecover (top.node.endAt span.stop).span else b' := by
  obtain ⟨o, rest, ho, hor, hu⟩ := unwinds_repeat span h hr hs
  refine ⟨_, hu, ?_⟩
  simp only [closeTop, ho]
  rcases hor with rfl | ⟨htop, hok⟩
  · rfl
  · rw [lacksRecover_of_condition htop, lacksRecover_of_condition hok]
    rfl

/-! ### The pending node -/

theorem settles_settle {b : Builder} (hs : Stacked b.stack) (hp : b.pending.isSome → b.awaitsCase = false) :
    Settles b b.settle := by
  unfold settle
  split
  · next h => exact .idle h
  · next n h => exact .held h (@adds_add { b with pending := none } hs (hp (by simp [h])) n)

theorem Settles.pending_eq {b b' : Builder} (h : Settles b b') : b'.pending = none := by
  cases h with
  | idle h => exact h
  | held _ ha => exact ha.pending_eq

theorem Settles.errors_eq {b b' : Builder} (h : Settles b b') : b'.errors = b.errors := by
  cases h with
  | idle => rfl
  | held _ ha => exact ha.errors_eq

theorem Settles.stacked {b b' : Builder} (h : Settles b b') (hs : Stacked b.stack) : Stacked b'.stack := by
  cases h with
  | idle => exact hs
  | held _ ha => exact ha.stacked hs

/-! ### Opening tags -/

theorem exists_of_map_eq_ok {α β ε : Type} {f : α → β} {x : Except ε α} {y : β} (h : x.map f = .ok y) :
    ∃ a, x = .ok a ∧ f a = y := by
  cases x with
  | error e => cases h
  | ok a => exact ⟨a, rfl, Except.ok.inj h⟩

theorem takes_continueTop {b : Builder} {kind : Kind} {params : Option Expr} {t : Token} (h : IsTag kind params t) :
    Takes t b none (b.orReport t.span (b.continueTop kind t params)) := by
  cases hb : b.continueTop kind t params with
  | error fault => exact .faults fault
  | ok b' =>
    unfold continueTop at hb
    split at hb
    · cases hb
    · next top below hst =>
      split at hb
      · next test hh =>
        split at hb
        · cases hb
        · next hbranch =>
          cases hb
          exact .chains h hst (congrArg Head.kind hh) (Option.not_isSome_iff_eq_none.mp hbranch)
      · obtain ⟨node, hn, rfl⟩ := exists_of_map_eq_ok hb
        exact .begins h hst (Node.begins_of_beginPart hn)

theorem takes_place {b : Builder} {kind : Kind} {params : Option Expr} {t : Token} {n : Node} (hs : Stacked b.stack)
    (hw : b.awaitsCase = false) (h : IsTag kind params t) (hn : n.IsNew kind t params) :
    Takes t b none (b.place t.selfClosing n) := by
  unfold place
  by_cases hopens : (n.body.isSome && !t.selfClosing) = true
  · rw [if_pos hopens]
    rw [Bool.and_eq_true, Bool.not_eq_true'] at hopens
    exact .opens h hw hn hopens.1 hopens.2
  · rw [if_neg hopens]
    have hb : t.selfClosing = true ∨ n.body = none := by
      cases hself : t.selfClosing with
      | true => exact .inl rfl
      | false => exact .inr (by simpa [hself] using hopens)
    cases hh : n.head with
    | single sort ps =>
      obtain rfl : kind = .single sort := hn.kind_eq.symm.trans (congrArg Head.kind hh)
      cases hself : t.selfClosing with
      | true => exact .places h hw hn (.inl hself) (.inl hself) (adds_add hs hw n)
      | false => exact .holds h hw hn hself
    | _ =>
      -- no other node is held
      refine .places h hw hn hb (.inr fun sort hk => ?_) (adds_add hs hw n)
      have hkind := hn.kind_eq.trans hk
      rw [Node.kind, hh] at hkind
      cases hkind

/-- What the rule for parameters refuses is reported, whatever the state is. -/
theorem accept_of_not_allows {kind : Kind} {params : Option Expr} (h : ¬kind.paramRule.Allows params) (t : Token) :
    ∃ fault, ∀ b : Builder, b.accept kind t params = .error fault := by
  unfold accept
  cases hr : kind.paramRule <;> cases params <;>
    first | exact ⟨_, fun _ => rfl⟩ | (rw [hr] at h; exact absurd trivial h)

theorem accept_of_allows {kind : Kind} {params : Option Expr} (h : kind.paramRule.Allows params) (t : Token)
    (b : Builder) :
    b.accept kind t params =
      if b.awaitsCase && kind != .case && kind != .default then
        if kind == .text && t.raw.toList.all Text.isBlank then .ok b else .error .contentBeforeCase
      else if kind.isContinuation then b.continueTop kind t params
      else (Node.ofTag kind t params).map fun n => b.place t.selfClosing n := by
  unfold accept
  cases hr : kind.paramRule <;> cases params <;> first | rfl | (rw [hr] at h; exact absurd h not_false)

/-- Only the two kinds that begin a case get past the guard of a switch without a case, and both continue a node. -/
theorem awaitsCase_eq_false_of_guard {b : Builder} {kind : Kind}
    (hw : ¬(b.awaitsCase && kind != .case && kind != .default) = true) (hcont : ¬kind.isContinuation = true) :
    b.awaitsCase = false := by
  cases hb : b.awaitsCase with
  | false => rfl
  | true =>
    simp only [hb, Bool.true_and, Bool.and_eq_true, bne_iff_ne, ne_eq] at hw
    have hcase : kind ≠ .case := by rintro rfl; exact hcont rfl
    have hdefault : kind ≠ .default := by rintro rfl; exact hcont rfl
    exact absurd ⟨hcase, hdefault⟩ hw

/-- In a switch without a case a tag is left out or reported, unless it begins a case. -/
theorem takes_accept {b : Builder} {kind : Kind} {params : Option Expr} {t : Token} (hs : Stacked b.stack)
    (hc : t.closing = false) (hk : Kind.ofToken? t = some kind) (hp : kind.readParams t = .ok params) :
    Takes t b none (b.orReport t.span (b.accept kind t params)) := by
  by_cases hrule : kind.paramRule.Allows params
  · have h : IsTag kind params t := ⟨hc, hk, hp, hrule⟩
    rw [accept_of_allows hrule]
    by_cases hw : (b.awaitsCase && kind != .case && kind != .default) = true
    · rw [if_pos hw]
      rw [Bool.and_eq_true, Bool.and_eq_true] at hw
      by_cases htext : (kind == .text && t.raw.toList.all Text.isBlank) = true
      · rw [if_pos htext]
        rw [Bool.and_eq_true, beq_iff_eq] at htext
        obtain ⟨rfl, hblank⟩ := htext
        exact .skips h hblank hw.1.1
      · rw [if_neg htext]
        exact .faults _
    · rw [if_neg hw]
      by_cases hcont : kind.isContinuation = true
      · rw [if_pos hcont]
        exact takes_continueTop h
      · rw [if_neg hcont]
        have hw := awaitsCase_eq_false_of_guard hw hcont
        cases hn : Node.ofTag kind t params with
        | error fault => exact .faults fault
        | ok n => exact takes_place hs hw h (Node.isNew_of_ofTag hn)
  · obtain ⟨fault, hfault⟩ := accept_of_not_allows hrule t
    rw [hfault]
    exact .faults fault

/-! ### Tokens -/

theorem takes_close {b : Builder} {kind : Kind} {t : Token} (hs : Stacked b.stack) (hc : t.closing = true)
    (hk : Kind.ofToken? t = some kind) : Takes t b none (b.orReport t.span (b.close kind t)) := by
  unfold close
  split
  · exact .faults _
  · next top below hst =>
    by_cases hm : top.node.closedBy kind t.tag = true
    · rw [if_pos hm]
      rw [hst] at hs
      cases hs with
      | cons _ hr hs =>
        obtain ⟨b', hu, heq⟩ := unwinds_closeTop t.span hst hr hs
        simp only [orReport, heq]
        exact .closes hc hk hst hm hu
    · rw [if_neg hm]
      exact .faults _

/-- A token that does not end the pending node. -/
theorem push_of_absorb?_eq_none {b : Builder} {t : Token} (h : b.absorb? t = none) :
    b.push t =
      match Kind.ofToken? t with
      | none => (none, b.settle.report (.unsupported t.label) t.span)
      | some kind =>
        if t.closing then (none, b.settle.orReport t.span (b.settle.close kind t))
        else
          match kind.readParams t with
          | .error e => (some e, b.settle)
          | .ok params => (none, b.settle.orReport t.span (b.settle.accept kind t params)) := by
  unfold push
  split
  · next b' hb => cases h.symm.trans hb
  · rfl

/-- In a sound state every token makes one of the moves. -/
theorem pushes_push {b : Builder} (h : b.Sound) (t : Token) : Pushes t b (b.push t).1 (b.push t).2 := by
  cases habsorb : b.absorb? t with
  | some b' =>
    have hpush : b.push t = (none, b') := by rw [push, habsorb]
    rw [hpush]
    unfold absorb? at habsorb
    split at habsorb
    · cases habsorb
    · next n hp =>
      split at habsorb
      · next hclose =>
        cases habsorb
        rw [Bool.and_eq_true, beq_iff_eq] at hclose
        have hw := h.pending (by simp [hp])
        exact .absorbs hp hclose.1 hclose.2 (@adds_add { b with pending := none } h.stack hw _)
      · cases habsorb
  | none =>
    have ha : ∀ n, b.pending = some n → t.closing = true → Kind.ofToken? t ≠ some n.kind := by
      intro n hp hc hk
      simp [absorb?, hp, hc, hk] at habsorb
    have hsettles := settles_settle h.stack h.pending
    have hs := hsettles.stacked h.stack
    refine .takes ha hsettles ?_
    rw [push_of_absorb?_eq_none habsorb]
    cases hk : Kind.ofToken? t with
    | none => exact .faults _
    | some kind =>
      cases hc : t.closing with
      | true => exact takes_close hs hc hk
      | false =>
        cases hp : kind.readParams t with
        | error e => simpa [hp] using .fails hc hk hp
        | ok params => simpa [hp] using takes_accept hs hc hk hp

end Builder

end TemplateSyntax
