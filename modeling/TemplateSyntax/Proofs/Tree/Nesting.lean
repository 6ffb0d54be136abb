import TemplateSyntax.Proofs.Span
import TemplateSyntax.Proofs.Tree.Preorder

/-!
# Nested nodes

The tag of a node stands at its start, and what is inside it behind the tag, one child behind the other. The end of a
node that is open is not known yet: its span is that of its tag, and so is that of its last part. But wherever it may
end from here on, it is nested then (`NestsFrom`), and so every token leaves the open nodes and those that are finished
(`nests_feed`).
-/

namespace TemplateSyntax

open Markup (Token)
open TemplateSyntax.Span (InOrder)

namespace Node

/-- The tag of the node stands at its start, the children behind it, one behind the other and nested themselves. What
the head has to be like, in view of the span of its tag, is left open. -/
inductive Nests (fits : Head → Span → Prop) : Node → Prop
  | intro {n : Node} {tagStop : Nat} (nonempty : n.span.start < tagStop) (head : fits n.head ⟨n.span.start, tagStop⟩)
      (children : InOrder tagStop (n.children.map span) n.span.stop) (below : ∀ c ∈ n.children, c.Nests fits) :
      Nests fits n

/-- Wherever the node and its last part end from the offset on, the node is nested. -/
def NestsFrom (fits : Head → Span → Prop) (pos : Nat) (n : Node) : Prop :=
  ∀ stop, pos ≤ stop → ((n.endPart stop).endAt stop).Nests fits

section Nests

variable {fits : Head → Span → Prop} {n m child : Node}

theorem Nests.nonempty (h : n.Nests fits) : n.span.start < n.span.stop := by
  cases h with
  | intro hne _ hchildren _ => exact Nat.lt_of_lt_of_le hne hchildren.le

/-! ### Nodes that change -/

theorem Nests.congr (h : n.Nests fits) (hhead : m.head = n.head) (hspan : m.span = n.span)
    (hchildren : m.children = n.children) : m.Nests fits := by
  cases h with
  | intro hne hfits hin hbelow =>
    exact .intro (by rwa [hspan]) (by rwa [hhead, hspan]) (by rwa [hchildren, hspan]) (by rwa [hchildren])

/-- A node may end later. -/
theorem Nests.endAt {stop : Nat} (h : n.Nests fits) (hstop : n.span.stop ≤ stop) : (n.endAt stop).Nests fits := by
  cases h with
  | intro hne hfits hin hbelow => exact .intro hne hfits (hin.mono (Nat.le_refl _) hstop) hbelow

/-- One more child goes behind the end of the node, which then ends behind the child. -/
theorem Nests.grow (h : n.Nests fits) (hchild : child.Nests fits) (hhead : m.head = n.head)
    (hstart : m.span.start = n.span.start) (hchildren : m.children = n.children ++ [child])
    (hle : n.span.stop ≤ child.span.start) (hstop : child.span.stop ≤ m.span.stop) : m.Nests fits := by
  cases h with
  | intro hne hfits hin hbelow =>
    refine .intro (by rwa [hstart]) (by rwa [hhead, hstart]) ?_ ?_
    · rw [hchildren, List.map_append]
      exact Span.inOrder_append_singleton.mpr ⟨hin.mono (Nat.le_refl _) hle, hchild.nonempty, hstop⟩
    · rw [hchildren]
      exact List.forall_mem_append.mpr ⟨hbelow, List.forall_mem_singleton.mpr hchild⟩

/-- The last child may be changed where it is, if it ends inside the node. -/
theorem Nests.changeLast {init : List Node} {p p' : Node} (h : n.Nests fits) (hp' : p'.Nests fits)
    (hhead : m.head = n.head) (hstart : m.span.start = n.span.start) (hn : n.children = init ++ [p])
    (hm : m.children = init ++ [p']) (hp : p'.span.start = p.span.start) (hstop : p'.span.stop ≤ m.span.stop) :
    m.Nests fits := by
  cases h with
  | intro hne hfits hin hbelow =>
    rw [hn, List.map_append] at hin
    rw [hn] at hbelow
    obtain ⟨hinit, -, -⟩ := Span.inOrder_append_singleton.mp hin
    refine .intro (by rwa [hstart]) (by rwa [hhead, hstart]) ?_ ?_
    · rw [hm, List.map_append]
      exact Span.inOrder_append_singleton.mpr ⟨hp ▸ hinit, hp'.nonempty, hstop⟩
    · rw [hm]
      exact List.forall_mem_append.mpr ⟨fun c hc => hbelow c (List.mem_append_left _ hc),
        List.forall_mem_singleton.mpr hp'⟩

/-! ### Open nodes -/

theorem NestsFrom.mono {pos pos' : Nat} (h : n.NestsFrom fits pos) (hle : pos ≤ pos') : n.NestsFrom fits pos' :=
  fun stop hstop => h stop (Nat.le_trans hle hstop)

/-- An open node may end behind its last part. -/
theorem NestsFrom.nests {pos partStop stop : Nat} (h : n.NestsFrom fits pos) (hpart : pos ≤ partStop)
    (hstop : partStop ≤ stop) : ((n.endPart partStop).endAt stop).Nests fits :=
  (h partStop hpart).endAt hstop

theorem span_endPart_endAt (partStop stop : Nat) (n : Node) :
    ((n.endPart partStop).endAt stop).span = ⟨n.span.start, stop⟩ := by
  rw [Node.endAt, endPart_span]

theorem nests_of_children_eq_nil {tagStop : Nat} (h : n.children = []) (hne : n.span.start < tagStop)
    (hfits : fits n.head ⟨n.span.start, tagStop⟩) (hstop : tagStop ≤ n.span.stop) : n.Nests fits :=
  .intro hne hfits (by rwa [h]) (by simp [h])

/-- A node without children may end from the end of its tag on. -/
theorem nestsFrom_of_children_eq_nil (h : n.children = []) (hne : n.span.start < n.span.stop)
    (hfits : fits n.head n.span) : n.NestsFrom fits n.span.stop := by
  intro stop hstop
  rw [endPart_of_children_eq_nil h]
  exact @nests_of_children_eq_nil _ (n.endAt stop) n.span.stop h hne hfits hstop

/-- What an open node has as children once it has ended, and what more it has with one more child. -/
theorem IsOpen.children_endPart (hn : n.IsOpen) (h : n.add? child = some m) :
    (∀ stop, (n.endPart stop).children = n.children ∧ (m.endPart stop).children = n.children ++ [child]) ∨
      ∃ init p, p.IsOpenPart ∧ ∀ stop, (n.endPart stop).children = init ++ [p.endAt stop] ∧
        (m.endPart stop).children = init ++ [(appendToBody child p).endAt stop] := by
  cases hn with
  | @wrapper head span ns hw =>
    left
    cases head <;> first | (cases h; exact fun stop => ⟨rfl, by simp [endPart, children]⟩) | cases hw
  | @list params span ns fallback =>
    left
    cases fallback <;> (cases h; exact fun stop => ⟨rfl, by simp [endPart, children]⟩)
  | @attempt span ns fallback =>
    left
    cases fallback <;> (cases h; exact fun stop => ⟨rfl, by simp [endPart, children]⟩)
  | condition =>
    left
    cases h
    exact fun stop => ⟨rfl, by simp [endPart, children]⟩
  | @conditionElse test span ns p hp =>
    right
    have hadd : addToPart? child [p] = some [appendToBody child p] := addToPart?_append_singleton hp child []
    simp only [Node.add?, hadd, Option.map_some, Option.some.injEq] at h
    subst h
    refine ⟨ns, p, hp, fun stop => ⟨?_, ?_⟩⟩
    · simp [endPart, children, changeLast, hp.isPart]
    · simp [endPart, children, changeLast, (hp.appendToBody child).isPart]
  | @switch subject span cases hparts =>
    right
    rcases List.eq_nil_or_concat cases with rfl | ⟨init, p, rfl⟩
    · cases h
    · rw [List.concat_eq_append] at hparts h ⊢
      have hp := hparts p (by simp)
      simp only [Node.add?, Option.bind_some, addToPart?_append_singleton hp, Option.map_some, Option.some.injEq] at h
      subst h
      refine ⟨init, p, hp, fun stop => ⟨?_, ?_⟩⟩
      · simp [endPart, children, hp.isPart]
      · simp [endPart, children, (hp.appendToBody child).isPart]

/-- One more child makes a part longer as it does a node. -/
theorem IsOpenPart.nests_appendToBody {p : Node} (hp : p.IsOpenPart) {stop : Nat}
    (h : (p.endAt child.span.start).Nests fits) (hchild : child.Nests fits) (hstop : child.span.stop ≤ stop) :
    ((Node.appendToBody child p).endAt stop).Nests fits := by
  obtain ⟨ns, hns⟩ := Option.isSome_iff_exists.mp hp.body
  refine h.grow hchild rfl rfl ?_ (Nat.le_refl _) hstop
  rw [endAt_children, endAt_children]
  simp [children, Node.appendToBody, hns, hp.branch]

/-- Content goes on where the open node may end. -/
theorem NestsFrom.add? {pos : Nat} (h : n.NestsFrom fits pos) (hn : n.IsOpen) (hadd : n.add? child = some m)
    (hchild : child.Nests fits) (hpos : pos ≤ child.span.start) : m.NestsFrom fits child.span.stop := by
  obtain ⟨-, hgrows, -⟩ := hn.of_add? hadd
  intro stop hstop
  have hended := h child.span.start hpos
  have hhead : ((m.endPart stop).endAt stop).head = ((n.endPart child.span.start).endAt child.span.start).head := by
    rw [endAt_head, endAt_head, endPart_head, endPart_head, hgrows.head_eq]
  have hstart : ((m.endPart stop).endAt stop).span.start =
      ((n.endPart child.span.start).endAt child.span.start).span.start := by
    rw [span_endPart_endAt, span_endPart_endAt, hgrows.span_eq]
  have hspan := span_endPart_endAt stop stop m
  rcases hn.children_endPart hadd with hplain | ⟨init, p, hp, hpart⟩
  · refine hended.grow hchild hhead hstart ?_ (Nat.le_refl _) ?_
    · rw [endAt_children, endAt_children, (hplain _).1, (hplain _).2]
    · rwa [hspan]
  · -- the child goes into the last part
    have hlast : (p.endAt child.span.start).Nests fits := by
      cases hended with
      | intro _ _ _ hbelow =>
        refine hbelow _ ?_
        rw [endAt_children, (hpart _).1]
        simp
    refine hended.changeLast (hp.nests_appendToBody hlast hchild hstop) hhead hstart (hpart _).1 (hpart _).2 rfl ?_
    rw [hspan]
    exact Nat.le_refl stop

/-! ### New parts -/

/-- What an open node has as children once it has ended after a tag has begun a new part of it. -/
theorem Begins.children_endPart {kind : Kind} {t : Token} {params : Option Expr} (h : Begins kind t params n m)
    (hn : n.IsOpen) :
    (∀ stop, (m.endPart stop).children = (n.endPart t.span.start).children) ∨
      ∃ head, Head.begun? kind t params = some head ∧ ∀ stop,
        (m.endPart stop).children = (n.endPart t.span.start).children ++ [(part head t.span).endAt stop] := by
  cases h with
  | otherwise hk hkind hb =>
    right
    subst hk
    refine ⟨.otherwise, rfl, fun stop => ?_⟩
    cases hn with
    | condition => simp [endPart, children, changeLast, part, isPart]
    | conditionElse => cases hb
    | wrapper hw => exact absurd hkind (Head.kind_of_isWrapper hw).1
    | _ => cases hkind
  | fallback hk hb =>
    left
    intro stop
    cases hn with
    | list => simp_all [endPart, children]
    | attempt => simp_all [endPart, children]
    | conditionElse => cases hb
    | wrapper hw =>
      rcases hk with ⟨-, hk⟩ | ⟨-, hk⟩
      · exact absurd hk (Head.kind_of_isWrapper hw).2.1
      · exact absurd hk (Head.kind_of_isWrapper hw).2.2.1
    | _ => rcases hk with ⟨-, hk⟩ | ⟨-, hk⟩ <;> cases hk
  | case hk hkind hp =>
    right
    subst hk hp
    refine ⟨_, rfl, fun stop => ?_⟩
    cases hn with
    | switch => simp [beginCase, endPart, children, part, isPart]
    | wrapper hw => exact absurd hkind (Head.kind_of_isWrapper hw).2.2.2
    | _ => cases hkind
  | default hk hkind hd =>
    right
    subst hk
    refine ⟨_, rfl, fun stop => ?_⟩
    cases hn with
    | switch => simp [beginCase, endPart, children, part, isPart]
    | wrapper hw => exact absurd hkind (Head.kind_of_isWrapper hw).2.2.2
    | _ => cases hkind

theorem Begins.span_eq {kind : Kind} {t : Token} {params : Option Expr} (h : Begins kind t params n m) :
    m.span = n.span := by
  cases h with
  | otherwise | fallback => rfl
  | case | default => exact endPart_span _ n

/-- A new part begins where the open node, and the part before it, may end. -/
theorem NestsFrom.begins {kind : Kind} {t : Token} {params : Option Expr} {pos : Nat} (h : n.NestsFrom fits pos)
    (hn : n.IsOpen) (hbegins : Begins kind t params n m) (hpos : pos ≤ t.span.start) (hne : t.span.start < t.span.stop)
    (hfits : ∀ head, Head.begun? kind t params = some head → fits head t.span) : m.NestsFrom fits t.span.stop := by
  intro stop hstop
  have hended := h t.span.start hpos
  have hhead : ((m.endPart stop).endAt stop).head = ((n.endPart t.span.start).endAt t.span.start).head := by
    rw [endAt_head, endAt_head, endPart_head, endPart_head, hbegins.head_eq]
  have hspan := span_endPart_endAt stop stop m
  rw [hbegins.span_eq] at hspan
  rcases hbegins.children_endPart hn with hsame | ⟨head, hhead', hpart⟩
  · have hlater : ((n.endPart t.span.start).endAt stop).Nests fits :=
      hended.endAt (Nat.le_trans (Nat.le_of_lt hne) hstop)
    exact hlater.congr hhead (hspan.trans (span_endPart_endAt _ _ n).symm) (hsame stop)
  · have hnew : ((part head t.span).endAt stop).Nests fits :=
      nests_of_children_eq_nil rfl hne (hfits head hhead') hstop
    refine hended.grow hnew hhead ?_ (hpart stop) (Nat.le_refl _) ?_
    · rw [hspan, span_endPart_endAt]
    · rw [hspan]
      exact Nat.le_refl stop

theorem isPart_of_condition (h : n.kind = .condition) : n.isPart = false := by
  unfold isPart
  split
  · next hh => rw [Node.kind, hh] at h; cases h
  · next hh => rw [Node.kind, hh] at h; cases h
  · next hh => rw [Node.kind, hh] at h; cases h
  · rfl

/-- The condition of an `<#elseif>` goes behind what the condition before it holds. -/
theorem NestsFrom.alternative {pos : Nat} (h : n.NestsFrom fits pos) (hn : n.kind = .condition) (hb : n.branch = none)
    (hchild : child.Nests fits) (hkind : child.kind = .condition) (hpos : pos ≤ child.span.start) :
    ({ n with branch := some [child] } : Node).NestsFrom fits child.span.stop := by
  intro stop hstop
  have hpart := isPart_of_condition hkind
  have hended := h child.span.start hpos
  obtain ⟨head, span, body, branch⟩ := n
  obtain rfl : branch = none := hb
  cases head with
  | condition test =>
    refine hended.grow hchild rfl rfl ?_ (Nat.le_refl _) hstop
    rw [endAt_children, endAt_children]
    simp [endPart, children, changeLast, hpart]
  | _ => cases hn

end Nests

end Node

namespace Builder

variable {fits : Head → Span → Prop}

/-! ### Open and finished nodes -/

/-- The finished nodes lie in front of the open ones, each of which may end where the one above it starts, and the
innermost one from the offset on. -/
def StackNests (fits : Head → Span → Prop) (body : List Node) : (pos : Nat) → List OpenNode → Prop
  | pos, [] => InOrder 0 (body.map Node.span) pos ∧ ∀ n ∈ body, n.Nests fits
  | pos, o :: below => o.node.NestsFrom fits pos ∧ StackNests fits body o.node.span.start below

theorem StackNests.mono {body : List Node} {stack : List OpenNode} {pos pos' : Nat}
    (h : StackNests fits body pos stack) (hle : pos ≤ pos') : StackNests fits body pos' stack := by
  cases stack with
  | nil => exact ⟨h.1.mono (Nat.le_refl 0) hle, h.2⟩
  | cons o below => exact ⟨h.1.mono hle, h.2⟩

theorem Adds.nests {n : Node} {b b' : Builder} (h : Adds n b b') (hs : Stacked b.stack) (hn : n.Nests fits)
    (hb : StackNests fits b.body n.span.start b.stack) : StackNests fits b'.body n.span.stop b'.stack := by
  cases h with
  | outermost hst =>
    rw [hst] at hb ⊢
    obtain ⟨hin, hbody⟩ := hb
    refine ⟨?_, List.forall_mem_append.mpr ⟨hbody, List.forall_mem_singleton.mpr hn⟩⟩
    rw [List.map_append]
    exact Span.inOrder_append_singleton.mpr ⟨hin, hn.nonempty, Nat.le_refl _⟩
  | inner hst hadd =>
    rw [hst] at hb hs
    cases hs with
    | cons ho _ _ =>
      obtain ⟨-, hgrows, -⟩ := ho.of_add? hadd
      refine ⟨hb.1.add? ho hadd hn (Nat.le_refl _), ?_⟩
      rw [hgrows.span_eq]
      exact hb.2

theorem Attaches.nests {o : OpenNode} {b b' : Builder} (h : Attaches o b b') (hs : Stacked b.stack)
    (hk : o.chained = true → o.node.kind = .condition) (hn : o.node.Nests fits)
    (hb : StackNests fits b.body o.node.span.start b.stack) : StackNests fits b'.body o.node.span.stop b'.stack := by
  cases h with
  | alternative hc hst hparent hbranch =>
    rw [hst] at hb
    exact ⟨hb.1.alternative hparent hbranch hn (hk hc) (Nat.le_refl _), hb.2⟩
  | content _ h => exact h.nests hs hn hb

/-- An open node that is finished ends where the offset was, or behind it. -/
theorem Releases.nests {partStop stop pos : Nat} {b b' : Builder} {o top : OpenNode} {below : List OpenNode}
    (h : Releases partStop stop b o b') (hst : b.stack = top :: below) (hr : Rests top below) (hs : Stacked below)
    (hb : StackNests fits b.body pos b.stack) (hpos : pos ≤ partStop) (hstop : partStop ≤ stop) :
    StackNests fits b'.body stop b'.stack := by
  obtain ⟨rfl, ha⟩ := h.attaches hst
  rw [hst] at hb
  have hnode := hb.1.nests hpos hstop
  have hspan := Node.span_endPart_endAt partStop stop o.node
  have hnests := ha.nests hs ?_ hnode ?_
  · rwa [hspan] at hnests
  · intro hc
    cases hr with
    | chained _ ho _ _ => exact (congrArg Head.kind (Node.endPart_head partStop o.node)).trans ho
    | outermost hc' | content hc' => rw [hc] at hc'; cases hc'
  · rw [hspan]
    exact hb.2

theorem Unwinds.nests {span : Span} {b b' : Builder} {top : OpenNode} {below : List OpenNode} {pos : Nat}
    (hu : Unwinds span b b') (hst : b.stack = top :: below) (hr : Rests top below) (hs : Stacked below)
    (hb : StackNests fits b.body pos b.stack) (hpos : pos ≤ span.start) (hspan : span.start ≤ span.stop) :
    StackNests fits b'.body span.stop b'.stack := by
  induction hu generalizing top below pos with
  | last _ h => exact h.nests hst hr hs hb hpos hspan
  | chained hc h _ ih =>
    obtain ⟨rfl, -⟩ := h.attaches hst
    have hnests := h.nests hst hr hs hb hpos (Nat.le_refl _)
    obtain ⟨parent, rest, alternative, -, -, hrests, hstacked, rfl⟩ := h.of_chained hst hc hs
    exact ih rfl (hrests.congr rfl rfl) hstacked hnests (Nat.le_refl _)

theorem Drains.nests {stop pos : Nat} {b b' : Builder} (h : Drains stop b b')
    (htop : ∀ top below, b.stack = top :: below → Rests top below ∧ Stacked below)
    (hb : StackNests fits b.body pos b.stack) (hpos : pos ≤ stop) : StackNests fits b'.body stop b'.stack := by
  induction h generalizing pos with
  | done => exact hb.mono hpos
  | step h _ ih =>
    cases h with
    | mk hst ha =>
      obtain ⟨hr, hs⟩ := htop _ _ hst
      have h := Releases.mk hst ha
      exact ih (h.uncovers hst hs).1 (h.nests hst hr hs hb hpos (Nat.le_refl _)) (Nat.le_refl _)

/-! ### Tokens -/

/-- All that was read up to the offset is nested, or open and may end from there on. -/
structure Nests (fits : Head → Span → Prop) (pos : Nat) (b : Builder) : Prop where
  idle : b.pending = none → StackNests fits b.body pos b.stack
  held : ∀ n, b.pending = some n →
    n.Nests fits ∧ n.span.stop ≤ pos ∧ StackNests fits b.body n.span.start b.stack

theorem StackNests.nests {b : Builder} {pos : Nat} (h : StackNests fits b.body pos b.stack) (hp : b.pending = none) :
    b.Nests fits pos :=
  ⟨fun _ => h, fun n hn => by rw [hp] at hn; cases hn⟩

theorem Settles.nests {b b' : Builder} {pos : Nat} (h : Settles b b') (hs : Stacked b.stack) (hb : b.Nests fits pos) :
    StackNests fits b'.body pos b'.stack := by
  cases h with
  | idle hp => exact hb.idle hp
  | held hp ha =>
    obtain ⟨hn, hstop, hstack⟩ := hb.held _ hp
    exact (ha.nests hs hn hstack).mono hstop

theorem Takes.nests {t : Token} {b b' : Builder} {out : Option ExprError} {pos : Nat} (h : Takes t b out b')
    (hs : Stacked b.stack) (hp : b.pending = none) (hb : StackNests fits b.body pos b.stack)
    (hpos : pos ≤ t.span.start) (hne : t.span.start < t.span.stop)
    (hfits : ∀ head, Head.ofToken? t = some head → fits head t.span) : b'.Nests fits t.span.stop := by
  have hstart : StackNests fits b.body t.span.start b.stack := hb.mono hpos
  have hstop : StackNests fits b.body t.span.stop b.stack := hstart.mono (Nat.le_of_lt hne)
  -- a node that the token begins
  have hnew {kind : Kind} {params : Option Expr} {n : Node} (htag : IsTag kind params t) (hn : n.IsNew kind t params) :
      n.span.start < n.span.stop ∧ fits n.head n.span := by
    rw [hn.span]
    exact ⟨hne, hfits _ (htag.headOfToken?.trans (Head.begun?_of_isNew hn))⟩
  cases h with
  | faults fault => exact StackNests.nests (b := b.report fault t.span) hstop hp
  | fails | skips => exact hstop.nests hp
  | closes _ _ hst _ hu =>
    obtain ⟨hr, hs⟩ := hs.under _ _ hst
    have hnests := hu.nests hst hr hs hb hpos (Nat.le_of_lt hne)
    have hnests := hnests.nests (hu.pending_eq.trans hp)
    split
    · exact ⟨hnests.idle, hnests.held⟩
    · exact hnests
  | @chains test top below htag hst hk hb =>
    have hnode : Node.NestsFrom fits t.span.stop ⟨.condition test, t.span, some [], none⟩ :=
      Node.nestsFrom_of_children_eq_nil (n := ⟨.condition test, t.span, some [], none⟩) rfl hne
        (hfits _ htag.headOfToken?)
    exact StackNests.nests (b := { b with stack := ⟨⟨.condition test, t.span, some [], none⟩, true⟩ :: b.stack })
      ⟨hnode, hstart⟩ hp
  | @begins kind params top below node htag hst hn =>
    rw [hst] at hs hb
    cases hs with
    | cons ho _ _ =>
      have hnode := hb.1.begins ho hn hpos hne fun head hhead => hfits head (htag.headOfToken?.trans hhead)
      refine StackNests.nests (b := { b with stack := { top with node } :: below }) ⟨hnode, ?_⟩ hp
      rw [hn.span_eq]
      exact hb.2
  | @opens kind params n htag hw hn _ _ =>
    have hnode := Node.nestsFrom_of_children_eq_nil hn.children (hnew htag hn).1 (hnew htag hn).2
    refine StackNests.nests (b := { b with stack := ⟨n, false⟩ :: b.stack }) ⟨?_, ?_⟩ hp
    · rwa [hn.span] at hnode
    · rwa [hn.span]
  | @holds sort params n htag hw hn _ =>
    have hnode := Node.nests_of_children_eq_nil hn.children (hnew htag hn).1 (hnew htag hn).2 (Nat.le_refl _)
    refine ⟨fun hnone => (by cases hnone), fun m hm => ?_⟩
    cases hm
    rw [hn.span]
    exact ⟨hnode, Nat.le_refl _, hstart⟩
  | @places kind params n b' htag hw hn _ _ ha =>
    have hnode := Node.nests_of_children_eq_nil hn.children (hnew htag hn).1 (hnew htag hn).2 (Nat.le_refl _)
    have hnests := ha.nests hs hnode (by rwa [hn.span])
    rw [hn.span] at hnests
    exact hnests.nests (ha.pending_eq.trans hp)

theorem Pushes.nests {t : Token} {b b' : Builder} {out : Option ExprError} {pos : Nat} (h : Pushes t b out b')
    (hs : Stacked b.stack) (hb : b.Nests fits pos) (hpos : pos ≤ t.span.start) (hne : t.span.start < t.span.stop)
    (hfits : ∀ head, Head.ofToken? t = some head → fits head t.span) : b'.Nests fits t.span.stop := by
  cases h with
  | absorbs hp hc hk ha =>
    obtain ⟨hn, hstop, hstack⟩ := hb.held _ hp
    have hle := Nat.le_trans (Nat.le_trans hstop hpos) (Nat.le_of_lt hne)
    exact (ha.nests hs (hn.endAt hle) hstack).nests ha.pending_eq
  | takes _ hsettles h =>
    exact h.nests (hsettles.stacked hs) hsettles.pending_eq (hsettles.nests hs hb) hpos hne hfits

/-- What was read is nested, whatever tokens come one behind the other. -/
theorem nests_feed {b : Builder} {ts : List Token} {pos stop : Nat} (hs : b.Sound) (hb : b.Nests fits pos)
    (hin : InOrder pos (ts.map Token.span) stop)
    (hfits : ∀ t ∈ ts, ∀ head, Head.ofToken? t = some head → fits head t.span) :
    ∃ pos', pos' ≤ stop ∧ (b.feed ts).Nests fits pos' := by
  induction ts generalizing b pos with
  | nil => exact ⟨pos, hin, hb⟩
  | cons t ts ih =>
    obtain ⟨hle, hne, hin⟩ := hin
    obtain ⟨ht, hts⟩ := List.forall_mem_cons.mp hfits
    exact ih (sound_push hs t) ((pushes_push hs t).nests hs.stack hb hle hne ht) hin hts

/-! ### Programs -/

theorem Finishes.nests {b : Builder} {p : Program} {pos : Nat} (h : Finishes b p) (hs : Stacked b.stack)
    (hb : b.Nests fits pos) (hpos : pos ≤ b.stop) :
    p.stop = b.stop ∧ InOrder 0 (p.body.map Node.span) b.stop ∧ ∀ n ∈ p.body, n.Nests fits := by
  obtain ⟨b', b'', hsettles, hdrains, hnil, rfl⟩ := h
  have hnests := hsettles.nests hs hb
  have hstacked : Stacked b'.reportUnclosed.stack := by
    rw [reportUnclosed_stack]
    exact hsettles.stacked hs
  have hreport : StackNests fits b'.reportUnclosed.body pos b'.reportUnclosed.stack := by
    unfold reportUnclosed
    split <;> exact hnests
  have hend := hdrains.nests hstacked.under hreport hpos
  rw [hnil] at hend
  exact ⟨rfl, hend⟩

/-! ### The length of the template -/

theorem Attaches.stop_eq {o : OpenNode} {b b' : Builder} (h : Attaches o b b') : b'.stop = b.stop := by
  cases h with
  | alternative => rfl
  | content _ h => exact h.stop_eq

theorem Unwinds.stop_eq {span : Span} {b b' : Builder} (hu : Unwinds span b b') : b'.stop = b.stop := by
  induction hu with
  | last _ h =>
    cases h with
    | mk _ ha => exact ha.stop_eq
  | chained _ h _ ih =>
    cases h with
    | mk _ ha => exact ih.trans ha.stop_eq

theorem Takes.stop_eq {t : Token} {b b' : Builder} {out : Option ExprError} (h : Takes t b out b') :
    b'.stop = b.stop := by
  cases h with
  | closes _ _ _ _ hu =>
    split
    · exact hu.stop_eq
    · exact hu.stop_eq
  | places _ _ _ _ _ ha => exact ha.stop_eq
  | _ => rfl

theorem Pushes.stop_eq {t : Token} {b b' : Builder} {out : Option ExprError} (h : Pushes t b out b') :
    b'.stop = b.stop := by
  cases h with
  | absorbs _ _ _ ha => exact ha.stop_eq
  | takes _ hs h => exact h.stop_eq.trans hs.stop_eq

theorem feed_stop {b : Builder} (h : b.Sound) (ts : List Token) : (b.feed ts).stop = b.stop := by
  induction ts generalizing b with
  | nil => rfl
  | cons t ts ih => exact (ih (sound_push h t)).trans (pushes_push h t).stop_eq

end Builder

end TemplateSyntax
