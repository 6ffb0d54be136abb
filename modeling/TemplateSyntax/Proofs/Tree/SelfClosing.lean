import TemplateSyntax.Proofs.Concatenation
import TemplateSyntax.Proofs.Tree.Recovery
import TemplateSyntax.Proofs.Tree.Shapes
import TemplateSyntax.Proofs.Tree.Swapping

/-!
# Tags that end in themselves

A directive without content is written `<#name/>` or `<#name></#name>`. The builder takes quite different ways: the
first tag adds a node at once, while with the second spelling the node is held as pending, or lies on the stack, until
its closing tag is there. Both leave the same state but for the end of the one node (`push_opened_push`), so whatever
comes before and behind, both spellings make the same program with the same errors, where the node of the tag ends at
the end of its closing tag (`ofTokens_opened`).
-/

namespace TemplateSyntax

open Markup (Token)

namespace Markup.Token

/-- The tag without the slash in front of its end. -/
def opened (t : Token) : Token :=
  { t with selfClosing := false }

/-- A closing tag of the directive that the tag begins. -/
structure ClosesTag (t c : Token) : Prop where
  directive : c.kind = .directive
  closing : c.closing = true
  tag : c.tag = t.tag

/-- A directive tag that begins a node and ends it, where a closing tag might have ended the node as well: an attempt
needs its `<#recover>` before it is closed, and the tag of a variable has no closing tag unless the body is captured. -/
structure EndsItself (t : Token) : Prop where
  directive : t.kind = .directive
  opening : t.closing = false
  selfClosing : t.selfClosing = true
  begins : ∀ kind, Kind.ofToken? t = some kind → kind.isContinuation = false
  notAttempt : Kind.ofToken? t ≠ some .attempt
  captures : ∀ scope params, Kind.ofToken? t = some (.assign scope) →
    (Kind.assign scope).readParams t = .ok (some params) → params.setter? = some .capture

end Markup.Token

open Markup.Token (ClosesTag EndsItself)

/-! ### The tag and its node -/

theorem Kind.ofToken?_of_closesTag {t c : Token} (ht : t.kind = .directive) (hc : ClosesTag t c) :
    Kind.ofToken? c = Kind.ofToken? t := by
  simp only [ofToken?, hc.directive, ht, hc.tag]

theorem Kind.ne_of_directive {t : Token} {kind : Kind} (ht : t.kind = .directive) (hk : Kind.ofToken? t = some kind) :
    kind ≠ .text ∧ kind ≠ .comment ∧ kind ≠ .interpolation ∧ kind ≠ .macroCall := by
  simp only [ofToken?, ht] at hk
  obtain ⟨tag, -, hname⟩ := Option.bind_eq_some_iff.mp hk
  have hmem := List.mem_of_find?_eq_some hname
  clear hk hname
  revert kind
  decide

theorem IsTag.opened {kind : Kind} {params : Option Expr} {t : Token} (h : IsTag kind params t) :
    IsTag kind params t.opened :=
  ⟨h.opening, h.ofToken, h.read, h.rule⟩

theorem Head.eq_of_ofTag_assign {kind : Kind} {t : Token} {params : Option Expr} {scope : Scope} {e : Expr}
    (h : Head.ofTag kind t params = .ok (.assign scope e)) : kind = .assign scope ∧ params = some e := by
  obtain rfl : Kind.assign scope = kind := Head.kind_of_ofTag h
  cases params with
  | none => cases h
  | some e' =>
    unfold Head.ofTag Head.given at h
    dsimp only at h
    split at h
    · cases h
      exact ⟨rfl, rfl⟩
    · cases h

/-- The node of such a tag is complete in one tag, or wraps a body. -/
theorem Markup.Token.EndsItself.single_or_wraps {kind : Kind} {params : Option Expr} {t : Token} {n : Node}
    (ht : EndsItself t) (htag : IsTag kind params t) (hn : n.IsNew kind t params) :
    (∃ sort ps, n.head = .single sort ps) ∨ n.head.wraps t.selfClosing = true := by
  obtain ⟨htext, hcomment, hinterpolation, hcall⟩ := Kind.ne_of_directive ht.directive htag.ofToken
  have hhead := hn.head
  have hkind := hn.kind_eq
  cases hh : n.head with
  | single sort ps => exact .inl ⟨sort, ps, rfl⟩
  | assign scope e =>
    rw [hh] at hhead
    obtain ⟨rfl, rfl⟩ := Head.eq_of_ofTag_assign hhead
    have hcapture := ht.captures scope e htag.ofToken htag.read
    exact .inr (by simp [Head.wraps, hcapture])
  | text => exact absurd (hkind.symm.trans (congrArg Head.kind hh)) htext
  | comment => exact absurd (hkind.symm.trans (congrArg Head.kind hh)) hcomment
  | interpolation => exact absurd (hkind.symm.trans (congrArg Head.kind hh)) hinterpolation
  | macroCall => exact absurd (hkind.symm.trans (congrArg Head.kind hh)) hcall
  | _ => exact .inr rfl

namespace Node

/-- The slash matters only to the node of a macro call. -/
theorem IsNew.ofTag_opened {kind : Kind} {t : Token} {params : Option Expr} {n : Node} (hn : n.IsNew kind t params)
    (hk : kind ≠ .macroCall) : Node.ofTag kind t.opened params = .ok n := by
  have hhead : Head.ofTag kind t.opened params = .ok n.head := hn.head
  have hwraps : n.head.wraps t.opened.selfClosing = n.head.wraps t.selfClosing := by
    cases hh : n.head with
    | macroCall => exact absurd (hn.kind_eq.symm.trans (congrArg Head.kind hh)) hk
    | _ => rfl
  have hspan : t.opened.span = n.span := hn.span.symm
  have hbody := hn.body
  obtain ⟨head, span, body, branch⟩ := n
  obtain rfl : branch = none := hn.branch
  rw [Node.ofTag, hhead, Except.map, hwraps, hspan, ← hbody]

theorem IsNew.isPart_eq_false {kind : Kind} {t : Token} {params : Option Expr} {n : Node} (hn : n.IsNew kind t params) :
    n.isPart = false := by
  rw [isPart_eq, hn.kind_eq]
  exact Kind.isPart_of_isContinuation (Head.isContinuation_of_ofTag hn.head)

end Node

namespace Builder

/-! ### The two spellings -/

/-- Taken without an error, the tag adds a node at once. -/
theorem push_of_endsItself {b : Builder} {t : Token} (hb : b.Sound) (ht : EndsItself t) (hout : (b.push t).1 = none)
    (he : (b.push t).2.errors = b.errors) :
    ∃ kind params n, IsTag kind params t ∧ b.settle.awaitsCase = false ∧ n.IsNew kind t params ∧
      b.push t = (none, b.settle.add n) := by
  have hopening {closing : Bool} (hc : t.closing = closing) : closing = false := hc.symm.trans ht.opening
  have hself {selfClosing : Bool} (hs : t.selfClosing = selfClosing) : selfClosing = true :=
    hs.symm.trans ht.selfClosing
  have hmoves := pushes_push hb t
  generalize b.push t = pushed at hout he hmoves ⊢
  obtain ⟨out, b'⟩ := pushed
  obtain rfl : out = none := hout
  dsimp only at he hmoves
  cases hmoves with
  | absorbs _ hc => cases hopening hc
  | takes _ hs htakes =>
    cases htakes with
    | faults => simp [report, hs.errors_eq] at he
    | closes hc => cases hopening hc
    | skips htag =>
      have htext := Kind.ofToken?_eq_text htag.ofToken
      rw [ht.directive] at htext
      cases htext
    | chains htag => cases ht.begins _ htag.ofToken
    | begins htag _ hn =>
      have hkind := ht.begins _ htag.ofToken
      cases hn with
      | fallback hk =>
        obtain ⟨rfl, -⟩ | ⟨rfl, -⟩ := hk
        · cases hkind
        · cases hkind
      | otherwise hk | case hk | default hk =>
        subst hk
        cases hkind
    | opens _ _ _ _ hs => cases hself hs
    | holds _ _ _ hs => cases hself hs
    | @places kind params n _ htag hw hn _ _ ha =>
      rw [hs.eq_settle] at hw ha
      exact ⟨kind, params, n, htag, hw, hn, congrArg (Prod.mk none) ha.eq_add⟩

/-- A closing tag ends the node on top, which has nothing in it. -/
private theorem push_of_top {b : Builder} {kind : Kind} {c : Token} {n : Node} (hp : b.pending = none)
    (hk : Kind.ofToken? c = some kind) (hc : c.closing = true) (hclosed : n.closedBy kind c.tag = true)
    (hl : n.lacksRecover = false) (hn : n.children = []) :
    push c { b with stack := ⟨n, false⟩ :: b.stack } = (none, b.add (n.endAt c.span.stop)) := by
  let opened : Builder := { b with stack := ⟨n, false⟩ :: b.stack }
  have hrelease : opened.release c.span.start c.span.stop = b.add (n.endAt c.span.stop) := by
    change b.add ((n.endPart c.span.start).endAt c.span.stop) = _
    rw [Node.endPart_of_children_eq_nil hn]
  have hcloseTop : opened.closeTop c.span = b.add (n.endAt c.span.stop) := by
    change (if n.lacksRecover then _ else opened.release c.span.start c.span.stop) = _
    rw [hl, if_neg Bool.false_ne_true, hrelease]
  have hclose : opened.close kind c = .ok (b.add (n.endAt c.span.stop)) := by
    change (if n.closedBy kind c.tag then Except.ok (opened.closeTop c.span) else _) = _
    rw [if_pos hclosed, hcloseTop]
  have hpending : opened.pending = none := hp
  have habsorb : opened.absorb? c = none := by rw [absorb?, hpending]
  change opened.push c = _
  rw [push_of_absorb?_eq_none habsorb, hk, settle_of_pending_eq_none hpending, hc]
  dsimp only
  rw [hclose, if_pos rfl]
  rfl

/-- A closing tag ends the pending node. -/
private theorem push_of_pending {b : Builder} {c : Token} {n : Node} (hp : b.pending = none)
    (hk : Kind.ofToken? c = some n.kind) (hc : c.closing = true) :
    push c { b with pending := some n } = (none, b.add (n.endAt c.span.stop)) := by
  have hidle : { b with pending := none } = b := by rw [← hp]
  have habsorb : absorb? c { b with pending := some n } = some (b.add (n.endAt c.span.stop)) := by
    simp [absorb?, hc, hk, hidle]
  rw [push, habsorb]

/-- Without the slash the node waits for its closing tag, which leaves the state that the slash leaves. -/
theorem push_opened_push {b : Builder} {kind : Kind} {params : Option Expr} {t c : Token} {n : Node} (hb : b.Sound)
    (ht : EndsItself t) (hc : ClosesTag t c) (htag : IsTag kind params t) (hw : b.settle.awaitsCase = false)
    (hn : n.IsNew kind t params) :
    ∃ b', b.push t.opened = (none, b') ∧ b'.push c = (none, b.settle.add (n.endAt c.span.stop)) := by
  have hp := (settles_settle hb.stack hb.pending).pending_eq
  have hkind : Kind.ofToken? c = some n.kind := by
    rw [Kind.ofToken?_of_closesTag ht.directive hc, htag.ofToken, hn.kind_eq]
  have hcall := (Kind.ne_of_directive ht.directive htag.ofToken).2.2.2
  have hpush : b.push t.opened = (none, b.settle.place false n) :=
    push_of_accept htag.opened (accept_of_ofTag htag.opened hw (hn.ofTag_opened hcall))
  refine ⟨_, hpush, ?_⟩
  have hbody := hn.body
  obtain ⟨sort, ps, hsingle⟩ | hwraps := ht.single_or_wraps htag hn
  · have hplace : b.settle.place false n = { b.settle with pending := some n } := by
      rw [hsingle] at hbody
      rw [place, hbody, hsingle]
      rfl
    rw [hplace]
    exact push_of_pending hp hkind hc.closing
  · have hplace : b.settle.place false n = { b.settle with stack := ⟨n, false⟩ :: b.settle.stack } := by
      rw [place, hbody, hwraps]
      rfl
    have hclosed : n.closedBy n.kind c.tag = true := by
      refine Node.closedBy_iff.mpr ⟨rfl, ?_⟩
      cases hh : n.head with
      | macroCall => exact absurd (hn.kind_eq.symm.trans (congrArg Head.kind hh)) hcall
      | _ => trivial
    have hl : n.lacksRecover = false := by
      have hattempt : n.kind ≠ .attempt := fun hk => ht.notAttempt (by rw [htag.ofToken, ← hn.kind_eq, hk])
      simp [Node.lacksRecover, hattempt]
    rw [hplace]
    exact push_of_top hp hkind hc.closing hclosed hl hn.children

/-- The walk over what has its place is that over the state before the pending node had its own. -/
theorem placed_settle {b : Builder} (hb : b.Sound) : b.settle.placed = b.marks := by
  have hstamps := (settles_settle hb.stack hb.pending).placedStamps hb.stack
  rw [marks_eq, ← hstamps, placed, placedStamps, List.map_append, Node.marks_eq, stackMarks_eq]

/-- Whatever follows, both states come to the same outcome, with programs that differ in the one node. -/
theorem Swapped.build {n m : Node} {front : List (Head × Nat)} {b b' : Builder} (h : Swapped n m front b b')
    (hhead : m.head = n.head) (hpart : n.isPart = false) (hb : b.Sound) (ts : List Token) :
    Agrees (fun p p' => p'.stop = p.stop ∧ p'.errors = p.errors ∧ Node.Swaps n m front p.body p'.body) (b.build ts)
      (b'.build ts) := by
  obtain ⟨herror, hswapped⟩ := h.pushAll hhead hpart hb ts
  have hsound := sound_pushAll hb ts
  unfold Builder.build
  generalize b.pushAll ts = pushed at herror hswapped hsound ⊢
  generalize b'.pushAll ts = pushed' at herror hswapped ⊢
  obtain ⟨error, c⟩ := pushed
  obtain ⟨error', c'⟩ := pushed'
  obtain rfl : error' = error := herror
  cases error' with
  | none => exact .ok (hswapped.finish hhead hpart hsound)
  | some e => exact .error e

end Builder

/-- Let a tag that ends in itself be accepted behind any tokens, and let it be written without its slash and with a
closing tag behind it. Whatever tokens follow, the outcome is the same: the same error ends the building, or both
programs have the same errors and the same nodes, where the node of the tag, begun behind all that was there before,
ends at the end of the closing tag. -/
theorem Program.ofTokens_opened {stop : Nat} {front : List Token} {t c : Token} {b : Builder} (ht : EndsItself t)
    (hfront : (Builder.new stop).pushAll front = (none, b)) (hout : (b.push t).1 = none)
    (he : (b.push t).2.errors = b.errors) (hc : ClosesTag t c) :
    ∃ n : Node, n.StandsFor t ∧ n.span = t.span ∧ n.children = [] ∧ ∀ rest,
      Agrees (fun p p' => p'.stop = p.stop ∧ p'.errors = p.errors ∧
          Node.Swaps n (n.endAt c.span.stop) b.marks p.body p'.body)
        (Program.ofTokens (front ++ t :: rest) stop) (Program.ofTokens (front ++ t.opened :: c :: rest) stop) := by
  have hb : b.Sound := by
    have hsound := Builder.sound_pushAll (Builder.sound_new stop) front
    rwa [hfront] at hsound
  obtain ⟨kind, params, n, htag, hw, hn, hpush⟩ := Builder.push_of_endsItself hb ht hout he
  obtain ⟨b', hopened, hclosed⟩ := Builder.push_opened_push hb ht hc htag hw hn
  refine ⟨n, ?_, hn.span, hn.children, fun rest => ?_⟩
  · refine Node.standsFor_of_mark ?_
    rw [htag.headOfToken?, Head.begun?_of_isNew hn, Option.map_some, ← hn.span]
    rfl
  · have hs := (Builder.settles_settle hb.stack hb.pending).stacked hb.stack
    have hsound : (b.settle.add n).Sound := by
      have hsound := Builder.sound_push hb t
      rwa [hpush] at hsound
    have hswapped : Builder.Swapped n (n.endAt c.span.stop) b.marks (b.settle.add n)
        (b.settle.add (n.endAt c.span.stop)) := by
      have hadd := Builder.swapped_add hs hw (@Node.Swaps.here n (n.endAt c.span.stop) [] [])
      have hnone : Node.marks [] = [] := rfl
      rwa [Builder.placed_settle hb, hnone, List.append_nil] at hadd
    rw [← Builder.build_new, ← Builder.build_new, Builder.build_append hfront, Builder.build_append hfront,
      Builder.build_cons hpush, Builder.build_cons hopened, Builder.build_cons hclosed]
    exact hswapped.build rfl hn.isPart_eq_false hsound rest

/-- `<#compress/>` in an attempt is the same as `<#compress></#compress>` there, whatever follows. -/
theorem Program.ofTokens_opened_compress :
    let attempt : Token := ⟨.directive, ⟨0, 10⟩, "<#attempt>", some "attempt", none, false, false⟩
    let t : Token := ⟨.directive, ⟨10, 22⟩, "<#compress/>", some "compress", none, false, true⟩
    let c : Token := ⟨.directive, ⟨22, 34⟩, "</#compress>", some "compress", none, true, false⟩
    ∃ n : Node, n.StandsFor t ∧ n.span = ⟨10, 22⟩ ∧ n.children = [] ∧ ∀ rest,
      Agrees (fun p p' => p'.stop = p.stop ∧ p'.errors = p.errors ∧
          Node.Swaps n (n.endAt 34) [(.attempt, 0)] p.body p'.body)
        (Program.ofTokens (attempt :: t :: rest) 60) (Program.ofTokens (attempt :: t.opened :: c :: rest) 60) := by
  intro attempt t c
  have hkind : Kind.ofToken? t = some (.block .compress) := by decide +kernel
  have ht : EndsItself t := by
    refine ⟨rfl, rfl, rfl, fun kind hk => ?_, ?_, fun scope params hk => ?_⟩
    · rw [hkind] at hk
      cases hk
      rfl
    · rw [hkind]
      decide
    · rw [hkind] at hk
      cases hk
  have hfront : ((Builder.new 60).pushAll [attempt]).1 = none := by decide +kernel
  have hc : ClosesTag t c := ⟨rfl, rfl, rfl⟩
  exact ofTokens_opened ht (Prod.ext hfront rfl) (by decide +kernel) (by decide +kernel) hc

end TemplateSyntax
