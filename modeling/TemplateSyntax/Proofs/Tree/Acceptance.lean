import TemplateSyntax.Proofs.Tree.Frames
import TemplateSyntax.Template

/-!
# The builder accepts the grammar

A token that is neither reported nor failing makes a step from the frames before it to those after it
(`steps_of_push`), and every step is one that the builder makes (`push_of_steps`). So the builder gets through a list of
tokens just when they are what remains (`pushAll_iff_remains`), and a template is built without an error just when its
tokens can be derived (`errors_eq_nil_iff_derives`).
-/

namespace TemplateSyntax

open Markup (Token)

/-! ### Tokens that are taken make steps -/

def Kind.single? : Kind → Option Single
  | .single sort => some sort
  | _ => none

theorem not_isSingle {kind : Kind} {params : Option Expr} {t : Token} (h : IsTag kind params t)
    (hself : t.selfClosing = true ∨ ∀ sort, kind ≠ .single sort) (sort : Single) : ¬IsSingle sort t := by
  rintro ⟨⟨params', params'', hsingle, -⟩, hopen⟩
  rcases hself with hself | hkind
  · rw [hself] at hopen
    cases hopen
  · have heq := hsingle.ofToken
    rw [h.ofToken] at heq
    exact hkind sort (Option.some.inj heq)

namespace Builder

/-- The sort of the pending node. -/
def held (b : Builder) : Option Single :=
  b.pending.bind fun n => n.kind.single?

theorem held_of_pending_eq_none {b : Builder} (h : b.pending = none) : b.held = none := by
  rw [held, h]
  rfl

/-- A sound state in which only a tag that may still be closed is pending. -/
structure Ready (b : Builder) : Prop where
  sound : b.Sound
  held : ∀ n, b.pending = some n → ∃ sort, n.kind = .single sort

theorem ready_new (stop : Nat) : (new stop).Ready :=
  ⟨sound_new stop, fun n h => by cases h⟩

/-- Only a tag that may still be closed leaves a node pending. -/
theorem Takes.isTag_of_pending {t : Token} {b b' : Builder} {out : Option ExprError} (h : Takes t b out b')
    (hp : b.pending = none) {n : Node} (hn : b'.pending = some n) :
    ∃ sort params, n.kind = .single sort ∧ IsTag (.single sort) params t ∧ t.selfClosing = false := by
  have hnone : b'.pending = none →
      ∃ sort params, n.kind = .single sort ∧ IsTag (.single sort) params t ∧ t.selfClosing = false := by
    intro hp'
    rw [hp'] at hn
    cases hn
  cases h with
  | closes _ _ _ _ hu =>
    refine hnone ?_
    split
    · exact hu.pending_eq.trans hp
    · exact hu.pending_eq.trans hp
  | @holds sort params m htag _ hm hself =>
    cases hn
    exact ⟨sort, params, hm.kind_eq, htag, hself⟩
  | places _ _ _ _ _ ha => exact hnone (ha.pending_eq.trans hp)
  | _ => exact hnone hp

theorem isTag_of_pending_push {b : Builder} (h : b.Sound) {t : Token} {n : Node} (hn : (b.push t).2.pending = some n) :
    ∃ sort params, n.kind = .single sort ∧ IsTag (.single sort) params t ∧ t.selfClosing = false := by
  cases hout : b.push t with
  | mk out b' =>
    have hpush := pushes_push h t
    rw [hout] at hpush hn
    cases hpush with
    | absorbs _ _ _ ha =>
      rw [ha.pending_eq] at hn
      cases hn
    | takes _ hs htakes => exact htakes.isTag_of_pending hs.pending_eq hn

theorem ready_push {b : Builder} (h : b.Ready) (t : Token) : (b.push t).2.Ready := by
  refine ⟨sound_push h.sound t, fun n hn => ?_⟩
  obtain ⟨sort, params, hkind, -, -⟩ := isTag_of_pending_push h.sound hn
  exact ⟨sort, hkind⟩

theorem takes_steps {t : Token} {b b' : Builder} (h : Takes t b none b') (hs : Stacked b.stack)
    (hp : b.pending = none) (he : b'.errors = b.errors) (held : Option Single) :
    Steps t held (frames b.stack) b'.held (frames b'.stack) := by
  cases h with
  | faults fault => simp [report] at he
  | @closes kind top below b' hc hk hst hm hu =>
    have htop : top.node.lacksRecover = false := by
      cases hl : top.node.lacksRecover with
      | false => rfl
      | true => simp [hl, report, hu.errors_eq] at he
    have hnone := held_of_pending_eq_none (hu.pending_eq.trans hp)
    rw [htop, if_neg Bool.false_ne_true, hnone]
    have hopen := hs.isOpen (by rw [hst]; exact List.mem_cons_self ..)
    obtain ⟨rfl, hname⟩ := Node.closedBy_iff.mp hm
    rw [hst] at hs
    cases hs with
    | cons _ hr hs =>
      rw [hu.frames hst hr hs]
      exact .closes (hopen.closes_iff.mpr ⟨⟨hc, hk⟩, hname, htop⟩)
  | skips h hb hw =>
    cases h.params_eq_none rfl
    rw [held_of_pending_eq_none hp]
    cases hst : b.stack with
    | nil => simp [awaitsCase, hst] at hw
    | cons top below =>
      rw [awaitsCase, hst] at hw
      obtain ⟨d, hd⟩ := Node.awaitsCase_iff_frame.mp hw
      rw [frames, hd]
      exact .blank ⟨h, hb⟩
  | @chains test top below h hst hk hb =>
    have hframe := Node.frame_of_condition hk
    rw [hb] at hframe
    have hnone : Builder.held { b with stack := ⟨⟨.condition test, t.span, some [], none⟩, true⟩ :: b.stack } = none :=
      held_of_pending_eq_none hp
    -- the chained condition hides the frame of the one that it continues
    rw [hnone, hst, frames, frames, hframe]
    exact .continues (.elseIf h)
  | @begins kind params top below node h hst hn =>
    have hopen := hs.isOpen (by rw [hst]; exact List.mem_cons_self ..)
    have hnone : Builder.held { b with stack := { top with node } :: below } = none := held_of_pending_eq_none hp
    rw [hnone, hst]
    exact .continues (hn.continues hopen h)
  | @opens kind params n h hw hn hb hself =>
    have hnone : Builder.held { b with stack := ⟨n, false⟩ :: b.stack } = none := held_of_pending_eq_none hp
    rw [hnone]
    exact .opens (hn.opens h hb hself) (receives_iff.mpr hw)
  | @holds sort params n h hw hn hself =>
    have hheld : Builder.held { b with pending := some n } = some sort := by
      rw [Builder.held, Option.bind_some, hn.kind_eq]
      rfl
    rw [hheld]
    have hbegun := hn.isBegunBy h
    obtain ⟨ps, hps⟩ : ∃ ps, n.head = .single sort ps := by
      have hkind : n.head.kind = .single sort := hn.kind_eq
      cases hh : n.head with
      | single sort' ps => rw [hh] at hkind; cases hkind; exact ⟨ps, rfl⟩
      | _ => rw [hh] at hkind; cases hkind
    rw [hps] at hbegun
    exact .holds ⟨⟨ps, hbegun⟩, hself⟩ (receives_iff.mpr hw)
  | places h hw hn hb hself ha =>
    rw [held_of_pending_eq_none (ha.pending_eq.trans hp), ha.frames hs]
    refine .leaf ⟨_, hn.isBegunBy h, ?_⟩ (not_isSingle h hself) (receives_iff.mpr hw)
    rcases hb with hself | hbody
    · exact .inr hself
    · refine .inl ?_
      have hbody' := hn.body
      rw [hbody] at hbody'
      split at hbody'
      · cases hbody'
      · next hwraps => exact Bool.eq_false_iff.mpr hwraps

/-- A token that neither fails nor is reported makes a step. -/
theorem steps_of_push {b : Builder} {t : Token} (h : b.Ready) (hout : (b.push t).1 = none)
    (he : (b.push t).2.errors = b.errors) :
    Steps t b.held (frames b.stack) (b.push t).2.held (frames (b.push t).2.stack) := by
  cases hpush : b.push t with
  | mk out b' =>
    have hmove := pushes_push h.sound t
    rw [hpush] at hmove hout he
    cases hout
    cases hmove with
    | @absorbs n b' hp hc hk ha =>
      obtain ⟨sort, hsort⟩ := h.held n hp
      have hheld : b.held = some sort := by
        rw [held, hp, Option.bind_some, hsort]
        rfl
      rw [hsort] at hk
      rw [held_of_pending_eq_none ha.pending_eq, @Adds.frames _ { b with pending := none } _ ha h.sound.stack, hheld]
      exact .absorbs ⟨hc, hk⟩
    | takes _ hs htakes =>
      rw [← hs.frames h.sound.stack]
      exact takes_steps htakes (hs.stacked h.sound.stack) hs.pending_eq (he.trans hs.errors_eq.symm) b.held

end Builder

/-! ### Steps are taken -/

namespace Builder

/-- The builder takes the token, and is left with what is held and with the frames. -/
def Makes (t : Token) (b : Builder) (held : Option Single) (fs : List Frame) : Prop :=
  ∃ b', b.push t = (none, b') ∧ b'.errors = b.errors ∧ b'.held = held ∧ frames b'.stack = fs

theorem push_of_accept {b b' : Builder} {kind : Kind} {params : Option Expr} {t : Token} (ht : IsTag kind params t)
    (ha : b.settle.accept kind t params = .ok b') : b.push t = (none, b') := by
  have habsorb : b.absorb? t = none := by
    unfold absorb?
    split
    · rfl
    · simp [ht.opening]
  rw [push_of_absorb?_eq_none habsorb, ht.ofToken]
  simp [ht.opening, ht.read, ha, orReport]

private theorem makes_of_accept {b b' : Builder} {kind : Kind} {params : Option Expr} {t : Token}
    {held : Option Single} {fs : List Frame} (h : b.Sound) (ht : IsTag kind params t)
    (ha : b.settle.accept kind t params = .ok b') (he : b'.errors = b.settle.errors) (hheld : b'.held = held)
    (hfs : frames b'.stack = fs) : Makes t b held fs := by
  exact ⟨b', push_of_accept ht ha, he.trans (settles_settle h.stack h.pending).errors_eq, hheld, hfs⟩

theorem exists_isNew_of_isBegunBy {head : Head} {t : Token} (h : head.IsBegunBy t) :
    ∃ params n, IsTag head.kind params t ∧ Node.ofTag head.kind t params = .ok n ∧ n.head = head ∧
      n.body = (if head.wraps t.selfClosing then some [] else none) ∧ n.branch = none := by
  obtain ⟨params, htag, hhead⟩ := h
  refine ⟨params, ⟨head, t.span, if head.wraps t.selfClosing then some [] else none, none⟩, htag, ?_, rfl, rfl, rfl⟩
  rw [Node.ofTag, hhead]
  rfl

theorem accept_of_ofTag {b : Builder} {kind : Kind} {params : Option Expr} {t : Token} {n : Node}
    (ht : IsTag kind params t) (hw : b.awaitsCase = false) (hn : Node.ofTag kind t params = .ok n) :
    b.accept kind t params = .ok (b.place t.selfClosing n) := by
  have hcont := Head.isContinuation_of_ofTag (Node.isNew_of_ofTag hn).head
  rw [accept_of_allows ht.rule, hw, hcont, hn]
  rfl

private theorem makes_of_leaf {b : Builder} {t : Token} (h : b.Sound) (hl : IsLeaf t) (hs : ∀ sort, ¬IsSingle sort t)
    (hw : b.settle.awaitsCase = false) : Makes t b none (frames b.stack) := by
  obtain ⟨head, hbegun, hbody⟩ := hl
  obtain ⟨params, n, htag, hn, rfl, hb, -⟩ := exists_isNew_of_isBegunBy hbegun
  have hsettles := settles_settle h.stack h.pending
  have hadds := adds_add (hsettles.stacked h.stack) hw n
  have hplace : b.settle.place t.selfClosing n = b.settle.add n := by
    have hopens : (n.body.isSome && !t.selfClosing) = false := by
      rcases hbody with hwraps | hself
      · simp [hb, hwraps]
      · simp [hself]
    unfold place
    rw [hopens, if_neg Bool.false_ne_true]
    split
    · next sort ps hh =>
      rw [hh] at hbegun
      cases hself : t.selfClosing with
      | true => rfl
      | false => exact absurd ⟨⟨ps, hbegun⟩, hself⟩ (hs sort)
    · rfl
  have haccept := accept_of_ofTag htag hw hn
  rw [hplace] at haccept
  refine makes_of_accept h htag haccept hadds.errors_eq ?_ ?_
  · exact held_of_pending_eq_none (hadds.pending_eq.trans hsettles.pending_eq)
  · exact (hadds.frames (hsettles.stacked h.stack)).trans (hsettles.frames h.stack)

private theorem makes_of_isSingle {b : Builder} {t : Token} {sort : Single} (h : b.Sound) (hs : IsSingle sort t)
    (hw : b.settle.awaitsCase = false) : Makes t b (some sort) (frames b.stack) := by
  obtain ⟨⟨ps, hbegun⟩, hself⟩ := hs
  obtain ⟨params, n, htag, hn, hhead, hb, -⟩ := exists_isNew_of_isBegunBy hbegun
  have hbody : n.body = none := by
    rw [hb]
    rfl
  have hplace : b.settle.place t.selfClosing n = { b.settle with pending := some n } := by
    unfold place
    rw [hself, hbody, hhead]
    rfl
  have haccept := accept_of_ofTag htag hw hn
  rw [hplace] at haccept
  refine makes_of_accept h htag haccept rfl ?_ ((settles_settle h.stack h.pending).frames h.stack)
  rw [Builder.held, Option.bind_some, Node.kind, hhead]
  rfl

/-- What an opening tag says of the frame that it makes. -/
private theorem exists_head_of_opens {t : Token} {f : Frame} (h : Opens t f) :
    ∃ head : Head, head.IsBegunBy t ∧ head.wraps t.selfClosing = true ∧ t.selfClosing = false ∧
      Node.frame ⟨head, t.span, some [], none⟩ = f := by
  cases h with
  | @wrapper head h hw hb hself => exact ⟨head, h, hb, hself, Node.frame_of_isWrapper hw⟩
  | condition h hself => exact ⟨_, h, rfl, hself, rfl⟩
  | list h hself => exact ⟨_, h, rfl, hself, rfl⟩
  | attempt h hself => exact ⟨_, h, rfl, hself, rfl⟩
  | switch h hself => exact ⟨_, h, rfl, hself, rfl⟩

private theorem makes_of_opens {b : Builder} {t : Token} {f : Frame} (h : b.Sound) (ho : Opens t f)
    (hw : b.settle.awaitsCase = false) : Makes t b none (f :: frames b.stack) := by
  obtain ⟨head, ⟨params, htag, hhead⟩, hwraps, hself, hframe⟩ := exists_head_of_opens ho
  have hn : Node.ofTag head.kind t params = .ok ⟨head, t.span, some [], none⟩ := by
    rw [Node.ofTag, hhead]
    simp [Except.map, hwraps]
  have haccept := accept_of_ofTag htag hw hn
  rw [hself] at haccept
  have hsettles := settles_settle h.stack h.pending
  refine makes_of_accept h htag haccept rfl (held_of_pending_eq_none hsettles.pending_eq) ?_
  rw [← hframe, ← hsettles.frames h.stack]
  rfl

private theorem makes_of_blank {b : Builder} {t : Token} (h : b.Sound) (hb : IsBlank t)
    (hw : b.settle.awaitsCase = true) : Makes t b none (frames b.stack) := by
  obtain ⟨htag, hblank⟩ := hb
  have haccept : b.settle.accept .text t none = .ok b.settle := by
    rw [accept_of_allows htag.rule, hw, hblank]
    rfl
  have hsettles := settles_settle h.stack h.pending
  exact makes_of_accept h htag haccept rfl (held_of_pending_eq_none hsettles.pending_eq) (hsettles.frames h.stack)

/-- A new part of the innermost open node, as the tag and the frame tell it. -/
private theorem continueTop_of_continues {b : Builder} {top : OpenNode} {below : List OpenNode} {t : Token}
    {f : Frame} (hst : b.stack = top :: below) (ho : top.node.IsOpen) (h : Continues t top.node.frame f) :
    ∃ kind params b', IsTag kind params t ∧ kind.isContinuation = true ∧
      (top.node.awaitsCase = true → kind = .case ∨ kind = .default) ∧ b.continueTop kind t params = .ok b' ∧
      b'.errors = b.errors ∧ b'.pending = b.pending ∧ frames b'.stack = f :: (frames b.stack).tail := by
  rcases ho.exists_of_continues h with ⟨test, htag, hk, hb, rfl⟩ | ⟨kind, params, m, htag, hne, hcont, hcase, hm, hf⟩
  · have hw := awaitsCase_of_condition hk
    refine ⟨.elseIf, some test, { b with stack := ⟨⟨.condition test, t.span, some [], none⟩, true⟩ :: b.stack }, htag,
      rfl, fun hcase => ?_, ?_, rfl, rfl, ?_⟩
    · rw [hw] at hcase
      cases hcase
    · obtain ⟨⟨head, span, body, branch⟩, chained⟩ := top
      obtain rfl : branch = none := hb
      cases head with
      | condition =>
        rw [continueTop, hst]
        rfl
      | _ => cases hk
    · rw [hst]
      rfl
  · refine ⟨kind, params, { b with stack := { top with node := m } :: below }, htag, hcont, hcase, ?_, rfl, rfl, ?_⟩
    · unfold continueTop
      rw [hst]
      dsimp only
      split
      · exact absurd rfl hne
      · rw [hm]
        rfl
    · -- the new part keeps the node at its place, chained or not
      rw [hst, frames, frames, hf, List.tail_cons]

private theorem makes_of_continues {b : Builder} {t : Token} {f f' : Frame} {fs : List Frame} (h : b.Sound)
    (hc : Continues t f f') (hfs : frames b.stack = f :: fs) : Makes t b none (f' :: fs) := by
  have hsettles := settles_settle h.stack h.pending
  have hs := hsettles.stacked h.stack
  rw [← hsettles.frames h.stack] at hfs
  cases hst : b.settle.stack with
  | nil =>
    rw [hst] at hfs
    cases hfs
  | cons top below =>
    have hframe : top.node.frame = f := by
      rw [hst] at hfs
      exact (List.cons.inj hfs).1
    rw [← hframe] at hc
    obtain ⟨kind, params, b', htag, hcont, hcase, hok, he, hp, hfs'⟩ :=
      continueTop_of_continues hst (hs.isOpen (by rw [hst]; exact List.mem_cons_self ..)) hc
    have haccept : b.settle.accept kind t params = .ok b' := by
      -- in front of the first case only a case gets past the guard
      have hguard : (b.settle.awaitsCase && kind != .case && kind != .default) = false := by
        cases hw : top.node.awaitsCase with
        | false => simp [awaitsCase, hst, hw]
        | true => rcases hcase hw with rfl | rfl <;> simp
      rw [accept_of_allows htag.rule, hguard, hcont, if_neg Bool.false_ne_true, if_pos rfl, hok]
    refine makes_of_accept h htag haccept he (held_of_pending_eq_none (hp.trans hsettles.pending_eq)) ?_
    rw [hfs', hfs, List.tail_cons]

private theorem makes_of_closes {b : Builder} {t : Token} {f : Frame} {fs : List Frame} (h : b.Ready)
    (hc : Closes t f) (hfs : frames b.stack = f :: fs) : Makes t b none fs := by
  have hsettles := settles_settle h.sound.stack h.sound.pending
  have hs := hsettles.stacked h.sound.stack
  rw [← hsettles.frames h.sound.stack] at hfs
  cases hst : b.settle.stack with
  | nil =>
    rw [hst] at hfs
    cases hfs
  | cons top below =>
    rw [hst] at hs
    cases hs with
    | cons ho hr hs =>
      rw [hst] at hfs
      obtain ⟨hframe, hrest⟩ := List.cons.inj hfs
      rw [← hframe] at hc
      obtain ⟨hclose, hname, hl⟩ := ho.closes_iff.mp hc
      have habsorb : b.absorb? t = none := by
        unfold absorb?
        split
        · rfl
        · next n hp =>
          obtain ⟨sort, hsort⟩ := h.held n hp
          -- a pending node is of a kind without a body, an open one is not
          have hne : top.node.kind ≠ n.kind := by
            rw [hsort]
            intro heq
            rcases isContainer_of_isOpen ho with hbody | hassign
            · rw [heq] at hbody
              cases hbody
            · rw [heq] at hassign
              cases hassign
          simp [hclose.closing, hclose.ofToken, hne]
      obtain ⟨b', hu, hclosed⟩ := unwinds_closeTop t.span hst hr hs
      rw [hl, if_neg Bool.false_ne_true] at hclosed
      have hok : b.settle.close top.node.kind t = .ok b' := by
        have hclosedBy : top.node.closedBy top.node.kind t.tag = true := Node.closedBy_iff.mpr ⟨rfl, hname⟩
        simp only [close, hst, hclosedBy, if_true, hclosed]
      refine ⟨b', ?_, hu.errors_eq.trans hsettles.errors_eq, ?_, ?_⟩
      · rw [push_of_absorb?_eq_none habsorb, hclose.ofToken]
        simp [hclose.closing, hok, orReport]
      · exact held_of_pending_eq_none (hu.pending_eq.trans hsettles.pending_eq)
      · have hframes := hu.frames hst hr hs
        rw [hst, hfs] at hframes
        exact (List.cons.inj hframes).2.symm

/-- Every step is one that the builder makes. -/
theorem push_of_steps {b : Builder} {t : Token} {held : Option Single} {fs : List Frame} (h : b.Ready)
    (hs : Steps t b.held (frames b.stack) held fs) : Makes t b held fs := by
  have hsettles := settles_settle h.sound.stack h.sound.pending
  have hframes := hsettles.frames h.sound.stack
  have hreceives : Receives (frames b.stack) → b.settle.awaitsCase = false := by
    intro hf
    rw [← hframes] at hf
    exact receives_iff.mp hf
  generalize hheld : b.held = held₀ at hs
  generalize hfs : frames b.stack = fs₀ at hs hreceives
  cases hs with
  | @absorbs sort fs hc =>
    obtain ⟨n, hp, hsingle⟩ := Option.bind_eq_some_iff.mp hheld
    have hkind : n.kind = .single sort := by
      obtain ⟨sort', hsort⟩ := h.held n hp
      rw [hsort] at hsingle ⊢
      exact congrArg Kind.single (Option.some.inj hsingle)
    have habsorb : b.absorb? t = some ({ b with pending := none }.add (n.endAt t.span.stop)) := by
      simp [absorb?, hp, hc.closing, hc.ofToken, hkind]
    have hw := h.sound.pending (by simp [hp])
    have hadds := @adds_add { b with pending := none } h.sound.stack hw (n.endAt t.span.stop)
    refine ⟨_, ?_, hadds.errors_eq, held_of_pending_eq_none hadds.pending_eq, ?_⟩
    · rw [push, habsorb]
    · rw [hadds.frames h.sound.stack]
      exact hfs
  | leaf hl hns hf => rw [← hfs]; exact makes_of_leaf h.sound hl hns (hreceives hf)
  | holds hsingle hf => rw [← hfs]; exact makes_of_isSingle h.sound hsingle (hreceives hf)
  | blank hb =>
    rw [← hfs]
    refine makes_of_blank h.sound hb ?_
    cases hw : b.settle.awaitsCase with
    | true => rfl
    | false =>
      have hf := receives_iff.mpr hw
      rw [hframes, hfs] at hf
      exact hf.elim
  | opens ho hf => rw [← hfs]; exact makes_of_opens h.sound ho (hreceives hf)
  | continues hc => exact makes_of_continues h.sound hc hfs
  | closes hc => exact makes_of_closes h hc hfs

end Builder

/-! ### Runs -/

namespace Builder

private theorem Takes.errors_prefix {t : Token} {b b' : Builder} {out : Option ExprError} (h : Takes t b out b') :
    b.errors <+: b'.errors := by
  cases h with
  | faults fault => exact List.prefix_append ..
  | closes _ _ _ _ hu =>
    rw [← hu.errors_eq]
    split
    · exact List.prefix_append ..
    · exact List.prefix_refl _
  | places _ _ _ _ _ ha => exact ⟨[], by rw [List.append_nil, ha.errors_eq]⟩
  | _ => exact List.prefix_refl _

/-- Errors are never taken back. -/
theorem errors_prefix_push {b : Builder} (h : b.Sound) (t : Token) : b.errors <+: (b.push t).2.errors := by
  cases hpush : b.push t with
  | mk out b' =>
    have hmove := pushes_push h t
    rw [hpush] at hmove
    cases hmove with
    | absorbs _ _ _ ha => exact ⟨[], by rw [List.append_nil, ha.errors_eq]⟩
    | takes _ hs htakes =>
      rw [← hs.errors_eq]
      exact htakes.errors_prefix

theorem errors_prefix_feed {b : Builder} (h : b.Sound) (ts : List Token) : b.errors <+: (b.feed ts).errors := by
  induction ts generalizing b with
  | nil => exact List.prefix_refl _
  | cons t ts ih => exact (errors_prefix_push h t).trans (ih (sound_push h t))

theorem feed_of_pushAll {ts : List Token} {b b' : Builder} (h : b.pushAll ts = (none, b')) : b' = b.feed ts := by
  induction ts generalizing b with
  | nil =>
    cases h
    rfl
  | cons t ts ih =>
    rw [pushAll] at h
    split at h
    · next b₁ hpush =>
      rw [feed, hpush]
      exact ih h
    · cases h

theorem frames_eq_nil {stack : List OpenNode} (h : frames stack = []) : stack = [] := by
  cases stack with
  | nil => rfl
  | cons o below => cases h

/-- The builder gets through the tokens without an error, and with no node left open, if they are what remains. -/
theorem pushAll_iff_remains {b : Builder} (h : b.Ready) (ts : List Token) :
    (∃ b', b.pushAll ts = (none, b') ∧ b'.errors = b.errors ∧ b'.stack = []) ↔
      RemainsAfter b.held (frames b.stack) ts := by
  induction ts generalizing b with
  | nil =>
    constructor
    · rintro ⟨b', hrun, -, hst⟩
      cases hrun
      rw [hst]
      exact .inl .nil
    · rintro (hrest | ⟨sort, c, vs, -, hnil, -⟩)
      · exact ⟨b, rfl, rfl, frames_eq_nil (remains_nil hrest)⟩
      · cases hnil
  | cons t ts ih =>
    have hready := ready_push h t
    constructor
    · rintro ⟨b', hrun, he, hst⟩
      rw [pushAll] at hrun
      split at hrun
      · next b₁ hpush =>
        have hgrown := errors_prefix_push h.sound t
        have hfeed := errors_prefix_feed hready.sound ts
        rw [hpush] at hready hgrown hfeed
        rw [← feed_of_pushAll hrun, he] at hfeed
        -- errors are never taken back, and there are as many at the end as now
        have he₁ : b₁.errors = b.errors :=
          (hgrown.eq_of_length (Nat.le_antisymm hgrown.length_le hfeed.length_le)).symm
        have hsteps := @steps_of_push b t h (by rw [hpush]) (by rw [hpush]; exact he₁)
        rw [hpush] at hsteps
        exact hsteps.remains ((ih hready).mp ⟨b', hrun, he.trans he₁.symm, hst⟩)
      · cases hrun
    · intro hrest
      obtain ⟨held, fs, hsteps, hrest⟩ := steps_of_remains hrest
      obtain ⟨b₁, hpush, he₁, rfl, rfl⟩ := push_of_steps h hsteps
      rw [hpush] at hready
      obtain ⟨b', hrun, he, hst⟩ := (ih hready).mpr hrest
      refine ⟨b', ?_, he.trans he₁, hst⟩
      rw [pushAll, hpush]
      exact hrun

/-- Only parameters that are no expression stop the builder. -/
theorem exists_pushAll {b : Builder} (h : b.Sound) {ts : List Token}
    (hts : ∀ t ∈ ts, t.closing = false → ∀ kind, Kind.ofToken? t = some kind →
      ∃ params, kind.readParams t = .ok params) :
    ∃ b', b.pushAll ts = (none, b') := by
  induction ts generalizing b with
  | nil => exact ⟨b, rfl⟩
  | cons t ts ih =>
    have hsound := sound_push h t
    have hmove := pushes_push h t
    cases hpush : b.push t with
    | mk out b₁ =>
      rw [hpush] at hsound hmove
      -- of all moves only that of unreadable parameters fails
      have hout : out = none := by
        cases hmove with
        | absorbs => rfl
        | takes _ _ htakes =>
          cases htakes with
          | fails hc hk hp =>
            obtain ⟨params, hparams⟩ := hts t (List.mem_cons_self ..) hc _ hk
            rw [hp] at hparams
            cases hparams
          | _ => rfl
      subst hout
      rw [pushAll, hpush]
      exact ih hsound fun u hu => hts u (List.mem_cons_of_mem t hu)

theorem finish_errors_eq_nil_iff {b : Builder} (h : b.Sound) :
    b.finish.errors = [] ↔ b.errors = [] ∧ b.stack = [] := by
  by_cases hst : b.stack = []
  · rw [h.finish_of_stack_eq_nil hst]
    simp [hst]
  · obtain ⟨chain, o, rest, -, -, -, he⟩ := h.finish_of_stack_ne_nil hst
    simp [he, hst]

end Builder

namespace Template

/-- A template in which every tag that is read for its parameters has an expression there, or nothing, is built; and it
is built without an error if and only if the grammar derives its tokens. -/
theorem errors_eq_nil_iff_derives {source : String} {ts : List Token} (basePath : Option String)
    (hscan : Markup.tokenize source = .ok ts)
    (hparams : ∀ t ∈ ts, t.closing = false → ∀ kind, Kind.ofToken? t = some kind →
      ∃ params, kind.readParams t = .ok params) :
    ∃ template, parse source basePath = .ok template ∧ (template.program.errors = [] ↔ Derives .items ts) := by
  have hsound := Builder.sound_new source.utf8ByteSize
  obtain ⟨b, hrun⟩ := Builder.exists_pushAll hsound hparams
  have hb : b.Sound := by
    rw [Builder.feed_of_pushAll hrun]
    exact Builder.sound_feed hsound ts
  refine ⟨⟨b.finish, ts, basePath⟩, ?_, ?_⟩
  · simp only [parse, hscan, Program.ofTokens, hrun]
  · have hiff := Builder.pushAll_iff_remains (Builder.ready_new source.utf8ByteSize) ts
    rw [hrun] at hiff
    have hnew : RemainsAfter (Builder.new source.utf8ByteSize).held
        (Builder.frames (Builder.new source.utf8ByteSize).stack) ts ↔ Derives .items ts := remainsAfter_none
    rw [hnew] at hiff
    rw [Builder.finish_errors_eq_nil_iff hb, ← hiff]
    constructor
    · rintro ⟨he, hst⟩
      exact ⟨b, rfl, he, hst⟩
    · rintro ⟨b', heq, he, hst⟩
      cases heq
      exact ⟨he, hst⟩

/-- Both directions are about real templates: this one is derived, hence built without an error. -/
theorem exists_parse_attempt :
    ∃ template, parse "<#attempt>a<#recover>b</#attempt>" none = .ok template ∧ template.program.errors = [] := by
  let start : Token := ⟨.directive, ⟨0, 10⟩, "<#attempt>", some "attempt", none, false, false⟩
  let first : Token := ⟨.text, ⟨10, 11⟩, "a", none, none, false, false⟩
  let recover : Token := ⟨.directive, ⟨11, 21⟩, "<#recover>", some "recover", none, false, false⟩
  let second : Token := ⟨.text, ⟨21, 22⟩, "b", none, none, false, false⟩
  let stop : Token := ⟨.directive, ⟨22, 33⟩, "</#attempt>", some "attempt", none, true, false⟩
  have hscan : Markup.scan "<#attempt>a<#recover>b</#attempt>" = ([start, first, recover, second, stop], none) := by
    decide +kernel
  have htokens : Markup.tokenize "<#attempt>a<#recover>b</#attempt>" = .ok [start, first, recover, second, stop] := by
    rw [Markup.tokenize, hscan]
  have hparams : ∀ t ∈ [start, first, recover, second, stop], t.closing = false → ∀ kind,
      Kind.ofToken? t = some kind → ∃ params, kind.readParams t = .ok params := by
    intro t ht _ kind _
    have hnone : t.params = none := by
      simp only [List.mem_cons, List.not_mem_nil, or_false] at ht
      rcases ht with rfl | rfl | rfl | rfl | rfl <;> rfl
    refine ⟨none, ?_⟩
    unfold Kind.readParams
    rw [hnone]
    cases kind <;> rfl
  have htext (content : String) (span : Span) : Derives .items [⟨.text, span, content, none, none, false, false⟩] :=
    .cons (.leaf ⟨.text content, ⟨none, ⟨rfl, rfl, rfl, trivial⟩, rfl⟩, .inl rfl⟩) .nil
  have hderives : Derives .items [start, first, recover, second, stop] := by
    refine .cons (.attempt (t := start) (r := recover) (c := stop) ?_ rfl (htext "a" ⟨10, 11⟩) ?_
      (htext "b" ⟨21, 22⟩) ?_) .nil
    · exact ⟨none, ⟨rfl, by decide, rfl, trivial⟩, rfl⟩
    · exact ⟨rfl, by decide, rfl, trivial⟩
    · exact ⟨rfl, by decide⟩
  obtain ⟨template, hparse, hiff⟩ := errors_eq_nil_iff_derives none htokens hparams
  exact ⟨template, hparse, hiff.mpr hderives⟩

end Template

end TemplateSyntax
