import TemplateSyntax.Proofs.Tree.Push

/-!
# The states of the builder

A state is sound when its stack is well made and a pending node has a place to go to. The new builder is sound and
every token keeps it so, whether it is taken, reported or fails (`sound_push`), hence every state of every run is sound
(`sound_feed`). So the builder never loses a node: every move of a run is one of those of `Pushes`, which find a place
for each finished node and never overwrite an alternative, and the end of the template is a drain of the whole stack
(`intact_feed`).
-/

namespace TemplateSyntax

open Markup (Token)

namespace Builder

/-- The builder after the tokens. A token whose parameters are no expression is left out, and the next one is taken. -/
def feed : List Token → Builder → Builder
  | [], b => b
  | t :: ts, b => feed ts (b.push t).2

theorem feed_concat (ts : List Token) (t : Token) (b : Builder) : b.feed (ts ++ [t]) = ((b.feed ts).push t).2 := by
  induction ts generalizing b with
  | nil => rfl
  | cons u ts ih => exact ih _

/-! ### Soundness is kept -/

theorem sound_new (stop : Nat) : (new stop).Sound :=
  ⟨.nil, fun h => by cases h⟩

/-- Releasing the chain leaves the nodes below the one that it continues, with that node as their last content. -/
theorem Unwinds.removes {span : Span} {b b' : Builder} (hu : Unwinds span b b') {top : OpenNode}
    {below : List OpenNode} (hst : b.stack = top :: below) (hr : Rests top below) (hs : Stacked below) :
    ∃ chain o rest n, b.stack = chain ++ o :: rest ∧ (∀ c ∈ chain, c.chained = true) ∧ o.chained = false ∧
      n.head = o.node.head ∧ n.span = ⟨o.node.span.start, span.stop⟩ ∧ Stacked rest ∧
      Adds n { b with stack := rest } b' := by
  induction hu generalizing top below with
  | last hc h =>
    obtain ⟨rfl, ha⟩ := h.attaches hst
    refine ⟨[], _, below, _, hst, by simp, hc, ?_, ?_, hs, ha.of_not_chained hc⟩
    · exact Node.endPart_head _ _
    · simp [Node.endAt, Node.endPart_span]
  | @chained o b b' b'' hc h hu ih =>
    obtain ⟨rfl, -⟩ := h.attaches hst
    obtain ⟨parent, rest, alternative, hbelow, hk, hrests, hstacked, rfl⟩ := h.of_chained hst hc hs
    obtain ⟨chain, o', rest', n, hst', hchain, ho', hhead, hspan, hs', ha⟩ := ih rfl (hrests.congr rfl rfl) hstacked
    -- the released node comes in front of what its parent is released with
    cases chain with
    | nil =>
      cases hst'
      refine ⟨[o], parent, rest, n, ?_, by simpa using hc, ho', hhead, hspan, hs', ha⟩
      rw [hst, hbelow]
      rfl
    | cons c chain =>
      cases hst'
      have hparent := hchain _ (List.mem_cons_self ..)
      refine ⟨o :: parent :: chain, o', rest', n, ?_, ?_, ho', hhead, hspan, hs', ha⟩
      · rw [hst, hbelow]
        rfl
      · intro x hx
        rcases List.mem_cons.mp hx with rfl | hx
        · exact hc
        · rcases List.mem_cons.mp hx with rfl | hx
          · exact hparent
          · exact hchain x (List.mem_cons_of_mem _ hx)

theorem Unwinds.stacked {span : Span} {b b' : Builder} (hu : Unwinds span b b') (hs : Stacked b.stack) :
    Stacked b'.stack := by
  cases hst : b.stack with
  | nil => cases hu with | _ _ h => cases h with | mk h => rw [hst] at h; cases h
  | cons top below =>
    rw [hst] at hs
    cases hs with
    | cons _ hr hs =>
      obtain ⟨chain, o, rest, n, -, -, -, -, -, hs', ha⟩ := hu.removes hst hr hs
      exact ha.stacked hs'

private theorem Unwinds.pending_errors {span : Span} {b b' : Builder} (hu : Unwinds span b b') :
    b'.pending = b.pending ∧ b'.errors = b.errors := by
  induction hu with
  | last _ h =>
    cases h with
    | mk _ ha => exact ⟨ha.pending_eq, ha.errors_eq⟩
  | chained _ h _ ih =>
    cases h with
    | mk _ ha => exact ⟨ih.1.trans ha.pending_eq, ih.2.trans ha.errors_eq⟩

theorem Unwinds.pending_eq {span : Span} {b b' : Builder} (hu : Unwinds span b b') : b'.pending = b.pending :=
  hu.pending_errors.1

theorem Unwinds.errors_eq {span : Span} {b b' : Builder} (hu : Unwinds span b b') : b'.errors = b.errors :=
  hu.pending_errors.2

private theorem sound_of_pending_eq_none {b : Builder} (hs : Stacked b.stack) (hp : b.pending = none) : b.Sound :=
  ⟨hs, fun h => by rw [hp] at h; cases h⟩

theorem rests_of_awaitsCase {b : Builder} {n : Node} (hw : b.awaitsCase = false) : Rests ⟨n, false⟩ b.stack := by
  cases hst : b.stack with
  | nil => exact .outermost rfl
  | cons top below => exact .content rfl (by simpa only [awaitsCase, hst] using hw)

theorem Takes.sound {t : Token} {b b' : Builder} {out : Option ExprError} (h : Takes t b out b')
    (hs : Stacked b.stack) (hp : b.pending = none) : b'.Sound := by
  cases h with
  | faults fault => exact sound_of_pending_eq_none hs hp
  | fails => exact sound_of_pending_eq_none hs hp
  | closes _ _ _ _ hu =>
    have hsound := sound_of_pending_eq_none (hu.stacked hs) (hu.pending_eq.trans hp)
    split
    · exact ⟨hsound.stack, hsound.pending⟩
    · exact hsound
  | skips => exact sound_of_pending_eq_none hs hp
  | chains h hst hk hb =>
    refine sound_of_pending_eq_none (.cons .condition ?_ hs) hp
    rw [hst]
    exact .chained rfl rfl hk hb
  | begins h hst hn =>
    rw [hst] at hs
    cases hs with
    | cons ho hr hs =>
      have hkind : Node.kind _ = _ := congrArg Head.kind hn.head_eq
      exact sound_of_pending_eq_none (.cons (hn.isOpen ho) (hr.congr rfl hkind) hs) hp
  | opens h hw hn hb hself =>
    exact sound_of_pending_eq_none (.cons (hn.isOpen hb) (rests_of_awaitsCase hw) hs) hp
  | holds h hw => exact ⟨hs, fun _ => hw⟩
  | places h hw hn hb hself ha => exact sound_of_pending_eq_none (ha.stacked hs) (ha.pending_eq.trans hp)

theorem Pushes.sound {t : Token} {b b' : Builder} {out : Option ExprError} (h : Pushes t b out b') (hb : b.Sound) :
    b'.Sound := by
  cases h with
  | absorbs _ _ _ ha => exact sound_of_pending_eq_none (ha.stacked hb.stack) ha.pending_eq
  | takes _ hs h => exact h.sound (hs.stacked hb.stack) hs.pending_eq

theorem sound_push {b : Builder} (h : b.Sound) (t : Token) : (b.push t).2.Sound :=
  (pushes_push h t).sound h

theorem sound_pushAll {b : Builder} (h : b.Sound) (ts : List Token) : (b.pushAll ts).2.Sound := by
  induction ts generalizing b with
  | nil => exact h
  | cons t ts ih =>
    have hsound := sound_push h t
    rw [pushAll]
    generalize b.push t = pushed at hsound ⊢
    obtain ⟨_ | e, b'⟩ := pushed
    · exact ih hsound
    · exact hsound

theorem sound_feed {b : Builder} (h : b.Sound) (ts : List Token) : (b.feed ts).Sound := by
  induction ts generalizing b with
  | nil => exact h
  | cons t ts ih => exact ih (sound_push h t)

/-! ### The end of the template -/

/-- A release leaves a stack one node shorter, on which the new top rests. -/
theorem Releases.uncovers {partStop stop : Nat} {b b' : Builder} {top o : OpenNode} {below : List OpenNode}
    (h : Releases partStop stop b o b') (hst : b.stack = top :: below) (hs : Stacked below) :
    (∀ p rest, b'.stack = p :: rest → Rests p rest ∧ Stacked rest) ∧ b'.stack.length = below.length := by
  cases hc : top.chained with
  | true =>
    obtain ⟨parent, rest, alternative, hbelow, -, hrests, hstacked, rfl⟩ := h.of_chained hst hc hs
    rw [hbelow]
    refine ⟨fun p rest h => ?_, rfl⟩
    cases h
    exact ⟨hrests.congr rfl rfl, hstacked⟩
  | false =>
    obtain ⟨-, ha⟩ := h.attaches hst
    have ha := ha.of_not_chained hc
    have hstacked := ha.stacked hs
    exact ⟨hstacked.under, by simpa using congrArg List.length (ha.outline_eq hs)⟩

/-- Releasing all nodes one by one drains the stack. -/
theorem drains_repeat (stop : Nat) {b : Builder}
    (h : ∀ top below, b.stack = top :: below → Rests top below ∧ Stacked below) :
    Drains stop b (Nat.repeat (release stop stop) b.stack.length b) ∧
      (Nat.repeat (release stop stop) b.stack.length b).stack = [] := by
  induction hlen : b.stack.length generalizing b with
  | zero =>
    have hnil := List.length_eq_zero_iff.mp hlen
    exact ⟨.done hnil, hnil⟩
  | succ n ih =>
    obtain ⟨top, below, hst⟩ := List.exists_cons_of_length_eq_add_one hlen
    obtain ⟨hr, hs⟩ := h top below hst
    have hrel := releases_release hst hr hs stop stop
    obtain ⟨hnext, hlength⟩ := hrel.uncovers hst hs
    obtain ⟨hdrains, hnil⟩ := ih hnext (by rw [hlength]; simpa [hst] using hlen)
    rw [repeat_succ]
    exact ⟨.step hrel hdrains, hnil⟩

/-- The program `p` is what is left of `b` once the pending node is settled, an open node is reported, and the stack is
drained. -/
def Finishes (b : Builder) (p : Program) : Prop :=
  ∃ b' b'', Settles b b' ∧ Drains b.stop b'.reportUnclosed b'' ∧ b''.stack = [] ∧ p = ⟨b.stop, b''.body, b''.errors⟩

theorem reportUnclosed_stack (b : Builder) : b.reportUnclosed.stack = b.stack := by
  unfold reportUnclosed; split <;> rfl

theorem reportUnclosed_stop (b : Builder) : b.reportUnclosed.stop = b.stop := by
  unfold reportUnclosed; split <;> rfl

theorem Settles.stop_eq {b b' : Builder} (h : Settles b b') : b'.stop = b.stop := by
  cases h with
  | idle => rfl
  | held _ ha => exact ha.stop_eq

theorem Settles.outline_eq {b b' : Builder} (h : Settles b b') (hs : Stacked b.stack) :
    b'.stack.map outline = b.stack.map outline := by
  cases h with
  | idle => rfl
  | held _ ha => exact ha.outline_eq hs

theorem finishes_finish {b : Builder} (h : b.Sound) : Finishes b b.finish := by
  have hsettles := settles_settle h.stack h.pending
  have hs := hsettles.stacked h.stack
  have hstop : b.settle.reportUnclosed.stop = b.stop := (reportUnclosed_stop _).trans hsettles.stop_eq
  rw [← reportUnclosed_stack] at hs
  obtain ⟨hdrains, hnil⟩ := drains_repeat b.settle.reportUnclosed.stop hs.under
  rw [hstop] at hdrains hnil
  refine ⟨_, _, hsettles, hdrains, hnil, ?_⟩
  simp only [finish, hstop]

theorem Drains.errors_eq {stop : Nat} {b b' : Builder} (h : Drains stop b b') : b'.errors = b.errors := by
  induction h with
  | done => rfl
  | step hrel _ ih =>
    cases hrel with
    | mk _ ha => exact ih.trans ha.errors_eq

theorem openLabel_congr {n m : Node} (h : n.head = m.head) : n.openLabel = m.openLabel := by
  simp only [Node.openLabel, Node.kind, h]

/-- The innermost node with a closing tag of its own is reported. -/
theorem finish_errors {b : Builder} (h : b.Sound) :
    b.finish.errors = b.errors ++
      match b.stack.find? fun o => !o.chained with
      | none => []
      | some o => [⟨.unclosed o.node.openLabel, o.node.span⟩] := by
  obtain ⟨b', b'', hsettles, hdrains, -, hfinish⟩ := finishes_finish h
  rw [hfinish]
  dsimp only
  rw [hdrains.errors_eq]
  -- the search looks at no more than outlines, which settling does not change
  have hfind : (b'.stack.find? fun o => !o.chained).map outline = (b.stack.find? fun o => !o.chained).map outline := by
    have hmap (l : List OpenNode) :
        (l.find? fun o => !o.chained).map outline = (l.map outline).find? fun o => !o.1 := by
      rw [List.find?_map]
      rfl
    rw [hmap, hmap, hsettles.outline_eq h.stack]
  unfold reportUnclosed
  cases ho : b.stack.find? fun o => !o.chained with
  | none =>
    rw [ho, Option.map_none, Option.map_eq_none_iff] at hfind
    rw [hfind]
    simpa using hsettles.errors_eq
  | some o =>
    rw [ho, Option.map_some, Option.map_eq_some_iff] at hfind
    obtain ⟨o', ho', heq⟩ := hfind
    simp only [outline, Prod.mk.injEq] at heq
    rw [ho']
    simp only [report, hsettles.errors_eq, openLabel_congr heq.2.1, heq.2.2]

/-! ### What a sound state is like -/

/-- Under a stack that is not empty lies a node with a closing tag of its own. -/
theorem Rests.exists_unchained {o : OpenNode} {below : List OpenNode} (hr : Rests o below) (hs : Stacked below) :
    ∃ chain p rest, o :: below = chain ++ p :: rest ∧ (∀ c ∈ chain, c.chained = true) ∧ p.chained = false := by
  induction below generalizing o with
  | nil => cases hr with | outermost hc => exact ⟨[], o, [], rfl, by simp, hc⟩
  | cons p below ih =>
    cases hc : o.chained with
    | false => exact ⟨[], o, p :: below, rfl, by simp, hc⟩
    | true =>
      cases hs with
      | cons _ hr' hs' =>
        obtain ⟨chain, q, rest, heq, hchain, hq⟩ := ih hr' hs'
        refine ⟨o :: chain, q, rest, congrArg (o :: ·) heq, ?_, hq⟩
        intro c hmem
        rcases List.mem_cons.mp hmem with rfl | hmem
        · exact hc
        · exact hchain c hmem

theorem Stacked.of_append {above rest : List OpenNode} (h : Stacked (above ++ rest)) : Stacked rest := by
  induction above with
  | nil => exact h
  | cons o above ih => exact ih h.tail

theorem awaitsCase_of_condition {n : Node} (h : n.kind = .condition) : n.awaitsCase = false := by
  cases hw : n.awaitsCase with
  | false => rfl
  | true =>
    have hswitch := Node.kind_of_awaitsCase hw
    rw [h] at hswitch
    cases hswitch

/-- Below another node every node takes content. -/
theorem Stacked.awaitsCase_of_above {above below : List OpenNode} {o : OpenNode} (h : Stacked (above ++ o :: below))
    (hne : above ≠ []) : o.node.awaitsCase = false := by
  obtain ⟨init, a, rfl⟩ := (List.eq_nil_or_concat above).resolve_left hne
  rw [List.concat_eq_append, List.append_assoc] at h
  cases h.of_append with
  | cons _ hr _ =>
    cases hr with
    | content _ hp => exact hp
    | chained _ _ hp _ => exact awaitsCase_of_condition hp

theorem isContainer_of_isOpen {n : Node} (h : n.IsOpen) : n.kind.hasBody = true ∨ n.kind.isAssign = true := by
  cases h with
  | @wrapper head _ _ hw =>
    cases head with
    | assign => exact .inr rfl
    | callable => exact .inl rfl
    | macroCall => exact .inl rfl
    | block => exact .inl rfl
    | _ => cases hw
  | _ => exact .inl rfl

/-- The state invariant of the builder, in terms of the stack alone. -/
structure Intact (b : Builder) : Prop where
  /-- Every node on the stack is of a kind with a body, or sets a variable from its body. -/
  container : ∀ o ∈ b.stack, o.node.body.isSome ∧ (o.node.kind.hasBody = true ∨ o.node.kind.isAssign = true)
  chained : ∀ above o below, b.stack = above ++ o :: below → o.chained = true →
    o.node.kind = .condition ∧
      ∃ parent rest, below = parent :: rest ∧ parent.node.kind = .condition ∧ parent.node.branch = none
  awaitsCase : ∀ above o below, b.stack = above ++ o :: below → o.node.awaitsCase = true → above = []
  pending : b.pending.isSome → ∀ top below, b.stack = top :: below → top.node.TakesContent
  receives : ∀ above o below, b.stack = above ++ o :: below → (∃ a ∈ above, a.chained = false) → o.node.TakesContent

theorem Stacked.isOpen {o : OpenNode} {stack : List OpenNode} (h : Stacked stack) (ho : o ∈ stack) : o.node.IsOpen := by
  induction h with
  | nil => cases ho
  | cons hopen _ _ ih =>
    rcases List.mem_cons.mp ho with rfl | ho
    · exact hopen
    · exact ih ho

theorem Sound.intact {b : Builder} (h : b.Sound) : b.Intact where
  container o ho := ⟨(h.stack.isOpen ho).body_isSome, isContainer_of_isOpen (h.stack.isOpen ho)⟩
  chained above o below hst hc := by
    have hs := h.stack
    rw [hst] at hs
    cases hs.of_append with
    | cons _ hr _ =>
      cases hr with
      | outermost hc' => rw [hc] at hc'; cases hc'
      | content hc' => rw [hc] at hc'; cases hc'
      | chained _ ho hp hb => exact ⟨ho, _, _, rfl, hp, hb⟩
  awaitsCase above o below hst hw := by
    have hs := h.stack
    rw [hst] at hs
    cases above with
    | nil => rfl
    | cons a above => exact absurd hw (by simp [hs.awaitsCase_of_above (List.cons_ne_nil _ _)])
  pending hp top below hst := by
    have hw := h.pending hp
    rw [Builder.awaitsCase, hst] at hw
    exact (h.stack.isOpen (by simp [hst])).takesContent_iff.mpr hw
  receives above o below hst ha := by
    have hs := h.stack
    rw [hst] at hs
    obtain ⟨a, ha, -⟩ := ha
    exact (hs.isOpen (by simp)).takesContent_iff.mpr (hs.awaitsCase_of_above (List.ne_nil_of_mem ha))

/-- A closing tag has removed a chain with the node that it continues, which is the last content of what was below. -/
def Removes (span : Span) (b b' : Builder) : Prop :=
  ∃ chain o rest n b'', b.stack = chain ++ o :: rest ∧ (∀ c ∈ chain, c.chained = true) ∧ o.chained = false ∧
    n.head = o.node.head ∧ n.span = ⟨o.node.span.start, span.stop⟩ ∧ Adds n { b with stack := rest } b'' ∧
    b'.stack = b''.stack ∧ b'.body = b''.body

theorem removes_of_close {b b' : Builder} {kind : Kind} {t : Token} (hs : Stacked b.stack)
    (h : b.close kind t = .ok b') : Removes t.span b b' := by
  unfold close at h
  split at h
  · cases h
  · next top below hst =>
    split at h
    · cases h
      rw [hst] at hs
      cases hs with
      | cons _ hr hs =>
        obtain ⟨b'', hu, heq⟩ := unwinds_closeTop t.span hst hr hs
        obtain ⟨chain, o, rest, n, hst', hchain, ho, hhead, hspan, -, ha⟩ := hu.removes hst hr hs
        refine ⟨chain, o, rest, n, b'', hst', hchain, ho, hhead, hspan, ha, ?_⟩
        rw [heq]
        split <;> exact ⟨rfl, rfl⟩
    · cases h

/-- If a node is open at the end, the innermost one with a closing tag of its own is reported. -/
theorem Sound.finish_of_stack_ne_nil {b : Builder} (h : b.Sound) (hne : b.stack ≠ []) :
    ∃ chain o rest, b.stack = chain ++ o :: rest ∧ (∀ c ∈ chain, c.chained = true) ∧ o.chained = false ∧
      b.finish.errors = b.errors ++ [⟨.unclosed o.node.openLabel, o.node.span⟩] := by
  obtain ⟨top, below, hst⟩ := List.exists_cons_of_ne_nil hne
  have hs := h.stack
  rw [hst] at hs
  cases hs with
  | cons _ hr hs =>
    obtain ⟨chain, o, rest, heq, hchain, ho⟩ := hr.exists_unchained hs
    refine ⟨chain, o, rest, hst.trans heq, hchain, ho, ?_⟩
    have hfind : (b.stack.find? fun o => !o.chained) = some o := by
      rw [hst, heq, List.find?_append, List.find?_eq_none.mpr (by simpa using hchain)]
      simp [ho]
    rw [finish_errors h, hfind]

theorem Sound.finish_of_stack_eq_nil {b : Builder} (h : b.Sound) (hst : b.stack = []) : b.finish.errors = b.errors := by
  rw [finish_errors h, hst]
  simp

/-- Whatever tokens the builder was fed, its state is intact; the next token finds a place for every node it finishes
and overwrites no alternative; a closing tag that is taken removes one node with the chain above it; and the end of the
template places all open nodes, reporting just the innermost one with a closing tag of its own. -/
theorem intact_feed (stop : Nat) (ts : List Token) :
    let b := (new stop).feed ts
    b.Intact ∧ (∀ t, Pushes t b (b.push t).1 (b.push t).2) ∧
      (∀ kind t b', b.settle.close kind t = .ok b' → Removes t.span b.settle b') ∧ Finishes b b.finish ∧
      (b.stack = [] → b.finish.errors = b.errors) ∧
      (b.stack ≠ [] → ∃ chain o rest, b.stack = chain ++ o :: rest ∧ (∀ c ∈ chain, c.chained = true) ∧
        o.chained = false ∧ b.finish.errors = b.errors ++ [⟨.unclosed o.node.openLabel, o.node.span⟩]) := by
  intro b
  have h : b.Sound := sound_feed (sound_new stop) ts
  refine ⟨h.intact, pushes_push h, ?_, finishes_finish h, h.finish_of_stack_eq_nil, h.finish_of_stack_ne_nil⟩
  intro kind t b' hclose
  exact removes_of_close ((settles_settle h.stack h.pending).stacked h.stack) hclose

end Builder

end TemplateSyntax
