import TemplateSyntax.Proofs.Tree.Grammar
import TemplateSyntax.Proofs.Tree.Invariant

/-!
# Frames of open nodes

The frame of an open node is read off its head, its branch and its cases, and the frames of a stack off its nodes, where
a chain of conditions makes one frame. Content does not change them (`Adds.frames`), a closing tag takes the innermost
one away (`Unwinds.frames`), and the tags that open, continue and close nodes do to them what the grammar says
(`IsNew.opens`, `Begins.continues`, `IsOpen.closes_iff`). Conversely the builder makes what the frames admit
(`IsOpen.exists_of_continues`).
-/

namespace TemplateSyntax

open Markup (Token)

/-! ### Frames of open nodes -/

namespace Node

def frame (n : Node) : Frame :=
  match n.head with
  | .condition _ => .condition n.branch.isSome
  | .list _ => .list n.branch.isSome
  | .attempt => .attempt n.branch.isSome
  | .switch _ => .switch (!n.awaitsCase) (n.children.any fun c => c.kind == .default)
  | head => .wrapper head

theorem frame_of_isWrapper {n : Node} (h : n.head.isWrapper = true) : n.frame = .wrapper n.head := by
  unfold frame
  split
  · next hh => rw [hh] at h; cases h
  · next hh => rw [hh] at h; cases h
  · next hh => rw [hh] at h; cases h
  · next hh => rw [hh] at h; cases h
  · rfl

theorem frame_of_condition {n : Node} (hk : n.kind = .condition) : n.frame = .condition n.branch.isSome := by
  obtain ⟨head, span, body, branch⟩ := n
  cases head <;> first | rfl | cases hk

theorem frame_of_list {n : Node} (hk : n.kind = .list) : n.frame = .list n.branch.isSome := by
  obtain ⟨head, span, body, branch⟩ := n
  cases head <;> first | rfl | cases hk

theorem frame_of_attempt {n : Node} (hk : n.kind = .attempt) : n.frame = .attempt n.branch.isSome := by
  obtain ⟨head, span, body, branch⟩ := n
  cases head <;> first | rfl | cases hk

theorem frame_of_switch {n : Node} (hk : n.kind = .switch) :
    n.frame = .switch (!n.awaitsCase) (n.children.any fun c => c.kind == .default) := by
  obtain ⟨head, span, body, branch⟩ := n
  cases head <;> first | rfl | cases hk

theorem awaitsCase_iff_frame {n : Node} : n.awaitsCase = true ↔ ∃ d, n.frame = .switch false d := by
  constructor
  · intro h
    rw [frame_of_switch (kind_of_awaitsCase h), h]
    exact ⟨_, rfl⟩
  · rintro ⟨d, hd⟩
    unfold frame at hd
    split at hd
    · cases hd
    · cases hd
    · cases hd
    · cases hw : n.awaitsCase with
      | true => rfl
      | false => rw [hw] at hd; cases hd
    · cases hd

/-- Content does not change how far a node has come. -/
theorem IsOpen.frame_of_add? {n child m : Node} (hn : n.IsOpen) (h : n.add? child = some m) : m.frame = n.frame := by
  obtain ⟨hw, hgrows, -⟩ := hn.of_add? h
  have hw' := hgrows.awaitsCase hw
  have hbranch := hgrows.branch_isSome
  have hhead := hgrows.head_eq
  cases hn with
  | wrapper hwrap =>
    rw [frame_of_isWrapper (by rw [hhead]; exact hwrap), hhead, frame_of_isWrapper hwrap]
  | list => simp only [frame, hhead, hbranch]
  | attempt => simp only [frame, hhead, hbranch]
  | condition => simp only [frame, hhead, hbranch]
  | conditionElse => simp only [frame, hhead, hbranch]
  | @switch subject span cases hcases =>
    rcases List.eq_nil_or_concat cases with rfl | ⟨init, p, rfl⟩
    · cases hw
    · -- the child goes into the last case, so the cases stay the same ones
      rw [List.concat_eq_append] at h hcases hw ⊢
      have hadd := addToPart?_append_singleton (hcases p (by simp)) child init
      simp only [Node.add?, Option.bind_some, hadd, Option.map_some, Option.some.injEq] at h
      subst h
      rw [frame_of_switch rfl, hw', frame_of_switch rfl, hw]
      simp [children, appendToBody, kind]

theorem IsNew.isBegunBy {kind : Kind} {t : Token} {params : Option Expr} {n : Node} (hn : n.IsNew kind t params)
    (h : IsTag kind params t) : n.head.IsBegunBy t := by
  have hkind : n.head.kind = kind := hn.kind_eq
  exact ⟨params, by rwa [hkind], by rw [hkind]; exact hn.head⟩

theorem IsNew.opens {kind : Kind} {t : Token} {params : Option Expr} {n : Node} (hn : n.IsNew kind t params)
    (h : IsTag kind params t) (hb : n.body.isSome) (hself : t.selfClosing = false) : Opens t n.frame := by
  have hbegun := hn.isBegunBy h
  have hwraps : n.head.wraps t.selfClosing = true := by
    cases hw : n.head.wraps t.selfClosing with
    | true => rfl
    | false => simp [hn.body, hw] at hb
  have hopen := hn.isOpen hb
  have hbranch := hn.branch
  cases hopen with
  | wrapper hw => rw [frame_of_isWrapper hw]; exact .wrapper hbegun hw hwraps hself
  | list => cases hbranch; exact .list hbegun hself
  | attempt => cases hbranch; exact .attempt hbegun hself
  | condition => exact .condition hbegun hself
  | conditionElse => cases hbranch
  | @switch _ _ cases =>
    have hbody := hn.body
    rw [if_pos hwraps] at hbody
    cases hbody
    exact .switch hbegun hself

end Node

namespace Builder

/-- The frames of the open nodes, the innermost first. A chained condition stands for the one that it continues. -/
def frames : List OpenNode → List Frame
  | [] => []
  | o :: below => o.node.frame :: if o.chained then (frames below).tail else frames below

theorem frames_congr {o o' : OpenNode} (hc : o'.chained = o.chained) (hf : o'.node.frame = o.node.frame)
    (below : List OpenNode) : frames (o' :: below) = frames (o :: below) := by
  simp only [frames, hc, hf]

/-- A chain and the node that it continues make one frame. -/
theorem tail_frames {chain : List OpenNode} {o : OpenNode} (hchain : ∀ c ∈ chain, c.chained = true)
    (ho : o.chained = false) (rest : List OpenNode) :
    (frames (chain ++ o :: rest)).tail = frames rest := by
  induction chain with
  | nil => simp [frames, ho]
  | cons c chain ih =>
    have hc := hchain c (List.mem_cons_self ..)
    simpa [frames, hc] using ih fun c hmem => hchain c (List.mem_cons_of_mem _ hmem)

theorem receives_iff {b : Builder} : Receives (frames b.stack) ↔ b.awaitsCase = false := by
  cases hst : b.stack with
  | nil => simp [frames, Receives, awaitsCase, hst]
  | cons top below =>
    have hiff := @Node.awaitsCase_iff_frame top.node
    rw [← Bool.not_eq_true, awaitsCase, hst, hiff]
    unfold Receives frames
    split
    · next d _ heq => simp [(List.cons.inj heq).1]
    · next hne =>
      simp only [true_iff, not_exists]
      intro d hd
      exact hne d _ (by rw [hd])

theorem Adds.frames {n : Node} {b b' : Builder} (h : Adds n b b') (hs : Stacked b.stack) :
    frames b'.stack = frames b.stack := by
  cases h with
  | outermost => rfl
  | inner hst hn =>
    rw [hst] at hs ⊢
    cases hs with
    | cons ho _ _ =>
      refine frames_congr ?_ ?_ _
      · rfl
      · exact ho.frame_of_add? hn

theorem Settles.frames {b b' : Builder} (h : Settles b b') (hs : Stacked b.stack) :
    frames b'.stack = frames b.stack := by
  cases h with
  | idle => rfl
  | held _ ha => exact @Adds.frames _ { b with pending := none } _ ha hs

theorem Unwinds.frames {span : Span} {b b' : Builder} (hu : Unwinds span b b') {top : OpenNode}
    {below : List OpenNode} (hst : b.stack = top :: below) (hr : Rests top below) (hs : Stacked below) :
    frames b.stack = top.node.frame :: frames b'.stack := by
  obtain ⟨chain, o, rest, n, heq, hchain, ho, -, -, hs', ha⟩ := hu.removes hst hr hs
  have htail := tail_frames hchain ho rest
  rw [← heq] at htail
  have hframes : Builder.frames b'.stack = Builder.frames rest := @Adds.frames _ { b with stack := rest } _ ha hs'
  rw [hframes, ← htail, hst, Builder.frames, List.tail_cons]

end Builder

/-! ### Tags of open nodes -/

theorem IsTag.params_eq_none {kind : Kind} {params : Option Expr} {t : Token} (h : IsTag kind params t)
    (hr : kind.paramRule = .forbidden) : params = none := by
  have hrule := h.rule
  rw [hr] at hrule
  cases params with
  | none => rfl
  | some e => exact hrule.elim

namespace Node

theorem closedBy_iff {n : Node} {kind : Kind} {tag : Option String} :
    n.closedBy kind tag = true ↔ n.kind = kind ∧ n.head.AllowsName tag := by
  obtain ⟨head, span, body, branch⟩ := n
  unfold closedBy
  rw [Bool.and_eq_true, beq_iff_eq]
  refine and_congr_right fun _ => ?_
  cases head with
  | macroCall name params =>
    cases tag with
    | none => simp [Head.AllowsName]
    | some given => simp [Head.AllowsName, String.isEmpty_iff]
  | _ => exact iff_of_true rfl trivial

/-- A closing tag takes an open node by its kind and name, and an attempt only with its recovery. -/
theorem IsOpen.closes_iff {n : Node} (hn : n.IsOpen) {t : Token} :
    Closes t n.frame ↔ IsClose n.kind t ∧ n.head.AllowsName t.tag ∧ n.lacksRecover = false := by
  cases hn with
  | @wrapper head span ns hw =>
    rw [frame_of_isWrapper hw]
    have hl : Node.lacksRecover ⟨head, span, some ns, none⟩ = false := by
      simp [lacksRecover, kind, (Head.kind_of_isWrapper hw).2.2.1]
    constructor
    · intro h
      cases h with | wrapper hc hname => exact ⟨hc, hname, hl⟩
    · rintro ⟨hc, hname, -⟩
      exact .wrapper hc hname
  | list =>
    constructor
    · intro h
      cases h with | list hc => exact ⟨hc, trivial, rfl⟩
    · rintro ⟨hc, -, -⟩
      exact .list hc
  | @attempt span ns fallback =>
    cases fallback with
    | none =>
      constructor
      · intro h
        cases h
      · rintro ⟨-, -, hl⟩
        cases hl
    | some fs =>
      constructor
      · intro h
        cases h with | attempt hc => exact ⟨hc, trivial, rfl⟩
      · rintro ⟨hc, -, -⟩
        exact .attempt hc
  | condition | conditionElse =>
    constructor
    · intro h
      cases h with | condition hc => exact ⟨hc, trivial, rfl⟩
    · rintro ⟨hc, -, -⟩
      exact .condition hc
  | switch =>
    constructor
    · intro h
      cases h with | switch hc => exact ⟨hc, trivial, rfl⟩
    · rintro ⟨hc, -, -⟩
      exact .switch hc

private theorem any_default_endPart (stop : Nat) (ns : List Node) :
    ((changeLast (fun p => if p.isPart then p.endAt stop else p) ns).any fun c => c.kind == .default) =
      ns.any fun c => c.kind == .default := by
  rcases List.eq_nil_or_concat ns with rfl | ⟨init, p, rfl⟩
  · rfl
  · have hkind : (if p.isPart then p.endAt stop else p).kind = p.kind := by
      split <;> rfl
    simp [List.concat_eq_append, hkind]

/-- The frame of a switch with one more case. -/
theorem IsOpen.frame_beginCase {n : Node} (hn : n.IsOpen) (hk : n.kind = .switch) (case : Node) :
    (n.beginCase case).frame =
      .switch true ((n.children.any fun c => c.kind == .default) || case.kind == .default) := by
  cases hn with
  | switch => simp [frame, beginCase, endPart, awaitsCase, children, any_default_endPart]
  | wrapper hw => exact absurd hk (Head.kind_of_isWrapper hw).2.2.2
  | _ => cases hk

theorem Begins.continues {kind : Kind} {t : Token} {params : Option Expr} {n m : Node} (h : Begins kind t params n m)
    (hn : n.IsOpen) (ht : IsTag kind params t) : Continues t n.frame m.frame := by
  cases h with
  | otherwise hk hkind hb =>
    subst hk
    cases ht.params_eq_none rfl
    rw [frame_of_condition hkind, hb, frame_of_condition (n := { n with branch := _ }) hkind]
    exact .otherwise ht
  | fallback hk hb =>
    rcases hk with ⟨rfl, hkind⟩ | ⟨rfl, hkind⟩
    · cases ht.params_eq_none rfl
      rw [frame_of_list hkind, hb, frame_of_list (n := { n with branch := _ }) hkind]
      exact .listElse ht
    · cases ht.params_eq_none rfl
      rw [frame_of_attempt hkind, hb, frame_of_attempt (n := { n with branch := _ }) hkind]
      exact .recover ht
  | case hk hkind hp =>
    subst hk hp
    rw [hn.frame_beginCase hkind, frame_of_switch hkind, show (Node.kind (part _ _) == Kind.default) = false from rfl,
      Bool.or_false]
    exact .case ht
  | default hk hkind hd =>
    subst hk
    cases ht.params_eq_none rfl
    rw [hn.frame_beginCase hkind, frame_of_switch hkind, hd]
    exact .default ht

/-- A tag that goes on with an open node begins a new part of it, but an `<#elseif>` is chained to it. -/
theorem IsOpen.exists_of_continues {n : Node} (hn : n.IsOpen) {t : Token} {f : Frame} (h : Continues t n.frame f) :
    (∃ test, IsTag .elseIf (some test) t ∧ n.kind = .condition ∧ n.branch = none ∧ f = .condition false) ∨
      ∃ kind params m, IsTag kind params t ∧ kind ≠ .elseIf ∧ kind.isContinuation = true ∧
        (n.awaitsCase = true → kind = .case ∨ kind = .default) ∧ n.beginPart kind t params = .ok m ∧ m.frame = f := by
  cases hn with
  | wrapper hw =>
    rw [frame_of_isWrapper hw] at h
    cases h
  | @list params span ns fallback =>
    cases fallback with
    | none => cases h with | listElse h => exact .inr ⟨.otherwise, none, _, h, by decide, rfl, nofun, rfl, rfl⟩
    | some fs => cases h
  | @attempt span ns fallback =>
    cases fallback with
    | none => cases h with | recover h => exact .inr ⟨.recover, none, _, h, by decide, rfl, nofun, rfl, rfl⟩
    | some fs => cases h
  | condition =>
    cases h with
    | elseIf h => exact .inl ⟨_, h, rfl, rfl, rfl⟩
    | otherwise h => exact .inr ⟨.otherwise, none, _, h, by decide, rfl, nofun, rfl, rfl⟩
  | conditionElse => cases h
  | @switch subject span cases hcases =>
    have hopen : IsOpen ⟨.switch subject, span, some cases, none⟩ := .switch hcases
    rw [frame_of_switch (n := ⟨.switch subject, span, some cases, none⟩) rfl] at h
    -- whether there is a default case decides whether one may come
    generalize hd : (children ⟨.switch subject, span, some cases, none⟩).any (fun c => c.kind == .default) = d at h
    cases h with
    | @case _ _ value h =>
      refine .inr ⟨.case, some value, _, h, by decide, rfl, fun _ => .inl rfl, rfl, ?_⟩
      rw [hopen.frame_beginCase rfl, hd, show (Node.kind (part _ _) == Kind.default) = false from rfl, Bool.or_false]
    | default h =>
      refine .inr ⟨.default, none, beginCase ⟨.switch subject, span, some cases, none⟩ (part .default t.span), h,
        by decide, rfl, fun _ => .inr rfl, ?_, ?_⟩
      · simp [beginPart, hd]
      · rw [hopen.frame_beginCase rfl, hd]
        rfl

end Node

end TemplateSyntax
