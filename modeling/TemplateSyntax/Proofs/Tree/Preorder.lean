import Mathlib.Data.List.Forall2
import TemplateSyntax.Proofs.Tree.Invariant

/-!
# Nodes in the order of their tokens

In a preorder walk every node comes before its children. The head of a node, the place where it starts and whether it
has a body never change once a token has begun it, so a walk over the body, the stack and the pending node reads off the
tokens that began nodes, in their order: each token adds at most one node, at the end (`extends_push`), and neither the
moves between stack and body nor the end of the template change the walk. Hence nothing of a template is lost, doubled
or moved (`walk_feed`).
-/

namespace TemplateSyntax

open Markup (Token)

namespace Node

mutual

/-- The node and the nodes below it, each before its children. -/
def preorder : Node → List Node
  | ⟨head, span, body, branch⟩ => ⟨head, span, body, branch⟩ :: (slotPreorder body ++ slotPreorder branch)

def slotPreorder : Option (List Node) → List Node
  | none => []
  | some ns => listPreorder ns

def listPreorder : List Node → List Node
  | [] => []
  | n :: ns => n.preorder ++ listPreorder ns

end

theorem listPreorder_eq (ns : List Node) : listPreorder ns = ns.flatMap preorder := by
  induction ns with
  | nil => rfl
  | cons n ns ih => rw [listPreorder, ih, List.flatMap_cons]

theorem preorder_eq (n : Node) : n.preorder = n :: n.children.flatMap preorder := by
  obtain ⟨head, span, body, branch⟩ := n
  have hslot (slot : Option (List Node)) : slotPreorder slot = (slot.getD []).flatMap preorder := by
    cases slot with
    | none => rfl
    | some ns => exact listPreorder_eq ns
  rw [preorder, hslot, hslot, ← List.flatMap_append]
  rfl

/-- What stays of a node from its first token on: its head and where it starts. -/
def mark (n : Node) : Head × Nat :=
  (n.head, n.span.start)

/-- The marks of a list of nodes and of all that is below them. -/
def marks (ns : List Node) : List (Head × Nat) :=
  (ns.flatMap preorder).map mark

/-- The mark of a node, and whether it has a body, which does not change either. -/
def stamp (n : Node) : (Head × Nat) × Bool :=
  (n.mark, n.body.isSome)

/-- The stamps of a list of nodes and of all that is below them. -/
def stamps (ns : List Node) : List ((Head × Nat) × Bool) :=
  (ns.flatMap preorder).map stamp

theorem marks_eq (ns : List Node) : marks ns = (stamps ns).map Prod.fst := by
  rw [marks, stamps, List.map_map]
  rfl

@[simp] theorem stamps_nil : stamps [] = [] := rfl

@[simp] theorem stamps_append (ns ms : List Node) : stamps (ns ++ ms) = stamps ns ++ stamps ms := by
  simp [stamps]

theorem stamps_singleton (n : Node) : stamps [n] = n.stamp :: stamps n.children := by
  simp [stamps, preorder_eq n]

@[simp] theorem stamps_part (head : Head) (span : Span) : stamps [part head span] = [((head, span.start), true)] := by
  rw [stamps_singleton]
  rfl

theorem stamps_congr {n m : Node} (hm : m.stamp = n.stamp) (hc : stamps m.children = stamps n.children) :
    stamps [m] = stamps [n] := by
  rw [stamps_singleton, stamps_singleton, hm, hc]

/-! ### Stamps of open nodes -/

theorem stamps_endAt (stop : Nat) (n : Node) : stamps [n.endAt stop] = stamps [n] :=
  stamps_congr rfl rfl

theorem IsOpenPart.stamps_appendToBody {p : Node} (h : p.IsOpenPart) (child : Node) :
    stamps [Node.appendToBody child p] = stamps [p] ++ stamps [child] := by
  obtain ⟨ns, hns⟩ := Option.isSome_iff_exists.mp h.body
  rw [stamps_singleton, stamps_singleton]
  simp [Node.appendToBody, children, stamp, mark, hns, h.branch]

/-- A new child comes last in the walk. -/
theorem Grows.stamps {child n m : Node} (h : Grows child n m) : stamps [m] = stamps [n] ++ stamps [child] := by
  rw [stamps_singleton, stamps_singleton n]
  cases h with
  | body hb h => simp [children, stamp, mark, hb, h]
  | branch h => simp [children, stamp, mark, h]
  | bodyPart hb h hp => simp [children, stamp, mark, hb, h, hp.stamps_appendToBody]
  | branchPart h hp => simp [children, stamp, mark, h, hp.stamps_appendToBody]

theorem stamps_changeLast {f : Node → Node} (h : ∀ n, stamps [f n] = stamps [n]) (ns : List Node) :
    stamps (changeLast f ns) = stamps ns := by
  rcases List.eq_nil_or_concat ns with rfl | ⟨init, last, rfl⟩
  · rfl
  · rw [List.concat_eq_append, changeLast_append_singleton, stamps_append, stamps_append, h]

theorem stamps_endPart (stop : Nat) (n : Node) : stamps [n.endPart stop] = stamps [n] := by
  have hended (p : Node) : stamps [if p.isPart then p.endAt stop else p] = stamps [p] := by
    split
    · exact stamps_endAt stop p
    · rfl
  have hslot (slot : Option (List Node)) :
      stamps ((slot.map (changeLast fun p => if p.isPart then p.endAt stop else p)).getD []) =
        stamps (slot.getD []) := by
    cases slot with
    | none => rfl
    | some ns => exact stamps_changeLast hended ns
  unfold endPart
  split
  · exact stamps_congr rfl (by simp [children, hslot])
  · exact stamps_congr (by simp [stamp, mark]) (by simp [children, hslot])
  · rfl

/-- A finished case stays where it is in the walk, and the new one comes last. -/
theorem IsOpen.stamps_beginCase {n : Node} (hn : n.IsOpen) (hk : n.kind = .switch) (case : Node) :
    stamps [n.beginCase case] = stamps [n] ++ stamps [case] := by
  -- ending the last case moves no stamp, so the ended node may be compared
  rw [← stamps_endPart case.span.start n, stamps_singleton, stamps_singleton (n.endPart _)]
  cases hn with
  | switch h => simp [beginCase, endPart, children, stamp, mark]
  | wrapper hw => exact absurd hk (Head.kind_of_isWrapper hw).2.2.2
  | _ => cases hk

theorem IsNew.stamps {kind : Kind} {t : Token} {params : Option Expr} {n : Node} (h : n.IsNew kind t params) :
    stamps [n] = [((n.head, t.span.start), n.head.wraps t.selfClosing)] := by
  have hbody : n.body.isSome = n.head.wraps t.selfClosing := by
    rw [h.body]
    split
    · next hw => exact hw.symm
    · next hw => exact (Bool.eq_false_iff.mpr hw).symm
  rw [stamps_singleton, h.children, stamp, mark, h.span, hbody]
  rfl

end Node

namespace Builder

/-! ### Marks of a state -/

/-- The marks of the open nodes, the outermost first. -/
def stackMarks : List OpenNode → List (Head × Nat)
  | [] => []
  | o :: below => stackMarks below ++ Node.marks [o.node]

/-- The marks of what has its place already. -/
def placed (b : Builder) : List (Head × Nat) :=
  Node.marks b.body ++ stackMarks b.stack

/-- The marks of everything that the builder holds. -/
def marks (b : Builder) : List (Head × Nat) :=
  b.placed ++ Node.marks b.pending.toList

/-- The stamps of the open nodes, the outermost first. -/
def stackStamps : List OpenNode → List ((Head × Nat) × Bool)
  | [] => []
  | o :: below => stackStamps below ++ Node.stamps [o.node]

/-- The stamps of what has its place already. -/
def placedStamps (b : Builder) : List ((Head × Nat) × Bool) :=
  Node.stamps b.body ++ stackStamps b.stack

/-- The stamps of everything that the builder holds. -/
def stamps (b : Builder) : List ((Head × Nat) × Bool) :=
  b.placedStamps ++ Node.stamps b.pending.toList

theorem stackMarks_eq (stack : List OpenNode) : stackMarks stack = (stackStamps stack).map Prod.fst := by
  induction stack with
  | nil => rfl
  | cons o below ih => rw [stackMarks, stackStamps, List.map_append, ih, Node.marks_eq]

theorem marks_eq (b : Builder) : b.marks = b.stamps.map Prod.fst := by
  simp only [marks, placed, stamps, placedStamps, List.map_append, Node.marks_eq, stackMarks_eq]

theorem stamps_of_pending_eq_none {b : Builder} (h : b.pending = none) : b.stamps = b.placedStamps := by
  simp [stamps, h]

theorem Adds.placedStamps {n : Node} {b b' : Builder} (h : Adds n b b') (hs : Stacked b.stack) :
    b'.placedStamps = b.placedStamps ++ Node.stamps [n] := by
  cases h with
  | outermost hst => simp [Builder.placedStamps, hst, stackStamps]
  | inner hst hn =>
    rw [hst] at hs
    cases hs with
    | cons ho _ _ =>
      obtain ⟨-, hgrows, -⟩ := ho.of_add? hn
      simp [Builder.placedStamps, hst, stackStamps, hgrows.stamps]

/-- An alternative comes last in the walk, as other content does. -/
theorem Attaches.placedStamps {o : OpenNode} {b b' : Builder} (h : Attaches o b b') (hs : Stacked b.stack) :
    b'.placedStamps = b.placedStamps ++ Node.stamps [o.node] := by
  cases h with
  | @alternative parent below hc hst hk hb =>
    have hparent : Node.stamps [{ parent.node with branch := some [o.node] }] =
        Node.stamps [parent.node] ++ Node.stamps [o.node] := by
      rw [Node.stamps_singleton, Node.stamps_singleton parent.node]
      simp [Node.children, Node.stamp, Node.mark, hb]
    simp [Builder.placedStamps, hst, stackStamps, hparent]
  | content _ h => exact h.placedStamps hs

/-! ### Nodes that are finished -/

/-- A node that leaves the stack keeps its place in the walk. -/
theorem Releases.placedStamps {partStop stop : Nat} {b b' : Builder} {o top : OpenNode} {below : List OpenNode}
    (h : Releases partStop stop b o b') (hst : b.stack = top :: below) (hs : Stacked below) :
    b'.placedStamps = b.placedStamps := by
  obtain ⟨rfl, ha⟩ := h.attaches hst
  rw [ha.placedStamps hs, Node.stamps_endAt, Node.stamps_endPart]
  simp [Builder.placedStamps, hst, stackStamps]

theorem Unwinds.placedStamps {span : Span} {b b' : Builder} {top : OpenNode} {below : List OpenNode}
    (hu : Unwinds span b b') (hst : b.stack = top :: below) (hr : Rests top below) (hs : Stacked below) :
    b'.placedStamps = b.placedStamps := by
  induction hu generalizing top below with
  | last _ h => exact h.placedStamps hst hs
  | chained hc h _ ih =>
    obtain ⟨rfl, -⟩ := h.attaches hst
    have hplacedStamps := h.placedStamps hst hs
    obtain ⟨parent, rest, alternative, hbelow, hk, hrests, hstacked, rfl⟩ := h.of_chained hst hc hs
    exact (ih rfl (hrests.congr rfl rfl) hstacked).trans hplacedStamps

theorem Drains.placedStamps {stop : Nat} {b b' : Builder} (h : Drains stop b b')
    (htop : ∀ top below, b.stack = top :: below → Rests top below ∧ Stacked below) :
    b'.placedStamps = b.placedStamps := by
  induction h with
  | done => rfl
  | step h _ ih =>
    cases h with
    | mk hst ha =>
      obtain ⟨-, hs⟩ := htop _ _ hst
      have h := Releases.mk hst ha
      exact (ih (h.uncovers hst hs).1).trans (h.placedStamps hst hs)

theorem Settles.placedStamps {b b' : Builder} (h : Settles b b') (hs : Stacked b.stack) :
    b'.placedStamps = b.stamps := by
  cases h with
  | idle h => exact (stamps_of_pending_eq_none h).symm
  | held h ha =>
    rw [@Adds.placedStamps _ { b with pending := none } _ ha hs, Builder.stamps, h]
    rfl

theorem Settles.stamps {b b' : Builder} (h : Settles b b') (hs : Stacked b.stack) : b'.stamps = b.stamps :=
  (stamps_of_pending_eq_none h.pending_eq).trans (h.placedStamps hs)

/-- The program is walked as the state that it was finished from. -/
theorem Finishes.stamps {b : Builder} {p : Program} (h : Finishes b p) (hs : Stacked b.stack) :
    Node.stamps p.body = b.stamps := by
  obtain ⟨b', b'', hsettles, hdrains, hnil, rfl⟩ := h
  have hstacked : Stacked b'.reportUnclosed.stack := by
    rw [reportUnclosed_stack]
    exact hsettles.stacked hs
  have hreport : b'.reportUnclosed.placedStamps = b'.placedStamps := by
    unfold reportUnclosed
    split <;> rfl
  have hplacedStamps := hdrains.placedStamps hstacked.under
  rw [hreport, hsettles.placedStamps hs] at hplacedStamps
  simpa [placedStamps, hnil, stackStamps] using hplacedStamps

end Builder

/-! ### The node that a token begins -/

/-- The head of the node that a tag begins. It says nothing of where the tag may stand. -/
def Head.begun? (kind : Kind) (t : Token) (params : Option Expr) : Option Head :=
  match kind, params with
  | .elseIf, some test => some (.condition test)
  | .otherwise, _ => some .otherwise
  | .case, some value => some (.case value)
  | .default, _ => some .default
  | _, _ => (Head.ofTag kind t params).toOption

def Head.ofToken? (t : Token) : Option Head :=
  (Kind.ofToken? t).bind fun kind => (kind.readParams t).toOption.bind fun params => Head.begun? kind t params

/-- The node is the one that the token begins. -/
structure Node.StandsFor (t : Token) (n : Node) : Prop where
  start : n.span.start = t.span.start
  head : Head.ofToken? t = some n.head
  /-- Text is kept as it is written. -/
  text : t.kind = .text → n.head = .text t.raw
  comment : t.kind = .comment → n.head = .comment (t.commentBody?.getD "")

theorem Kind.ofToken?_eq_text {t : Token} (h : Kind.ofToken? t = some .text) : t.kind = .text := by
  unfold Kind.ofToken? at h
  split at h
  · assumption
  · cases h
  · cases h
  · cases h
  · obtain ⟨tag, -, hname⟩ := Option.bind_eq_some_iff.mp h
    have hmem := List.mem_of_find?_eq_some hname
    exact absurd hmem (by decide)

theorem Head.ofToken?_of_text {t : Token} (h : t.kind = .text) : Head.ofToken? t = some (.text t.raw) := by
  have hk : Kind.ofToken? t = some .text := by rw [Kind.ofToken?, h]
  rw [Head.ofToken?, hk]
  rfl

theorem Head.ofToken?_of_comment {t : Token} (h : t.kind = .comment) :
    Head.ofToken? t = some (.comment (t.commentBody?.getD "")) := by
  have hk : Kind.ofToken? t = some .comment := by rw [Kind.ofToken?, h]
  rw [Head.ofToken?, hk]
  rfl

theorem Node.standsFor_of_mark {t : Token} {n : Node} (h : (Head.ofToken? t).map (·, t.span.start) = some n.mark) :
    n.StandsFor t := by
  obtain ⟨head, hhead, hmark⟩ := Option.map_eq_some_iff.mp h
  obtain ⟨rfl, hstart⟩ := Prod.mk.inj hmark
  refine ⟨hstart.symm, hhead, fun ht => ?_, fun ht => ?_⟩
  · rw [Head.ofToken?_of_text ht] at hhead
    exact (Option.some.inj hhead).symm
  · rw [Head.ofToken?_of_comment ht] at hhead
    exact (Option.some.inj hhead).symm

theorem IsTag.headOfToken? {kind : Kind} {params : Option Expr} {t : Token} (h : IsTag kind params t) :
    Head.ofToken? t = Head.begun? kind t params := by
  rw [Head.ofToken?, h.ofToken, Option.bind_some, h.read]
  rfl

/-- The mark that a token leaves in the walk, if it begins a node. -/
def Head.markOf? (t : Token) : Option (Head × Nat) :=
  (Head.ofToken? t).map (·, t.span.start)

theorem IsTag.markOf? {kind : Kind} {params : Option Expr} {t : Token} (h : IsTag kind params t) :
    Head.markOf? t = (Head.begun? kind t params).map (·, t.span.start) := by
  rw [Head.markOf?, h.headOfToken?]

namespace Builder

/-! ### Tokens that begin no node -/

/-- The token opens the branch of a list or attempt, which is no node. -/
def opensFallback (t : Token) (b : Builder) : Bool :=
  match b.stack with
  | [] => false
  | top :: _ =>
    Kind.ofToken? t == some .otherwise && top.node.kind == .list ||
      Kind.ofToken? t == some .recover && top.node.kind == .attempt

/-- Blank text between a switch and its first case. -/
def dropsBlank (t : Token) (b : Builder) : Bool :=
  t.kind == .text && t.raw.toList.all Text.isBlank && b.awaitsCase

/-- The token leaves a node when its push, with the outcome `out` and the state `b'`, neither failed nor reported a
fault, unless it is a closing tag, is left out or opens a mere branch. -/
def leaves (t : Token) (b : Builder) (out : Option ExprError) (b' : Builder) : Bool :=
  !t.closing && out.isNone && b'.errors.length == b.errors.length && !b.dropsBlank t && !b.opensFallback t

def leavesNode (t : Token) (b : Builder) : Bool :=
  b.leaves t (b.push t).1 (b.push t).2

/-- The tokens that leave a node. -/
def keep : List Token → Builder → List Token
  | [], _ => []
  | t :: ts, b => if b.leavesNode t then t :: keep ts (b.push t).2 else keep ts (b.push t).2

end Builder

theorem Head.begun?_of_isNew {kind : Kind} {t : Token} {params : Option Expr} {n : Node}
    (h : n.IsNew kind t params) : begun? kind t params = some n.head := by
  have hc := isContinuation_of_ofTag h.head
  unfold begun?
  split
  · cases hc
  · cases hc
  · cases hc
  · cases hc
  · rw [h.head]
    rfl

namespace Builder

theorem dropsBlank_of_ne_text {kind : Kind} {params : Option Expr} {t : Token} (h : IsTag kind params t)
    (hk : kind ≠ .text) (b : Builder) : b.dropsBlank t = false := by
  have ht : t.kind ≠ .text := by
    intro ht
    have htext : Kind.ofToken? t = some .text := by rw [Kind.ofToken?, ht]
    rw [h.ofToken] at htext
    exact hk (Option.some.inj htext)
  simp [dropsBlank, ht]

theorem dropsBlank_of_awaitsCase_eq_false {b : Builder} (h : b.awaitsCase = false) (t : Token) :
    b.dropsBlank t = false := by
  simp [dropsBlank, h]

theorem opensFallback_of_ne {kind : Kind} {params : Option Expr} {t : Token} (h : IsTag kind params t)
    (ho : kind ≠ .otherwise) (hr : kind ≠ .recover) (b : Builder) : b.opensFallback t = false := by
  unfold opensFallback
  split
  · rfl
  · simp [h.ofToken, ho, hr]

theorem opensFallback_of_isNew {kind : Kind} {params : Option Expr} {t : Token} {n : Node} (h : IsTag kind params t)
    (hn : n.IsNew kind t params) (b : Builder) : b.opensFallback t = false := by
  have hc := Head.isContinuation_of_ofTag hn.head
  refine opensFallback_of_ne h ?_ ?_ b
  · rintro rfl
    cases hc
  · rintro rfl
    cases hc

/-- The walk over `b'` is that over `b`, with the node of the token at its end if there is one. -/
inductive Walks (t : Token) (b : Builder) (out : Option ExprError) (b' : Builder) : Prop
  | same (h : b.leaves t out b' = false) (hm : b'.marks = b.marks)
  | next {mark : Head × Nat} (h : b.leaves t out b' = true) (ht : Head.markOf? t = some mark)
      (hm : b'.marks = b.marks ++ [mark])

/-- The token leaves a node with this stamp. -/
def IsStampedBy (t : Token) (stamp : (Head × Nat) × Bool) : Prop :=
  ∃ kind params head, IsTag kind params t ∧ Head.begun? kind t params = some head ∧
    stamp = ((head, t.span.start), head.wraps t.selfClosing)

theorem IsStampedBy.markOf? {t : Token} {stamp : (Head × Nat) × Bool} (h : IsStampedBy t stamp) :
    Head.markOf? t = some stamp.1 := by
  obtain ⟨kind, params, head, htag, hhead, rfl⟩ := h
  rw [htag.markOf?, hhead]
  rfl

/-- The same for stamps in place of marks. -/
inductive Extends (t : Token) (b : Builder) (out : Option ExprError) (b' : Builder) : Prop
  | same (h : b.leaves t out b' = false) (hm : b'.stamps = b.stamps)
  | next {stamp : (Head × Nat) × Bool} (h : b.leaves t out b' = true) (ht : IsStampedBy t stamp)
      (hm : b'.stamps = b.stamps ++ [stamp])

theorem Extends.walks {t : Token} {b b' : Builder} {out : Option ExprError} (h : Extends t b out b') :
    Walks t b out b' := by
  cases h with
  | same h hm => exact .same h (by rw [marks_eq, marks_eq, hm])
  | next h ht hm =>
    refine .next h ht.markOf? ?_
    rw [marks_eq, marks_eq, hm, List.map_append]
    rfl

private theorem extends_of_begun {kind : Kind} {params : Option Expr} {t : Token} {b b' : Builder} (head : Head)
    (h : IsTag kind params t) (hhead : Head.begun? kind t params = some head) (he : b'.errors = b.errors)
    (hb : b.dropsBlank t = false) (hf : b.opensFallback t = false)
    (hm : b'.stamps = b.stamps ++ [((head, t.span.start), head.wraps t.selfClosing)]) : Extends t b none b' := by
  refine .next ?_ ⟨kind, params, head, h, hhead, rfl⟩ hm
  simp [leaves, h.opening, he, hb, hf]

/-! ### One token -/

/-- A new part of an open node that is itself a node comes last in the walk. -/
private theorem extends_of_begins {kind : Kind} {params : Option Expr} {t : Token} {b : Builder} {top : OpenNode}
    {below : List OpenNode} {node : Node} (h : IsTag kind params t) (hst : b.stack = top :: below)
    (ho : top.node.IsOpen) (hp : b.pending = none) (hn : Node.Begins kind t params top.node node) :
    Extends t b none { b with stack := { top with node } :: below } := by
  cases hn with
  | otherwise hk hkind hb =>
    subst hk
    refine extends_of_begun .otherwise h rfl rfl (dropsBlank_of_ne_text h (by decide) b) ?_ ?_
    · simp [opensFallback, hst, h.ofToken, hkind]
    · have hnode : Node.stamps [{ top.node with branch := some [Node.part .otherwise t.span] }] =
          Node.stamps [top.node] ++ [((.otherwise, t.span.start), true)] := by
        rw [Node.stamps_singleton, Node.stamps_singleton top.node]
        simp [Node.children, Node.stamp, Node.mark, hb]
      simp [stamps, placedStamps, hst, hp, stackStamps, hnode]
      rfl
  | fallback hk hb =>
    -- the branch of a list or attempt is no node
    refine .same ?_ ?_
    · have hf : b.opensFallback t = true := by
        rcases hk with ⟨rfl, hkind⟩ | ⟨rfl, hkind⟩ <;> simp [opensFallback, hst, h.ofToken, hkind]
      simp [leaves, hf]
    · have hnode : Node.stamps [{ top.node with branch := some [] }] = Node.stamps [top.node] := by
        refine Node.stamps_congr rfl ?_
        simp [Node.children, hb]
      simp [stamps, placedStamps, hst, hp, stackStamps, hnode]
  | @case value hk hkind hparams =>
    subst hk hparams
    refine extends_of_begun (.case value) h rfl rfl (dropsBlank_of_ne_text h (by decide) b)
      (opensFallback_of_ne h (by decide) (by decide) b) ?_
    simp [stamps, placedStamps, hst, hp, stackStamps, ho.stamps_beginCase hkind]
    rfl
  | default hk hkind hd =>
    subst hk
    refine extends_of_begun .default h rfl rfl (dropsBlank_of_ne_text h (by decide) b)
      (opensFallback_of_ne h (by decide) (by decide) b) ?_
    simp [stamps, placedStamps, hst, hp, stackStamps, ho.stamps_beginCase hkind]
    rfl

end Builder

namespace Builder

theorem takes_extends {t : Token} {b b' : Builder} {out : Option ExprError} (h : Takes t b out b')
    (hs : Stacked b.stack) (hp : b.pending = none) : Extends t b out b' := by
  cases h with
  | faults fault => exact .same (by simp [leaves, report]) rfl
  | fails => exact .same (by simp [leaves]) rfl
  | @closes kind top below b' hc hk hst hm hu =>
    have hplacedStamps : b'.placedStamps = b.placedStamps := by
      rw [hst] at hs
      cases hs with | cons _ hr hs => exact hu.placedStamps hst hr hs
    have hstamps : b'.stamps = b.stamps := by
      rw [stamps_of_pending_eq_none hp, stamps_of_pending_eq_none (hu.pending_eq.trans hp), hplacedStamps]
    refine .same (by simp [leaves, hc]) ?_
    split
    · exact hstamps
    · exact hstamps
  | skips h hb hw =>
    have hdrops : b.dropsBlank t = true := by simp [dropsBlank, Kind.ofToken?_eq_text h.ofToken, hb, hw]
    exact .same (by simp [leaves, hdrops]) rfl
  | @chains test top below h hst hk hb =>
    refine extends_of_begun (.condition test) h rfl rfl (dropsBlank_of_ne_text h (by decide) b)
      (opensFallback_of_ne h (by decide) (by decide) b) ?_
    have hnode : Node.stamps [⟨.condition test, t.span, some [], none⟩] = [((.condition test, t.span.start), true)] :=
      Node.stamps_part _ _
    simp [stamps, placedStamps, hp, stackStamps, hnode]
    rfl
  | begins h hst hn =>
    have ho := hs.isOpen (by rw [hst]; exact List.mem_cons_self ..)
    exact extends_of_begins h hst ho hp hn
  | opens h hw hn _ _ =>
    refine extends_of_begun _ h (Head.begun?_of_isNew hn) rfl (dropsBlank_of_awaitsCase_eq_false hw t)
      (opensFallback_of_isNew h hn b) ?_
    simp [stamps, placedStamps, hp, stackStamps, hn.stamps]
  | holds h hw hn _ =>
    refine extends_of_begun _ h (Head.begun?_of_isNew hn) rfl (dropsBlank_of_awaitsCase_eq_false hw t)
      (opensFallback_of_isNew h hn b) ?_
    simp [stamps, placedStamps, hp, hn.stamps]
  | places h hw hn _ _ ha =>
    refine extends_of_begun _ h (Head.begun?_of_isNew hn) ha.errors_eq (dropsBlank_of_awaitsCase_eq_false hw t)
      (opensFallback_of_isNew h hn b) ?_
    rw [stamps_of_pending_eq_none hp, stamps_of_pending_eq_none (ha.pending_eq.trans hp), ha.placedStamps hs, hn.stamps]

/-- Settling the pending node does not matter for whether a token leaves a node. -/
private theorem Settles.leaves {b b' : Builder} (h : Settles b b') (hb : b.Sound) (t : Token) (out : Option ExprError)
    (b'' : Builder) : b'.leaves t out b'' = b.leaves t out b'' := by
  cases h with
  | idle => rfl
  | @held n b' hp ha =>
    -- a pending node and what received it take content, so neither state drops blanks
    have hw := hb.pending (by simp [hp])
    have hw' : b'.awaitsCase = false := ha.awaitsCase hb.stack
    have hfallback : b'.opensFallback t = b.opensFallback t := by
      cases ha with
      | outermost => rfl
      | inner hst hn =>
        have hkind : Node.kind _ = _ := congrArg Head.kind (Node.add?_head hn)
        simp only [opensFallback, hkind]
        rw [show b.stack = _ from hst]
        rfl
    have herrors : b'.errors = b.errors := ha.errors_eq
    simp only [Builder.leaves, herrors, hfallback, dropsBlank_of_awaitsCase_eq_false hw,
      dropsBlank_of_awaitsCase_eq_false hw']

theorem extends_push {b : Builder} (h : b.Sound) (t : Token) : Extends t b (b.push t).1 (b.push t).2 := by
  cases hout : b.push t with
  | mk out b' =>
    have hpush := pushes_push h t
    rw [hout] at hpush
    cases hpush with
    | @absorbs n b' hp hc hk ha =>
      refine .same (by simp [leaves, hc]) ?_
      rw [stamps_of_pending_eq_none ha.pending_eq, @Adds.placedStamps _ { b with pending := none } _ ha h.stack,
        Node.stamps_endAt, stamps, hp]
      rfl
    | takes _ hs htakes =>
      cases takes_extends htakes (hs.stacked h.stack) hs.pending_eq with
      | same hl hm => exact .same (by rwa [hs.leaves h] at hl) (by rw [hm, hs.stamps h.stack])
      | next hl ht hm => exact .next (by rwa [hs.leaves h] at hl) ht (by rw [hm, hs.stamps h.stack])

theorem walks_push {b : Builder} (h : b.Sound) (t : Token) : Walks t b (b.push t).1 (b.push t).2 :=
  (extends_push h t).walks

/-! ### Runs -/

theorem stamps_feed {b : Builder} (h : b.Sound) (ts : List Token) :
    ∃ stamps, List.Forall₂ IsStampedBy (keep ts b) stamps ∧ (b.feed ts).stamps = b.stamps ++ stamps := by
  induction ts generalizing b with
  | nil => exact ⟨[], .nil, by simp [feed]⟩
  | cons t ts ih =>
    obtain ⟨stamps, hall, hstamps⟩ := ih (sound_push h t)
    cases extends_push h t with
    | same hl hm =>
      have hkeep : keep (t :: ts) b = keep ts (b.push t).2 := if_neg (by simpa [leavesNode] using hl)
      refine ⟨stamps, by rwa [hkeep], ?_⟩
      rw [feed, hstamps, hm]
    | @next stamp hl ht hm =>
      have hkeep : keep (t :: ts) b = t :: keep ts (b.push t).2 := if_pos hl
      refine ⟨stamp :: stamps, by rw [hkeep]; exact .cons ht hall, ?_⟩
      rw [feed, hstamps, hm, List.append_assoc]
      rfl

theorem marks_feed {b : Builder} (h : b.Sound) (ts : List Token) :
    ∃ ms, List.Forall₂ (fun t m => Head.markOf? t = some m) (keep ts b) ms ∧ (b.feed ts).marks = b.marks ++ ms := by
  obtain ⟨stamps, hall, hstamps⟩ := stamps_feed h ts
  refine ⟨stamps.map Prod.fst, ?_, ?_⟩
  · rw [List.forall₂_map_right_iff]
    exact hall.imp fun _ _ hstamp => hstamp.markOf?
  · rw [marks_eq, marks_eq, hstamps, List.map_append]

/-- The nodes of the program that the builder finishes with, in preorder. -/
def walk (b : Builder) : List Node :=
  b.finish.body.flatMap Node.preorder

theorem walk_stamps {b : Builder} (h : b.Sound) : b.walk.map Node.stamp = b.stamps :=
  (finishes_finish h).stamps h.stack

theorem walk_marks {b : Builder} (h : b.Sound) : b.walk.map Node.mark = b.marks := by
  rw [marks_eq, ← walk_stamps h, List.map_map]
  rfl

/-- Whatever tokens the builder was fed, the nodes of the program in preorder are begun, one by one and in order, by the
tokens that leave a node, and one more token adds at most one node, at the end. -/
theorem walk_feed (stop : Nat) (ts : List Token) :
    let b := (new stop).feed ts
    List.Forall₂ (fun t n => n.StandsFor t) (keep ts (new stop)) b.walk ∧
      ∀ t, ∃ added, added.length ≤ 1 ∧ (b.push t).2.walk.map Node.mark = b.walk.map Node.mark ++ added := by
  intro b
  have hb : b.Sound := sound_feed (sound_new stop) ts
  constructor
  · obtain ⟨ms, hms, hmarks⟩ := marks_feed (sound_new stop) ts
    have hnew : (new stop).marks = [] := rfl
    rw [hnew, List.nil_append, ← walk_marks hb] at hmarks
    rw [← hmarks, List.forall₂_map_right_iff] at hms
    exact hms.imp fun t n h => Node.standsFor_of_mark h
  · intro t
    rw [walk_marks (sound_push hb t), walk_marks hb]
    cases walks_push hb t with
    | same _ hm => exact ⟨[], by simp, by simpa using hm⟩
    | @next mark _ _ hm => exact ⟨[mark], by simp, hm⟩

end Builder

end TemplateSyntax
