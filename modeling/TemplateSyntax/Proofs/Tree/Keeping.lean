import TemplateSyntax.Proofs.Tree.Invariant

/-!
# What nodes keep

A property of single nodes holds of all that the builder holds if the nodes that tags begin have it and the moves of the
builder keep it. `Node.Keeps` lists what has to be shown, for one property of open nodes and one of finished nodes;
`carries_feed` and `Finishes.carries` carry them through every run.
-/

namespace TemplateSyntax

open Markup (Token)

/-- When the tokens are as `seen` says, open nodes are and stay `live`, and those that are finished are `done`. -/
structure Node.Keeps (seen : Token → Prop) (live done : Node → Prop) : Prop where
  new {kind : Kind} {params : Option Expr} {t : Token} {n : Node} (ht : seen t) (htag : IsTag kind params t)
    (hn : n.IsNew kind t params) : done n ∧ (n.body.isSome → live n)
  chained {test : Expr} {t : Token} (ht : seen t) (htag : IsTag .elseIf (some test) t) :
    live ⟨.condition test, t.span, some [], none⟩
  begins {kind : Kind} {params : Option Expr} {t : Token} {n m : Node} (ht : seen t) (htag : IsTag kind params t)
    (hopen : n.IsOpen) (hn : live n) (h : Node.Begins kind t params n m) : live m
  add? {n m child : Node} (hopen : n.IsOpen) (hn : live n) (hchild : done child) (h : n.add? child = some m) : live m
  alternative {n child : Node} (hn : live n) (hk : n.kind = .condition) (hb : n.branch = none) (hchild : done child)
    (hkind : child.kind = .condition) : live { n with branch := some [child] }
  finished {n : Node} (hn : live n) (partStop stop : Nat) : done ((n.endPart partStop).endAt stop)
  endAt {n : Node} (hn : done n) (stop : Nat) : done (n.endAt stop)

namespace Builder

variable {seen : Token → Prop} {live done : Node → Prop} {b b' : Builder}

/-- All nodes in the hands of the builder have the property for their state. -/
structure Carries (live done : Node → Prop) (b : Builder) : Prop where
  body : ∀ n ∈ b.body, done n
  stack : ∀ o ∈ b.stack, live o.node
  pending : ∀ n ∈ b.pending, done n

theorem carries_new (stop : Nat) : (new stop).Carries live done :=
  ⟨by simp [new], by simp [new], by simp [new]⟩

section

variable (hkeeps : Node.Keeps seen live done)

include hkeeps

/-! ### Moves -/

theorem Adds.carries {n : Node} (h : Adds n b b') (hs : Stacked b.stack) (hn : done n) (hb : b.Carries live done) :
    b'.Carries live done := by
  cases h with
  | outermost => exact ⟨List.forall_mem_append.mpr ⟨hb.body, List.forall_mem_singleton.mpr hn⟩, hb.stack, hb.pending⟩
  | inner hst hadd =>
    obtain ⟨htop, hbelow⟩ := List.forall_mem_cons.mp (hst ▸ hb.stack)
    have hopen := hs.isOpen (hst ▸ List.mem_cons_self ..)
    exact ⟨hb.body, List.forall_mem_cons.mpr ⟨hkeeps.add? hopen htop hn hadd, hbelow⟩, hb.pending⟩

theorem Attaches.carries {o : OpenNode} (h : Attaches o b b') (hs : Stacked b.stack)
    (hk : o.chained = true → o.node.kind = .condition) (ho : done o.node) (hb : b.Carries live done) :
    b'.Carries live done := by
  cases h with
  | alternative hc hst hparent hbranch =>
    obtain ⟨htop, hbelow⟩ := List.forall_mem_cons.mp (hst ▸ hb.stack)
    have hnode := hkeeps.alternative htop hparent hbranch ho (hk hc)
    exact ⟨hb.body, List.forall_mem_cons.mpr ⟨hnode, hbelow⟩, hb.pending⟩
  | content _ h => exact h.carries hkeeps hs ho hb

theorem Releases.carries {partStop stop : Nat} {o top : OpenNode} {below : List OpenNode}
    (h : Releases partStop stop b o b') (hst : b.stack = top :: below) (hr : Rests top below) (hs : Stacked below)
    (hb : b.Carries live done) : b'.Carries live done := by
  obtain ⟨rfl, ha⟩ := h.attaches hst
  obtain ⟨htop, hbelow⟩ := List.forall_mem_cons.mp (hst ▸ hb.stack)
  have hrest : Carries live done { b with stack := below } := ⟨hb.body, hbelow, hb.pending⟩
  refine ha.carries hkeeps hs (fun hc => ?_) (hkeeps.finished htop partStop stop) hrest
  have hkind : ((o.node.endPart partStop).endAt stop).kind = o.node.kind :=
    congrArg Head.kind (Node.endPart_head partStop o.node)
  rw [hkind]
  cases hr with
  | chained _ ho _ _ => exact ho
  | outermost hc' | content hc' => rw [hc] at hc'; cases hc'

theorem Unwinds.carries {span : Span} {top : OpenNode} {below : List OpenNode} (hu : Unwinds span b b')
    (hst : b.stack = top :: below) (hr : Rests top below) (hs : Stacked below) (hb : b.Carries live done) :
    b'.Carries live done := by
  induction hu generalizing top below with
  | last _ h => exact h.carries hkeeps hst hr hs hb
  | chained hc h _ ih =>
    obtain ⟨rfl, -⟩ := h.attaches hst
    have hb' := h.carries hkeeps hst hr hs hb
    obtain ⟨parent, rest, alternative, -, -, hrests, hstacked, rfl⟩ := h.of_chained hst hc hs
    exact ih rfl (hrests.congr rfl rfl) hstacked hb'

theorem Drains.carries {stop : Nat} (h : Drains stop b b')
    (htop : ∀ top below, b.stack = top :: below → Rests top below ∧ Stacked below) (hb : b.Carries live done) :
    b'.Carries live done := by
  induction h with
  | done => exact hb
  | step h _ ih =>
    cases h with
    | mk hst ha =>
      obtain ⟨hr, hs⟩ := htop _ _ hst
      have h := Releases.mk hst ha
      exact ih (h.uncovers hst hs).1 (h.carries hkeeps hst hr hs hb)

theorem Settles.carries (h : Settles b b') (hs : Stacked b.stack) (hb : b.Carries live done) :
    b'.Carries live done := by
  cases h with
  | idle => exact hb
  | @held n _ hp ha => exact ha.carries hkeeps hs (hb.pending n hp) ⟨hb.body, hb.stack, by simp⟩

/-! ### Tokens -/

theorem Takes.carries {t : Token} {out : Option ExprError} (h : Takes t b out b') (hs : Stacked b.stack) (ht : seen t)
    (hb : b.Carries live done) : b'.Carries live done := by
  cases h with
  | faults => exact ⟨hb.body, hb.stack, hb.pending⟩
  | fails | skips => exact hb
  | closes _ _ hst _ hu =>
    obtain ⟨hr, hbelow⟩ := hs.under _ _ hst
    have hclosed := hu.carries hkeeps hst hr hbelow hb
    split
    · exact ⟨hclosed.body, hclosed.stack, hclosed.pending⟩
    · exact hclosed
  | chains htag => exact ⟨hb.body, List.forall_mem_cons.mpr ⟨hkeeps.chained ht htag, hb.stack⟩, hb.pending⟩
  | begins htag hst hn =>
    obtain ⟨htop, hbelow⟩ := List.forall_mem_cons.mp (hst ▸ hb.stack)
    have hopen := hs.isOpen (hst ▸ List.mem_cons_self ..)
    exact ⟨hb.body, List.forall_mem_cons.mpr ⟨hkeeps.begins ht htag hopen htop hn, hbelow⟩, hb.pending⟩
  | opens htag _ hn hbody =>
    exact ⟨hb.body, List.forall_mem_cons.mpr ⟨(hkeeps.new ht htag hn).2 hbody, hb.stack⟩, hb.pending⟩
  | holds htag _ hn => exact ⟨hb.body, hb.stack, by simpa using (hkeeps.new ht htag hn).1⟩
  | places htag _ hn _ _ ha => exact ha.carries hkeeps hs (hkeeps.new ht htag hn).1 hb

theorem Pushes.carries {t : Token} {out : Option ExprError} (h : Pushes t b out b') (hs : Stacked b.stack) (ht : seen t)
    (hb : b.Carries live done) : b'.Carries live done := by
  cases h with
  | @absorbs n _ hp _ _ ha =>
    exact ha.carries hkeeps hs (hkeeps.endAt (hb.pending n hp) t.span.stop) ⟨hb.body, hb.stack, by simp⟩
  | takes _ hsettles h => exact h.carries hkeeps (hsettles.stacked hs) ht (hsettles.carries hkeeps hs hb)

theorem carries_feed {ts : List Token} (hs : b.Sound) (hts : ∀ t ∈ ts, seen t) (hb : b.Carries live done) :
    (b.feed ts).Carries live done := by
  induction ts generalizing b with
  | nil => exact hb
  | cons t ts ih =>
    obtain ⟨ht, hts⟩ := List.forall_mem_cons.mp hts
    exact ih (sound_push hs t) hts ((pushes_push hs t).carries hkeeps hs.stack ht hb)

/-- The program has finished nodes only. -/
theorem Finishes.carries {p : Program} (h : Finishes b p) (hs : Stacked b.stack) (hb : b.Carries live done) :
    ∀ n ∈ p.body, done n := by
  obtain ⟨b', b'', hsettles, hdrains, -, rfl⟩ := h
  have hsettled := hsettles.carries hkeeps hs hb
  have hstacked : Stacked b'.reportUnclosed.stack := by
    rw [reportUnclosed_stack]
    exact hsettles.stacked hs
  have hreport : b'.reportUnclosed.Carries live done := by
    unfold reportUnclosed
    split
    · exact hsettled
    · exact ⟨hsettled.body, hsettled.stack, hsettled.pending⟩
  exact (hdrains.carries hkeeps hstacked.under hreport).body

end

end Builder

end TemplateSyntax
