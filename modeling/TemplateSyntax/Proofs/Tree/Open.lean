import TemplateSyntax.Tree.Part
import TemplateSyntax.Tree.Shape

/-!
# Open nodes

A node that waits for its closing tag has one of six shapes: its content grows at the end of its body, of its branch, or
of the last of its parts. This module lists the shapes (`IsOpen`) and shows that a new node with a body has one of them
and that content and new parts keep to them. The only open node without a place for content is a switch in which no
case has begun (`IsOpen.takesContent_iff`).
-/

namespace TemplateSyntax

/-- The head of a node that does nothing but wrap a body. -/
def Head.isWrapper : Head → Bool
  | .assign _ _ | .callable _ _ _ | .macroCall _ _ | .block _ _ => true
  | _ => false

theorem Head.kind_of_isWrapper {head : Head} (h : head.isWrapper = true) :
    head.kind ≠ .condition ∧ head.kind ≠ .list ∧ head.kind ≠ .attempt ∧ head.kind ≠ .switch := by
  cases head <;> simp [isWrapper, kind] at h ⊢

namespace Node

/-- There is a place for one more child. -/
def TakesContent (n : Node) : Prop :=
  ∀ child, (n.add? child).isSome

/-- An `<#else>` or a case: one list of children, and nothing beside it. -/
structure IsOpenPart (n : Node) : Prop where
  isPart : n.isPart = true
  body : n.body.isSome
  branch : n.branch = none

/-- The shape of a node that waits for its closing tag. -/
inductive IsOpen : Node → Prop
  | wrapper {head : Head} {span : Span} {ns : List Node} (h : head.isWrapper = true) :
      IsOpen ⟨head, span, some ns, none⟩
  | list {params : Expr} {span : Span} {ns : List Node} {fallback : Option (List Node)} :
      IsOpen ⟨.list params, span, some ns, fallback⟩
  | attempt {span : Span} {ns : List Node} {fallback : Option (List Node)} :
      IsOpen ⟨.attempt, span, some ns, fallback⟩
  | condition {test : Expr} {span : Span} {ns : List Node} : IsOpen ⟨.condition test, span, some ns, none⟩
  | conditionElse {test : Expr} {span : Span} {ns : List Node} {p : Node} (hp : p.IsOpenPart) :
      IsOpen ⟨.condition test, span, some ns, some [p]⟩
  | switch {subject : Expr} {span : Span} {cases : List Node} (h : ∀ c ∈ cases, c.IsOpenPart) :
      IsOpen ⟨.switch subject, span, some cases, none⟩

theorem IsOpen.body_isSome {n : Node} (h : n.IsOpen) : n.body.isSome := by
  cases h <;> rfl

/-! ### Parts -/

theorem endPart_span (stop : Nat) (n : Node) : (n.endPart stop).span = n.span := by
  unfold endPart; split <;> rfl

/-- Without children there is no part to end. -/
theorem endPart_of_children_eq_nil {n : Node} (h : n.children = []) (stop : Nat) : n.endPart stop = n := by
  obtain ⟨head, span, body, branch⟩ := n
  have hslot {f : Node → Node} {slot : Option (List Node)} (hslot : slot.getD [] = []) :
      slot.map (changeLast f) = slot := by
    cases slot with
    | none => rfl
    | some ns =>
      obtain rfl : ns = [] := hslot
      rfl
  obtain ⟨hbody, hbranch⟩ := List.append_eq_nil_iff.mp h
  unfold endPart
  dsimp only at hbody hbranch ⊢
  split
  · rw [hslot hbranch]
  · rw [hslot hbody]
  · rfl

theorem isOpenPart_part {head : Head} {span : Span} (h : (part head span).isPart = true) :
    (part head span).IsOpenPart :=
  ⟨h, rfl, rfl⟩

theorem IsOpenPart.appendToBody {p : Node} (h : p.IsOpenPart) (child : Node) : (appendToBody child p).IsOpenPart := by
  refine ⟨h.isPart, ?_, h.branch⟩
  simpa [Node.appendToBody] using h.body

theorem IsOpenPart.endAt {p : Node} (h : p.IsOpenPart) (stop : Nat) : (p.endAt stop).IsOpenPart :=
  ⟨h.isPart, h.body, h.branch⟩

/-- The last of the parts receives the child. -/
theorem addToPart?_append_singleton {p : Node} (h : p.IsOpenPart) (child : Node) (init : List Node) :
    addToPart? child (init ++ [p]) = some (init ++ [appendToBody child p]) := by
  simp [addToPart?, h.isPart]

/-- Ending the last part moves its end and nothing else. -/
theorem isOpenPart_of_mem_changeLast {stop : Nat} {ns : List Node} (h : ∀ p ∈ ns, p.IsOpenPart) :
    ∀ p ∈ changeLast (fun p => if p.isPart then p.endAt stop else p) ns, p.IsOpenPart := by
  rcases List.eq_nil_or_concat ns with rfl | ⟨init, last, rfl⟩
  · simp [changeLast]
  · intro p hp
    rw [List.concat_eq_append, changeLast_append_singleton, List.mem_append, List.mem_singleton] at hp
    simp only [List.concat_eq_append, List.mem_append, List.mem_singleton] at h
    rcases hp with hp | rfl
    · exact h p (.inl hp)
    · rw [if_pos (h last (.inr rfl)).isPart]
      exact (h last (.inr rfl)).endAt stop

/-! ### Content -/

/-- `m` is `n` with one more child, which stands behind everything else in `n`. -/
inductive Grows (child n : Node) : Node → Prop
  | body {ns : List Node} (hb : n.branch = none) (h : n.body = some ns) :
      Grows child n { n with body := some (ns ++ [child]) }
  | branch {ns : List Node} (h : n.branch = some ns) : Grows child n { n with branch := some (ns ++ [child]) }
  | bodyPart {init : List Node} {p : Node} (hb : n.branch = none) (h : n.body = some (init ++ [p]))
      (hp : p.IsOpenPart) : Grows child n { n with body := some (init ++ [appendToBody child p]) }
  | branchPart {init : List Node} {p : Node} (h : n.branch = some (init ++ [p])) (hp : p.IsOpenPart) :
      Grows child n { n with branch := some (init ++ [appendToBody child p]) }

/-- An open node has a place for one more child, unless it is a switch in which no case has begun. -/
theorem IsOpen.add? {n : Node} (hn : n.IsOpen) (hc : n.awaitsCase = false) (child : Node) :
    ∃ m, n.add? child = some m ∧ Grows child n m ∧ m.IsOpen := by
  cases hn with
  | @wrapper head span ns h =>
    refine ⟨⟨head, span, some (ns ++ [child]), none⟩, ?_, .body rfl rfl, .wrapper h⟩
    cases head <;> first | rfl | cases h
  | @list params span ns fallback =>
    cases fallback with
    | none => exact ⟨_, rfl, .body rfl rfl, .list⟩
    | some fs => exact ⟨_, rfl, .branch rfl, .list⟩
  | @attempt span ns fallback =>
    cases fallback with
    | none => exact ⟨_, rfl, .body rfl rfl, .attempt⟩
    | some fs => exact ⟨_, rfl, .branch rfl, .attempt⟩
  | condition => exact ⟨_, rfl, .body rfl rfl, .condition⟩
  | @conditionElse test span ns p hp =>
    have hadd : addToPart? child [p] = some [appendToBody child p] := addToPart?_append_singleton hp child []
    refine ⟨⟨.condition test, span, some ns, some [appendToBody child p]⟩, ?_, ?_,
      .conditionElse (hp.appendToBody child)⟩
    · simp [Node.add?, hadd]
    · exact @Grows.branchPart _ _ [] p rfl hp
  | @switch subject span cases h =>
    rcases List.eq_nil_or_concat cases with rfl | ⟨init, p, rfl⟩
    · cases hc
    · rw [List.concat_eq_append] at h ⊢
      have hp := h p (by simp)
      -- the last case receives the child
      refine ⟨⟨.switch subject, span, some (init ++ [appendToBody child p]), none⟩, ?_, .bodyPart rfl rfl hp,
        .switch ?_⟩
      · simp [Node.add?, addToPart?_append_singleton hp child init]
      · intro c hmem
        rcases List.mem_append.mp hmem with hmem | hmem
        · exact h c (List.mem_append_left _ hmem)
        · rw [List.mem_singleton.mp hmem]
          exact hp.appendToBody child

theorem kind_of_awaitsCase {n : Node} (h : n.awaitsCase = true) : n.kind = .switch := by
  unfold awaitsCase at h
  split at h
  · next hh => exact congrArg Head.kind hh
  · cases h

theorem IsOpen.add?_eq_none {n : Node} (hn : n.IsOpen) (hc : n.awaitsCase = true) (child : Node) :
    n.add? child = none := by
  cases hn with
  | @switch subject span cases _ =>
    cases cases with
    | nil => rfl
    | cons c cs => cases hc
  | wrapper hw => exact absurd (kind_of_awaitsCase hc) (Head.kind_of_isWrapper hw).2.2.2
  | _ => cases hc

theorem IsOpen.takesContent_iff {n : Node} (hn : n.IsOpen) : n.TakesContent ↔ n.awaitsCase = false := by
  constructor
  · intro h
    cases hc : n.awaitsCase with
    | false => rfl
    | true => exact absurd (h default) (by simp [hn.add?_eq_none hc])
  · intro hc child
    obtain ⟨m, hm, -⟩ := hn.add? hc child
    rw [hm]
    rfl

/-- What it means that an open node has taken a child. -/
theorem IsOpen.of_add? {n child m : Node} (hn : n.IsOpen) (h : n.add? child = some m) :
    n.awaitsCase = false ∧ Grows child n m ∧ m.IsOpen := by
  cases hc : n.awaitsCase with
  | true => rw [hn.add?_eq_none hc] at h; cases h
  | false =>
    obtain ⟨m', hm', hgrows, hopen⟩ := hn.add? hc child
    rw [h] at hm'
    cases hm'
    exact ⟨rfl, hgrows, hopen⟩

theorem Grows.head_eq {child n m : Node} (h : Grows child n m) : m.head = n.head := by
  cases h <;> rfl

theorem Grows.span_eq {child n m : Node} (h : Grows child n m) : m.span = n.span := by
  cases h <;> rfl

theorem Grows.branch_isSome {child n m : Node} (h : Grows child n m) : m.branch.isSome = n.branch.isSome := by
  cases h with
  | body | bodyPart => rfl
  | branch h | branchPart h => rw [h]; rfl

theorem Grows.awaitsCase {child n m : Node} (h : Grows child n m) (hn : n.awaitsCase = false) :
    m.awaitsCase = false := by
  cases h with
  | body => unfold Node.awaitsCase; split <;> simp
  | bodyPart => unfold Node.awaitsCase; split <;> simp
  | branch => exact hn
  | branchPart => exact hn

/-! ### New parts -/

/-- `m` is `n` after a tag has begun a new part of it. -/
inductive Begins (kind : Kind) (t : Markup.Token) (params : Option Expr) (n : Node) : Node → Prop
  | otherwise (hk : kind = .otherwise) (hn : n.kind = .condition) (hb : n.branch = none) :
      Begins kind t params n { n with branch := some [part .otherwise t.span] }
  | fallback (hk : kind = .otherwise ∧ n.kind = .list ∨ kind = .recover ∧ n.kind = .attempt) (hb : n.branch = none) :
      Begins kind t params n { n with branch := some [] }
  | case {value : Expr} (hk : kind = .case) (hn : n.kind = .switch) (hp : params = some value) :
      Begins kind t params n (n.beginCase (part (.case value) t.span))
  | default (hk : kind = .default) (hn : n.kind = .switch) (h : (n.children.any fun c => c.kind == .default) = false) :
      Begins kind t params n (n.beginCase (part .default t.span))

theorem begins_of_beginPart {kind : Kind} {t : Markup.Token} {params : Option Expr} {n m : Node}
    (h : n.beginPart kind t params = .ok m) : Begins kind t params n m := by
  unfold beginPart at h
  split at h
  · next test hh =>
    split at h
    · cases h
    · next hb =>
      cases h
      exact .otherwise rfl (congrArg Head.kind hh) (Option.not_isSome_iff_eq_none.mp hb)
  · next hh =>
    split at h
    · cases h
    · next hb =>
      cases h
      exact .fallback (.inl ⟨rfl, congrArg Head.kind hh⟩) (Option.not_isSome_iff_eq_none.mp hb)
  · next hh =>
    split at h
    · cases h
    · next hb =>
      cases h
      exact .fallback (.inr ⟨rfl, congrArg Head.kind hh⟩) (Option.not_isSome_iff_eq_none.mp hb)
  · next hh =>
    cases h
    exact .case rfl (congrArg Head.kind hh) rfl
  · next hh =>
    split at h
    · cases h
    · next hd =>
      cases h
      exact .default rfl (congrArg Head.kind hh) (Bool.eq_false_iff.mpr hd)
  · cases h

private theorem isOpen_beginCase {n case : Node} (hn : n.IsOpen) (hk : n.kind = .switch) (hc : case.IsOpenPart) :
    (n.beginCase case).IsOpen := by
  cases hn with
  | switch h =>
    refine .switch fun c hmem => ?_
    rcases List.mem_append.mp hmem with hmem | hmem
    · exact isOpenPart_of_mem_changeLast h c hmem
    · rwa [List.mem_singleton.mp hmem]
  | wrapper hw => exact absurd hk (Head.kind_of_isWrapper hw).2.2.2
  | _ => cases hk

theorem Begins.isOpen {kind : Kind} {t : Markup.Token} {params : Option Expr} {n m : Node}
    (h : Begins kind t params n m) (hn : n.IsOpen) : m.IsOpen := by
  cases h with
  | otherwise hk hkind hb =>
    cases hn with
    | condition => exact .conditionElse (isOpenPart_part rfl)
    | conditionElse => cases hb
    | wrapper hw => exact absurd hkind (Head.kind_of_isWrapper hw).1
    | _ => cases hkind
  | fallback hk hb =>
    cases hn with
    | list => exact .list
    | attempt => exact .attempt
    | conditionElse => cases hb
    | wrapper hw =>
      rcases hk with ⟨-, hk⟩ | ⟨-, hk⟩
      · exact absurd hk (Head.kind_of_isWrapper hw).2.1
      · exact absurd hk (Head.kind_of_isWrapper hw).2.2.1
    | _ => rcases hk with ⟨-, hk⟩ | ⟨-, hk⟩ <;> cases hk
  | case hk hkind hp => exact isOpen_beginCase hn hkind (isOpenPart_part rfl)
  | default hk hkind hd => exact isOpen_beginCase hn hkind (isOpenPart_part rfl)

theorem Begins.head_eq {kind : Kind} {t : Markup.Token} {params : Option Expr} {n m : Node}
    (h : Begins kind t params n m) : m.head = n.head := by
  cases h with
  | otherwise => rfl
  | fallback => rfl
  | case => exact endPart_head _ n
  | default => exact endPart_head _ n

/-! ### New nodes -/

end Node

theorem Head.kind_of_ofTag {kind : Kind} {t : Markup.Token} {params : Option Expr} {head : Head}
    (h : Head.ofTag kind t params = .ok head) : head.kind = kind := by
  unfold Head.ofTag Head.given at h
  split at h <;> (try split at h) <;> first | (cases h; rfl) | cases h

/-- A tag that continues a node begins none. -/
theorem Head.isContinuation_of_ofTag {kind : Kind} {t : Markup.Token} {params : Option Expr} {head : Head}
    (h : Head.ofTag kind t params = .ok head) : kind.isContinuation = false := by
  cases kind <;> first | rfl | cases h

namespace Node

/-- What a tag that begins a node says of the node: its head, its place, and that nothing is in it. -/
structure IsNew (kind : Kind) (t : Markup.Token) (params : Option Expr) (n : Node) : Prop where
  head : Head.ofTag kind t params = .ok n.head
  span : n.span = t.span
  body : n.body = if n.head.wraps t.selfClosing then some [] else none
  branch : n.branch = none

theorem isNew_of_ofTag {kind : Kind} {t : Markup.Token} {params : Option Expr} {n : Node}
    (h : Node.ofTag kind t params = .ok n) : n.IsNew kind t params := by
  unfold Node.ofTag at h
  cases hh : Head.ofTag kind t params with
  | error fault => rw [hh] at h; cases h
  | ok head =>
    rw [hh] at h
    cases h
    exact ⟨hh, rfl, rfl, rfl⟩

theorem IsNew.kind_eq {kind : Kind} {t : Markup.Token} {params : Option Expr} {n : Node}
    (h : n.IsNew kind t params) : n.kind = kind :=
  Head.kind_of_ofTag h.head

theorem IsNew.children {kind : Kind} {t : Markup.Token} {params : Option Expr} {n : Node}
    (h : n.IsNew kind t params) : n.children = [] := by
  rw [Node.children, h.body, h.branch]
  split <;> rfl

/-- A new node with a body waits for its closing tag. -/
theorem IsNew.isOpen {kind : Kind} {t : Markup.Token} {params : Option Expr} {n : Node}
    (h : n.IsNew kind t params) (hb : n.body.isSome) : n.IsOpen := by
  have hcont := Head.isContinuation_of_ofTag h.head
  have hkind := h.kind_eq
  obtain ⟨head, span, body, branch⟩ := n
  obtain ⟨-, -, hbody, rfl⟩ := h
  dsimp only at hbody hb hkind
  split at hbody
  · next hw =>
    subst hbody
    cases head with
    | condition => exact .condition
    | list => exact .list
    | attempt => exact .attempt
    | switch => exact .switch (by simp)
    | assign => exact .wrapper rfl
    | callable => exact .wrapper rfl
    | macroCall => exact .wrapper rfl
    | block => exact .wrapper rfl
    | otherwise | case | default => subst hkind; cases hcont
    | _ => cases hw
  · subst hbody
    cases hb

end Node

end TemplateSyntax
