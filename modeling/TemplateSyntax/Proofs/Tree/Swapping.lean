import TemplateSyntax.Proofs.Tree.Preorder

/-!
# One node in place of another

Two lists of nodes may be the same but for one place below them, where two different nodes stand (`Node.Swaps`), and so
may two states of the builder (`Builder.Swapped`). Of a node that has its place the builder looks at no more than the
kind, so if the two nodes have the same head, it takes every token in the same way in both states (`Swapped.push`), and
at the end the same errors are reported and the trees differ in that one place (`Swapped.finish`).
-/

namespace TemplateSyntax

open Markup (Token)

namespace Node

/-! ### Trees that differ in one node -/

variable {n m : Node} {front : List (Head × Nat)}

mutual

/-- The lists are the same but for one place, where `n` stands in the first and `m` in the second. The marks of what
comes before that place in a walk are `front`. -/
inductive Swaps (n m : Node) : (front : List (Head × Nat)) → List Node → List Node → Prop
  | here (before after : List Node) : Swaps n m (marks before) (before ++ n :: after) (before ++ m :: after)
  | inside {front : List (Head × Nat)} {p p' : Node} (before after : List Node) (h : SwapsWithin n m front p p') :
      Swaps n m (marks before ++ front) (before ++ p :: after) (before ++ p' :: after)

/-- The place is below the node. -/
inductive SwapsWithin (n m : Node) : (front : List (Head × Nat)) → Node → Node → Prop
  | body {front : List (Head × Nat)} {head : Head} {span : Span} {ns ns' : List Node} {branch : Option (List Node)}
      (h : Swaps n m front ns ns') :
      SwapsWithin n m ((head, span.start) :: front) ⟨head, span, some ns, branch⟩ ⟨head, span, some ns', branch⟩
  | branch {front : List (Head × Nat)} {head : Head} {span : Span} {body : Option (List Node)} {ns ns' : List Node}
      (h : Swaps n m front ns ns') :
      SwapsWithin n m ((head, span.start) :: (marks (body.getD []) ++ front)) ⟨head, span, body, some ns⟩
        ⟨head, span, body, some ns'⟩

end

theorem marks_append (ns ms : List Node) : marks (ns ++ ms) = marks ns ++ marks ms := by
  rw [marks, List.flatMap_append, List.map_append, marks, marks]

theorem marks_singleton (n : Node) : marks [n] = n.mark :: marks n.children := by
  simp [marks, preorder_eq n]

theorem Swaps.append_left {ns ns' : List Node} (h : Swaps n m front ns ns') (init : List Node) :
    Swaps n m (marks init ++ front) (init ++ ns) (init ++ ns') := by
  cases h with
  | here before after =>
    have hhere : Swaps n m _ _ _ := .here (init ++ before) after
    rwa [marks_append, List.append_assoc, List.append_assoc] at hhere
  | inside before after h =>
    have hinside := Swaps.inside (init ++ before) after h
    rwa [marks_append, List.append_assoc, List.append_assoc, List.append_assoc] at hinside

theorem Swaps.append_right {ns ns' : List Node} (h : Swaps n m front ns ns') (rest : List Node) :
    Swaps n m front (ns ++ rest) (ns' ++ rest) := by
  cases h with
  | here before after =>
    have hhere : Swaps n m _ _ _ := .here before (after ++ rest)
    rwa [← List.cons_append, ← List.cons_append, ← List.append_assoc, ← List.append_assoc] at hhere
  | inside before after h =>
    have hinside := Swaps.inside before (after ++ rest) h
    rwa [← List.cons_append, ← List.cons_append, ← List.append_assoc, ← List.append_assoc] at hinside

theorem SwapsWithin.swaps {p p' : Node} (h : SwapsWithin n m front p p') : Swaps n m front [p] [p'] :=
  .inside [] [] h

/-- The place is in front of the last node, is the last node, or is below it. -/
theorem Swaps.last_cases {init ns' : List Node} {p : Node} (h : Swaps n m front (init ++ [p]) ns') :
    (∃ init', ns' = init' ++ [p] ∧ Swaps n m front init init') ∨
      (p = n ∧ ns' = init ++ [m] ∧ front = marks init) ∨
        ∃ p' front', ns' = init ++ [p'] ∧ front = marks init ++ front' ∧ SwapsWithin n m front' p p' := by
  generalize hns : init ++ [p] = ns at h
  cases h with
  | here before after =>
    rcases List.eq_nil_or_concat after with rfl | ⟨mid, last, rfl⟩
    · obtain ⟨rfl, hp⟩ := List.append_inj' hns rfl
      obtain ⟨rfl, -⟩ := List.cons.inj hp
      exact .inr (.inl ⟨rfl, rfl, rfl⟩)
    · rw [List.concat_eq_append, ← List.cons_append, ← List.append_assoc] at hns
      obtain ⟨rfl, hp⟩ := List.append_inj' hns rfl
      obtain ⟨rfl, -⟩ := List.cons.inj hp
      exact .inl ⟨before ++ m :: mid, by simp, .here before mid⟩
  | @inside front q q' before after h =>
    rcases List.eq_nil_or_concat after with rfl | ⟨mid, last, rfl⟩
    · obtain ⟨rfl, hp⟩ := List.append_inj' hns rfl
      obtain ⟨rfl, -⟩ := List.cons.inj hp
      exact .inr (.inr ⟨q', front, rfl, rfl, h⟩)
    · rw [List.concat_eq_append, ← List.cons_append, ← List.append_assoc] at hns
      obtain ⟨rfl, hp⟩ := List.append_inj' hns rfl
      obtain ⟨rfl, -⟩ := List.cons.inj hp
      exact .inl ⟨before ++ q' :: mid, by simp, .inside before mid h⟩

theorem not_swaps_nil {ns' : List Node} : ¬Swaps n m front [] ns' := by
  intro h
  generalize hns : ([] : List Node) = ns at h
  cases h <;> simp at hns

/-! ### What the node does not change -/

theorem SwapsWithin.head_eq {p p' : Node} (h : SwapsWithin n m front p p') : p'.head = p.head := by
  cases h <;> rfl

theorem SwapsWithin.span_eq {p p' : Node} (h : SwapsWithin n m front p p') : p'.span = p.span := by
  cases h <;> rfl

theorem SwapsWithin.isPart_eq {p p' : Node} (h : SwapsWithin n m front p p') : p'.isPart = p.isPart := by
  rw [isPart, isPart, h.head_eq]

theorem SwapsWithin.branch_isSome {p p' : Node} (h : SwapsWithin n m front p p') :
    p'.branch.isSome = p.branch.isSome := by
  cases h <;> rfl

theorem Swaps.isEmpty_eq {ns ns' : List Node} (h : Swaps n m front ns ns') : ns'.isEmpty = ns.isEmpty := by
  cases h with
  | here before after => cases before <;> rfl
  | inside before after h => cases before <;> rfl

theorem SwapsWithin.awaitsCase_eq {p p' : Node} (h : SwapsWithin n m front p p') : p'.awaitsCase = p.awaitsCase := by
  cases h with
  | @body front head span ns ns' branch h =>
    cases head with
    | switch => exact h.isEmpty_eq
    | _ => rfl
  | branch => rfl

theorem SwapsWithin.endAt {p p' : Node} (h : SwapsWithin n m front p p') (stop : Nat) :
    SwapsWithin n m front (p.endAt stop) (p'.endAt stop) := by
  cases h with
  | @body front head span ns ns' branch h => exact @SwapsWithin.body n m front head ⟨span.start, stop⟩ ns ns' branch h
  | @branch front head span body ns ns' h => exact @SwapsWithin.branch n m front head ⟨span.start, stop⟩ body ns ns' h

theorem Swaps.map_kind (hhead : m.head = n.head) {ns ns' : List Node} (h : Swaps n m front ns ns') :
    ns'.map kind = ns.map kind := by
  cases h with
  | here before after => simp [kind, hhead]
  | inside before after h => simp [kind, h.head_eq]

theorem SwapsWithin.any_kind (hhead : m.head = n.head) {p p' : Node} (h : SwapsWithin n m front p p') (k : Kind) :
    (p'.children.any fun c => c.kind == k) = p.children.any fun c => c.kind == k := by
  have hany (ns : List Node) : (ns.any fun c => c.kind == k) = (ns.map kind).any (· == k) := by
    rw [List.any_map]
    rfl
  cases h with
  | body h => simp only [children, Option.getD_some, hany, List.map_append, h.map_kind hhead]
  | branch h => simp only [children, Option.getD_some, hany, List.map_append, h.map_kind hhead]

/-! ### Parts -/

theorem IsOpenPart.of_swapsWithin {p p' : Node} (hp : p.IsOpenPart) (h : SwapsWithin n m front p p') :
    p'.IsOpenPart := by
  cases h with
  | body => exact ⟨hp.isPart, rfl, hp.branch⟩
  | branch => cases hp.branch

theorem SwapsWithin.appendToBody {p p' : Node} (h : SwapsWithin n m front p p') (hp : p.IsOpenPart) (child : Node) :
    SwapsWithin n m front (appendToBody child p) (appendToBody child p') := by
  cases h with
  | body h => exact .body (h.append_right [child])
  | branch => cases hp.branch

theorem Swaps.addToPart? (hpart : n.isPart = false) {ns ns' : List Node} (h : Swaps n m front ns ns')
    (hns : ∀ p ∈ ns, p.IsOpenPart) (child : Node) :
    ∃ ms ms', addToPart? child ns = some ms ∧ addToPart? child ns' = some ms' ∧ Swaps n m front ms ms' := by
  rcases List.eq_nil_or_concat ns with rfl | ⟨init, p, rfl⟩
  · exact absurd h not_swaps_nil
  rw [List.concat_eq_append] at h hns ⊢
  have hp := hns p (by simp)
  have hadd := addToPart?_append_singleton hp child init
  obtain ⟨init', rfl, hinit⟩ | ⟨rfl, -, -⟩ | ⟨p', front', rfl, rfl, hlast⟩ := h.last_cases
  · exact ⟨_, _, hadd, addToPart?_append_singleton hp child init', hinit.append_right _⟩
  · rw [hp.isPart] at hpart
    cases hpart
  · exact ⟨_, _, hadd, addToPart?_append_singleton (hp.of_swapsWithin hlast) child init,
      .inside init [] (hlast.appendToBody hp child)⟩

theorem Swaps.changeLast {f : Node → Node} (hn : f n = n) (hm : f m = m)
    (hf : ∀ front p p', SwapsWithin n m front p p' → SwapsWithin n m front (f p) (f p')) {ns ns' : List Node}
    (h : Swaps n m front ns ns') : Swaps n m front (changeLast f ns) (changeLast f ns') := by
  rcases List.eq_nil_or_concat ns with rfl | ⟨init, p, rfl⟩
  · exact absurd h not_swaps_nil
  rw [List.concat_eq_append] at h ⊢
  obtain ⟨init', rfl, hinit⟩ | ⟨rfl, rfl, rfl⟩ | ⟨p', front', rfl, rfl, hlast⟩ := h.last_cases
  · rw [changeLast_append_singleton, changeLast_append_singleton]
    exact hinit.append_right _
  · rw [changeLast_append_singleton, changeLast_append_singleton, hn, hm]
    exact .here init []
  · rw [changeLast_append_singleton, changeLast_append_singleton]
    exact .inside init [] (hf _ _ _ hlast)

theorem marks_changeLast_endAt (stop : Nat) (ns : List Node) :
    marks (Node.changeLast (fun p => if p.isPart then p.endAt stop else p) ns) = marks ns := by
  rw [marks_eq, marks_eq, stamps_changeLast]
  intro p
  split
  · exact stamps_endAt stop p
  · rfl

theorem SwapsWithin.endPart (hhead : m.head = n.head) (hpart : n.isPart = false) {p p' : Node}
    (h : SwapsWithin n m front p p') (stop : Nat) : SwapsWithin n m front (p.endPart stop) (p'.endPart stop) := by
  have hended {front : List (Head × Nat)} {ns ns' : List Node} (h : Swaps n m front ns ns') :
      Swaps n m front (Node.changeLast (fun p => if p.isPart then p.endAt stop else p) ns)
        (Node.changeLast (fun p => if p.isPart then p.endAt stop else p) ns') := by
    have hpart' : m.isPart = false := by rwa [isPart, hhead]
    refine h.changeLast ?_ ?_ fun front p p' h => ?_
    · rw [if_neg (by rw [hpart]; exact Bool.false_ne_true)]
    · rw [if_neg (by rw [hpart']; exact Bool.false_ne_true)]
    · rw [h.isPart_eq]
      split
      · exact h.endAt stop
      · exact h
  cases h with
  | @body front head span ns ns' branch h =>
    cases head with
    | condition => exact .body h
    | switch => exact .body (hended h)
    | _ => exact .body h
  | @branch front head span body ns ns' h =>
    cases head with
    | condition => exact .branch (hended h)
    | switch =>
      -- the place is in the branch, and ending a case in the body moves none of the marks in front of it
      have hbranch := @SwapsWithin.branch n m front (.switch ‹_›) span
        (body.map (Node.changeLast fun p => if p.isPart then p.endAt stop else p)) ns ns' h
      have hmarks : marks ((body.map (Node.changeLast fun p => if p.isPart then p.endAt stop else p)).getD []) =
          marks (body.getD []) := by
        cases body with
        | none => rfl
        | some ns => exact marks_changeLast_endAt stop ns
      rw [hmarks] at hbranch
      exact hbranch
    | _ => exact .branch h

/-! ### Content -/

theorem add?_of_isWrapper {head : Head} (hw : head.isWrapper = true) (span : Span) (ns : List Node) (child : Node) :
    (⟨head, span, some ns, none⟩ : Node).add? child = some ⟨head, span, some (ns ++ [child]), none⟩ := by
  cases head <;> first | rfl | cases hw

theorem add?_condition (test : Expr) (span : Span) (body : Option (List Node)) (alternative : List Node)
    (child : Node) :
    (⟨.condition test, span, body, some alternative⟩ : Node).add? child =
      (Node.addToPart? child alternative).map fun ms => ⟨.condition test, span, body, some ms⟩ := rfl

theorem add?_switch (subject : Expr) (span : Span) (cases : List Node) (child : Node) :
    (⟨.switch subject, span, some cases, none⟩ : Node).add? child =
      (Node.addToPart? child cases).map fun ms => ⟨.switch subject, span, some ms, none⟩ := rfl

/-- The child is in the same place in both. -/
theorem IsOpen.add?_of_swapsWithin {p p' q child : Node} (hp : p.IsOpen) (hq : p.add? child = some q)
    (hpart : n.isPart = false) (h : SwapsWithin n m front p p') :
    ∃ q', p'.add? child = some q' ∧ SwapsWithin n m front q q' := by
  cases hp with
  | @wrapper head span ns hw =>
    rw [add?_of_isWrapper hw] at hq
    cases hq
    cases h with
    | body h => exact ⟨_, add?_of_isWrapper hw span _ child, .body (h.append_right [child])⟩
  | @list _ span ns fallback | @attempt span ns fallback =>
    cases fallback with
    | none =>
      cases hq
      cases h with
      | body h => exact ⟨_, rfl, .body (h.append_right [child])⟩
    | some fs =>
      cases hq
      cases h with
      | body h => exact ⟨_, rfl, .body h⟩
      | branch h => exact ⟨_, rfl, .branch (h.append_right [child])⟩
  | condition =>
    cases hq
    cases h with
    | body h => exact ⟨_, rfl, .body (h.append_right [child])⟩
  | @conditionElse test span ns p hp =>
    rw [add?_condition] at hq
    cases h with
    | body h =>
      obtain ⟨ms, hms, rfl⟩ := Option.map_eq_some_iff.mp hq
      exact ⟨_, by rw [add?_condition, hms, Option.map_some], .body h⟩
    | branch h =>
      obtain ⟨ms, ms', hms, hms', hswaps⟩ := h.addToPart? hpart (List.forall_mem_singleton.mpr hp) child
      rw [hms] at hq
      cases hq
      exact ⟨_, by rw [add?_condition, hms', Option.map_some], .branch hswaps⟩
  | @switch subject span cases hcases =>
    rw [add?_switch] at hq
    cases h with
    | body h =>
      obtain ⟨ms, ms', hms, hms', hswaps⟩ := h.addToPart? hpart hcases child
      rw [hms] at hq
      cases hq
      exact ⟨_, by rw [add?_switch, hms', Option.map_some], .body hswaps⟩

theorem marks_of_body (head : Head) (span : Span) (ns : List Node) :
    marks [⟨head, span, some ns, none⟩] = (head, span.start) :: marks ns := by
  simp [marks_singleton, mark, children]

theorem marks_of_branch (head : Head) (span : Span) (body : Option (List Node)) (ns : List Node) :
    marks [⟨head, span, body, some ns⟩] = (head, span.start) :: (marks (body.getD []) ++ marks ns) := by
  simp [marks_singleton, mark, children, marks_append]

theorem swapsWithin_body {c c' : Node} (head : Head) (span : Span) (ns : List Node) (h : Swaps n m front [c] [c']) :
    SwapsWithin n m (marks [⟨head, span, some ns, none⟩] ++ front) ⟨head, span, some (ns ++ [c]), none⟩
      ⟨head, span, some (ns ++ [c']), none⟩ := by
  rw [marks_of_body]
  exact .body (h.append_left ns)

theorem swapsWithin_branch {c c' : Node} (head : Head) (span : Span) (body : Option (List Node)) (ns : List Node)
    (h : Swaps n m front [c] [c']) :
    SwapsWithin n m (marks [⟨head, span, body, some ns⟩] ++ front) ⟨head, span, body, some (ns ++ [c])⟩
      ⟨head, span, body, some (ns ++ [c'])⟩ := by
  rw [marks_of_branch, List.cons_append, List.append_assoc]
  exact .branch (h.append_left ns)

theorem swapsWithin_alternative {c c' : Node} (head : Head) (span : Span) (body : Option (List Node))
    (h : Swaps n m front [c] [c']) :
    SwapsWithin n m (marks [⟨head, span, body, none⟩] ++ front) ⟨head, span, body, some [c]⟩
      ⟨head, span, body, some [c']⟩ := by
  have hmarks : marks [⟨head, span, body, none⟩] = (head, span.start) :: marks (body.getD []) := by
    simp [marks_singleton, mark, children]
  rw [hmarks, List.cons_append]
  exact .branch h

theorem IsOpenPart.appendToBody_swaps {p c c' : Node} (hp : p.IsOpenPart) (h : Swaps n m front [c] [c']) :
    SwapsWithin n m (marks [p] ++ front) (Node.appendToBody c p) (Node.appendToBody c' p) := by
  obtain ⟨head, span, body, branch⟩ := p
  obtain ⟨-, hbody, rfl⟩ := hp
  obtain ⟨ns, rfl⟩ := Option.isSome_iff_exists.mp hbody
  exact swapsWithin_body head span ns h

/-- The two nodes go to the same place, behind all that is there. -/
theorem IsOpen.add?_swaps {p c c' : Node} (hp : p.IsOpen) (hw : p.awaitsCase = false) (h : Swaps n m front [c] [c']) :
    ∃ q q', p.add? c = some q ∧ p.add? c' = some q' ∧ SwapsWithin n m (marks [p] ++ front) q q' := by
  cases hp with
  | @wrapper head span ns hwrapper =>
    exact ⟨_, _, add?_of_isWrapper hwrapper span ns c, add?_of_isWrapper hwrapper span ns c',
      swapsWithin_body head span ns h⟩
  | @list _ span ns fallback | @attempt span ns fallback =>
    cases fallback with
    | none => exact ⟨_, _, rfl, rfl, swapsWithin_body _ span ns h⟩
    | some fs => exact ⟨_, _, rfl, rfl, swapsWithin_branch _ span _ fs h⟩
  | @condition test span ns => exact ⟨_, _, rfl, rfl, swapsWithin_body _ span ns h⟩
  | @conditionElse test span ns p hpart =>
    have hadd (child : Node) : (⟨.condition test, span, some ns, some [p]⟩ : Node).add? child =
        some ⟨.condition test, span, some ns, some [Node.appendToBody child p]⟩ := by
      have hlast := addToPart?_append_singleton hpart child []
      rw [List.nil_append, List.nil_append] at hlast
      rw [add?_condition, hlast, Option.map_some]
    refine ⟨_, _, hadd c, hadd c', ?_⟩
    rw [marks_of_branch, List.cons_append, List.append_assoc]
    exact .branch (hpart.appendToBody_swaps h).swaps
  | @switch subject span cases hcases =>
    rcases List.eq_nil_or_concat cases with rfl | ⟨init, p, rfl⟩
    · cases hw
    rw [List.concat_eq_append] at hcases ⊢
    have hpart := hcases p (by simp)
    have hadd (child : Node) : (⟨.switch subject, span, some (init ++ [p]), none⟩ : Node).add? child =
        some ⟨.switch subject, span, some (init ++ [Node.appendToBody child p]), none⟩ := by
      rw [add?_switch, addToPart?_append_singleton hpart child init, Option.map_some]
    refine ⟨_, _, hadd c, hadd c', ?_⟩
    rw [marks_of_body, marks_append, List.cons_append, List.append_assoc]
    exact .body (.inside init [] (hpart.appendToBody_swaps h))

/-! ### New parts -/

theorem SwapsWithin.beginCase (hhead : m.head = n.head) (hpart : n.isPart = false) {p p' : Node}
    (h : SwapsWithin n m front p p') (hb : p.branch = none) (case : Node) :
    SwapsWithin n m front (p.beginCase case) (p'.beginCase case) := by
  have hended := h.endPart hhead hpart case.span.start
  have hbranch : (p.endPart case.span.start).branch = none := by
    unfold Node.endPart
    split <;> simp [hb]
  unfold Node.beginCase
  generalize p.endPart case.span.start = q at hended hbranch
  generalize p'.endPart case.span.start = q' at hended
  cases hended with
  | body hbody => exact .body (hbody.append_right [case])
  | branch => cases hbranch

theorem SwapsWithin.beginBranch {p p' : Node} (h : SwapsWithin n m front p p') (hb : p.branch = none)
    (alternative : List Node) :
    SwapsWithin n m front { p with branch := some alternative } { p' with branch := some alternative } := by
  cases h with
  | body h => exact .body h
  | branch => cases hb

end Node

/-- Both are refused for the same reason, or both are taken, with results that the relation holds of. -/
inductive Agrees {ε α : Type} (r : α → α → Prop) : Except ε α → Except ε α → Prop
  | ok {a a' : α} (h : r a a') : Agrees r (.ok a) (.ok a')
  | error (e : ε) : Agrees r (.error e) (.error e)

theorem agrees_refl {ε α : Type} (x : Except ε α) : Agrees (· = ·) x x := by
  cases x with
  | ok a => exact .ok rfl
  | error e => exact .error e

theorem Agrees.map {ε α β : Type} {r : α → α → Prop} {s : β → β → Prop} {f f' : α → β} {x x' : Except ε α}
    (h : Agrees r x x') (hf : ∀ a a', r a a' → s (f a) (f' a')) : Agrees s (x.map f) (x'.map f') := by
  cases h with
  | ok h => exact .ok (hf _ _ h)
  | error e => exact .error e

namespace Node

variable {n m : Node} {front : List (Head × Nat)}

/-- A tag begins the same part of both. -/
theorem IsOpen.beginPart_agrees (hhead : m.head = n.head) (hpart : n.isPart = false) {p p' : Node} (hp : p.IsOpen)
    (h : SwapsWithin n m front p p') (kind : Kind) (t : Token) (params : Option Expr) :
    Agrees (SwapsWithin n m front) (p.beginPart kind t params) (p'.beginPart kind t params) := by
  have hbranch (alternative : List Node) (fault : StructuralFault) :
      Agrees (SwapsWithin n m front)
        (if p.branch.isSome then .error fault else .ok { p with branch := some alternative })
        (if p.branch.isSome then .error fault else .ok { p' with branch := some alternative }) := by
    split
    · exact .error fault
    · next hb => exact .ok (h.beginBranch (Option.not_isSome_iff_eq_none.mp hb) alternative)
  have hcase (hk : p.kind = .switch) (case : Node) : SwapsWithin n m front (p.beginCase case) (p'.beginCase case) := by
    refine h.beginCase hhead hpart ?_ case
    cases hp with
    | switch => rfl
    | wrapper hw => exact absurd hk (Head.kind_of_isWrapper hw).2.2.2
    | _ => cases hk
  unfold beginPart
  simp only [h.head_eq] at hbranch
  rw [h.head_eq, h.branch_isSome, h.any_kind hhead]
  split
  · exact hbranch [part .otherwise t.span] (.duplicateElse .condition)
  · exact hbranch [] (.duplicateElse .list)
  · exact hbranch [] .duplicateRecover
  · next hswitch => exact .ok (hcase (congrArg Head.kind hswitch) _)
  · next hswitch =>
    split
    · exact .error StructuralFault.duplicateDefault
    · exact .ok (hcase (congrArg Head.kind hswitch) _)
  · exact .error _

/-! ### What the builder sees of an open node -/

/-- The builder cannot tell the two apart without going into them. -/
structure LooksLike (p p' : Node) : Prop where
  head_eq : p'.head = p.head
  span_eq : p'.span = p.span
  branch_isSome : p'.branch.isSome = p.branch.isSome
  awaitsCase_eq : p'.awaitsCase = p.awaitsCase

theorem LooksLike.refl (p : Node) : LooksLike p p :=
  ⟨rfl, rfl, rfl, rfl⟩

theorem SwapsWithin.looksLike {p p' : Node} (h : SwapsWithin n m front p p') : LooksLike p p' :=
  ⟨h.head_eq, h.span_eq, h.branch_isSome, h.awaitsCase_eq⟩

section

variable {p p' : Node} (h : LooksLike p p')

include h

theorem LooksLike.kind_eq : p'.kind = p.kind :=
  congrArg Head.kind h.head_eq

theorem LooksLike.closedBy_eq (kind : Kind) (tag : Option String) : p'.closedBy kind tag = p.closedBy kind tag := by
  unfold closedBy
  rw [h.kind_eq, h.head_eq]

theorem LooksLike.closeLabel_eq : p'.closeLabel = p.closeLabel := by
  rw [closeLabel, closeLabel, h.kind_eq, h.head_eq]

theorem LooksLike.openLabel_eq : p'.openLabel = p.openLabel := by
  rw [openLabel, openLabel, h.kind_eq, h.head_eq]

theorem LooksLike.lacksRecover_eq : p'.lacksRecover = p.lacksRecover := by
  rw [lacksRecover, lacksRecover, h.kind_eq, ← Option.not_isSome, h.branch_isSome, Option.not_isSome]

end

end Node

namespace Builder

variable {n m : Node} {front : List (Head × Nat)}

/-! ### States that differ in one node -/

/-- The place is below one of the open nodes. -/
inductive StackSwaps (n m : Node) : (front : List (Head × Nat)) → List OpenNode → List OpenNode → Prop
  | top {front : List (Head × Nat)} {p p' : Node} (chained : Bool) (below : List OpenNode)
      (h : Node.SwapsWithin n m front p p') :
      StackSwaps n m (stackMarks below ++ front) (⟨p, chained⟩ :: below) (⟨p', chained⟩ :: below)
  | under {front : List (Head × Nat)} {below below' : List OpenNode} (o : OpenNode)
      (h : StackSwaps n m front below below') : StackSwaps n m front (o :: below) (o :: below')

/-- The states are the same but for one place, which is not the pending one. -/
inductive Swapped (n m : Node) : (front : List (Head × Nat)) → Builder → Builder → Prop
  | body {front : List (Head × Nat)} {b : Builder} {ns : List Node} (h : Node.Swaps n m front b.body ns) :
      Swapped n m front b { b with body := ns }
  | stack {front : List (Head × Nat)} {b : Builder} {stack : List OpenNode}
      (h : StackSwaps n m front b.stack stack) :
      Swapped n m (Node.marks b.body ++ front) b { b with stack := stack }

section

variable {b b' : Builder}

theorem Swapped.stop_eq (h : Swapped n m front b b') : b'.stop = b.stop := by
  cases h <;> rfl

theorem Swapped.pending_eq (h : Swapped n m front b b') : b'.pending = b.pending := by
  cases h <;> rfl

theorem Swapped.setPending (h : Swapped n m front b b') (pending : Option Node) :
    Swapped n m front { b with pending := pending } { b' with pending := pending } := by
  cases h with
  | body h => exact @Swapped.body n m front { b with pending := pending } _ h
  | stack h => exact @Swapped.stack n m _ { b with pending := pending } _ h

theorem Swapped.open (h : Swapped n m front b b') (o : OpenNode) :
    Swapped n m front { b with stack := o :: b.stack } { b' with stack := o :: b'.stack } := by
  cases h with
  | body h => exact @Swapped.body n m front { b with stack := o :: b.stack } _ h
  | stack h => exact @Swapped.stack n m _ { b with stack := o :: b.stack } _ (.under o h)

theorem Swapped.report (h : Swapped n m front b b') (fault : StructuralFault) (span : Span) :
    Swapped n m front (b.report fault span) (b'.report fault span) := by
  cases h with
  | body h => exact @Swapped.body n m front (b.report fault span) _ h
  | stack h => exact @Swapped.stack n m _ (b.report fault span) _ h

/-- The open nodes look alike, one by one. -/
theorem StackSwaps.looksLike {stack stack' : List OpenNode} (h : StackSwaps n m front stack stack') :
    List.Forall₂ (fun o o' => o'.chained = o.chained ∧ Node.LooksLike o.node o'.node) stack stack' := by
  have hrefl (below : List OpenNode) :
      List.Forall₂ (fun o o' => o'.chained = o.chained ∧ Node.LooksLike o.node o'.node) below below :=
    List.forall₂_same.mpr fun o _ => ⟨rfl, .refl o.node⟩
  induction h with
  | top _ below h => exact .cons ⟨rfl, h.looksLike⟩ (hrefl below)
  | under o _ ih => exact .cons ⟨rfl, .refl o.node⟩ ih

theorem Swapped.looksLike (h : Swapped n m front b b') :
    List.Forall₂ (fun o o' => o'.chained = o.chained ∧ Node.LooksLike o.node o'.node) b.stack b'.stack := by
  cases h with
  | body => exact List.forall₂_same.mpr fun o _ => ⟨rfl, .refl o.node⟩
  | stack h => exact h.looksLike

theorem Swapped.awaitsCase_eq (h : Swapped n m front b b') : b'.awaitsCase = b.awaitsCase := by
  have hlooks := h.looksLike
  unfold awaitsCase
  generalize b.stack = stack at hlooks ⊢
  generalize b'.stack = stack' at hlooks ⊢
  cases hlooks with
  | nil => rfl
  | cons htop _ => exact htop.2.awaitsCase_eq

theorem Swapped.chainLength_eq (h : Swapped n m front b b') : b'.chainLength = b.chainLength := by
  have hlooks := h.looksLike
  unfold chainLength
  generalize b.stack = stack at hlooks ⊢
  generalize b'.stack = stack' at hlooks ⊢
  induction hlooks with
  | nil => rfl
  | cons htop _ ih =>
    rw [List.takeWhile_cons, List.takeWhile_cons, htop.1]
    split
    · rw [List.length_cons, List.length_cons, ih]
    · rfl

/-- An open node has the place below it. -/
theorem swapped_open {p p' : Node} (h : Node.SwapsWithin n m front p p') (chained : Bool) :
    Swapped n m (b.placed ++ front) { b with stack := ⟨p, chained⟩ :: b.stack }
      { b with stack := ⟨p', chained⟩ :: b.stack } := by
  have hstack := @Swapped.stack n m _ { b with stack := ⟨p, chained⟩ :: b.stack } _ (.top chained b.stack h)
  rw [placed, List.append_assoc]
  exact hstack

/-- The place is not below the innermost open node, or is below that node and nowhere else. -/
theorem Swapped.top_cases (h : Swapped n m front b b') {top : OpenNode} {below : List OpenNode}
    (hst : b.stack = top :: below) :
    (∃ below', b'.stack = top :: below' ∧ Swapped n m front { b with stack := below } { b' with stack := below' }) ∨
      ∃ front' p, front = { b with stack := below }.placed ++ front' ∧ Node.SwapsWithin n m front' top.node p ∧
        b' = { b with stack := ⟨p, top.chained⟩ :: below } := by
  cases h with
  | body h => exact .inl ⟨below, hst, @Swapped.body n m front { b with stack := below } _ h⟩
  | stack h =>
    generalize hold : b.stack = old at h
    rw [hst] at hold
    cases h with
    | @top front p p' chained rest h =>
      cases hold
      exact .inr ⟨front, p', (List.append_assoc ..).symm, h, rfl⟩
    | under o h =>
      cases hold
      exact .inl ⟨_, rfl, @Swapped.stack n m _ { b with stack := below } _ h⟩

theorem Swapped.stack_eq_nil (h : Swapped n m front b b') (hst : b.stack = []) :
    ∃ ns, b' = { b with body := ns } ∧ Node.Swaps n m front b.body ns := by
  cases h with
  | body h => exact ⟨_, rfl, h⟩
  | stack h =>
    rw [hst] at h
    cases h

/-! ### Finished nodes -/

/-- The two nodes go to the same place, behind everything that has its place already. -/
theorem swapped_add {c c' : Node} (hs : Stacked b.stack) (hw : b.awaitsCase = false)
    (h : Node.Swaps n m front [c] [c']) : Swapped n m (b.placed ++ front) (b.add c) (b.add c') := by
  obtain ⟨stop, body, errors, stack, pending⟩ := b
  cases hs with
  | nil =>
    have hbody := @Swapped.body n m _ ⟨stop, body ++ [c], errors, [], pending⟩ _ (h.append_left body)
    rw [placed, stackMarks, List.append_nil]
    exact hbody
  | @cons top below ho hr hs =>
    obtain ⟨q, q', hq, hq', hswaps⟩ := ho.add?_swaps hw h
    have hopen := @swapped_open n m _ ⟨stop, body, errors, below, pending⟩ q q' hswaps top.chained
    simp only [placed, List.append_assoc] at hopen
    simp only [add, hq, hq', placed, stackMarks, List.append_assoc]
    exact hopen

/-- A node that is finished is content, or the alternative of the condition below it, in both. -/
theorem swapped_attach {p p' : Node} {chained : Bool} (hs : Stacked b.stack) (hr : Rests ⟨p, chained⟩ b.stack)
    (h : Node.SwapsWithin n m front p p') :
    Swapped n m (b.placed ++ front) (b.attach ⟨p, chained⟩) (b.attach ⟨p', chained⟩) := by
  obtain ⟨stop, body, errors, stack, pending⟩ := b
  cases hr with
  | outermost hc =>
    obtain rfl : chained = false := hc
    exact swapped_add hs rfl h.swaps
  | content hc hw =>
    obtain rfl : chained = false := hc
    exact swapped_add hs hw h.swaps
  | @chained parent below hc _ hk hb =>
    obtain rfl : chained = true := hc
    obtain ⟨⟨head, span, inner, branch⟩, chained⟩ := parent
    obtain rfl : branch = none := hb
    have hopen := @swapped_open n m _ ⟨stop, body, errors, below, pending⟩ _ _
      (Node.swapsWithin_alternative head span inner h.swaps) chained
    simp only [placed, List.append_assoc] at hopen
    simp only [attach, hk, if_true, placed, stackMarks, List.append_assoc]
    exact hopen

/-- The same node goes to the same place. -/
theorem Swapped.add (h : Swapped n m front b b') (hpart : n.isPart = false) (hs : Stacked b.stack)
    (hw : b.awaitsCase = false) (c : Node) : Swapped n m front (b.add c) (b'.add c) := by
  cases hst : b.stack with
  | nil =>
    obtain ⟨ns, rfl, hns⟩ := h.stack_eq_nil hst
    simp only [Builder.add, hst]
    exact @Swapped.body n m front { b with body := b.body ++ [c], stack := [] } _ (hns.append_right [c])
  | cons top below =>
    have ho := hs.isOpen (hst ▸ List.mem_cons_self ..)
    rw [awaitsCase, hst] at hw
    obtain ⟨q, hq, -⟩ := ho.add? hw c
    obtain ⟨below', hst', hbelow⟩ | ⟨front', p, rfl, htop, rfl⟩ := h.top_cases hst
    · simp only [Builder.add, hst, hst', hq]
      exact hbelow.open { top with node := q }
    · obtain ⟨q', hq', hswaps⟩ := ho.add?_of_swapsWithin hq hpart htop
      simp only [Builder.add, hst, hq, hq']
      exact @swapped_open n m _ { b with stack := below } q q' hswaps top.chained

theorem attach_of_not_chained {o : OpenNode} (hc : o.chained = false) : b.attach o = b.add o.node := by
  simp only [Builder.attach, hc]

theorem awaitsCase_of_rests {o : OpenNode} (hr : Rests o b.stack) (hc : o.chained = false) : b.awaitsCase = false := by
  unfold Builder.awaitsCase
  generalize b.stack = stack at hr
  cases hr with
  | outermost => rfl
  | content _ hw => exact hw
  | chained hc' => rw [hc] at hc'; cases hc'

theorem Swapped.attach (h : Swapped n m front b b') (hpart : n.isPart = false) {o : OpenNode}
    (hs : Stacked b.stack) (hr : Rests o b.stack) : Swapped n m front (b.attach o) (b'.attach o) := by
  cases hc : o.chained with
  | false =>
    rw [attach_of_not_chained hc, attach_of_not_chained hc]
    exact h.add hpart hs (awaitsCase_of_rests hr hc) o.node
  | true =>
    generalize hst : b.stack = stack at hr
    cases hr with
    | outermost hc' | content hc' => rw [hc] at hc'; cases hc'
    | @chained parent below _ _ hk hb =>
      obtain ⟨below', hst', hbelow⟩ | ⟨front', p, rfl, htop, rfl⟩ := h.top_cases hst
      · simp only [Builder.attach, hc, hst, hst', hk, if_true]
        exact hbelow.open { parent with node := { parent.node with branch := some [o.node] } }
      · have hkind : p.kind = .condition := (congrArg Head.kind htop.head_eq).trans hk
        simp only [Builder.attach, hc, hst, hk, hkind, if_true]
        exact @swapped_open n m _ { b with stack := below } _ _ (htop.beginBranch hb [o.node]) parent.chained

/-! ### Nodes that leave the stack -/

/-- What lies below the innermost open node is well made. -/
def Grounded (b : Builder) : Prop :=
  ∀ top below, b.stack = top :: below → Rests top below ∧ Stacked below

theorem release_of_stack_eq_nil (hst : b.stack = []) (partStop stop : Nat) : b.release partStop stop = b := by
  simp only [Builder.release, hst]

theorem Grounded.release (h : Grounded b) (partStop stop : Nat) : Grounded (b.release partStop stop) := by
  cases hst : b.stack with
  | nil => rwa [release_of_stack_eq_nil hst]
  | cons top below =>
    obtain ⟨hr, hs⟩ := h top below hst
    exact ((releases_release hst hr hs partStop stop).uncovers hst hs).1

theorem Swapped.release (h : Swapped n m front b b') (hhead : m.head = n.head) (hpart : n.isPart = false)
    (hb : Grounded b) (partStop stop : Nat) :
    Swapped n m front (b.release partStop stop) (b'.release partStop stop) := by
  cases hst : b.stack with
  | nil =>
    have hst' : b'.stack = [] := List.forall₂_nil_left_iff.mp (hst ▸ h.looksLike)
    rwa [release_of_stack_eq_nil hst, release_of_stack_eq_nil hst']
  | cons top below =>
    obtain ⟨hr, hs⟩ := hb top below hst
    have hr' : Rests { top with node := (top.node.endPart partStop).endAt stop } below :=
      hr.congr rfl (congrArg Head.kind (Node.endPart_head partStop top.node))
    obtain ⟨below', hst', hbelow⟩ | ⟨front', p, rfl, htop, rfl⟩ := h.top_cases hst
    · simp only [Builder.release, hst, hst']
      exact hbelow.attach hpart hs hr'
    · simp only [Builder.release, hst]
      exact @swapped_attach n m _ { b with stack := below } _ _ top.chained hs hr'
        ((htop.endPart hhead hpart partStop).endAt stop)

theorem Grounded.repeat_release (h : Grounded b) (partStop stop k : Nat) :
    Grounded (Nat.repeat (Builder.release partStop stop) k b) := by
  induction k with
  | zero => exact h
  | succ k ih => exact ih.release partStop stop

theorem Swapped.repeat_release (h : Swapped n m front b b') (hhead : m.head = n.head) (hpart : n.isPart = false)
    (hb : Grounded b) (partStop stop k : Nat) :
    Swapped n m front (Nat.repeat (Builder.release partStop stop) k b)
      (Nat.repeat (Builder.release partStop stop) k b') := by
  induction k with
  | zero => exact h
  | succ k ih => exact ih.release hhead hpart (hb.repeat_release partStop stop k) partStop stop

theorem Swapped.closeTop (h : Swapped n m front b b') (hhead : m.head = n.head) (hpart : n.isPart = false)
    (hb : Grounded b) (span : Span) : Swapped n m front (b.closeTop span) (b'.closeTop span) := by
  have hunchained := h.repeat_release hhead hpart hb span.start span.start b.chainLength
  have hclosed := hunchained.release hhead hpart (hb.repeat_release _ _ _) span.start span.stop
  have hlooks := hunchained.looksLike
  unfold Builder.closeTop
  rw [h.chainLength_eq]
  dsimp only
  generalize (Nat.repeat (Builder.release span.start span.start) b.chainLength b).stack = stack at hlooks ⊢
  generalize (Nat.repeat (Builder.release span.start span.start) b.chainLength b').stack = stack' at hlooks ⊢
  cases hlooks with
  | nil => exact hclosed
  | @cons top top' _ _ htop _ =>
    have hspan : (top'.node.endAt span.stop).span = (top.node.endAt span.stop).span := by
      rw [Node.endAt, Node.endAt, htop.2.span_eq]
    dsimp only
    rw [htop.2.lacksRecover_eq, hspan]
    split
    · exact hclosed.report _ _
    · exact hclosed

/-! ### Tags -/

theorem Swapped.close (h : Swapped n m front b b') (hhead : m.head = n.head) (hpart : n.isPart = false)
    (hb : Grounded b) (kind : Kind) (t : Token) :
    Agrees (Swapped n m front) (b.close kind t) (b'.close kind t) := by
  have hclosed := h.closeTop hhead hpart hb t.span
  have hlooks := h.looksLike
  unfold Builder.close
  generalize b.stack = stack at hlooks ⊢
  generalize b'.stack = stack' at hlooks ⊢
  cases hlooks with
  | nil => exact .error _
  | cons htop _ =>
    dsimp only
    rw [htop.2.closedBy_eq, htop.2.closeLabel_eq]
    split
    · exact .ok hclosed
    · exact .error _

theorem Swapped.continueTop (h : Swapped n m front b b') (hhead : m.head = n.head) (hpart : n.isPart = false)
    (hs : Stacked b.stack) (kind : Kind) (t : Token) (params : Option Expr) :
    Agrees (Swapped n m front) (b.continueTop kind t params) (b'.continueTop kind t params) := by
  cases hst : b.stack with
  | nil =>
    have hst' : b'.stack = [] := List.forall₂_nil_left_iff.mp (hst ▸ h.looksLike)
    simp only [Builder.continueTop, hst, hst']
    exact .error _
  | cons top below =>
    have ho := hs.isOpen (hst ▸ List.mem_cons_self ..)
    have hopen (test : Expr) := h.open ⟨⟨.condition test, t.span, some [], none⟩, true⟩
    obtain ⟨below', hst', hbelow⟩ | ⟨front', p, rfl, htop, rfl⟩ := h.top_cases hst
    · have hsame := agrees_refl (top.node.beginPart kind t params)
      simp only [hst, hst'] at hopen
      simp only [Builder.continueTop, hst, hst']
      split
      · split
        · exact .error _
        · exact .ok (hopen _)
      · refine hsame.map fun node node' hnode => ?_
        rw [← hnode]
        exact hbelow.open { top with node }
    · have hparts := ho.beginPart_agrees hhead hpart htop kind t params
      simp only [hst] at hopen
      simp only [Builder.continueTop, hst]
      rw [htop.head_eq, htop.branch_isSome]
      split
      · split
        · exact .error _
        · exact .ok (hopen _)
      · exact hparts.map fun node node' hnode =>
          @swapped_open n m _ { b with stack := below } node node' hnode top.chained

theorem Swapped.place (h : Swapped n m front b b') (hpart : n.isPart = false) (hs : Stacked b.stack)
    (hw : b.awaitsCase = false) (selfClosing : Bool) (c : Node) :
    Swapped n m front (b.place selfClosing c) (b'.place selfClosing c) := by
  have hadd := h.add hpart hs hw c
  unfold Builder.place
  split
  · exact h.open ⟨c, false⟩
  · split
    · split
      · exact hadd
      · exact h.setPending (some c)
    · exact hadd

theorem Swapped.accept (h : Swapped n m front b b') (hhead : m.head = n.head) (hpart : n.isPart = false)
    (hs : Stacked b.stack) (kind : Kind) (t : Token) (params : Option Expr) :
    Agrees (Swapped n m front) (b.accept kind t params) (b'.accept kind t params) := by
  by_cases hrule : kind.paramRule.Allows params
  · rw [accept_of_allows hrule, accept_of_allows hrule, h.awaitsCase_eq]
    by_cases hw : (b.awaitsCase && kind != .case && kind != .default) = true
    · rw [if_pos hw, if_pos hw]
      split
      · exact .ok h
      · exact .error _
    · rw [if_neg hw, if_neg hw]
      by_cases hcont : kind.isContinuation = true
      · rw [if_pos hcont, if_pos hcont]
        exact h.continueTop hhead hpart hs kind t params
      · rw [if_neg hcont, if_neg hcont]
        have hw' := awaitsCase_eq_false_of_guard hw hcont
        refine (agrees_refl (Node.ofTag kind t params)).map fun c c' hc => ?_
        rw [← hc]
        exact h.place hpart hs hw' t.selfClosing c
  · obtain ⟨fault, hfault⟩ := accept_of_not_allows hrule t
    rw [hfault, hfault]
    exact .error fault

/-! ### Tokens -/

theorem Swapped.settle (h : Swapped n m front b b') (hpart : n.isPart = false) (hb : b.Sound) :
    Swapped n m front b.settle b'.settle := by
  unfold Builder.settle
  rw [h.pending_eq]
  cases hp : b.pending with
  | none => exact h
  | some c => exact (h.setPending none).add hpart hb.stack (hb.pending (by rw [hp]; rfl)) c

/-- The closing tag belongs to the pending node of both or of neither. -/
theorem Swapped.absorb?_cases (h : Swapped n m front b b') (hpart : n.isPart = false) (hb : b.Sound) (t : Token) :
    (b.absorb? t = none ∧ b'.absorb? t = none) ∨
      ∃ c c', b.absorb? t = some c ∧ b'.absorb? t = some c' ∧ Swapped n m front c c' := by
  unfold Builder.absorb?
  rw [h.pending_eq]
  cases hp : b.pending with
  | none => exact .inl ⟨rfl, rfl⟩
  | some c =>
    have hadd := (h.setPending none).add hpart hb.stack (hb.pending (by rw [hp]; rfl)) (c.endAt t.span.stop)
    dsimp only
    split
    · exact .inr ⟨_, _, rfl, rfl, hadd⟩
    · exact .inl ⟨rfl, rfl⟩

theorem Swapped.orReport (h : Swapped n m front b b') {x x' : Except StructuralFault Builder}
    (hx : Agrees (Swapped n m front) x x') (span : Span) :
    Swapped n m front (b.orReport span x) (b'.orReport span x') := by
  cases hx with
  | ok hx => exact hx
  | error fault => exact h.report fault span

/-- One token is taken in the same way in both states. -/
theorem Swapped.push (h : Swapped n m front b b') (hhead : m.head = n.head) (hpart : n.isPart = false) (hb : b.Sound)
    (t : Token) : (b'.push t).1 = (b.push t).1 ∧ Swapped n m front (b.push t).2 (b'.push t).2 := by
  obtain ⟨hnone, hnone'⟩ | ⟨c, c', hsome, hsome', hc⟩ := h.absorb?_cases hpart hb t
  · have hsettled := h.settle hpart hb
    have hs := (settles_settle hb.stack hb.pending).stacked hb.stack
    rw [push_of_absorb?_eq_none hnone, push_of_absorb?_eq_none hnone']
    cases Kind.ofToken? t with
    | none => exact ⟨rfl, hsettled.report _ _⟩
    | some kind =>
      dsimp only
      split
      · exact ⟨rfl, hsettled.orReport (hsettled.close hhead hpart hs.under kind t) t.span⟩
      · cases kind.readParams t with
        | error e => exact ⟨rfl, hsettled⟩
        | ok params => exact ⟨rfl, hsettled.orReport (hsettled.accept hhead hpart hs kind t params) t.span⟩
  · rw [Builder.push, Builder.push, hsome, hsome']
    exact ⟨rfl, hc⟩

theorem Swapped.pushAll (h : Swapped n m front b b') (hhead : m.head = n.head) (hpart : n.isPart = false)
    (hb : b.Sound) (ts : List Token) :
    (b'.pushAll ts).1 = (b.pushAll ts).1 ∧ Swapped n m front (b.pushAll ts).2 (b'.pushAll ts).2 := by
  induction ts generalizing b b' with
  | nil => exact ⟨rfl, h⟩
  | cons t ts ih =>
    obtain ⟨herror, hswapped⟩ := h.push hhead hpart hb t
    have hsound := sound_push hb t
    rw [Builder.pushAll, Builder.pushAll]
    generalize b.push t = pushed at herror hswapped hsound ⊢
    generalize b'.push t = pushed' at herror hswapped ⊢
    obtain ⟨error, c⟩ := pushed
    obtain ⟨error', c'⟩ := pushed'
    obtain rfl : error' = error := herror
    cases error' with
    | none => exact ih hswapped hsound
    | some e => exact ⟨rfl, hswapped⟩

/-! ### The end of the template -/

theorem Swapped.reportUnclosed (h : Swapped n m front b b') : Swapped n m front b.reportUnclosed b'.reportUnclosed := by
  have hlooks := h.looksLike
  unfold Builder.reportUnclosed
  generalize b.stack = stack at hlooks ⊢
  generalize b'.stack = stack' at hlooks ⊢
  induction hlooks with
  | nil => exact h
  | @cons o o' _ _ hlook _ ih =>
    rw [List.find?_cons, List.find?_cons, hlook.1]
    cases o.chained with
    | false =>
      have hreport : Swapped n m front (b.report (.unclosed o.node.openLabel) o.node.span)
          (b'.report (.unclosed o'.node.openLabel) o'.node.span) := by
        rw [hlook.2.openLabel_eq, hlook.2.span_eq]
        exact h.report _ _
      exact hreport
    | true => exact ih

/-- The programs differ in the one node, and the errors are the same. -/
theorem Swapped.finish (h : Swapped n m front b b') (hhead : m.head = n.head) (hpart : n.isPart = false)
    (hb : b.Sound) :
    b'.finish.stop = b.finish.stop ∧ b'.finish.errors = b.finish.errors ∧
      Node.Swaps n m front b.finish.body b'.finish.body := by
  have hunclosed := (h.settle hpart hb).reportUnclosed
  have hgrounded : Grounded b.settle.reportUnclosed := by
    have hs := (settles_settle hb.stack hb.pending).stacked hb.stack
    rw [← reportUnclosed_stack] at hs
    exact hs.under
  have hlength := hunclosed.looksLike.length_eq
  unfold Builder.finish
  dsimp only
  generalize b.settle.reportUnclosed = settled at hunclosed hgrounded hlength ⊢
  generalize b'.settle.reportUnclosed = settled' at hunclosed hlength ⊢
  have hclosed := hunclosed.repeat_release hhead hpart hgrounded settled.stop settled.stop settled.stack.length
  have hnil := (drains_repeat settled.stop hgrounded).2
  obtain ⟨ns, hbody, hns⟩ := hclosed.stack_eq_nil hnil
  rw [hunclosed.stop_eq, ← hlength, hbody]
  exact ⟨rfl, rfl, hns⟩

end

end Builder

end TemplateSyntax
