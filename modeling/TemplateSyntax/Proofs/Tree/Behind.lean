import TemplateSyntax.Proofs.Tree.Acceptance
import TemplateSyntax.Proofs.Tree.Shift

/-!
# Building behind a finished part

The builder never looks at what is already in the body or at the errors it has reported, and it compares no two places.
So with the nodes and errors of a finished part in front of its own, and all places moved, it takes the same tokens in
the same way (`push_behind`), and its program comes behind the finished part (`finish_behind`).
-/

namespace TemplateSyntax

open Markup (Token)

variable {n : Nat}

def StructuralError.shift (n : Nat) (e : StructuralError) : StructuralError :=
  { e with span := e.span.shift n }

def OpenNode.shift (n : Nat) (o : OpenNode) : OpenNode :=
  { o with node := o.node.shift n }

theorem Kind.readParams_shift (kind : Kind) (t : Token) :
    kind.readParams (t.shift n) = shiftResult n (Option.map (Expr.shift n)) (kind.readParams t) := by
  obtain ⟨tokenKind, span, raw, tag, params, closing, selfClosing⟩ := t
  cases params with
  | none => cases kind <;> rfl
  | some p =>
    cases kind with
    | text | comment => rfl
    | _ => exact Expr.parseAt_add p.text p.span.start n

namespace Builder

/-- The builder moved by `n` bytes, with the nodes and errors of `front` in front of its own. -/
def behind (front : Builder) (n : Nat) (b : Builder) : Builder where
  stop := front.stop
  body := front.body ++ b.body.map (Node.shift n)
  errors := front.errors ++ b.errors.map (StructuralError.shift n)
  stack := b.stack.map (OpenNode.shift n)
  pending := b.pending.map (Node.shift n)

section Behind

variable (front : Builder) (n : Nat)

theorem report_behind (fault : StructuralFault) (span : Span) (b : Builder) :
    (front.behind n b).report fault (span.shift n) = front.behind n (b.report fault span) := by
  simp [report, behind, StructuralError.shift]

/-! ### Finished nodes -/

theorem add_behind (m : Node) (b : Builder) : (front.behind n b).add (m.shift n) = front.behind n (b.add m) := by
  obtain ⟨stop, body, errors, stack, pending⟩ := b
  cases stack with
  | nil => simp [add, behind]
  | cons top below =>
    simp only [add, behind, List.map_cons, OpenNode.shift, Node.add?_shift]
    cases top.node.add? m <;> rfl

theorem attach_behind (o : OpenNode) (b : Builder) :
    (front.behind n b).attach (o.shift n) = front.behind n (b.attach o) := by
  obtain ⟨node, chained⟩ := o
  obtain ⟨stop, body, errors, stack, pending⟩ := b
  cases chained with
  | false => exact add_behind front n node ⟨stop, body, errors, stack, pending⟩
  | true =>
    cases stack with
    | nil => exact add_behind front n node ⟨stop, body, errors, [], pending⟩
    | cons parent below =>
      obtain ⟨⟨head, span, body', branch⟩, chained⟩ := parent
      by_cases hk : head.kind = .condition
      · have hk' : (head.shift n).kind = .condition := by rw [Head.kind_shift, hk]
        simp only [attach, behind, List.map_cons, OpenNode.shift, Node.shift_mk, Node.kind, hk, hk', if_true,
          Option.map_some, List.map_nil]
      · have hk' : ¬(head.shift n).kind = .condition := by rwa [Head.kind_shift]
        have hadd := add_behind front n node
          ⟨stop, body, errors, ⟨⟨head, span, body', branch⟩, chained⟩ :: below, pending⟩
        simp only [behind, List.map_cons, OpenNode.shift, Node.shift_mk] at hadd
        simp only [attach, behind, List.map_cons, OpenNode.shift, Node.shift_mk, Node.kind, hk, hk', if_false]
        exact hadd

theorem settle_behind (b : Builder) : (front.behind n b).settle = front.behind n b.settle := by
  obtain ⟨stop, body, errors, stack, pending⟩ := b
  cases pending with
  | none => rfl
  | some m => exact add_behind front n m ⟨stop, body, errors, stack, none⟩

theorem absorb?_behind (t : Token) (b : Builder) :
    (front.behind n b).absorb? (t.shift n) = (b.absorb? t).map (front.behind n) := by
  obtain ⟨stop, body, errors, stack, pending⟩ := b
  cases pending with
  | none => rfl
  | some m =>
    have hadd := add_behind front n (m.endAt t.span.stop) ⟨stop, body, errors, stack, none⟩
    rw [← Node.endAt_shift] at hadd
    change (if t.closing && Kind.ofToken? t == some (m.shift n).kind then _ else _) = Option.map _ (if _ then _ else _)
    rw [Node.kind_shift]
    split
    · exact congrArg some hadd
    · rfl

/-! ### Closing -/

theorem release_behind (partStop stop : Nat) (b : Builder) :
    (front.behind n b).release (partStop + n) (stop + n) = front.behind n (b.release partStop stop) := by
  obtain ⟨bstop, body, errors, stack, pending⟩ := b
  cases stack with
  | nil => rfl
  | cons top below =>
    have hattach := attach_behind front n ⟨(top.node.endPart partStop).endAt stop, top.chained⟩
      ⟨bstop, body, errors, below, pending⟩
    rw [OpenNode.shift, ← Node.endAt_shift, ← Node.endPart_shift] at hattach
    exact hattach

theorem repeat_release_behind (partStop stop k : Nat) (b : Builder) :
    Nat.repeat (release (partStop + n) (stop + n)) k (front.behind n b) =
      front.behind n (Nat.repeat (release partStop stop) k b) := by
  induction k with
  | zero => rfl
  | succ k ih => rw [Nat.repeat, Nat.repeat, ih, release_behind]

theorem chainLength_behind (b : Builder) : (front.behind n b).chainLength = b.chainLength := by
  rw [chainLength, chainLength, behind, List.takeWhile_map, List.length_map]
  rfl

theorem closeTop_behind (span : Span) (b : Builder) :
    (front.behind n b).closeTop (span.shift n) = front.behind n (b.closeTop span) := by
  have hunchained : Nat.repeat (release (span.shift n).start (span.shift n).start) (front.behind n b).chainLength
      (front.behind n b) = front.behind n (Nat.repeat (release span.start span.start) b.chainLength b) := by
    rw [chainLength_behind]
    exact repeat_release_behind front n span.start span.start b.chainLength b
  unfold closeTop
  dsimp only
  rw [hunchained]
  generalize Nat.repeat (release span.start span.start) b.chainLength b = unchained
  have hclosed : (front.behind n unchained).release (span.shift n).start (span.shift n).stop =
      front.behind n (unchained.release span.start span.stop) := release_behind front n span.start span.stop unchained
  rw [hclosed]
  generalize unchained.release span.start span.stop = closed
  obtain ⟨stop, body, errors, stack, pending⟩ := unchained
  cases stack with
  | nil => rfl
  | cons top below =>
    have hreport := report_behind front n .missingRecover (top.node.endAt span.stop).span closed
    rw [← Node.span_shift, ← Node.endAt_shift] at hreport
    change (if (top.node.shift n).lacksRecover then _ else _) = front.behind n (if top.node.lacksRecover then _ else _)
    rw [Node.lacksRecover_shift]
    split
    · exact hreport
    · rfl

theorem close_behind (kind : Kind) (t : Token) (b : Builder) :
    (front.behind n b).close kind (t.shift n) = (b.close kind t).map (front.behind n) := by
  have hcloseTop := closeTop_behind front n t.span b
  obtain ⟨stop, body, errors, stack, pending⟩ := b
  cases stack with
  | nil => rfl
  | cons top below =>
    change (if (top.node.shift n).closedBy kind t.tag then _
      else .error (StructuralFault.mismatchedClose _ (top.node.shift n).closeLabel)) =
        Except.map _ (if top.node.closedBy kind t.tag then _ else _)
    rw [Node.closedBy_shift, Node.closeLabel_shift]
    split
    · exact congrArg Except.ok hcloseTop
    · rfl

/-! ### Opening -/

theorem continueTop_behind (kind : Kind) (t : Token) (params : Option Expr) (b : Builder) :
    (front.behind n b).continueTop kind (t.shift n) (params.map (Expr.shift n)) =
      (b.continueTop kind t params).map (front.behind n) := by
  obtain ⟨stop, body, errors, stack, pending⟩ := b
  cases stack with
  | nil => rfl
  | cons top below =>
    obtain ⟨⟨head, span, inner, branch⟩, chained⟩ := top
    have hpart : (((⟨head, span, inner, branch⟩ : Node).shift n).beginPart kind (t.shift n)
          (params.map (Expr.shift n))).map (fun node =>
            { front.behind n ⟨stop, body, errors, ⟨⟨head, span, inner, branch⟩, chained⟩ :: below, pending⟩ with
              stack := ⟨node, chained⟩ :: below.map (OpenNode.shift n) }) =
        (((⟨head, span, inner, branch⟩ : Node).beginPart kind t params).map fun node =>
          (⟨stop, body, errors, ⟨node, chained⟩ :: below, pending⟩ : Builder)).map (front.behind n) := by
      rw [Node.beginPart_shift]
      cases (⟨head, span, inner, branch⟩ : Node).beginPart kind t params <;> rfl
    cases kind with
    | elseIf =>
      cases head with
      | condition test =>
        cases params with
        | none => exact hpart
        | some e => cases branch <;> rfl
      | _ => exact hpart
    | _ => exact hpart

theorem place_behind (selfClosing : Bool) (m : Node) (b : Builder) :
    (front.behind n b).place selfClosing (m.shift n) = front.behind n (b.place selfClosing m) := by
  have hadd := add_behind front n m b
  unfold place
  rw [Node.body_shift, Option.isSome_map, Node.head_shift]
  split
  · rfl
  · cases m.head with
    | single =>
      cases selfClosing with
      | true => exact hadd
      | false => rfl
    | _ => exact hadd

theorem awaitsCase_behind (b : Builder) : (front.behind n b).awaitsCase = b.awaitsCase := by
  obtain ⟨stop, body, errors, stack, pending⟩ := b
  cases stack with
  | nil => rfl
  | cons top below => exact Node.awaitsCase_shift top.node

theorem accept_behind (kind : Kind) (t : Token) (params : Option Expr) (b : Builder) :
    (front.behind n b).accept kind (t.shift n) (params.map (Expr.shift n)) =
      (b.accept kind t params).map (front.behind n) := by
  by_cases hrule : kind.paramRule.Allows params
  · have hrule' : kind.paramRule.Allows (params.map (Expr.shift n)) := by
      generalize kind.paramRule = rule at hrule ⊢
      cases rule <;> cases params <;> exact hrule
    have hraw : (t.shift n).raw = t.raw := rfl
    rw [accept_of_allows hrule', accept_of_allows hrule, awaitsCase_behind, continueTop_behind, hraw]
    split
    · split <;> rfl
    · split
      · rfl
      · rw [Node.ofTag_shift]
        cases Node.ofTag kind t params with
        | error fault => rfl
        | ok m => exact congrArg Except.ok (place_behind front n t.selfClosing m b)
  · unfold accept
    cases hr : kind.paramRule <;> cases params <;> first | rfl | (rw [hr] at hrule; exact absurd trivial hrule)

/-! ### Tokens -/

theorem orReport_behind (span : Span) (b : Builder) (r : Except StructuralFault Builder) :
    (front.behind n b).orReport (span.shift n) (r.map (front.behind n)) = front.behind n (b.orReport span r) := by
  cases r with
  | ok b' => rfl
  | error fault => exact report_behind front n fault span b

theorem push_behind (t : Token) (b : Builder) :
    (front.behind n b).push (t.shift n) =
      Prod.map (Option.map (ExprError.shift n)) (front.behind n) (b.push t) := by
  cases habsorb : b.absorb? t with
  | some b' =>
    rw [push, push, absorb?_behind, habsorb]
    rfl
  | none =>
    have habsorb' : (front.behind n b).absorb? (t.shift n) = none := by rw [absorb?_behind, habsorb, Option.map_none]
    rw [push_of_absorb?_eq_none habsorb, push_of_absorb?_eq_none habsorb', settle_behind]
    generalize b.settle = b
    have hkind : Kind.ofToken? (t.shift n) = Kind.ofToken? t := rfl
    have hclosing : (t.shift n).closing = t.closing := rfl
    rw [hkind, hclosing]
    cases Kind.ofToken? t with
    | none => exact congrArg (Prod.mk none) (report_behind front n (.unsupported t.label) t.span b)
    | some kind =>
      dsimp only
      split
      · rw [close_behind]
        exact congrArg (Prod.mk none) (orReport_behind front n t.span b (b.close kind t))
      · rw [Kind.readParams_shift]
        cases kind.readParams t with
        | error e => rfl
        | ok params =>
          dsimp only [shiftResult]
          rw [accept_behind]
          exact congrArg (Prod.mk none) (orReport_behind front n t.span b (b.accept kind t params))

theorem pushAll_behind (ts : List Token) (b : Builder) :
    (front.behind n b).pushAll (ts.map (Token.shift n)) =
      Prod.map (Option.map (ExprError.shift n)) (front.behind n) (b.pushAll ts) := by
  induction ts generalizing b with
  | nil => rfl
  | cons t ts ih =>
    rw [List.map_cons, pushAll, pushAll, push_behind]
    cases b.push t with
    | mk e b' =>
      cases e with
      | none => exact ih b'
      | some e => rfl

/-- The length of the template is not looked at before its end. -/
theorem pushAll_new_stop {stop : Nat} {ts : List Token} {b : Builder} (h : (new stop).pushAll ts = (none, b))
    (stop' : Nat) : (new stop').pushAll ts = (none, (new stop').behind 0 b) := by
  have hmoved := pushAll_behind (new stop') 0 ts (new stop)
  have htokens : ts.map (Token.shift 0) = ts := by
    rw [show Token.shift 0 = id from funext Token.shift_zero, List.map_id]
  rw [htokens, h] at hmoved
  exact hmoved

theorem reportUnclosed_behind (b : Builder) :
    (front.behind n b).reportUnclosed = front.behind n b.reportUnclosed := by
  have hfind : (front.behind n b).stack.find? (fun o => !o.chained) =
      (b.stack.find? fun o => !o.chained).map (OpenNode.shift n) := List.find?_map ..
  unfold reportUnclosed
  rw [hfind]
  cases b.stack.find? fun o => !o.chained with
  | none => rfl
  | some o =>
    change (front.behind n b).report (.unclosed (o.node.shift n).openLabel) (o.node.shift n).span =
      front.behind n (b.report (.unclosed o.node.openLabel) o.node.span)
    rw [Node.openLabel_shift, Node.span_shift]
    exact report_behind front n (.unclosed o.node.openLabel) o.node.span b

/-- The program comes behind the nodes and errors in front. -/
theorem finish_behind {b : Builder} (h : b.Sound) (hstop : front.stop = b.stop + n) :
    (front.behind n b).finish =
      ⟨front.stop, front.body ++ b.finish.body.map (Node.shift n),
        front.errors ++ b.finish.errors.map (StructuralError.shift n)⟩ := by
  have hsettled : (front.behind n b).settle.reportUnclosed = front.behind n b.settle.reportUnclosed := by
    rw [settle_behind, reportUnclosed_behind]
  have hend : front.stop = b.settle.reportUnclosed.stop + n := by
    rw [hstop, reportUnclosed_stop, (settles_settle h.stack h.pending).stop_eq]
  unfold finish
  dsimp only
  rw [hsettled]
  generalize b.settle.reportUnclosed = settled at hend
  have hclosed : Nat.repeat (release front.stop front.stop) (front.behind n settled).stack.length
      (front.behind n settled) =
        front.behind n (Nat.repeat (release settled.stop settled.stop) settled.stack.length settled) := by
    have hlength : (front.behind n settled).stack.length = settled.stack.length := List.length_map ..
    rw [hlength, hend, repeat_release_behind]
  change Program.mk front.stop (Nat.repeat (release front.stop front.stop) _ _).body
    (Nat.repeat (release front.stop front.stop) _ _).errors = _
  rw [hclosed]
  rfl

end Behind

end Builder

end TemplateSyntax
