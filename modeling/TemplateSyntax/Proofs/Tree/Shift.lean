import TemplateSyntax.Proofs.Expr.Shift
import TemplateSyntax.Proofs.Markup.Resuming
import TemplateSyntax.Tree.Builder

/-!
# Nodes at other places

What a tag makes of its parameters and what a node does with its parts depends on kinds and names, not on places. So
the operations on nodes commute with moving a node and all that is below it.
-/

namespace TemplateSyntax

open Markup (Token)

variable {n : Nat}

/-! ### Forms of parameters -/

namespace Expr

theorem items_shift (e : Expr) : (e.shift n).items = e.items.map (shift n) := by
  cases e with
  | compound items s => rw [shift_compound]; rfl
  | _ => rfl

theorem identifier?_shift (e : Expr) : (e.shift n).identifier? = e.identifier? := by
  cases e <;> rfl

theorem isIdentifier_shift (name : String) (e : Expr) : (e.shift n).isIdentifier name = e.isIdentifier name := by
  rw [isIdentifier, identifier?_shift]
  rfl

theorem isStringLiteral_shift (e : Expr) : (e.shift n).isStringLiteral = e.isStringLiteral := by
  cases e with
  | literal value => cases value <;> rfl
  | _ => rfl

theorem isChange_shift (e : Expr) : (e.shift n).isChange = e.isChange := by
  cases e with
  | join op => cases op <;> rfl
  | _ => rfl

theorem isSetting_shift (e : Expr) : (e.shift n).isSetting = e.isSetting := by
  cases e with
  | join op left =>
    cases op with
    | assign op =>
      cases op with
      | set => exact congrArg Option.isSome (identifier?_shift left)
      | _ => rfl
    | _ => rfl
  | _ => rfl

theorem isListing_shift (e : Expr) : (e.shift n).isListing = e.isListing := by
  unfold isListing
  rw [items_shift]
  rcases e.items with _ | ⟨a, _ | ⟨b, _ | ⟨c, _ | ⟨d, _ | ⟨f, rest⟩⟩⟩⟩⟩ <;>
    simp only [List.map_cons, List.map_nil, isIdentifier_shift, identifier?_shift]

theorem isReplacement_shift (e : Expr) : (e.shift n).isReplacement = e.isReplacement := by
  unfold isReplacement
  rw [items_shift]
  rcases e.items with _ | ⟨a, _ | ⟨b, _ | ⟨c, _ | ⟨d, rest⟩⟩⟩⟩ <;>
    simp only [List.map_cons, List.map_nil, isIdentifier_shift, identifier?_shift]

theorem isImport_shift (e : Expr) : (e.shift n).isImport = e.isImport := by
  unfold isImport
  rw [items_shift]
  rcases e.items with _ | ⟨a, _ | ⟨b, _ | ⟨c, _ | ⟨d, rest⟩⟩⟩⟩ <;>
    simp only [List.map_cons, List.map_nil, isIdentifier_shift, identifier?_shift]

theorem dropNamespace_shift (es : List Expr) : dropNamespace (es.map (shift n)) = (dropNamespace es).map (shift n) := by
  match es with
  | [] => rfl
  | [a] => rfl
  | [a, b] => rfl
  | [a, b, c] =>
    simp only [List.map_cons, List.map_nil, dropNamespace, isIdentifier_shift]
    split <;> rfl
  | a :: b :: c :: d :: es => exact congrArg (a.shift n :: ·) (dropNamespace_shift (b :: c :: d :: es))

theorem setter?_shift (e : Expr) : (e.shift n).setter? = e.setter? := by
  unfold setter?
  rw [items_shift, dropNamespace_shift]
  rcases dropNamespace e.items with _ | ⟨a, _ | ⟨b, rest⟩⟩
  · rfl
  · simp only [List.map_cons, List.map_nil, identifier?_shift, isChange_shift]
  · simp [isChange_shift, Function.comp_def]

theorem signature?_shift (e : Expr) :
    (e.shift n).signature? = e.signature?.map (Prod.map id (List.map (shift n))) := by
  unfold signature?
  rw [items_shift]
  cases e.items with
  | nil => rfl
  | cons first rest =>
    cases first with
    | call callee arguments s =>
      rw [List.map_cons, shift_call]
      cases callee with
      | identifier name s' => simp [shift]
      | _ => rfl
    | _ => rfl

end Expr

/-! ### Heads -/

/-- The head with its expressions moved by `n` bytes. -/
def Head.shift (n : Nat) : Head → Head
  | .interpolation value => .interpolation (value.shift n)
  | .condition test => .condition (test.shift n)
  | .list params => .list (params.shift n)
  | .switch subject => .switch (subject.shift n)
  | .case value => .case (value.shift n)
  | .assign scope params => .assign scope (params.shift n)
  | .callable sort name params => .callable sort name (params.map (Expr.shift n))
  | .macroCall name params => .macroCall name (params.map (Expr.shift n))
  | .block sort params => .block sort (params.map (Expr.shift n))
  | .single sort params => .single sort (params.map (Expr.shift n))
  | head => head

@[simp] theorem Head.kind_shift (head : Head) : (head.shift n).kind = head.kind := by
  cases head <;> rfl

theorem Head.wraps_shift (selfClosing : Bool) (head : Head) :
    (head.shift n).wraps selfClosing = head.wraps selfClosing := by
  cases head with
  | assign scope params => exact congrArg (· == some .capture) (Expr.setter?_shift params)
  | _ => rfl

theorem Head.given_shift (ok : Bool) (fault : StructuralFault) (head : Head) :
    given ok fault (head.shift n) = (given ok fault head).map (shift n) := by
  cases ok <;> rfl

theorem Head.ofTag_shift (kind : Kind) (t : Token) (params : Option Expr) :
    ofTag kind (t.shift n) (params.map (Expr.shift n)) = (ofTag kind t params).map (shift n) := by
  cases params with
  | none =>
    cases kind with
    | block sort => cases sort <;> rfl
    | single sort => cases sort <;> rfl
    | _ => rfl
  | some e =>
    cases kind with
    | list =>
      change given (e.shift n).isListing _ _ = _
      rw [Expr.isListing_shift]
      exact given_shift e.isListing .listShape (.list e)
    | assign scope =>
      change given (e.shift n).setter?.isSome _ _ = _
      rw [Expr.setter?_shift]
      exact given_shift e.setter?.isSome (.assignShape scope) (.assign scope e)
    | callable sort =>
      simp only [Option.map_some, ofTag]
      rw [Expr.signature?_shift]
      cases e.signature? <;> rfl
    | block sort =>
      cases sort with
      | escape =>
        change given (e.shift n).isReplacement _ _ = _
        rw [Expr.isReplacement_shift]
        exact given_shift e.isReplacement .escapeShape (.block .escape (some e))
      | outputFormat =>
        change given (e.shift n).isStringLiteral _ _ = _
        rw [Expr.isStringLiteral_shift]
        exact given_shift e.isStringLiteral .outputFormatShape (.block .outputFormat (some e))
      | _ => rfl
    | single sort =>
      cases sort with
      | «import» =>
        change given (e.shift n).isImport _ _ = _
        rw [Expr.isImport_shift]
        exact given_shift e.isImport .importShape (.single .import (some e))
      | setting =>
        change given (e.shift n).isSetting _ _ = _
        rw [Expr.isSetting_shift]
        exact given_shift e.isSetting .settingShape (.single .setting (some e))
      | _ => rfl
    | _ => rfl

theorem Head.shift_zero (head : Head) : head.shift 0 = head := by
  cases head <;> simp only [shift, Expr.shift_zero, id_eq, List.map_id, Option.map_id]

/-! ### Nodes -/

namespace Node

mutual

/-- The node and all that is below it moved by `n` bytes. -/
def shift (n : Nat) : Node → Node
  | ⟨head, span, body, branch⟩ => ⟨head.shift n, span.shift n, slotShift n body, slotShift n branch⟩

def slotShift (n : Nat) : Option (List Node) → Option (List Node)
  | none => none
  | some ns => some (listShift n ns)

def listShift (n : Nat) : List Node → List Node
  | [] => []
  | m :: ms => m.shift n :: listShift n ms

end

theorem listShift_eq (ms : List Node) : listShift n ms = ms.map (shift n) := by
  induction ms with
  | nil => rfl
  | cons m ms ih => rw [listShift, ih, List.map_cons]

theorem slotShift_eq (slot : Option (List Node)) : slotShift n slot = slot.map (List.map (shift n)) := by
  cases slot with
  | none => rfl
  | some ms => exact congrArg some (listShift_eq ms)

theorem shift_mk (head : Head) (span : Span) (body branch : Option (List Node)) :
    (⟨head, span, body, branch⟩ : Node).shift n =
      ⟨head.shift n, span.shift n, body.map (List.map (shift n)), branch.map (List.map (shift n))⟩ := by
  rw [shift, slotShift_eq, slotShift_eq]

@[simp] theorem head_shift (m : Node) : (m.shift n).head = m.head.shift n := by
  cases m; rfl

@[simp] theorem span_shift (m : Node) : (m.shift n).span = m.span.shift n := by
  cases m; rfl

@[simp] theorem body_shift (m : Node) : (m.shift n).body = m.body.map (List.map (shift n)) := by
  obtain ⟨head, span, body, branch⟩ := m
  rw [shift_mk]

@[simp] theorem branch_shift (m : Node) : (m.shift n).branch = m.branch.map (List.map (shift n)) := by
  obtain ⟨head, span, body, branch⟩ := m
  rw [shift_mk]

@[simp] theorem kind_shift (m : Node) : (m.shift n).kind = m.kind := by
  rw [kind, head_shift, Head.kind_shift, kind]

mutual

theorem shift_zero : (m : Node) → m.shift 0 = m
  | ⟨head, _, body, branch⟩ => by rw [shift, head.shift_zero, slotShift_zero body, slotShift_zero branch]; rfl

theorem slotShift_zero : (slot : Option (List Node)) → slotShift 0 slot = slot
  | none => rfl
  | some ms => by rw [slotShift, listShift_zero ms]

theorem listShift_zero : (ms : List Node) → listShift 0 ms = ms
  | [] => rfl
  | m :: ms => by rw [listShift, shift_zero m, listShift_zero ms]

end

theorem endAt_shift (stop : Nat) (m : Node) : (m.shift n).endAt (stop + n) = (m.endAt stop).shift n := by
  obtain ⟨head, span, body, branch⟩ := m
  rw [endAt, endAt, shift_mk, shift_mk]
  rfl

theorem isPart_shift (m : Node) : (m.shift n).isPart = m.isPart := by
  obtain ⟨head, span, body, branch⟩ := m
  cases head <;> rfl

theorem changeLast_shift {f g : Node → Node} (h : ∀ m, g (m.shift n) = (f m).shift n) (ms : List Node) :
    changeLast g (ms.map (shift n)) = (changeLast f ms).map (shift n) := by
  rcases List.eq_nil_or_concat ms with rfl | ⟨init, last, rfl⟩
  · rfl
  · rw [List.concat_eq_append, List.map_append, List.map_singleton, changeLast_append_singleton,
      changeLast_append_singleton, List.map_append, List.map_singleton, h]

theorem appendToBody_shift (child m : Node) :
    appendToBody (child.shift n) (m.shift n) = (appendToBody child m).shift n := by
  obtain ⟨head, span, body, branch⟩ := m
  rw [appendToBody, appendToBody, shift_mk, shift_mk]
  simp [Function.comp_def]

theorem addToPart?_shift (child : Node) (parts : List Node) :
    addToPart? (child.shift n) (parts.map (shift n)) = (addToPart? child parts).map (List.map (shift n)) := by
  unfold addToPart?
  rw [List.getLast?_map]
  cases parts.getLast? with
  | none => rfl
  | some last =>
    dsimp only [Option.map_some]
    rw [isPart_shift]
    split
    · rw [changeLast_shift (appendToBody_shift child)]
      rfl
    · rfl

theorem add?_shift (m child : Node) : (m.shift n).add? (child.shift n) = (m.add? child).map (shift n) := by
  obtain ⟨head, span, body, branch⟩ := m
  have hgrow (ns : List Node) : (ns ++ [child]).map (shift n) = ns.map (shift n) ++ [child.shift n] := List.map_append
  rw [shift_mk]
  cases branch with
  | some alternative =>
    cases head with
    | condition test =>
      simp only [add?, Head.shift, Option.map_some, addToPart?_shift, Option.map_map]
      congr 1
      funext ns
      rw [Function.comp_apply, Function.comp_apply, shift_mk]
      rfl
    | _ => simp only [add?, Head.shift, Option.map_some, shift_mk, hgrow]
  | none =>
    cases head with
    | switch subject =>
      cases body with
      | none => rfl
      | some cases =>
        simp only [add?, Head.shift, Option.map_some, Option.map_none, Option.bind_some, addToPart?_shift,
          Option.map_map]
        congr 1
        funext ns
        rw [Function.comp_apply, Function.comp_apply, shift_mk]
        rfl
    | _ =>
      cases body with
      | none => rfl
      | some ns => simp only [add?, Head.shift, Option.map_some, Option.map_none, shift_mk, hgrow]

theorem awaitsCase_shift (m : Node) : (m.shift n).awaitsCase = m.awaitsCase := by
  obtain ⟨head, span, body, branch⟩ := m
  rw [shift_mk]
  cases head with
  | switch subject =>
    cases body with
    | none => rfl
    | some ns => exact List.isEmpty_map
  | _ => rfl

theorem endPart_shift (stop : Nat) (m : Node) : (m.shift n).endPart (stop + n) = (m.endPart stop).shift n := by
  obtain ⟨head, span, body, branch⟩ := m
  let ended (stop : Nat) (part : Node) : Node := if part.isPart then part.endAt stop else part
  have hended (part : Node) : ended (stop + n) (part.shift n) = (ended stop part).shift n := by
    unfold ended
    rw [isPart_shift, endAt_shift]
    split <;> rfl
  have hslot (slot : Option (List Node)) : (slot.map (List.map (shift n))).map (changeLast (ended (stop + n))) =
      (slot.map (changeLast (ended stop))).map (List.map (shift n)) := by
    cases slot with
    | none => rfl
    | some ns => exact congrArg some (changeLast_shift hended ns)
  rw [shift_mk]
  cases head with
  | condition test =>
    change _ = shift n ⟨.condition test, span, body, branch.map (changeLast (ended stop))⟩
    rw [shift_mk, ← hslot]
    rfl
  | switch subject =>
    change _ = shift n ⟨.switch subject, span, body.map (changeLast (ended stop)), branch⟩
    rw [shift_mk, ← hslot]
    rfl
  | _ => exact (shift_mk ..).symm

theorem beginCase_shift (m case : Node) : (m.shift n).beginCase (case.shift n) = (m.beginCase case).shift n := by
  have hstart : (case.shift n).span.start = case.span.start + n := by
    rw [span_shift]
    rfl
  unfold beginCase
  dsimp only
  rw [hstart, endPart_shift]
  generalize m.endPart case.span.start = ended
  obtain ⟨head, span, body, branch⟩ := ended
  rw [shift_mk, shift_mk]
  cases body with
  | none => rfl
  | some ns => simp

theorem children_shift (m : Node) : (m.shift n).children = m.children.map (shift n) := by
  rw [children, children, body_shift, branch_shift, List.map_append]
  cases m.body <;> cases m.branch <;> rfl

theorem beginPart_shift (kind : Kind) (t : Token) (params : Option Expr) (m : Node) :
    (m.shift n).beginPart kind (t.shift n) (params.map (Expr.shift n)) = (m.beginPart kind t params).map (shift n) := by
  obtain ⟨head, span, body, branch⟩ := m
  cases kind with
  | otherwise =>
    cases head with
    | condition test => cases branch <;> rfl
    | list params => cases branch <;> rfl
    | _ => rfl
  | recover =>
    cases head with
    | attempt => cases branch <;> rfl
    | _ => rfl
  | case =>
    cases head with
    | switch subject =>
      cases params with
      | none => rfl
      | some value => exact congrArg Except.ok (beginCase_shift _ (part (.case value) t.span))
    | _ => rfl
  | default =>
    cases head with
    | switch subject =>
      have hany : (shift n ⟨.switch subject, span, body, branch⟩).children.any (fun c => c.kind == .default) =
          (children ⟨.switch subject, span, body, branch⟩).any fun c => c.kind == .default := by
        rw [children_shift, List.any_map]
        simp only [Function.comp_def, kind_shift]
      change (if (shift n ⟨.switch subject, span, body, branch⟩).children.any (fun c => c.kind == .default) then _
        else _) = Except.map _ (if _ then _ else _)
      rw [hany]
      split
      · rfl
      · exact congrArg Except.ok (beginCase_shift _ (part .default t.span))
    | _ => rfl
  | _ => rfl

theorem openLabel_shift (m : Node) : (m.shift n).openLabel = m.openLabel := by
  obtain ⟨head, span, body, branch⟩ := m
  cases head <;> rfl

theorem closeLabel_shift (m : Node) : (m.shift n).closeLabel = m.closeLabel := by
  obtain ⟨head, span, body, branch⟩ := m
  cases head <;> rfl

theorem closedBy_shift (kind : Kind) (tag : Option String) (m : Node) :
    (m.shift n).closedBy kind tag = m.closedBy kind tag := by
  unfold closedBy
  rw [kind_shift, head_shift]
  cases m.head with
  | macroCall => cases tag <;> rfl
  | _ => rfl

theorem lacksRecover_shift (m : Node) : (m.shift n).lacksRecover = m.lacksRecover := by
  rw [lacksRecover, kind_shift, branch_shift, Option.isNone_map, lacksRecover]

theorem ofTag_shift (kind : Kind) (t : Token) (params : Option Expr) :
    ofTag kind (t.shift n) (params.map (Expr.shift n)) = (ofTag kind t params).map (shift n) := by
  unfold ofTag
  rw [Head.ofTag_shift]
  cases Head.ofTag kind t params with
  | error fault => rfl
  | ok head =>
    change Except.ok (Node.mk _ _ (if (head.shift n).wraps t.selfClosing then _ else _) _) = _
    rw [Head.wraps_shift]
    cases hwraps : head.wraps t.selfClosing with
    | true => simp [Except.map, shift_mk, hwraps, Token.shift]
    | false => simp [Except.map, shift_mk, hwraps, Token.shift]

end Node

end TemplateSyntax
