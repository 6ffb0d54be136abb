import TemplateSyntax.Proofs.Concatenation
import TemplateSyntax.Proofs.Json.Expression
import TemplateSyntax.Proofs.Tree.Labels
import TemplateSyntax.Proofs.Tree.Spans

/-!
# Trees from their JSON texts

The type of a node tells what its head holds and what its lists of children are called, so that a list that is left out
is not taken for another one. Together with the expressions this makes every node of a template what its outline says,
and as no two structural errors of a template have the same message, programs are told apart by their texts, in either
layout (`Template.program_eq_iff_text_eq`).
-/

namespace TemplateSyntax

open Json (outlineItems outlineFields outlineFields_cons_inj outlineFields_append outline_arr_inj outline_obj_inj
  outline_str_inj)
open Markup (Token)

/-! ### Parts of objects -/

namespace Json

/-- The items of an array tell what they were made of if each one does. -/
theorem eq_of_outlineItems_map {α : Type} {f : α → Json} {xs ys : List α}
    (hinj : ∀ x ∈ xs, ∀ y ∈ ys, (f x).outline = (f y).outline → x = y)
    (h : outlineItems (xs.map f) = outlineItems (ys.map f)) : xs = ys := by
  induction xs generalizing ys with
  | nil =>
    cases ys with
    | nil => rfl
    | cons y ys => cases h
  | cons x xs ih =>
    cases ys with
    | nil => cases h
    | cons y ys =>
      obtain ⟨hhead, htail⟩ := List.cons.inj h
      obtain rfl := hinj x (List.mem_cons_self ..) y (List.mem_cons_self ..) hhead
      rw [ih (fun x hx y hy => hinj x (List.mem_cons_of_mem _ hx) y (List.mem_cons_of_mem _ hy)) htail]

theorem outlineFields_span_inj {s t : Span} {fields gs : List (String × Json)} :
    outlineFields (s.fields ++ fields) = outlineFields (t.fields ++ gs) ↔
      s = t ∧ outlineFields fields = outlineFields gs := by
  obtain ⟨start, stop⟩ := s
  obtain ⟨start', stop'⟩ := t
  simp only [Span.fields, List.cons_append, List.nil_append, outlineFields_cons_inj, outline_nat_inj, true_and,
    Span.mk.injEq, and_assoc]

/-- A field that goes by a name of its own is told, whether it is there or not. -/
theorem eq_of_outlineFields_field? {key : String} {x y : Option Json} {fields gs : List (String × Json)}
    (hfields : key ∉ fields.map Prod.fst) (hgs : key ∉ gs.map Prod.fst)
    (h : outlineFields (field? key x ++ fields) = outlineFields (field? key y ++ gs)) :
    x.map outline = y.map outline ∧ outlineFields fields = outlineFields gs := by
  have hkeys := congrArg (List.map Prod.fst) h
  simp only [outlineFields_eq_map, List.map_map] at hkeys
  cases x with
  | none =>
    cases y with
    | none => exact ⟨rfl, h⟩
    | some y => exact absurd (List.mem_of_mem_head? (congrArg List.head? hkeys)) hfields
  | some x =>
    cases y with
    | none => exact absurd (List.mem_of_mem_head? (congrArg List.head? hkeys).symm) hgs
    | some y =>
      obtain ⟨-, hxy, hrest⟩ := outlineFields_cons_inj.mp h
      exact ⟨congrArg some hxy, hrest⟩

theorem notMem_keys_field? {key key' : String} (h : key ≠ key') (x : Option Json) :
    key ∉ (field? key' x).map Prod.fst := by
  cases x with
  | none => exact List.not_mem_nil
  | some x => exact fun hmem => h (List.mem_singleton.mp hmem)

end Json

/-! ### Heads -/

/-- No two kinds go by the same name in printed trees. -/
theorem Kind.name_injective : Function.Injective Kind.name :=
  Kind.injective_of_nodup (by decide +kernel)

namespace Head

/-- The literals in the head are what their texts say. -/
def Spelled (head : Head) : Prop :=
  ∀ e ∈ head.expressions, e.Spelled

/-- Parameters that a head may have or not. -/
theorem params_eq_of_outline {params params' : Option Expr} (hs : ∀ e ∈ params.toList, e.Spelled)
    (hs' : ∀ e ∈ params'.toList, e.Spelled) {fields gs : List (String × Json)}
    (hfields : "params" ∉ fields.map Prod.fst) (hgs : "params" ∉ gs.map Prod.fst)
    (h : outlineFields (Json.field? "params" (params.map Expr.toJson) ++ fields) =
      outlineFields (Json.field? "params" (params'.map Expr.toJson) ++ gs)) :
    params = params' ∧ outlineFields fields = outlineFields gs := by
  obtain ⟨hparams, hrest⟩ := Json.eq_of_outlineFields_field? hfields hgs h
  refine ⟨?_, hrest⟩
  cases params with
  | none =>
    cases params' with
    | none => rfl
    | some e' => cases hparams
  | some e =>
    cases params' with
    | none => cases hparams
    | some e' =>
      have heq := Expr.eq_of_outline (hs e (List.mem_singleton_self e)) (hs' e' (List.mem_singleton_self e'))
        (Option.some.inj hparams)
      rw [heq]

/-- Heads of one kind are told by their fields, in front of others. -/
theorem eq_of_outline {head head' : Head} (hkind : head.kind = head'.kind) (hs : head.Spelled) (hs' : head'.Spelled)
    {fields gs : List (String × Json)} (hfields : "params" ∉ fields.map Prod.fst) (hgs : "params" ∉ gs.map Prod.fst)
    (h : outlineFields (head.fields ++ fields) = outlineFields (head'.fields ++ gs)) :
    head = head' ∧ outlineFields fields = outlineFields gs := by
  cases head with
  | text content | comment content =>
    cases head' <;> cases hkind
    obtain ⟨-, hcontent, hrest⟩ := outlineFields_cons_inj.mp h
    rw [outline_str_inj.mp hcontent]
    exact ⟨rfl, hrest⟩
  | interpolation e | condition e | list e | switch e | case e | assign scope e =>
    cases head' <;> cases hkind
    obtain ⟨-, he, hrest⟩ := outlineFields_cons_inj.mp h
    rw [Expr.eq_of_outline (List.forall_mem_singleton.mp hs) (List.forall_mem_singleton.mp hs') he]
    exact ⟨rfl, hrest⟩
  | otherwise | attempt | default =>
    cases head' <;> cases hkind
    exact ⟨rfl, h⟩
  | callable sort name params =>
    cases head' with
    | callable sort' name' params' =>
      cases hkind
      simp only [Head.fields, List.cons_append, List.nil_append, outlineFields_cons_inj, outline_str_inj,
        outline_arr_inj, true_and] at h
      obtain ⟨rfl, hparams, hrest⟩ := h
      obtain rfl : params = params' := Expr.list_eq_of_outline hs hs' hparams
      exact ⟨rfl, hrest⟩
    | _ => cases hkind
  | macroCall name params =>
    cases head' <;> cases hkind
    obtain ⟨-, hname, hparams⟩ := outlineFields_cons_inj.mp h
    obtain ⟨rfl, hrest⟩ := params_eq_of_outline hs hs' hfields hgs hparams
    rw [outline_str_inj.mp hname]
    exact ⟨rfl, hrest⟩
  | block sort params | single sort params =>
    cases head' <;> cases hkind
    obtain ⟨rfl, hrest⟩ := params_eq_of_outline hs hs' hfields hgs h
    exact ⟨rfl, hrest⟩

theorem keys_ne (head : Head) :
    "params" ≠ head.bodyKey ∧ "params" ≠ head.branchKey ∧ head.bodyKey ≠ head.branchKey := by
  cases head <;> simp [bodyKey, branchKey]

/-- The parameters of a head are none of the lists of its node. -/
theorem notMem_keys_slots (head : Head) (body branch : Option Json) :
    "params" ∉ (Json.field? head.bodyKey body ++ Json.field? head.branchKey branch).map Prod.fst := by
  rw [List.map_append, List.mem_append]
  exact not_or.mpr ⟨Json.notMem_keys_field? head.keys_ne.1 body, Json.notMem_keys_field? head.keys_ne.2.1 branch⟩

/-- The lists of a node are told by their names. -/
theorem slots_eq_of_outline (head : Head) {body branch body' branch' : Option Json}
    (h : outlineFields (Json.field? head.bodyKey body ++ Json.field? head.branchKey branch) =
      outlineFields (Json.field? head.bodyKey body' ++ Json.field? head.branchKey branch')) :
    body.map Json.outline = body'.map Json.outline ∧ branch.map Json.outline = branch'.map Json.outline := by
  have hkey (branch : Option Json) : head.bodyKey ∉ (Json.field? head.branchKey branch).map Prod.fst :=
    Json.notMem_keys_field? head.keys_ne.2.2 branch
  obtain ⟨hbody, hbranch⟩ := Json.eq_of_outlineFields_field? (hkey branch) (hkey branch') h
  rw [← List.append_nil (Json.field? _ branch), ← List.append_nil (Json.field? _ branch')] at hbranch
  exact ⟨hbody, (Json.eq_of_outlineFields_field? List.not_mem_nil List.not_mem_nil hbranch).1⟩

end Head

/-! ### Nodes -/

namespace Node

/-- The literals in the node and in all nodes below it are what their texts say. -/
def Spelled (n : Node) : Prop :=
  ∀ m ∈ n.preorder, m.head.Spelled

theorem Spelled.head {n : Node} (h : n.Spelled) : n.head.Spelled :=
  h n (by rw [preorder_eq]; exact List.mem_cons_self ..)

theorem Spelled.of_mem {n c : Node} (h : n.Spelled) (hc : c ∈ n.children) : c.Spelled := by
  intro m hm
  refine h m ?_
  rw [preorder_eq]
  exact List.mem_cons_of_mem _ (List.mem_flatMap_of_mem hc hm)

mutual

/-- The outline of a node tells the node. -/
theorem eq_of_outline {n n' : Node} (hn : n.Spelled) (hn' : n'.Spelled) (h : n.toJson.outline = n'.toJson.outline) :
    n = n' := by
  match n with
  | ⟨head, span, body, branch⟩ =>
    obtain ⟨head', span', body', branch'⟩ := n'
    simp only [toJson, outline_obj_inj, List.append_assoc, List.cons_append, outlineFields_cons_inj, outline_str_inj,
      Json.outlineFields_span_inj, true_and] at h
    obtain ⟨hkind, rfl, hfields⟩ := h
    obtain ⟨rfl, hslots⟩ := Head.eq_of_outline (Kind.name_injective hkind) hn.head hn'.head
      (head.notMem_keys_slots _ _) (head'.notMem_keys_slots _ _) hfields
    obtain ⟨hbody, hbranch⟩ := head.slots_eq_of_outline hslots
    obtain rfl : body = body' := slot_eq_of_outline (fun c hc => hn.of_mem (List.mem_append_left _ hc))
      (fun c hc => hn'.of_mem (List.mem_append_left _ hc)) hbody
    obtain rfl : branch = branch' := slot_eq_of_outline (fun c hc => hn.of_mem (List.mem_append_right _ hc))
      (fun c hc => hn'.of_mem (List.mem_append_right _ hc)) hbranch
    rfl

theorem slot_eq_of_outline {slot slot' : Option (List Node)} (hs : ∀ n ∈ slot.getD [], n.Spelled)
    (hs' : ∀ n ∈ slot'.getD [], n.Spelled)
    (h : (slotToJson slot).map Json.outline = (slotToJson slot').map Json.outline) : slot = slot' := by
  match slot with
  | none =>
    cases slot' with
    | none => rfl
    | some ns' => cases h
  | some ns =>
    cases slot' with
    | none => cases h
    | some ns' =>
      obtain rfl : ns = ns' := list_eq_of_outline hs hs' (outline_arr_inj.mp (Option.some.inj h))
      rfl

theorem list_eq_of_outline {ns ns' : List Node} (hs : ∀ n ∈ ns, n.Spelled) (hs' : ∀ n ∈ ns', n.Spelled)
    (h : outlineItems (listToJson ns) = outlineItems (listToJson ns')) : ns = ns' := by
  match ns with
  | [] =>
    cases ns' with
    | nil => rfl
    | cons n' ns' => cases h
  | n :: ns =>
    cases ns' with
    | nil => cases h
    | cons n' ns' =>
      obtain ⟨hhead, htail⟩ := List.cons.inj h
      obtain ⟨hn, hs⟩ := List.forall_mem_cons.mp hs
      obtain ⟨hn', hs'⟩ := List.forall_mem_cons.mp hs'
      rw [eq_of_outline hn hn' hhead, list_eq_of_outline hs hs' htail]

end

end Node

/-! ### Programs -/

theorem StructuralError.eq_of_outline {e e' : StructuralError} (he : e.fault.Legible) (he' : e'.fault.Legible)
    (h : e.toJson.outline = e'.toJson.outline) : e = e' := by
  obtain ⟨fault, span⟩ := e
  obtain ⟨fault', span'⟩ := e'
  have hspanned : (Json.obj ([("message", .str fault.message)] ++ span.fields)).outline =
      (Json.obj ([("message", .str fault'.message)] ++ span'.fields)).outline := h
  obtain ⟨hmessage, rfl⟩ := Json.outline_spanned_inj.mp hspanned
  have hsame := outline_str_inj.mp (outlineFields_cons_inj.mp hmessage).2.1
  obtain rfl : fault = fault' := StructuralFault.message_injective he he' hsame
  rfl

namespace Program

/-- The literals are what their texts say, and the errors quote no blanks. -/
structure Spelled (p : Program) : Prop where
  body : ∀ n ∈ p.body, n.Spelled
  errors : ∀ e ∈ p.errors, e.fault.Legible

/-- The outline of a program tells the program. -/
theorem eq_of_outline {p p' : Program} (hp : p.Spelled) (hp' : p'.Spelled) (h : p.toJson.outline = p'.toJson.outline) :
    p = p' := by
  obtain ⟨stop, body, errors⟩ := p
  obtain ⟨stop', body', errors'⟩ := p'
  rw [toJson, toJson, outline_obj_inj, List.append_assoc, List.append_assoc, Json.outlineFields_span_inj] at h
  obtain ⟨hspan, hfields⟩ := h
  obtain ⟨-, hbody, herrors⟩ := outlineFields_cons_inj.mp hfields
  obtain rfl : stop = stop' := congrArg Span.stop hspan
  obtain rfl : body = body' := Node.list_eq_of_outline hp.body hp'.body (outline_arr_inj.mp hbody)
  obtain rfl : errors = errors' := by
    cases errors with
    | nil =>
      cases errors' with
      | nil => rfl
      | cons e' errors' => cases herrors
    | cons e errors =>
      cases errors' with
      | nil => cases herrors
      | cons e' errors' =>
        have hitems := outline_arr_inj.mp (outlineFields_cons_inj.mp herrors).2.1
        exact Json.eq_of_outlineItems_map
          (fun e he e' he' => StructuralError.eq_of_outline (hp.errors e he) (hp'.errors e' he')) hitems
  rfl

end Program

/-- Parameters that were scanned are read as what they are written. -/
theorem Head.spelled_of_ofToken? {t : Token} {head : Head} (h : Head.ofToken? t = some head) : head.Spelled := by
  intro x hx
  obtain ⟨p, -, e, hparse, hholds⟩ := Head.exists_of_ofToken? h hx
  exact (Expr.wellFormed_of_parseAt hparse).spelled.of_holds hholds

namespace Template

variable {source : String} {basePath : Option String} {template : Template}

theorem spelled_program (h : parse source basePath = .ok template) : template.program.Spelled := by
  refine ⟨fun n hn m hm => ?_, legible_of_mem_errors h⟩
  obtain ⟨b, htokens, hrun, heq⟩ := parse_eq_ok_iff.mp h
  have hin := Markup.inOrder_of_contiguous (Markup.tiles_of_tokenize htokens).contiguous
  rw [Text.byteLength_toList] at hin
  obtain ⟨-, -, hnests⟩ := Builder.nests_finish (fun head _ => head.Spelled) hin
    (fun t _ head hhead => Head.spelled_of_ofToken? hhead) template.tokens.length
  rw [List.take_length, ← Builder.feed_of_pushAll hrun] at hnests
  have hprogram : template.program = b.finish := congrArg Template.program heq
  rw [hprogram] at hn
  cases (hnests n hn).of_mem_preorder hm with
  | intro _ hhead _ _ => exact hhead

/-- The text of a program, in either layout, tells the program, whatever template it was read from. So it tells a number
that is too large, and is written as `null`, from the literal, and a list that a node lacks from an empty one. -/
theorem program_eq_iff_text_eq {source' : String} {basePath' : Option String} {template' : Template}
    (h : parse source basePath = .ok template) (h' : parse source' basePath' = .ok template') :
    (template.program.toJson.compact = template'.program.toJson.compact ↔ template.program = template'.program) ∧
      (template.program.toJson.pretty = template'.program.toJson.pretty ↔ template.program = template'.program) := by
  have hp := spelled_program h
  have hp' := spelled_program h'
  refine ⟨⟨fun htext => ?_, fun heq => by rw [heq]⟩, ⟨fun htext => ?_, fun heq => by rw [heq]⟩⟩
  · exact Program.eq_of_outline hp hp' (Json.outline_of_compact htext)
  · exact Program.eq_of_outline hp hp' (Json.outline_of_pretty htext)

/-- A macro call without a body is not written like one with an empty body, though both have the same span. -/
theorem program_text_ne_macroCall :
    ∃ template template', parse "<@m    />" none = .ok template ∧ parse "<@m></@m>" none = .ok template' ∧
      template.program.body.map Node.span = template'.program.body.map Node.span ∧
      template.program.toJson.compact ≠ template'.program.toJson.compact := by
  let single : Token := ⟨.macroTag, ⟨0, 9⟩, "<@m    />", some "m", none, false, true⟩
  let start : Token := ⟨.macroTag, ⟨0, 4⟩, "<@m>", some "m", none, false, false⟩
  let stop : Token := ⟨.macroTag, ⟨4, 9⟩, "</@m>", some "m", none, true, false⟩
  have hscan : Markup.scan "<@m    />" = ([single], none) := by decide +kernel
  have hscan' : Markup.scan "<@m></@m>" = ([start, stop], none) := by decide +kernel
  have htokens : Markup.tokenize "<@m    />" = .ok [single] := by rw [Markup.tokenize, hscan]
  have htokens' : Markup.tokenize "<@m></@m>" = .ok [start, stop] := by rw [Markup.tokenize, hscan']
  have h : parse "<@m    />" none =
      .ok ⟨⟨9, [⟨.macroCall "m" none, ⟨0, 9⟩, none, none⟩], []⟩, [single], none⟩ :=
    parse_eq_ok_iff.mpr ⟨_, htokens, rfl, rfl⟩
  have h' : parse "<@m></@m>" none =
      .ok ⟨⟨9, [⟨.macroCall "m" none, ⟨0, 9⟩, some [], none⟩], []⟩, [start, stop], none⟩ :=
    parse_eq_ok_iff.mpr ⟨_, htokens', rfl, rfl⟩
  refine ⟨_, _, h, h', rfl, fun htext => ?_⟩
  have heq := (program_eq_iff_text_eq h h').1.mp htext
  cases heq

end Template

end TemplateSyntax
