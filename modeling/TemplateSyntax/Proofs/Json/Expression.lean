import TemplateSyntax.Expr.Json
import TemplateSyntax.Proofs.Expr.Spans
import TemplateSyntax.Proofs.Expr.WellFormed
import TemplateSyntax.Proofs.Json.Outline

/-!
# Expressions from their JSON texts

The outline of an expression tells the expression (`eq_of_outline`): each object names its type, and no two types of
expressions share a name but for fields and elements, which `computed` tells apart. Only the value of a literal cannot
be read off: it is told by the text of the literal, as a text is read in one way only.
-/

namespace TemplateSyntax

open Json (outlineItems outlineFields outlineFields_cons_inj outline_spanned_inj outline_obj_inj outline_arr_inj
  outline_str_inj outline_bool_inj)

/-! ### Literals -/

theorem Literal.kind_injective : Function.Injective Literal.kind := by
  rintro (_ | _ | (_ | _) | _) (_ | _ | (_ | _) | _) h <;> simp_all [Literal.kind]

/-- The text of a literal tells its value. -/
theorem Literal.eq_of_lexes {raw : String} {v w : Literal} (hv : Expr.Lexes raw v.kind) (hw : Expr.Lexes raw w.kind) :
    v = w := by
  refine Literal.kind_injective ?_
  have htokens := hv.symm.trans hw
  simp only [Except.ok.injEq, List.cons.injEq, Expr.Token.mk.injEq] at htokens
  exact htokens.1.1

/-- The value alone does not tell a number that is too large from the missing value. -/
example : (Literal.number .infinite).toJson.compact = Literal.null.toJson.compact := by
  rfl

namespace Expr

/-- The literals in the expression are what their texts say. -/
def Spelled (e : Expr) : Prop :=
  ∀ value raw s, e.Holds (.literal value raw s) → Lexes raw value.kind

theorem Spelled.of_holds {e x : Expr} (h : e.Spelled) (hx : e.Holds x) : x.Spelled :=
  fun value raw s hliteral => h value raw s (Relation.ReflTransGen.trans hx hliteral)

theorem Spelled.of_mem {e c : Expr} (h : e.Spelled) (hc : c ∈ e.children) : c.Spelled :=
  h.of_holds (Relation.ReflTransGen.single hc)

theorem spelled_of_children {e : Expr} (h : ∀ value raw s, e = .literal value raw s → Lexes raw value.kind)
    (hc : ∀ c ∈ e.children, c.Spelled) : e.Spelled := by
  intro value raw s hx
  rcases Relation.ReflTransGen.cases_head hx with heq | ⟨c, hmem, hx⟩
  · exact h value raw s heq
  · exact hc c hmem value raw s hx

theorem spelled_identifier (name : String) (s : Span) : (identifier name s).Spelled :=
  spelled_of_children (fun _ _ _ h => nomatch h) fun _ h => nomatch h

theorem Simple.spelled {e : Expr} (h : e.Simple) : e.Spelled := by
  induction h with
  | literal h =>
    refine spelled_of_children (fun value raw s heq => ?_) fun _ hc => nomatch hc
    cases heq
    exact h
  | identifier => exact spelled_identifier _ _
  | field _ _ ih =>
    refine spelled_of_children (fun _ _ _ h => nomatch h) ?_
    exact List.forall_mem_cons.mpr ⟨ih, List.forall_mem_singleton.mpr (spelled_identifier _ _)⟩
  | index _ _ iho ihk =>
    refine spelled_of_children (fun _ _ _ h => nomatch h) ?_
    exact List.forall_mem_cons.mpr ⟨iho, List.forall_mem_singleton.mpr ihk⟩
  | call _ _ ihc iha => exact spelled_of_children (fun _ _ _ h => nomatch h) (List.forall_mem_cons.mpr ⟨ihc, iha⟩)
  | array _ ih => exact spelled_of_children (fun _ _ _ h => nomatch h) ih
  | map _ _ ihk ihv =>
    refine spelled_of_children (fun _ _ _ h => nomatch h) fun c hc => ?_
    obtain ⟨p, hp, hc⟩ := List.mem_flatMap.mp hc
    have hboth := List.forall_mem_cons.mpr ⟨ihk p hp, List.forall_mem_singleton.mpr (ihv p hp)⟩
    exact hboth c hc
  | unary _ ih => exact spelled_of_children (fun _ _ _ h => nomatch h) (List.forall_mem_singleton.mpr ih)
  | update _ _ ih => exact spelled_of_children (fun _ _ _ h => nomatch h) (List.forall_mem_singleton.mpr ih)
  | join _ _ _ ihl ihr =>
    refine spelled_of_children (fun _ _ _ h => nomatch h) ?_
    exact List.forall_mem_cons.mpr ⟨ihl, List.forall_mem_singleton.mpr ihr⟩

theorem WellFormed.spelled {e : Expr} (h : e.WellFormed) : e.Spelled := by
  cases h with
  | simple h => exact h.spelled
  | compound _ h => exact spelled_of_children (fun _ _ _ h => nomatch h) fun c hc => (h c hc).spelled

/-! ### Operators -/

end Expr

theorem AssignOp.symbol_injective : Function.Injective AssignOp.symbol := by
  intro a b h
  cases a <;> cases b <;> simp_all [symbol]

theorem LogicalOp.symbol_injective : Function.Injective LogicalOp.symbol := by
  intro a b h
  cases a <;> cases b <;> simp_all [symbol]

theorem BinaryOp.symbol_injective : Function.Injective BinaryOp.symbol := by
  intro a b h
  cases a <;> cases b <;> simp_all [symbol]

theorem UnaryOp.symbol_injective : Function.Injective UnaryOp.symbol := by
  intro a b h
  cases a <;> cases b <;> simp_all [symbol]

theorem UpdateOp.symbol_injective : Function.Injective UpdateOp.symbol := by
  intro a b h
  cases a <;> cases b <;> simp_all [symbol]

namespace Expr

/-- An operator is told by the name of its type and by its symbol. -/
theorem outline_joinFields_inj {op op' : InfixOp} {left right left' right' : Json} :
    outlineFields (joinFields op left right) = outlineFields (joinFields op' left' right') ↔
      op = op' ∧ left.outline = left'.outline ∧ right.outline = right'.outline := by
  cases op <;> cases op' <;>
    simp [joinFields, outlineFields_cons_inj, outline_str_inj, AssignOp.symbol_injective.eq_iff,
      LogicalOp.symbol_injective.eq_iff, BinaryOp.symbol_injective.eq_iff]

/-! ### Expressions -/

/-- The type that the object of an expression names. -/
def typeName : Expr → String
  | .literal _ _ _ => "Literal"
  | .identifier _ _ => "Identifier"
  | .field _ _ _ _ | .index _ _ _ => "MemberExpression"
  | .call _ _ _ => "CallExpression"
  | .array _ _ => "ArrayExpression"
  | .map _ _ => "MapExpression"
  | .unary _ _ _ => "UnaryExpression"
  | .update _ _ _ _ => "UpdateExpression"
  | .join (.assign _) _ _ _ => "AssignmentExpression"
  | .join (.logical _) _ _ _ => "LogicalExpression"
  | .join (.binary _) _ _ _ => "BinaryExpression"
  | .join .builtIn _ _ _ => "BuiltInExpression"
  | .compound _ _ => "Compound"

theorem exists_toJson_eq (e : Expr) : ∃ fields, e.toJson = .obj (("type", .str e.typeName) :: fields) := by
  cases e with
  | join op => cases op <;> exact ⟨_, by rw [toJson]; rfl⟩
  | _ => exact ⟨_, by rw [toJson]; rfl⟩

theorem typeName_eq_of_outline {e e' : Expr} (h : e.toJson.outline = e'.toJson.outline) : e.typeName = e'.typeName := by
  obtain ⟨fields, heq⟩ := e.exists_toJson_eq
  obtain ⟨fields', heq'⟩ := e'.exists_toJson_eq
  rw [heq, heq', outline_obj_inj, outlineFields_cons_inj, outline_str_inj] at h
  exact h.2.1

theorem outline_identifierJson_inj {name name' : String} {s s' : Span} :
    (identifierJson name s).outline = (identifierJson name' s').outline ↔ name = name' ∧ s = s' := by
  simp only [identifierJson, outline_spanned_inj, outlineFields_cons_inj, outline_str_inj, true_and, and_true]

mutual

/-- The outline of an expression tells the expression. -/
theorem eq_of_outline {e e' : Expr} (he : e.Spelled) (he' : e'.Spelled) (h : e.toJson.outline = e'.toJson.outline) :
    e = e' := by
  have htype := typeName_eq_of_outline h
  match e with
  | .literal value raw s =>
    cases e' with
    | literal value' raw' s' =>
      simp only [toJson, outline_spanned_inj, outlineFields_cons_inj, outline_str_inj, true_and, and_true] at h
      obtain ⟨⟨-, rfl⟩, rfl⟩ := h
      -- the value may be written as `null`, so it is taken from the text
      rw [Literal.eq_of_lexes (he _ _ _ .refl) (he' _ _ _ .refl)]
    | join op => cases op <;> simp [typeName] at htype
    | _ => simp [typeName] at htype
  | .identifier name s =>
    cases e' with
    | identifier name' s' =>
      simp only [toJson, outline_identifierJson_inj] at h
      obtain ⟨rfl, rfl⟩ := h
      rfl
    | join op => cases op <;> simp [typeName] at htype
    | _ => simp [typeName] at htype
  | .field object name nameSpan s =>
    cases e' with
    | field object' name' nameSpan' s' =>
      simp only [toJson, outline_spanned_inj, outlineFields_cons_inj, outline_identifierJson_inj, true_and,
        and_true] at h
      obtain ⟨⟨hobject, rfl, rfl⟩, rfl⟩ := h
      obtain rfl := eq_of_outline (he.of_mem (List.mem_cons_self ..)) (he'.of_mem (List.mem_cons_self ..)) hobject
      rfl
    | index object' key' s' =>
      simp only [toJson, outline_spanned_inj, outlineFields_cons_inj, outline_bool_inj, reduceCtorEq, false_and,
        and_false] at h
    | join op => cases op <;> simp [typeName] at htype
    | _ => simp [typeName] at htype
  | .index object key s =>
    cases e' with
    | index object' key' s' =>
      simp only [toJson, outline_spanned_inj, outlineFields_cons_inj, true_and, and_true] at h
      obtain ⟨⟨hobject, hkey⟩, rfl⟩ := h
      obtain ⟨hspelled, hspelledKey⟩ := List.forall_mem_cons.mp fun _ => he.of_mem
      obtain ⟨hspelled', hspelledKey'⟩ := List.forall_mem_cons.mp fun _ => he'.of_mem
      obtain rfl := eq_of_outline hspelled hspelled' hobject
      obtain rfl := eq_of_outline (List.forall_mem_singleton.mp hspelledKey) (List.forall_mem_singleton.mp hspelledKey')
        hkey
      rfl
    | field object' name' nameSpan' s' =>
      simp only [toJson, outline_spanned_inj, outlineFields_cons_inj, outline_bool_inj, reduceCtorEq, false_and,
        and_false] at h
    | join op => cases op <;> simp [typeName] at htype
    | _ => simp [typeName] at htype
  | .call callee arguments s =>
    cases e' with
    | call callee' arguments' s' =>
      simp only [toJson, outline_spanned_inj, outlineFields_cons_inj, outline_arr_inj, true_and, and_true] at h
      obtain ⟨⟨hcallee, harguments⟩, rfl⟩ := h
      obtain ⟨hspelled, hspelledArguments⟩ := List.forall_mem_cons.mp fun _ => he.of_mem
      obtain ⟨hspelled', hspelledArguments'⟩ := List.forall_mem_cons.mp fun _ => he'.of_mem
      obtain rfl := eq_of_outline hspelled hspelled' hcallee
      obtain rfl := list_eq_of_outline hspelledArguments hspelledArguments' harguments
      rfl
    | join op => cases op <;> simp [typeName] at htype
    | _ => simp [typeName] at htype
  | .array elements s =>
    cases e' with
    | array elements' s' =>
      simp only [toJson, outline_spanned_inj, outlineFields_cons_inj, outline_arr_inj, true_and, and_true] at h
      obtain ⟨helements, rfl⟩ := h
      obtain rfl : elements = elements' := list_eq_of_outline (fun _ => he.of_mem) (fun _ => he'.of_mem) helements
      rfl
    | join op => cases op <;> simp [typeName] at htype
    | _ => simp [typeName] at htype
  | .map entries s =>
    cases e' with
    | map entries' s' =>
      simp only [toJson, outline_spanned_inj, outlineFields_cons_inj, outline_arr_inj, true_and, and_true] at h
      obtain ⟨hentries, rfl⟩ := h
      obtain rfl : entries = entries' := entries_eq_of_outline (fun _ => he.of_mem) (fun _ => he'.of_mem) hentries
      rfl
    | join op => cases op <;> simp [typeName] at htype
    | _ => simp [typeName] at htype
  | .unary op argument s =>
    cases e' with
    | unary op' argument' s' =>
      simp only [toJson, outline_spanned_inj, outlineFields_cons_inj, outline_str_inj, UnaryOp.symbol_injective.eq_iff,
        true_and, and_true] at h
      obtain ⟨⟨rfl, hargument⟩, rfl⟩ := h
      obtain rfl := eq_of_outline (he.of_mem (List.mem_cons_self ..)) (he'.of_mem (List.mem_cons_self ..)) hargument
      rfl
    | join op => cases op <;> simp [typeName] at htype
    | _ => simp [typeName] at htype
  | .update op argument leading s =>
    cases e' with
    | update op' argument' leading' s' =>
      simp only [toJson, outline_spanned_inj, outlineFields_cons_inj, outline_str_inj, outline_bool_inj,
        UpdateOp.symbol_injective.eq_iff, true_and, and_true] at h
      obtain ⟨⟨rfl, hargument, rfl⟩, rfl⟩ := h
      obtain rfl := eq_of_outline (he.of_mem (List.mem_cons_self ..)) (he'.of_mem (List.mem_cons_self ..)) hargument
      rfl
    | join op => cases op <;> simp [typeName] at htype
    | _ => simp [typeName] at htype
  | .join op left right s =>
    cases e' with
    | join op' left' right' s' =>
      simp only [toJson, outline_spanned_inj, outline_joinFields_inj] at h
      obtain ⟨⟨rfl, hleft, hright⟩, rfl⟩ := h
      obtain ⟨hspelled, hspelledRight⟩ := List.forall_mem_cons.mp fun _ => he.of_mem
      obtain ⟨hspelled', hspelledRight'⟩ := List.forall_mem_cons.mp fun _ => he'.of_mem
      obtain rfl := eq_of_outline hspelled hspelled' hleft
      obtain rfl := eq_of_outline (List.forall_mem_singleton.mp hspelledRight)
        (List.forall_mem_singleton.mp hspelledRight') hright
      rfl
    | _ => cases op <;> simp [typeName] at htype
  | .compound items s =>
    cases e' with
    | compound items' s' =>
      simp only [toJson, outline_spanned_inj, outlineFields_cons_inj, outline_arr_inj, true_and, and_true] at h
      obtain ⟨hitems, rfl⟩ := h
      obtain rfl : items = items' := list_eq_of_outline (fun _ => he.of_mem) (fun _ => he'.of_mem) hitems
      rfl
    | join op => cases op <;> simp [typeName] at htype
    | _ => simp [typeName] at htype

theorem list_eq_of_outline {es es' : List Expr} (hes : ∀ e ∈ es, e.Spelled) (hes' : ∀ e ∈ es', e.Spelled)
    (h : outlineItems (listToJson es) = outlineItems (listToJson es')) : es = es' := by
  match es with
  | [] =>
    cases es' with
    | nil => rfl
    | cons e' es' => cases h
  | e :: es =>
    cases es' with
    | nil => cases h
    | cons e' es' =>
      obtain ⟨hhead, htail⟩ := List.cons.inj h
      obtain ⟨he, hes⟩ := List.forall_mem_cons.mp hes
      obtain ⟨he', hes'⟩ := List.forall_mem_cons.mp hes'
      rw [eq_of_outline he he' hhead, list_eq_of_outline hes hes' htail]

theorem entries_eq_of_outline {es es' : List (Expr × Expr)}
    (hes : ∀ e ∈ es.flatMap fun (key, value) => [key, value], e.Spelled)
    (hes' : ∀ e ∈ es'.flatMap fun (key, value) => [key, value], e.Spelled)
    (h : outlineItems (entriesToJson es) = outlineItems (entriesToJson es')) : es = es' := by
  match es with
  | [] =>
    rcases es' with _ | ⟨⟨key', value'⟩, es'⟩
    · rfl
    · cases h
  | (key, value) :: es =>
    rcases es' with _ | ⟨⟨key', value'⟩, es'⟩
    · cases h
    · obtain ⟨hentry, htail⟩ := List.cons.inj h
      simp only [outline_obj_inj, outlineFields_cons_inj, true_and, and_true] at hentry
      simp only [List.flatMap_cons, List.forall_mem_append, List.forall_mem_cons] at hes hes'
      rw [eq_of_outline hes.1.1 hes'.1.1 hentry.1, eq_of_outline hes.1.2.1 hes'.1.2.1 hentry.2,
        entries_eq_of_outline hes.2 hes'.2 htail]

end

end Expr

end TemplateSyntax
