import TemplateSyntax.Proofs.Tree.Preorder

/-!
# Forms of parameters

Some directives want their parameters in a form of their own. `Head.Formed` states the forms in terms of the items
alone, and the head of every node that a tag begins has its form (`Head.formed_of_begun?`). A tag that sets variables
either names one and nothing else, or changes all that it lists (`Expr.of_setter?_isSome`); a final `in <namespace>`
does not count (`Expr.Core`).
-/

namespace TemplateSyntax

open Markup (Token)

namespace Expr

/-- `core` is what the items are without a final `in <namespace>`, which stands behind at least one item. -/
inductive Core : List Expr → List Expr → Prop
  | cut {core : List Expr} {link : Span} {target : Expr} (h : core ≠ []) :
      Core (core ++ [.identifier "in" link, target]) core
  | whole {items : List Expr} (h : ∀ core link target, items = core ++ [.identifier "in" link, target] → core = []) :
      Core items items

/-- An assignment, or a step up or down. -/
def IsChange (e : Expr) : Prop :=
  (∃ op target value span, e = .join (.assign op) target value span) ∨
    ∃ op target leading span, e = .update op target leading span

theorem isIdentifier_iff {name : String} {e : Expr} :
    e.isIdentifier name = true ↔ ∃ span, e = .identifier name span := by
  cases e <;> simp [isIdentifier, identifier?]

theorem identifier?_isSome_iff {e : Expr} : e.identifier?.isSome ↔ ∃ name span, e = .identifier name span := by
  cases e <;> simp [identifier?]

theorem isChange_iff {e : Expr} : e.isChange = true ↔ e.IsChange := by
  unfold isChange IsChange
  split
  · exact iff_of_true rfl (.inl ⟨_, _, _, _, rfl⟩)
  · exact iff_of_true rfl (.inr ⟨_, _, _, _, rfl⟩)
  · next hjoin hupdate =>
    refine iff_of_false Bool.false_ne_true ?_
    rintro (⟨op, target, value, span, rfl⟩ | ⟨op, target, leading, span, rfl⟩)
    · exact hjoin _ _ _ _ rfl
    · exact hupdate _ _ _ _ rfl

/-- Only the last three items matter. -/
theorem core_dropNamespace (items : List Expr) : Core items (dropNamespace items) := by
  fun_induction dropNamespace items with
  | case1 => exact .whole fun core _ _ h => by simp at h
  | case2 a => exact .whole fun core _ _ h => by simpa using congrArg List.length h
  | case3 a b => exact .whole fun core _ _ h => by simpa using congrArg List.length h
  | case4 a b c hlink =>
    obtain ⟨link, rfl⟩ := isIdentifier_iff.mp hlink
    exact @Core.cut [a] _ _ (List.cons_ne_nil _ _)
  | case5 a b c hlink =>
    refine .whole fun core link target h => ?_
    -- the namespace would be the third item
    have hlength := congrArg List.length h
    obtain ⟨x, rfl⟩ : ∃ x, core = [x] := List.length_eq_one_iff.mp (by simp at hlength; omega)
    simp only [List.cons_append, List.nil_append, List.cons.injEq] at h
    exact absurd (isIdentifier_iff.mpr ⟨link, h.2.1⟩) hlink
  | case6 a es h1 h2 h3 ih =>
    generalize dropNamespace es = core at ih
    cases ih with
    | cut hcore => exact @Core.cut (a :: core) _ _ (List.cons_ne_nil _ _)
    | whole hes =>
      refine .whole fun core link target h => ?_
      cases core with
      | nil => rfl
      | cons c core =>
        obtain ⟨-, htail⟩ := List.cons.inj h
        obtain rfl := hes core link target htail
        exact (h3 _ _ htail).elim

/-- A tag with one bare name wraps the value, any other only changes variables. -/
theorem of_setter?_isSome {params : Expr} (h : params.setter?.isSome) :
    ∃ core, Core params.items core ∧
      (params.setter? = some .capture ↔ ∃ name span, core = [.identifier name span]) ∧
      (params.setter? ≠ some .capture → core ≠ [] ∧ ∀ e ∈ core, e.IsChange) := by
  refine ⟨_, core_dropNamespace params.items, ?_⟩
  unfold setter? at h ⊢
  generalize dropNamespace params.items = core at h ⊢
  split at h
  · cases h
  · next e =>
    have hone : (∃ name span, [e] = [.identifier name span]) ↔ e.identifier?.isSome := by
      simp [identifier?_isSome_iff]
    rw [hone]
    split at h
    · next hname => simp [hname]
    · next hname =>
      split at h
      · next hchange => simpa [hname, hchange] using isChange_iff.mp hchange
      · cases h
  · next hnil hone =>
    have hname : ¬∃ name span, core = [.identifier name span] := by
      rintro ⟨name, span, rfl⟩
      exact hone _ rfl
    split at h
    · next hall =>
      refine ⟨iff_of_false (by simp) hname, fun _ => ⟨hnil, fun e he => isChange_iff.mp ?_⟩⟩
      exact List.all_eq_true.mp hall e he
    · cases h

end Expr

/-- The parameters have the form that the directive wants. What those of a variable are like depends on whether it is
set from a body, see `of_setter?_isSome`. -/
def Head.Formed : Head → Prop
  | .list params => ∃ subject link names, params.items = subject :: .identifier "as" link :: names ∧
      (names.length = 1 ∨ names.length = 2) ∧ ∀ x ∈ names, ∃ name span, x = .identifier name span
  | .block .escape params => ∃ e name span link value, params = some e ∧
      e.items = [.identifier name span, .identifier "as" link, value]
  | .block .outputFormat params => ∃ content raw span, params = some (.literal (.string content) raw span)
  | .single .import params => ∃ e path link name span, params = some e ∧
      e.items = [path, .identifier "as" link, .identifier name span]
  | .single .setting params => ∃ name nameSpan value span,
      params = some (.join (.assign .set) (.identifier name nameSpan) value span)
  | .single .include params => params.isSome
  | .single .return _ | .single .stop _ | .single .nested _ => True
  | .block _ params | .single _ params => params = none
  | _ => True

namespace Head

theorem formed_list {params : Expr} (h : params.isListing = true) : (list params).Formed := by
  unfold Expr.isListing at h
  split at h
  · next subject link x hitems =>
    rw [Bool.and_eq_true] at h
    obtain ⟨span, rfl⟩ := Expr.isIdentifier_iff.mp h.1
    refine ⟨subject, span, [x], hitems, .inl rfl, ?_⟩
    simpa using Expr.identifier?_isSome_iff.mp h.2
  · next subject link x y hitems =>
    rw [Bool.and_eq_true, Bool.and_eq_true] at h
    obtain ⟨span, rfl⟩ := Expr.isIdentifier_iff.mp h.1.1
    refine ⟨subject, span, [x, y], hitems, .inr rfl, ?_⟩
    simpa using ⟨Expr.identifier?_isSome_iff.mp h.1.2, Expr.identifier?_isSome_iff.mp h.2⟩
  · cases h

theorem formed_escape {params : Expr} (h : params.isReplacement = true) : (block .escape (some params)).Formed := by
  unfold Expr.isReplacement at h
  split at h
  · next name link value hitems =>
    rw [Bool.and_eq_true] at h
    obtain ⟨linkSpan, rfl⟩ := Expr.isIdentifier_iff.mp h.1
    obtain ⟨x, span, rfl⟩ := Expr.identifier?_isSome_iff.mp h.2
    exact ⟨params, x, span, linkSpan, value, rfl, hitems⟩
  · cases h

theorem formed_import {params : Expr} (h : params.isImport = true) : (single .import (some params)).Formed := by
  unfold Expr.isImport at h
  split at h
  · next path link name hitems =>
    rw [Bool.and_eq_true] at h
    obtain ⟨linkSpan, rfl⟩ := Expr.isIdentifier_iff.mp h.1
    obtain ⟨x, span, rfl⟩ := Expr.identifier?_isSome_iff.mp h.2
    exact ⟨params, path, linkSpan, x, span, rfl, hitems⟩
  · cases h

theorem formed_setting {params : Expr} (h : params.isSetting = true) : (single .setting (some params)).Formed := by
  unfold Expr.isSetting at h
  split at h
  · next name value span =>
    obtain ⟨x, nameSpan, rfl⟩ := Expr.identifier?_isSome_iff.mp h
    exact ⟨x, nameSpan, value, span, rfl⟩
  · cases h

theorem formed_outputFormat {params : Expr} (h : params.isStringLiteral = true) :
    (block .outputFormat (some params)).Formed := by
  unfold Expr.isStringLiteral at h
  split at h
  · next content raw span => exact ⟨content, raw, span, rfl⟩
  · cases h

theorem formed_of_kind {head : Head} (hlist : head.kind ≠ .list) (hblock : ∀ sort, head.kind ≠ .block sort)
    (hsingle : ∀ sort, head.kind ≠ .single sort) : head.Formed := by
  cases head with
  | list params => exact absurd rfl hlist
  | block sort params => exact absurd rfl (hblock sort)
  | single sort params => exact absurd rfl (hsingle sort)
  | _ => trivial

theorem formed_of_ofTag {kind : Kind} {t : Token} {params : Option Expr} {head : Head}
    (hrule : kind.paramRule.Allows params) (h : ofTag kind t params = .ok head) : head.Formed := by
  have hgiven {ok : Bool} {fault : StructuralFault} {made : Head} (h : given ok fault made = .ok head) :
      ok = true ∧ made = head := by
    unfold given at h
    split at h
    · next hok => exact ⟨hok, Except.ok.inj h⟩
    · cases h
  cases kind with
  | list =>
    cases params with
    | none => cases h
    | some e =>
      obtain ⟨hform, rfl⟩ := hgiven h
      exact formed_list hform
  | block sort =>
    cases sort with
    | escape =>
      cases params with
      | none => cases h
      | some e =>
        obtain ⟨hform, rfl⟩ := hgiven h
        exact formed_escape hform
    | outputFormat =>
      cases params with
      | none => cases h
      | some e =>
        obtain ⟨hform, rfl⟩ := hgiven h
        exact formed_outputFormat hform
    | noEscape | compress => cases h; rfl
  | single sort =>
    cases sort with
    | «import» =>
      cases params with
      | none => cases h
      | some e =>
        obtain ⟨hform, rfl⟩ := hgiven h
        exact formed_import hform
    | setting =>
      cases params with
      | none => cases h
      | some e =>
        obtain ⟨hform, rfl⟩ := hgiven h
        exact formed_setting hform
    | «include» =>
      cases params with
      | none => cases hrule
      | some e => cases h; rfl
    | «return» | stop | nested => cases h; trivial
    | «break» | flush | lt | rt | nt | t =>
      cases params with
      | none => cases h; rfl
      | some e => cases hrule
  | _ => exact formed_of_kind (by simp [kind_of_ofTag h]) (by simp [kind_of_ofTag h]) (by simp [kind_of_ofTag h])

/-- The tag of a part has no form to keep. -/
theorem formed_of_begun? {kind : Kind} {t : Token} {params : Option Expr} {head : Head} (htag : IsTag kind params t)
    (h : begun? kind t params = some head) : head.Formed := by
  unfold begun? at h
  split at h
  · cases h; trivial
  · cases h; trivial
  · cases h; trivial
  · cases h; trivial
  · cases hhead : ofTag kind t params with
    | error fault => rw [hhead] at h; cases h
    | ok made =>
      rw [hhead] at h
      cases h
      exact formed_of_ofTag htag.rule hhead

/-- A head that sets a variable comes from a tag of the right form. -/
theorem setter?_of_begun? {kind : Kind} {t : Token} {params : Option Expr} {scope : Scope} {e : Expr}
    (h : begun? kind t params = some (.assign scope e)) : e.setter?.isSome := by
  unfold begun? at h
  split at h
  · cases h
  · cases h
  · cases h
  · cases h
  · cases hhead : ofTag kind t params with
    | error fault => rw [hhead] at h; cases h
    | ok made =>
      rw [hhead] at h
      cases h
      have hkind := kind_of_ofTag hhead
      subst hkind
      cases params with
      | none => cases hhead
      | some e' =>
        unfold ofTag given at hhead
        dsimp only [kind] at hhead
        split at hhead
        · next hset => cases hhead; exact hset
        · cases hhead

end Head

end TemplateSyntax
