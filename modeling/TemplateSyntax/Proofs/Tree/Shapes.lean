import TemplateSyntax.Proofs.Tree.Forms
import TemplateSyntax.Proofs.Tree.Keeping

/-!
# The shapes of nodes

Who works on a program may rely on the shapes of its nodes without looking again: an alternative is an `<#else>` or one
more condition, a switch holds cases, and such parts occur nowhere else (`Node.Arranged`); the parameters of a directive
have the form that it wants (`Head.Formed`); a variable is set from a body just when its tag names it and nothing else,
and a macro call wraps a body just when its tag does not end it. Every run of the builder ends in such a program,
whether or not it reports errors (`shaped_feed`).
-/

namespace TemplateSyntax

open Markup (Token)

/-! ### Lists of children -/

namespace Kind

/-- An `<#else>` or a case, which has its own place. -/
def isPart : Kind → Bool
  | .otherwise | .case | .default => true
  | _ => false

theorem isPart_of_isContinuation {kind : Kind} (h : kind.isContinuation = false) : kind.isPart = false := by
  cases kind <;> first | rfl | cases h

/-- A list of children without parts, if there is one at all. -/
def Plain (ks : Option (List Kind)) : Prop :=
  ∀ l ∈ ks, ∀ k ∈ l, k.isPart = false

/-- The kinds of children that a node may have in its body and in its branch. -/
def Arranges (body branch : Option (List Kind)) : Kind → Prop
  | .condition => body.isSome ∧ Plain body ∧ (branch = none ∨ branch = some [.otherwise] ∨ branch = some [.condition])
  | .switch => branch = none ∧
      ∃ cases, body = some cases ∧ (∀ k ∈ cases, k = .case ∨ k = .default) ∧ cases.count .default ≤ 1
  | .list | .attempt => body.isSome ∧ Plain body ∧ Plain branch
  | _ => Plain body ∧ branch = none

theorem plain_append {ks : List Kind} {k : Kind} (h : Plain (some ks)) (hk : k.isPart = false) :
    Plain (some (ks ++ [k])) := by
  intro l hl
  cases hl
  exact List.forall_mem_append.mpr ⟨h ks rfl, List.forall_mem_singleton.mpr hk⟩

theorem plain_nil : Plain (some []) := by
  intro l hl
  cases hl
  simp

theorem plain_none : Plain none :=
  fun _ h => nomatch h

end Kind

namespace Node

theorem isPart_eq (n : Node) : n.isPart = n.kind.isPart := by
  obtain ⟨head, span, body, branch⟩ := n
  cases head <;> rfl

/-- The node has children in their places only. -/
def Arranged (n : Node) : Prop :=
  n.kind.Arranges (n.body.map (List.map kind)) (n.branch.map (List.map kind))

/-- The node and all that is below it have their children in their places. -/
def WellArranged (n : Node) : Prop :=
  ∀ m ∈ n.preorder, m.Arranged

theorem wellArranged_iff {n : Node} : n.WellArranged ↔ n.Arranged ∧ ∀ c ∈ n.children, c.WellArranged := by
  simp only [WellArranged, preorder_eq n, List.forall_mem_cons, List.mem_flatMap, forall_exists_index, and_imp]
  exact and_congr_right fun _ => forall_comm.trans (forall_congr' fun c => forall_comm)

theorem forall_mem_children {P : Node → Prop} {n : Node} :
    (∀ c ∈ n.children, P c) ↔ (∀ c ∈ n.body.getD [], P c) ∧ ∀ c ∈ n.branch.getD [], P c :=
  List.forall_mem_append

section

variable {n m child : Node}

theorem WellArranged.endAt (h : n.WellArranged) (stop : Nat) : (n.endAt stop).WellArranged := by
  obtain ⟨hn, hbelow⟩ := wellArranged_iff.mp h
  exact wellArranged_iff.mpr ⟨hn, hbelow⟩

/-! ### Open nodes stay arranged -/

theorem map_kind_changeLast {f : Node → Node} (hf : ∀ n, (f n).kind = n.kind) (ns : List Node) :
    (changeLast f ns).map kind = ns.map kind := by
  rcases List.eq_nil_or_concat ns with rfl | ⟨init, last, rfl⟩
  · rfl
  · rw [List.concat_eq_append, changeLast_append_singleton, List.map_append, List.map_append]
    simp [hf]

theorem forall_mem_changeLast {P : Node → Prop} {f : Node → Node} (hf : ∀ n, P n → P (f n)) {ns : List Node}
    (h : ∀ c ∈ ns, P c) : ∀ c ∈ changeLast f ns, P c := by
  rcases List.eq_nil_or_concat ns with rfl | ⟨init, last, rfl⟩
  · exact h
  · rw [List.concat_eq_append] at h ⊢
    rw [changeLast_append_singleton]
    obtain ⟨hinit, hlast⟩ := List.forall_mem_append.mp h
    exact List.forall_mem_append.mpr ⟨hinit, by simpa using hf last (by simpa using hlast)⟩

/-- Where the last part ends does not matter. -/
theorem map_kind_endPart (stop : Nat) (n : Node) :
    (n.endPart stop).body.map (List.map kind) = n.body.map (List.map kind) ∧
      (n.endPart stop).branch.map (List.map kind) = n.branch.map (List.map kind) := by
  have hkinds (ns : List Node) :
      (changeLast (fun p => if p.isPart then p.endAt stop else p) ns).map kind = ns.map kind := by
    refine map_kind_changeLast (fun p => ?_) ns
    split <;> rfl
  unfold Node.endPart
  split <;> simp [Function.comp_def, hkinds]

theorem kind_endPart (stop : Nat) (n : Node) : (n.endPart stop).kind = n.kind :=
  congrArg Head.kind (endPart_head stop n)

theorem WellArranged.endPart (h : n.WellArranged) (stop : Nat) : (n.endPart stop).WellArranged := by
  obtain ⟨hn, hbelow⟩ := wellArranged_iff.mp h
  have hended {slot : Option (List Node)} (hslot : ∀ c ∈ slot.getD [], c.WellArranged) :
      ∀ c ∈ (slot.map (changeLast fun p => if p.isPart then p.endAt stop else p)).getD [], c.WellArranged := by
    cases slot with
    | none => exact hslot
    | some ns =>
      refine forall_mem_changeLast (fun p hp => ?_) hslot
      split
      · exact hp.endAt stop
      · exact hp
  obtain ⟨hbody, hbranch⟩ := forall_mem_children.mp hbelow
  refine wellArranged_iff.mpr ⟨?_, forall_mem_children.mpr ?_⟩
  · rwa [Arranged, kind_endPart, (map_kind_endPart stop n).1, (map_kind_endPart stop n).2]
  · unfold Node.endPart
    split
    · exact ⟨hbody, hended hbranch⟩
    · exact ⟨hended hbody, hbranch⟩
    · exact ⟨hbody, hbranch⟩

theorem wellArranged_part {head : Head} {span : Span} (h : head.kind.isPart = true) :
    (part head span).WellArranged := by
  refine wellArranged_iff.mpr ⟨?_, fun c hc => nomatch hc⟩
  cases head <;> first | exact ⟨Kind.plain_nil, rfl⟩ | cases h

theorem arranges_of_isPart {kind : Kind} (h : kind.isPart = true) (body branch : Option (List Kind)) :
    kind.Arranges body branch ↔ Kind.Plain body ∧ branch = none := by
  cases kind <;> first | rfl | cases h

theorem arranges_of_isWrapper {head : Head} (h : head.isWrapper = true) (body branch : Option (List Kind)) :
    head.kind.Arranges body branch ↔ Kind.Plain body ∧ branch = none := by
  cases head <;> first | rfl | cases h

theorem IsOpenPart.wellArranged_appendToBody {p : Node} (hp : p.IsOpenPart) (h : p.WellArranged)
    (hkind : child.kind.isPart = false) (hchild : child.WellArranged) : (Node.appendToBody child p).WellArranged := by
  obtain ⟨hp', hbelow⟩ := wellArranged_iff.mp h
  obtain ⟨ns, hns⟩ := Option.isSome_iff_exists.mp hp.body
  have hpart : p.kind.isPart = true := by rw [← isPart_eq]; exact hp.isPart
  rw [Arranged, arranges_of_isPart hpart, hns] at hp'
  refine wellArranged_iff.mpr ⟨?_, ?_⟩
  · have hkind' : (Node.appendToBody child p).kind = p.kind := rfl
    rw [Arranged, hkind', arranges_of_isPart hpart, Node.appendToBody, hns]
    refine ⟨?_, hp'.2⟩
    rw [Option.map_some, Option.map_some, List.map_append]
    exact Kind.plain_append hp'.1 hkind
  · have hchildren : (Node.appendToBody child p).children = p.children ++ [child] := by
      simp [children, Node.appendToBody, hns, hp.branch]
    rw [hchildren]
    exact List.forall_mem_append.mpr ⟨hbelow, List.forall_mem_singleton.mpr hchild⟩

/-- What holds of the children still does with one more, if the part that receives it keeps it. -/
theorem Grows.forall_mem_children {P : Node → Prop} (h : Grows child n m) (hn : ∀ c ∈ n.children, P c)
    (hchild : P child) (hpart : ∀ p : Node, p.IsOpenPart → P p → P (Node.appendToBody child p)) :
    ∀ c ∈ m.children, P c := by
  rw [Node.forall_mem_children] at hn ⊢
  cases h with
  | body hb h =>
    rw [h] at hn
    exact ⟨List.forall_mem_append.mpr ⟨hn.1, List.forall_mem_singleton.mpr hchild⟩, hn.2⟩
  | branch h =>
    rw [h] at hn
    exact ⟨hn.1, List.forall_mem_append.mpr ⟨hn.2, List.forall_mem_singleton.mpr hchild⟩⟩
  | bodyPart hb h hp =>
    rw [h] at hn
    obtain ⟨hinit, hlast⟩ := List.forall_mem_append.mp hn.1
    have hgrown := hpart _ hp (List.forall_mem_singleton.mp hlast)
    exact ⟨List.forall_mem_append.mpr ⟨hinit, List.forall_mem_singleton.mpr hgrown⟩, hn.2⟩
  | branchPart h hp =>
    rw [h] at hn
    obtain ⟨hinit, hlast⟩ := List.forall_mem_append.mp hn.2
    have hgrown := hpart _ hp (List.forall_mem_singleton.mp hlast)
    exact ⟨hn.1, List.forall_mem_append.mpr ⟨hinit, List.forall_mem_singleton.mpr hgrown⟩⟩

theorem IsOpen.arranged_add? (hopen : n.IsOpen) (hn : n.Arranged) (hkind : child.kind.isPart = false)
    (hadd : n.add? child = some m) : m.Arranged := by
  have happend {ns : List Node} (h : Kind.Plain (some (ns.map kind))) :
      Kind.Plain (some ((ns ++ [child]).map kind)) := by
    rw [List.map_append]
    exact Kind.plain_append h hkind
  cases hopen with
  | @wrapper head span ns hw =>
    have hm : m = ⟨head, span, some (ns ++ [child]), none⟩ := by
      cases head <;> first | (cases hadd; rfl) | cases hw
    rw [hm]
    obtain ⟨hbody, -⟩ := (arranges_of_isWrapper hw _ _).mp hn
    exact (arranges_of_isWrapper hw _ _).mpr ⟨happend hbody, rfl⟩
  | @list params span ns fallback =>
    obtain ⟨-, hbody, hbranch⟩ := hn
    cases fallback with
    | none => cases hadd; exact ⟨rfl, happend hbody, hbranch⟩
    | some fs => cases hadd; exact ⟨rfl, hbody, happend hbranch⟩
  | @attempt span ns fallback =>
    obtain ⟨-, hbody, hbranch⟩ := hn
    cases fallback with
    | none => cases hadd; exact ⟨rfl, happend hbody, hbranch⟩
    | some fs => cases hadd; exact ⟨rfl, hbody, happend hbranch⟩
  | condition =>
    obtain ⟨-, hbody, hbranch⟩ := hn
    cases hadd
    exact ⟨rfl, happend hbody, hbranch⟩
  | @conditionElse test span ns p hp =>
    -- the child goes into the `<#else>`, whose kind is the same
    have hpart : addToPart? child [p] = some [appendToBody child p] := addToPart?_append_singleton hp child []
    simp only [Node.add?, hpart, Option.map_some, Option.some.injEq] at hadd
    subst hadd
    exact hn
  | @switch subject span cases hcases =>
    rcases List.eq_nil_or_concat cases with rfl | ⟨init, p, rfl⟩
    · cases hadd
    · rw [List.concat_eq_append] at hcases hn hadd
      have hp := hcases p (by simp)
      have hpart := addToPart?_append_singleton hp child init
      simp only [Node.add?, Option.bind_some, hpart, Option.map_some, Option.some.injEq] at hadd
      subst hadd
      have hkinds : (init ++ [appendToBody child p]).map kind = (init ++ [p]).map kind := by
        simp [kind, appendToBody]
      rw [Arranged, Option.map_some, hkinds]
      exact hn

theorem IsOpen.wellArranged_add? (hopen : n.IsOpen) (hn : n.WellArranged) (hkind : child.kind.isPart = false)
    (hchild : child.WellArranged) (hadd : n.add? child = some m) : m.WellArranged := by
  obtain ⟨hn, hbelow⟩ := wellArranged_iff.mp hn
  obtain ⟨-, hgrows, -⟩ := hopen.of_add? hadd
  refine wellArranged_iff.mpr ⟨hopen.arranged_add? hn hkind hadd, ?_⟩
  exact hgrows.forall_mem_children hbelow hchild fun p hp h => hp.wellArranged_appendToBody h hkind hchild

/-! ### New parts and alternatives -/

theorem IsNew.wellArranged {kind : Kind} {t : Token} {params : Option Expr} (h : n.IsNew kind t params) :
    n.WellArranged := by
  refine wellArranged_iff.mpr ⟨?_, by simp [h.children]⟩
  have hbody := h.body
  have hbranch := h.branch
  have hplain : Kind.Plain (n.body.map (List.map Node.kind)) := by
    rw [hbody]
    split
    · exact Kind.plain_nil
    · exact Kind.plain_none
  obtain ⟨head, span, body, branch⟩ := n
  obtain rfl : branch = none := hbranch
  cases head with
  | condition test =>
    obtain rfl : body = some [] := hbody
    exact ⟨rfl, Kind.plain_nil, .inl rfl⟩
  | list params =>
    obtain rfl : body = some [] := hbody
    exact ⟨rfl, Kind.plain_nil, Kind.plain_none⟩
  | attempt =>
    obtain rfl : body = some [] := hbody
    exact ⟨rfl, Kind.plain_nil, Kind.plain_none⟩
  | switch subject =>
    obtain rfl : body = some [] := hbody
    exact ⟨rfl, [], rfl, by simp, by simp⟩
  | _ => exact ⟨hplain, rfl⟩

/-- A switch may take one more case, and a `<#default>` if it has none. -/
theorem wellArranged_beginCase {case : Node} (hn : n.WellArranged) (hk : n.kind = .switch)
    (hcase : case.kind = .case ∨ case.kind = .default ∧ ∀ c ∈ n.children, c.kind ≠ .default)
    (hbelow : case.WellArranged) : (n.beginCase case).WellArranged := by
  obtain ⟨hn', -⟩ := wellArranged_iff.mp hn
  obtain ⟨-, hended⟩ := wellArranged_iff.mp (hn.endPart case.span.start)
  obtain ⟨hendedBody, hendedBranch⟩ := forall_mem_children.mp hended
  have hkind : (n.beginCase case).kind = .switch := (kind_endPart _ n).trans hk
  obtain ⟨hbodyKinds, hbranchKinds⟩ := map_kind_endPart case.span.start n
  rw [Arranged, hk] at hn'
  obtain ⟨hbranch, kinds, hbody, hcases, hcount⟩ := hn'
  obtain ⟨cases, hsome, hkinds⟩ := Option.map_eq_some_iff.mp (hbodyKinds.trans hbody)
  rw [hsome] at hendedBody
  have hnew : (n.beginCase case).body = some (cases ++ [case]) := by simp [beginCase, hsome]
  refine wellArranged_iff.mpr ⟨?_, forall_mem_children.mpr ⟨?_, hendedBranch⟩⟩
  · rw [Arranged, hkind, hnew, Option.map_some, List.map_append, hkinds]
    refine ⟨hbranchKinds.trans hbranch, _, rfl, ?_, ?_⟩
    · refine List.forall_mem_append.mpr ⟨hcases, ?_⟩
      exact List.forall_mem_singleton.mpr (hcase.imp id And.left)
    · rcases hcase with hcase | ⟨hcase, hnone⟩
      · simpa [List.count_append, hcase] using hcount
      · -- none of the cases before is a default
        have hzero : kinds.count .default = 0 := by
          refine List.count_eq_zero.mpr fun hmem => ?_
          obtain ⟨ns, hns, rfl⟩ := Option.map_eq_some_iff.mp hbody
          obtain ⟨c, hc, hdefault⟩ := List.mem_map.mp hmem
          exact hnone c (List.mem_append_left _ (by simpa [hns] using hc)) hdefault
        simp [List.count_append, hcase, hzero]
  · rw [hnew]
    exact List.forall_mem_append.mpr ⟨hendedBody, List.forall_mem_singleton.mpr hbelow⟩

theorem WellArranged.alternative (hn : n.WellArranged) (hk : n.kind = .condition) (hchild : child.WellArranged)
    (hkind : child.kind = .otherwise ∨ child.kind = .condition) :
    ({ n with branch := some [child] } : Node).WellArranged := by
  obtain ⟨hn, hbelow⟩ := wellArranged_iff.mp hn
  obtain ⟨hbody, -⟩ := forall_mem_children.mp hbelow
  have hkind' : ({ n with branch := some [child] } : Node).kind = .condition := hk
  rw [Arranged, hk] at hn
  refine wellArranged_iff.mpr ⟨?_, forall_mem_children.mpr ⟨hbody, List.forall_mem_singleton.mpr hchild⟩⟩
  rw [Arranged, hkind']
  exact ⟨hn.1, hn.2.1, hkind.elim (fun h => .inr (.inl (by simp [h]))) fun h => .inr (.inr (by simp [h]))⟩

theorem WellArranged.begins {kind : Kind} {t : Token} {params : Option Expr} (hn : n.WellArranged)
    (h : Begins kind t params n m) : m.WellArranged := by
  cases h with
  | otherwise hk hkind hb => exact hn.alternative hkind (wellArranged_part rfl) (.inl rfl)
  | fallback hk hb =>
    obtain ⟨hn', hbelow⟩ := wellArranged_iff.mp hn
    obtain ⟨hbody, -⟩ := forall_mem_children.mp hbelow
    refine wellArranged_iff.mpr ⟨?_, forall_mem_children.mpr ⟨hbody, fun c hc => nomatch hc⟩⟩
    have hkind : ({ n with branch := some [] } : Node).kind = n.kind := rfl
    rw [Arranged, hkind]
    rw [Arranged] at hn'
    rcases hk with ⟨-, hk⟩ | ⟨-, hk⟩
    · rw [hk] at hn' ⊢
      exact ⟨hn'.1, hn'.2.1, Kind.plain_nil⟩
    · rw [hk] at hn' ⊢
      exact ⟨hn'.1, hn'.2.1, Kind.plain_nil⟩
  | case hk hkind hp => exact wellArranged_beginCase hn hkind (.inl rfl) (wellArranged_part rfl)
  | default hk hkind hd =>
    refine wellArranged_beginCase hn hkind (.inr ⟨rfl, fun c hc hdefault => ?_⟩) (wellArranged_part rfl)
    have hnot := List.any_eq_false.mp hd c hc
    simp [hdefault] at hnot

end

/-- The builder puts every child in its place. -/
theorem keeps_wellArranged :
    Keeps (fun _ => True) (fun n => n.WellArranged ∧ n.kind.isPart = false)
      (fun n => n.WellArranged ∧ n.kind.isPart = false) where
  new _ _ hn := by
    have hnew := hn.wellArranged
    have hpart : Node.kind _ = _ := hn.kind_eq
    have hplain := Kind.isPart_of_isContinuation (Head.isContinuation_of_ofTag hn.head)
    exact ⟨⟨hnew, by rwa [hpart]⟩, fun _ => ⟨hnew, by rwa [hpart]⟩⟩
  chained _ _ := ⟨wellArranged_iff.mpr ⟨⟨rfl, Kind.plain_nil, .inl rfl⟩, fun c hc => nomatch hc⟩, rfl⟩
  begins _ _ _ hn h := by
    have hkind : Node.kind _ = _ := congrArg Head.kind h.head_eq
    exact ⟨hn.1.begins h, by rw [hkind]; exact hn.2⟩
  add? hopen hn hchild h := by
    have hkind : Node.kind _ = _ := congrArg Head.kind (add?_head h)
    exact ⟨hopen.wellArranged_add? hn.1 hchild.2 hchild.1 h, by rw [hkind]; exact hn.2⟩
  alternative hn hk _ hchild hkind := ⟨hn.1.alternative hk hchild.1 (.inr hkind), hn.2⟩
  finished hn partStop stop := by
    refine ⟨(hn.1.endPart partStop).endAt stop, ?_⟩
    rw [Node.kind, endAt_head, endPart_head]
    exact hn.2
  endAt hn stop := ⟨hn.1.endAt stop, hn.2⟩

/-- The shape of a node: its parameters, its children, and whether it has a body. -/
structure Shaped (n : Node) : Prop where
  formed : n.head.Formed
  arranged : n.Arranged
  /-- A variable is set from the body when it is named and nothing else; otherwise it is changed by every item. -/
  setter : ∀ scope params, n.head = .assign scope params → ∃ core, Expr.Core params.items core ∧
    (n.body.isSome ↔ ∃ name span, core = [.identifier name span]) ∧
      (n.body = none → core ≠ [] ∧ ∀ e ∈ core, e.IsChange)

end Node

namespace Builder

/-- What the tag of a node says of its parameters and its body. -/
theorem IsStampedBy.formed {t : Token} {n : Node} (h : IsStampedBy t n.stamp) :
    n.head.Formed ∧ n.body.isSome = n.head.wraps t.selfClosing ∧
      ∀ scope params, n.head = .assign scope params → params.setter?.isSome := by
  obtain ⟨kind, params, head, htag, hbegun, hstamp⟩ := h
  obtain ⟨hmark, hbody⟩ := Prod.mk.inj hstamp
  obtain ⟨hhead, -⟩ := Prod.mk.inj hmark
  rw [hhead]
  refine ⟨Head.formed_of_begun? htag hbegun, hbody, fun scope params' hassign => ?_⟩
  rw [hassign] at hbegun
  exact Head.setter?_of_begun? hbegun

theorem IsStampedBy.shaped {t : Token} {n : Node} (h : IsStampedBy t n.stamp) (ha : n.Arranged) : n.Shaped := by
  obtain ⟨hformed, hbody, hsetter⟩ := h.formed
  refine ⟨hformed, ha, fun scope params hassign => ?_⟩
  obtain ⟨core, hcore, hcapture, hchanges⟩ := Expr.of_setter?_isSome (hsetter scope params hassign)
  have hwraps : n.body.isSome = true ↔ params.setter? = some .capture := by
    rw [hbody, hassign, Head.wraps, beq_iff_eq]
  refine ⟨core, hcore, hwraps.trans hcapture, fun hnone => hchanges fun h => ?_⟩
  rw [← hwraps, hnone] at h
  cases h

theorem IsStampedBy.standsFor {t : Token} {n : Node} (h : IsStampedBy t n.stamp) :
    n.StandsFor t ∧ (n.kind = .macroCall → (n.body.isSome ↔ t.selfClosing = false)) := by
  refine ⟨Node.standsFor_of_mark h.markOf?, fun hk => ?_⟩
  obtain ⟨-, hbody, -⟩ := h.formed
  obtain ⟨head, span, body, branch⟩ := n
  cases head with
  | macroCall name params => simpa [Head.wraps] using congrArg (· = true) hbody
  | _ => cases hk

/-- Whatever tokens the builder was fed, the program is one of well-shaped nodes: no part stands outside of its place,
every node has parameters and children as it should, and a macro call has a body unless its tag ends it. -/
theorem shaped_feed (stop : Nat) (ts : List Token) :
    let b := (new stop).feed ts
    (∀ n ∈ b.finish.body, n.kind.isPart = false) ∧ (∀ n ∈ b.walk, n.Shaped) ∧
      List.Forall₂ (fun t n => n.StandsFor t ∧ (n.kind = .macroCall → (n.body.isSome ↔ t.selfClosing = false)))
        (keep ts (new stop)) b.walk := by
  intro b
  have hb : b.Sound := sound_feed (sound_new stop) ts
  have hcarries : b.Carries _ _ :=
    carries_feed Node.keeps_wellArranged (sound_new stop) (fun _ _ => trivial) (carries_new stop)
  have hdone := (finishes_finish hb).carries Node.keeps_wellArranged hb.stack hcarries
  obtain ⟨stamps, hall, hstamps⟩ := stamps_feed (sound_new stop) ts
  have hnew : (new stop).stamps = [] := rfl
  rw [hnew, List.nil_append, ← walk_stamps hb] at hstamps
  rw [← hstamps, List.forall₂_map_right_iff] at hall
  refine ⟨fun n hn => (hdone n hn).2, fun n hn => ?_, hall.imp fun t n h => h.standsFor⟩
  obtain ⟨m, hm, hmem⟩ := List.mem_flatMap.mp hn
  obtain ⟨i, hi, rfl⟩ := List.getElem_of_mem hn
  have hstamp := hall.get (hall.length_eq ▸ hi) hi
  exact hstamp.shaped ((hdone m hm).1 _ hmem)

end Builder

end TemplateSyntax
