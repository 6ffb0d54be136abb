import Mathlib.Data.List.Induction
import TemplateSyntax.Proofs.Tree.Keeping
import TemplateSyntax.Proofs.Tree.Nesting
import TemplateSyntax.Proofs.Tree.Recovery

/-!
# What reports are about

An error that the builder reports is about one token, which was rejected or opens what is not closed, or about an
attempt without fallback, from its tag to the tag that closes it (`about_of_mem_errors`).
-/

namespace TemplateSyntax

open Markup (Token)

/-! ### Tags of open nodes -/

/-- The node begins with the token, which is the tag of its kind. The condition of an `<#elseif>` has a tag of another
kind. -/
structure Node.IsOpenedBy (n : Node) (t : Token) : Prop where
  opening : t.closing = false
  span : n.span = t.span
  kind : n.kind = .condition ∨ Kind.ofToken? t = some n.kind

theorem Node.IsOpenedBy.congr {n m : Node} {t : Token} (h : n.IsOpenedBy t) (hspan : m.span = n.span)
    (hhead : m.head = n.head) : m.IsOpenedBy t := by
  have hkind : m.kind = n.kind := congrArg Head.kind hhead
  refine ⟨h.opening, hspan.trans h.span, ?_⟩
  rw [hkind]
  exact h.kind

theorem Node.keeps_isOpenedBy (ts : List Token) :
    Node.Keeps (· ∈ ts) (fun n => ∃ t ∈ ts, n.IsOpenedBy t) fun _ => True where
  new ht htag hn := by
    refine ⟨trivial, fun _ => ⟨_, ht, htag.opening, hn.span, .inr ?_⟩⟩
    rw [hn.kind_eq]
    exact htag.ofToken
  chained ht htag := ⟨_, ht, htag.opening, rfl, .inl rfl⟩
  begins _ _ _ hn h := by
    obtain ⟨t, ht, hopened⟩ := hn
    exact ⟨t, ht, hopened.congr h.span_eq h.head_eq⟩
  add? hopen hn _ h := by
    obtain ⟨t, ht, hopened⟩ := hn
    obtain ⟨-, hgrows, -⟩ := hopen.of_add? h
    exact ⟨t, ht, hopened.congr hgrows.span_eq hgrows.head_eq⟩
  alternative hn _ _ _ _ := by
    obtain ⟨t, ht, hopened⟩ := hn
    exact ⟨t, ht, hopened.congr rfl rfl⟩
  finished _ _ _ := trivial
  endAt _ _ := trivial

namespace Builder

theorem exists_isOpenedBy_feed (stop : Nat) {ts : List Token} {o : OpenNode} (ho : o ∈ ((new stop).feed ts).stack) :
    ∃ t ∈ ts, o.node.IsOpenedBy t :=
  (carries_feed (Node.keeps_isOpenedBy ts) (sound_new stop) (fun _ ht => ht) (carries_new stop)).stack o ho

/-! ### Errors -/

/-- What an error in the program of the tokens is about. -/
inductive About (stop : Nat) (ts : List Token) (e : StructuralError) : Prop
  | token {t : Token} (ht : t ∈ ts) (hspan : e.span = t.span)
  /-- In front of `c` an attempt is open that `a` opened, and `c` closes it. -/
  | attempt {before after : List Token} {a c : Token} {o : OpenNode} (hts : ts = before ++ c :: after)
      (ha : a ∈ before) (hkind : Kind.ofToken? a = some .attempt) (hclosing : c.closing = true)
      (ho : ((new stop).feed before).settle.stack.head? = some o) (hopened : o.node.IsOpenedBy a)
      (hcloses : ClosesNode c ((new stop).feed before).settle ((new stop).feed (before ++ [c])))
      (herror : e = ⟨.missingRecover, a.span.upTo c.span⟩)

theorem About.append {stop : Nat} {ts : List Token} {e : StructuralError} (h : About stop ts e) (us : List Token) :
    About stop (ts ++ us) e := by
  cases h with
  | token ht hspan => exact .token (List.mem_append_left us ht) hspan
  | @attempt before after a c o hts ha hkind hclosing ho hopened hcloses herror =>
    have hts' : ts ++ us = before ++ c :: (after ++ us) := by rw [hts, List.append_assoc, List.cons_append]
    exact .attempt hts' ha hkind hclosing ho hopened hcloses herror

theorem about_feed (stop : Nat) (ts : List Token) : ∀ e ∈ ((new stop).feed ts).errors, About stop ts e := by
  induction ts using List.reverseRecOn with
  | nil => exact fun e he => absurd he List.not_mem_nil
  | append_singleton ts t ih =>
    have hb : ((new stop).feed ts).Sound := sound_feed (sound_new stop) ts
    have hsettles := settles_settle hb.stack hb.pending
    have hold : ∀ e ∈ ((new stop).feed ts).settle.errors, About stop (ts ++ [t]) e := by
      rw [hsettles.errors_eq]
      exact fun e he => (ih e he).append [t]
    rw [feed_concat]
    rcases (pushes_push hb t).outcome hb with ⟨-, -, heq⟩ | ⟨-, ⟨fault, heq⟩ | ⟨hc, hattempt⟩ | ⟨hsame, -⟩⟩
    · rw [heq]
      exact hold
    · rw [heq]
      refine List.forall_mem_append.mpr ⟨hold, List.forall_mem_singleton.mpr ?_⟩
      exact .token (by simp) rfl
    · obtain ⟨hcloses, o, rest, hst, hk, -, herrors⟩ := hattempt
      rw [herrors]
      refine List.forall_mem_append.mpr ⟨hold, List.forall_mem_singleton.mpr ?_⟩
      have hcarries := hsettles.carries (Node.keeps_isOpenedBy ts) hb.stack
        (carries_feed (Node.keeps_isOpenedBy ts) (sound_new stop) (fun _ ht => ht) (carries_new stop))
      obtain ⟨a, ha, hopened⟩ := hcarries.stack o (hst ▸ List.mem_cons_self ..)
      have hkind : Kind.ofToken? a = some .attempt := by
        rcases hopened.kind with hcondition | hkind
        · rw [hk] at hcondition
          cases hcondition
        · rw [hkind, hk]
      refine .attempt rfl ha hkind hc (by rw [hst]; rfl) hopened ?_ ?_
      · rw [feed_concat]
        exact hcloses
      · rw [hopened.span]
        rfl
    · rw [hsame, ← hsettles.errors_eq]
      exact hold

/-- An error of the program is about one of the tokens, or about an attempt from its tag to the one that closes it. -/
theorem about_of_mem_errors (stop : Nat) (ts : List Token) :
    ∀ e ∈ ((new stop).feed ts).finish.errors, About stop ts e := by
  have hb : ((new stop).feed ts).Sound := sound_feed (sound_new stop) ts
  rw [finish_errors hb]
  refine List.forall_mem_append.mpr ⟨about_feed stop ts, ?_⟩
  split
  · exact fun e he => absurd he List.not_mem_nil
  · next o ho =>
    obtain ⟨t, ht, hopened⟩ := exists_isOpenedBy_feed stop (List.mem_of_find?_eq_some ho)
    exact List.forall_mem_singleton.mpr (.token ht hopened.span)

end Builder

end TemplateSyntax
