import TemplateSyntax.Proofs.Tree.Behind
import TemplateSyntax.Proofs.Tree.Nesting

/-!
# Templates one behind the other

A template that leaves no node open and ends in markup may be followed by any other (`parse_append`). The program of
both is that of the first with that of the second behind it: what the second is made of does not depend on what stands
in front, save for a single tag at the end of the first, which would take its closing tag from the second.
-/

namespace TemplateSyntax

open Markup (Token)

namespace Builder

/-! ### A finished part -/

/-- The program of what the builder holds and the tokens that follow. -/
def build (ts : List Token) (b : Builder) : Except ExprError Program :=
  match b.pushAll ts with
  | (none, b') => .ok b'.finish
  | (some e, _) => .error e

theorem build_new (ts : List Token) (stop : Nat) : (new stop).build ts = Program.ofTokens ts stop :=
  rfl

theorem build_append {ts us : List Token} {b b' : Builder} (h : b.pushAll ts = (none, b')) :
    b.build (ts ++ us) = b'.build us := by
  rw [build, pushAll_append, h]
  rfl

theorem build_cons {t : Token} {b b' : Builder} (h : b.push t = (none, b')) (ts : List Token) :
    b.build (t :: ts) = b'.build ts := by
  rw [build, pushAll, h]
  rfl

theorem settle_of_pending_eq_none {b : Builder} (h : b.pending = none) : b.settle = b := by
  rw [settle, h]

/-- The pending node may be settled beforehand, if the next token does not end it. -/
theorem build_settle {ts : List Token} {b : Builder} (h : b.settle.pending = none)
    (habsorb : ∀ t ∈ ts.head?, b.absorb? t = none) : b.settle.build ts = b.build ts := by
  have hsettle := settle_of_pending_eq_none h
  cases ts with
  | nil =>
    change Except.ok b.settle.finish = Except.ok b.finish
    rw [finish, hsettle]
    rfl
  | cons t ts =>
    have habsorb' : b.settle.absorb? t = none := by rw [absorb?, h]
    have hpush : b.settle.push t = b.push t := by
      rw [push_of_absorb?_eq_none habsorb', push_of_absorb?_eq_none (habsorb t rfl), hsettle]
    rw [build, build, pushAll, pushAll, hpush]

theorem build_behind {front b : Builder} {n : Nat} (h : b.Sound) (hstop : front.stop = b.stop + n) (ts : List Token) :
    (front.behind n b).build (ts.map (Token.shift n)) =
      ((b.build ts).map fun p => ⟨front.stop, front.body ++ p.body.map (Node.shift n),
        front.errors ++ p.errors.map (StructuralError.shift n)⟩).mapError (ExprError.shift n) := by
  unfold build
  rw [pushAll_behind]
  cases hrun : b.pushAll ts with
  | mk e b' =>
    cases e with
    | some e => rfl
    | none =>
      obtain rfl := feed_of_pushAll hrun
      rw [← feed_stop h ts] at hstop
      exact congrArg Except.ok (finish_behind front n (sound_feed h ts) hstop)

theorem Sound.settle_stack_of_stack_eq_nil {b : Builder} (h : b.Sound) (hst : b.stack = []) : b.settle.stack = [] := by
  have houtline := (settles_settle h.stack h.pending).outline_eq h.stack
  rw [hst] at houtline
  exact List.map_eq_nil_iff.mp houtline

theorem Sound.finish_eq_of_stack_eq_nil {b : Builder} (h : b.Sound) (hst : b.stack = []) :
    b.finish = ⟨b.stop, b.settle.body, b.settle.errors⟩ := by
  have hsettled := h.settle_stack_of_stack_eq_nil hst
  have hreport : b.settle.reportUnclosed = b.settle := by
    rw [reportUnclosed, hsettled]
    rfl
  have hstop := (settles_settle h.stack h.pending).stop_eq
  simp only [finish, hreport, hsettled, hstop, List.length_nil, Nat.repeat]

/-! ### The seam -/

/-- The tokens end with a single tag that is not closed in itself, and the others begin with its closing tag. -/
def ClosesAcross (ts us : List Token) : Prop :=
  ∃ t ∈ ts.getLast?, ∃ u ∈ us.head?, ∃ sort, t.closing = false ∧ t.selfClosing = false ∧
    Kind.ofToken? t = some (.single sort) ∧ u.closing = true ∧ Kind.ofToken? u = some (.single sort)

theorem absorb?_eq_none_of_not_closesAcross {ts us : List Token} (h : ¬ClosesAcross ts us) (stop : Nat) :
    ∀ u ∈ us.head?, ((new stop).feed ts).absorb? u = none := by
  intro u hu
  unfold absorb?
  split
  · rfl
  · next m hm =>
    rcases List.eq_nil_or_concat ts with rfl | ⟨init, t, rfl⟩
    · cases hm
    · rw [List.concat_eq_append, feed_concat] at hm
      obtain ⟨sort, params, hkind, htag, hself⟩ := isTag_of_pending_push (sound_feed (sound_new stop) init) hm
      rw [if_neg]
      intro hclose
      obtain ⟨hclosing, hsort⟩ := Bool.and_eq_true_iff.mp hclose
      rw [hkind, beq_iff_eq] at hsort
      exact h ⟨t, by simp, u, hu, sort, htag.opening, hself, htag.ofToken, hclosing, hsort⟩

/-- Behind tokens that leave no node open, others make what they make alone. -/
theorem build_new_append {ts us : List Token} {n k : Nat} {b : Builder} (h : (new n).pushAll ts = (none, b))
    (hst : b.stack = []) (hseam : ¬ClosesAcross ts us) :
    (new (n + k)).build (ts ++ us.map (Token.shift n)) =
      (((new k).build us).map fun p => ⟨n + k, b.finish.body ++ p.body.map (Node.shift n),
        b.finish.errors ++ p.errors.map (StructuralError.shift n)⟩).mapError (ExprError.shift n) := by
  have hsound : b.Sound := by
    rw [feed_of_pushAll h]
    exact sound_feed (sound_new n) ts
  have hsettled : b.settle.stack = [] ∧ b.settle.pending = none :=
    ⟨hsound.settle_stack_of_stack_eq_nil hst, (settles_settle hsound.stack hsound.pending).pending_eq⟩
  have hlonger := pushAll_new_stop h (n + k)
  -- once the pending node is settled nothing is left but the program of the first part
  have hfront : ((new (n + k)).behind 0 b).settle =
      (⟨n + k, b.finish.body, b.finish.errors, [], none⟩ : Builder).behind n (new k) := by
    rw [settle_behind, hsound.finish_eq_of_stack_eq_nil hst]
    have hnodes : Node.shift 0 = id := funext Node.shift_zero
    have herrors : StructuralError.shift 0 = id := rfl
    simp [behind, new, hsettled, hnodes, herrors]
  have hseam' : ¬ClosesAcross ts (us.map (Token.shift n)) := by
    rintro ⟨t, ht, u, hu, hclose⟩
    rw [List.head?_map] at hu
    obtain ⟨v, hv, rfl⟩ := Option.map_eq_some_iff.mp hu
    exact hseam ⟨t, ht, v, hv, hclose⟩
  have habsorb := absorb?_eq_none_of_not_closesAcross hseam' (n + k)
  rw [← feed_of_pushAll hlonger] at habsorb
  have hpending : ((new (n + k)).behind 0 b).settle.pending = none := by
    rw [hfront]
    rfl
  rw [build_append hlonger, ← build_settle hpending habsorb, hfront]
  exact build_behind (sound_new k) (Nat.add_comm n k) us

end Builder

/-! ### Templates -/

namespace Template

def Error.shift (n : Nat) : Error → Error
  | .scan e => .scan (e.shift n)
  | .expr e => .expr (e.shift n)

theorem parse_eq_ok_iff {source : String} {basePath : Option String} {template : Template} :
    parse source basePath = .ok template ↔ ∃ b, Markup.tokenize source = .ok template.tokens ∧
      (Builder.new source.utf8ByteSize).pushAll template.tokens = (none, b) ∧
      template = ⟨b.finish, template.tokens, basePath⟩ := by
  unfold parse
  cases htokens : Markup.tokenize source with
  | error e => simp
  | ok ts =>
    dsimp only [Program.ofTokens]
    cases hrun : (Builder.new source.utf8ByteSize).pushAll ts with
    | mk e b =>
      cases e with
      | none =>
        constructor
        · rintro ⟨⟩
          exact ⟨b, rfl, hrun, rfl⟩
        · rintro ⟨b', htokens', hrun', heq⟩
          cases htokens'
          cases hrun.symm.trans hrun'
          exact congrArg Except.ok heq.symm
      | some e =>
        constructor
        · rintro ⟨⟩
        · rintro ⟨b', htokens', hrun', -⟩
          cases htokens'
          cases hrun.symm.trans hrun'

/-- A template that leaves no node open and ends in markup may be followed by any other, unless that begins with the
closing tag of a single tag at its end. What is read of the other, or the error in it, is moved by the length of the
first. -/
theorem parse_append {a b : String} {basePath : Option String} {ta : Template} (h : parse a basePath = .ok ta)
    (hclosed : ((Builder.new a.utf8ByteSize).pushAll ta.tokens).2.stack = [])
    (hends : Markup.EndsInMarkup ta.tokens)
    (hseam : ∀ us, Markup.tokenize b = .ok us → ¬Builder.ClosesAcross ta.tokens us) :
    parse (a ++ b) basePath =
      ((parse b basePath).map fun tb =>
        { program :=
            { stop := a.utf8ByteSize + b.utf8ByteSize
              body := ta.program.body ++ tb.program.body.map (Node.shift a.utf8ByteSize)
              errors := ta.program.errors ++ tb.program.errors.map (StructuralError.shift a.utf8ByteSize) }
          tokens := ta.tokens ++ tb.tokens.map (Token.shift a.utf8ByteSize)
          basePath }).mapError (Error.shift a.utf8ByteSize) := by
  obtain ⟨s, htokens, hrun, heq⟩ := parse_eq_ok_iff.mp h
  have hprogram : ta.program = s.finish := congrArg Template.program heq
  rw [hrun] at hclosed
  have hscan := Markup.tokenize_append htokens hends b
  rw [parse, parse, hscan, String.utf8ByteSize_append]
  cases hb : Markup.tokenize b with
  | error e => rfl
  | ok us =>
    have hbuild := Builder.build_new_append (k := b.utf8ByteSize) hrun hclosed (hseam us hb)
    rw [Builder.build_new, Builder.build_new] at hbuild
    dsimp only [Except.map, Except.mapError]
    rw [hbuild, hprogram]
    cases Program.ofTokens us b.utf8ByteSize <;> rfl

/-- The closing tag ends nothing, in the first template neither. It is reported where it stands in both together. -/
theorem parse_append_include :
    ∃ t, parse ("<#include x>" ++ "</#if>") none = .ok t ∧ t.program.stop = 18 ∧
      t.program.errors = [⟨.strayClose "</#if>", ⟨12, 18⟩⟩] := by
  let tag : Token := ⟨.directive, ⟨0, 12⟩, "<#include x>", some "include",
    some ⟨"x", ⟨10, 11⟩, [⟨"x", ⟨10, 11⟩⟩]⟩, false, false⟩
  let stray : Token := ⟨.directive, ⟨0, 6⟩, "</#if>", some "if", none, true, false⟩
  have hfirst : Markup.scan "<#include x>" = ([tag], none) := by decide +kernel
  have hsecond : Markup.scan "</#if>" = ([stray], none) := by decide +kernel
  have hfirstTokens : Markup.tokenize "<#include x>" = .ok [tag] := by rw [Markup.tokenize, hfirst]
  have hsecondTokens : Markup.tokenize "</#if>" = .ok [stray] := by rw [Markup.tokenize, hsecond]
  have hrun : ((Builder.new 12).pushAll [tag]).1 = none := by decide +kernel
  have hclosed : ((Builder.new 12).pushAll [tag]).2.stack.isEmpty = true := by decide +kernel
  have herrors : ((Builder.new 12).pushAll [tag]).2.finish.errors = [] := by decide +kernel
  have hparse : parse "<#include x>" none = .ok ⟨((Builder.new 12).pushAll [tag]).2.finish, [tag], none⟩ :=
    parse_eq_ok_iff.mpr ⟨_, hfirstTokens, Prod.ext hrun rfl, rfl⟩
  have hother : parse "</#if>" none = .ok ⟨⟨6, [], [⟨.strayClose "</#if>", ⟨0, 6⟩⟩]⟩, [stray], none⟩ :=
    parse_eq_ok_iff.mpr ⟨_, hsecondTokens, rfl, rfl⟩
  have hends : Markup.EndsInMarkup [tag] := by
    rintro t ⟨⟩
    decide
  have hseam : ∀ us, Markup.tokenize "</#if>" = .ok us → ¬Builder.ClosesAcross [tag] us := by
    rintro us hus ⟨t, ht, u, hu, sort, -, -, -, -, hsort⟩
    cases hsecondTokens.symm.trans hus
    cases hu
    cases hsort
  have happend := parse_append hparse (List.isEmpty_iff.mp hclosed) hends hseam
  rw [hother] at happend
  refine ⟨_, happend, rfl, ?_⟩
  dsimp only
  rw [herrors]
  rfl

end Template

end TemplateSyntax
