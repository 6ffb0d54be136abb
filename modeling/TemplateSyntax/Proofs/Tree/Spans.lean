import TemplateSyntax.Proofs.Expr.Spans
import TemplateSyntax.Proofs.Markup.Tiling
import TemplateSyntax.Proofs.Tree.Nesting

/-!
# Places of nodes

Whatever tokens come one behind the other, siblings do so inside the node above them, behind its tag. Expressions are
read from the parameters of a tag, which lie strictly inside it, so for a template that was scanned they stand in front
of the first child (`spansNest_feed`).
-/

namespace TemplateSyntax

open Markup (Token)
open TemplateSyntax.Span (InOrder)

/-! ### Expressions of a node -/

namespace Head

/-- The expressions that a node holds. -/
def expressions : Head → List Expr
  | .interpolation e | .condition e | .list e | .switch e | .case e | .assign _ e => [e]
  | .callable _ _ params => params
  | .macroCall _ params | .block _ params | .single _ params => params.toList
  | .text _ | .comment _ | .otherwise | .attempt | .default => []

/-- The expressions lie strictly inside the tag. -/
def InTag (head : Head) (tag : Span) : Prop :=
  ∀ e ∈ head.expressions, e.Nested ∧ tag.start < e.span.start ∧ e.span.stop < tag.stop

end Head

theorem Expr.holds_of_mem_items {e x : Expr} (h : x ∈ e.items) : e.Holds x := by
  cases e with
  | compound items span => exact Relation.ReflTransGen.single h
  | _ => obtain rfl := List.mem_singleton.mp h; exact Relation.ReflTransGen.refl

/-- The parameters of a definition are read off those of its tag. -/
theorem Expr.holds_of_signature? {e x : Expr} {name : String} {params : List Expr}
    (h : e.signature? = some (name, params)) (hx : x ∈ params) : e.Holds x := by
  unfold Expr.signature? at h
  split at h
  · next hitems =>
    cases h
    exact Expr.holds_of_mem_items (by rw [hitems]; exact List.mem_cons_of_mem _ hx)
  · next hitems =>
    cases h
    rcases List.mem_append.mp hx with hx | hx
    · have hcall : e.Holds _ := Expr.holds_of_mem_items (by rw [hitems]; exact List.mem_cons_self ..)
      exact Relation.ReflTransGen.tail hcall (List.mem_cons_of_mem _ hx)
    · exact Expr.holds_of_mem_items (by rw [hitems]; exact List.mem_cons_of_mem _ hx)
  · cases h

theorem Head.holds_of_ofTag {kind : Kind} {t : Token} {params : Option Expr} {head : Head}
    (h : Head.ofTag kind t params = .ok head) : ∀ x ∈ head.expressions, ∃ e ∈ params, e.Holds x := by
  have hall : ∀ x ∈ params.toList, ∃ e ∈ params, e.Holds x := fun x hx =>
    ⟨x, Option.mem_toList.mp hx, Relation.ReflTransGen.refl⟩
  -- but for a definition, the head takes the parameters as they are, or none
  unfold Head.ofTag Head.given at h
  split at h <;> (try split at h) <;> first
    | (cases h; exact fun x hx => absurd hx List.not_mem_nil)
    | (cases h; exact hall)
    | (next hsignature => cases h; exact fun x hx => ⟨_, rfl, Expr.holds_of_signature? hsignature hx⟩)
    | cases h

/-- A node holds expressions of the parameters of its tag. -/
theorem Head.holds_of_begun? {kind : Kind} {t : Token} {params : Option Expr} {head : Head}
    (h : Head.begun? kind t params = some head) : ∀ x ∈ head.expressions, ∃ e ∈ params, e.Holds x := by
  unfold Head.begun? at h
  split at h
  · next test =>
    cases h
    exact List.forall_mem_singleton.mpr ⟨test, rfl, Relation.ReflTransGen.refl⟩
  · cases h
    exact fun x hx => absurd hx List.not_mem_nil
  · next value =>
    cases h
    exact List.forall_mem_singleton.mpr ⟨value, rfl, Relation.ReflTransGen.refl⟩
  · cases h
    exact fun x hx => absurd hx List.not_mem_nil
  · cases hhead : Head.ofTag kind t params with
    | error fault => rw [hhead] at h; cases h
    | ok head' =>
      rw [hhead] at h
      cases h
      exact Head.holds_of_ofTag hhead

/-- A node holds expressions that were read off the parameters of its tag. -/
theorem Head.exists_of_ofToken? {t : Token} {head : Head} (h : Head.ofToken? t = some head) {x : Expr}
    (hx : x ∈ head.expressions) :
    ∃ p ∈ t.params, ∃ e, Expr.parseAt p.text p.span.start = .ok (some e) ∧ e.Holds x := by
  obtain ⟨kind, -, hhead⟩ := Option.bind_eq_some_iff.mp h
  obtain ⟨params, hparams, hhead⟩ := Option.bind_eq_some_iff.mp hhead
  obtain ⟨e, rfl, hholds⟩ := Head.holds_of_begun? hhead x hx
  have hread : kind.readParams t = .ok (some e) := by
    cases hread : kind.readParams t with
    | error fault => rw [hread] at hparams; cases hparams
    | ok params => rw [hread] at hparams; cases hparams; rfl
  unfold Kind.readParams at hread
  split at hread
  · cases hread
  · cases hread
  · cases hread
  · next p _ _ hp _ => exact ⟨p, hp, e, hread, hholds⟩

/-- Parameters that were scanned are read inside their tag. -/
theorem Markup.Token.InPlace.nested_of_parseAt {source : List Char} {t : Token} (h : t.InPlace source)
    {p : Markup.Params} (hp : p ∈ t.params) {e : Expr} (hparse : Expr.parseAt p.text p.span.start = .ok (some e)) :
    e.Nested ∧ t.span.start < e.span.start ∧ e.span.stop < t.span.stop := by
  obtain ⟨hnested, hstart, -, hstop⟩ := Expr.nested_of_parseAt hparse
  obtain ⟨⟨hfirst, hlast⟩, hcovers, -⟩ := h.params p hp
  obtain ⟨before, after, -, hspan⟩ := Text.slice?_eq_some_iff.mp hcovers
  rw [hspan] at hfirst hlast hstart hstop
  dsimp only at hfirst hlast hstart hstop
  exact ⟨hnested, Nat.lt_of_lt_of_le hfirst hstart, Nat.lt_of_le_of_lt hstop hlast⟩

theorem Markup.Token.InPlace.inTag {source : List Char} {t : Token} (h : t.InPlace source) {head : Head}
    (hhead : Head.ofToken? t = some head) : head.InTag t.span := by
  intro x hx
  obtain ⟨p, hp, e, hparse, hholds⟩ := Head.exists_of_ofToken? hhead hx
  obtain ⟨hnested, hstart, hstop⟩ := h.nested_of_parseAt hp hparse
  obtain ⟨hnested, hstart', hstop'⟩ := hnested.of_holds hholds
  exact ⟨hnested, Nat.lt_of_lt_of_le hstart hstart', Nat.lt_of_le_of_lt hstop' hstop⟩

theorem Markup.inOrder_of_contiguous {ts : List Token} {start stop : Nat} (h : Markup.Contiguous start ts stop) :
    InOrder start (ts.map Token.span) stop := by
  induction ts generalizing start with
  | nil => exact Nat.le_of_eq h
  | cons t ts ih =>
    obtain ⟨rfl, hlt, h⟩ := h
    exact ⟨Nat.le_refl _, hlt, ih h⟩

/-! ### The whole tree -/

theorem Node.Nests.of_mem_preorder {fits : Head → Span → Prop} {n m : Node} (h : n.Nests fits) (hm : m ∈ n.preorder) :
    m.Nests fits := by
  induction h with
  | @intro n _ hne hfits hin hbelow ih =>
    rw [Node.preorder_eq] at hm
    rcases List.mem_cons.mp hm with rfl | hm
    · exact .intro hne hfits hin hbelow
    · obtain ⟨c, hc, hm⟩ := List.mem_flatMap.mp hm
      exact ih c hc hm

namespace Program

/-- Every node of the program. -/
def nodes (p : Program) : List Node :=
  Node.listPreorder p.body

theorem nests_of_mem_nodes {fits : Head → Span → Prop} {p : Program} (h : ∀ n ∈ p.body, n.Nests fits) {m : Node}
    (hm : m ∈ p.nodes) : m.Nests fits := by
  rw [nodes, Node.listPreorder_eq] at hm
  obtain ⟨n, hn, hm⟩ := List.mem_flatMap.mp hm
  exact (h n hn).of_mem_preorder hm

/-- Nodes are not empty, siblings lie one behind the other inside the node above, or the program, and behind the start
of that node. -/
structure SpansNest (p : Program) : Prop where
  body : InOrder p.span.start (p.body.map Node.span) p.span.stop
  nonempty : ∀ n ∈ p.nodes, n.span.start < n.span.stop
  children : ∀ n ∈ p.nodes, InOrder (n.span.start + 1) (n.children.map Node.span) n.span.stop

/-- The expressions of a node, down to their leaves, lie strictly inside the node and in front of its first child. -/
def ExpressionsNest (p : Program) : Prop :=
  ∀ n ∈ p.nodes, ∀ e ∈ n.head.expressions, ∀ x, e.Holds x →
    n.span.start < x.span.start ∧ x.span.start < x.span.stop ∧ x.span.stop < n.span.stop ∧
      ∀ c ∈ n.children.head?, x.span.stop ≤ c.span.start

theorem spansNest_of_nests {fits : Head → Span → Prop} {p : Program}
    (hbody : InOrder 0 (p.body.map Node.span) p.stop) (h : ∀ n ∈ p.body, n.Nests fits) : p.SpansNest where
  body := hbody
  nonempty n hn := (nests_of_mem_nodes h hn).nonempty
  children n hn := by
    cases nests_of_mem_nodes h hn with
    | intro hne _ hin _ => exact hin.mono hne (Nat.le_refl _)

theorem expressionsNest_of_nests {p : Program} (h : ∀ n ∈ p.body, n.Nests Head.InTag) : p.ExpressionsNest := by
  intro n hn e he x hx
  cases nests_of_mem_nodes h hn with
  | @intro _ tagStop hne hfits hin _ =>
    obtain ⟨hnested, hstart, hstop⟩ := hfits e he
    obtain ⟨hnested, hstart', hstop'⟩ := hnested.of_holds hx
    dsimp only at hstart hstop
    have hle := hin.le
    refine ⟨by omega, hnested.nonempty, by omega, fun c hc => ?_⟩
    have hchild := hin.of_mem (List.mem_map_of_mem (List.mem_of_mem_head? hc))
    omega

end Program

namespace Builder

/-! ### All runs -/

theorem nests_new (fits : Head → Span → Prop) (stop : Nat) : (new stop).Nests fits 0 :=
  StackNests.nests (b := new stop) ⟨Nat.le_refl 0, fun _ hn => absurd hn List.not_mem_nil⟩ rfl

/-- After any of the tokens the program covers the template, and its nodes are nested. -/
theorem nests_finish (fits : Head → Span → Prop) {ts : List Token} {stop : Nat}
    (hin : InOrder 0 (ts.map Token.span) stop)
    (hfits : ∀ t ∈ ts, ∀ head, Head.ofToken? t = some head → fits head t.span) (k : Nat) :
    let p := ((new stop).feed (ts.take k)).finish
    p.span = ⟨0, stop⟩ ∧ p.SpansNest ∧ ∀ n ∈ p.body, n.Nests fits := by
  have hsound := sound_feed (sound_new stop) (ts.take k)
  have hstop : ((new stop).feed (ts.take k)).stop = stop := feed_stop (sound_new stop) _
  obtain ⟨pos, hpos, hnests⟩ := nests_feed (sound_new stop) (nests_new fits stop)
    (hin.sublist ((List.take_sublist k ts).map Token.span)) fun t ht => hfits t (List.mem_of_mem_take ht)
  have hfinish := (finishes_finish hsound).nests hsound.stack hnests (by rwa [hstop])
  rw [hstop] at hfinish
  obtain ⟨hend, hbody, hnodes⟩ := hfinish
  refine ⟨congrArg (Span.mk 0) hend, Program.spansNest_of_nests ?_ hnodes, hnodes⟩
  rwa [hend]

/-- Whatever tokens come one behind the other, the nodes made of any first ones of them are nested. The tokens of a
template do come so, and the expressions of their nodes are nested too. -/
theorem spansNest_feed :
    (∀ (ts : List Token) (stop k : Nat), InOrder 0 (ts.map Token.span) stop →
      let p := ((new stop).feed (ts.take k)).finish
      p.span = ⟨0, stop⟩ ∧ p.SpansNest) ∧
    (∀ (source : String) (ts : List Token) (k : Nat), Markup.tokenize source = .ok ts →
      let p := ((new source.utf8ByteSize).feed (ts.take k)).finish
      p.span = ⟨0, source.utf8ByteSize⟩ ∧ p.SpansNest ∧ p.ExpressionsNest) := by
  constructor
  · intro ts stop k hin
    obtain ⟨hspan, hnest, -⟩ := nests_finish (fun _ _ => True) hin (fun _ _ _ _ => trivial) k
    exact ⟨hspan, hnest⟩
  · intro source ts k htokens
    have htiles := Markup.tiles_of_tokenize htokens
    have hin := Markup.inOrder_of_contiguous htiles.contiguous
    rw [Text.byteLength_toList] at hin
    obtain ⟨hspan, hnest, hnodes⟩ := nests_finish Head.InTag hin
      (fun t ht head hhead => (htiles.inPlace t ht).inTag hhead) k
    exact ⟨hspan, hnest, Program.expressionsNest_of_nests hnodes⟩

/-- After the first two tokens the condition is open, and holds the interpolation. -/
theorem spansNest_condition :
    ∃ ts, Markup.tokenize "<#if a>$\x7bb\x7d</#if>" = .ok ts ∧ ts.length = 3 ∧
      ((new 20).feed (ts.take 2)).finish.SpansNest ∧ ((new 17).feed (ts.take 2)).finish.ExpressionsNest := by
  let test : Markup.Params := ⟨"a", ⟨5, 6⟩, [⟨"a", ⟨5, 6⟩⟩]⟩
  let value : Markup.Params := ⟨"b", ⟨9, 10⟩, [⟨"b", ⟨9, 10⟩⟩]⟩
  let start : Token := ⟨.directive, ⟨0, 7⟩, "<#if a>", some "if", some test, false, false⟩
  let content : Token := ⟨.interpolation, ⟨7, 11⟩, "$\x7bb\x7d", none, some value, false, false⟩
  let stop : Token := ⟨.directive, ⟨11, 17⟩, "</#if>", some "if", none, true, false⟩
  have hscan : Markup.scan "<#if a>$\x7bb\x7d</#if>" = ([start, content, stop], none) := by
    decide +kernel
  have htokens : Markup.tokenize "<#if a>$\x7bb\x7d</#if>" = .ok [start, content, stop] := by
    rw [Markup.tokenize, hscan]
  have hin : InOrder 0 ([start, content, stop].map Token.span) 20 := by
    simp [start, content, stop]
  obtain ⟨-, hspans⟩ := spansNest_feed.1 _ 20 2 hin
  obtain ⟨-, -, hexpressions⟩ := spansNest_feed.2 "<#if a>$\x7bb\x7d</#if>" _ 2 htokens
  exact ⟨_, htokens, rfl, hspans, hexpressions⟩

end Builder

end TemplateSyntax
