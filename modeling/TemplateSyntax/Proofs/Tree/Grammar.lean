import TemplateSyntax.Proofs.Tree.Push

/-!
# The grammar of templates

A template is a sequence of items (`Derives`). An item is text, a comment, an interpolation or a tag that is complete in
itself, or it runs from the tag that begins a node to the tag that closes it, with items and the tags that continue the
node in between.

Reading a template from left to right, one may forget all of an open node but how far it has come, its frame. What may
still follow is then determined by the frames of the open nodes (`Remains`), and a token leads from frames to frames
(`Steps`). The two agree: a token can be followed by what remains after its step, and by nothing else (`Steps.remains`,
`steps_of_remains`).
-/

namespace TemplateSyntax

open Markup (Token)

/-! ### Tokens -/

/-- The token begins a node with the given head: it has the parameters that its kind wants, in the right form. -/
def Head.IsBegunBy (t : Token) (head : Head) : Prop :=
  ∃ params, IsTag head.kind params t ∧ Head.ofTag head.kind t params = .ok head

structure IsClose (kind : Kind) (t : Token) : Prop where
  closing : t.closing = true
  ofToken : Kind.ofToken? t = some kind

/-- A closing tag of the given name fits. That of a macro call may leave out the name. -/
def Head.AllowsName (tag : Option String) : Head → Prop
  | .macroCall name _ => ∀ given, tag = some given → given = "" ∨ given = name
  | _ => True

/-- Text that may stand between a switch and its first case. -/
def IsBlank (t : Token) : Prop :=
  IsTag .text none t ∧ t.raw.toList.all Text.isBlank = true

/-- A token that makes an item of its own: it begins a node without a body, or closes it itself. -/
def IsLeaf (t : Token) : Prop :=
  ∃ head : Head, head.IsBegunBy t ∧ (head.wraps t.selfClosing = false ∨ t.selfClosing = true)

/-- A tag that is complete in itself but may be followed by its closing tag. -/
def IsSingle (sort : Single) (t : Token) : Prop :=
  (∃ params, Head.IsBegunBy t (.single sort params)) ∧ t.selfClosing = false

/-! ### Derivations -/

inductive Symbol where
  | items
  | item
  /-- What follows the content of an `<#if>`. -/
  | elses
  /-- What follows the first blanks of a switch. If it has its default already, no other one may come. -/
  | cases (defaulted : Bool)

inductive Derives : Symbol → List Token → Prop
  | nil : Derives .items []
  | cons {us vs : List Token} (hi : Derives .item us) (his : Derives .items vs) : Derives .items (us ++ vs)
  | leaf {t : Token} (h : IsLeaf t) : Derives .item [t]
  | single {sort : Single} {t c : Token} (h : IsSingle sort t) (hc : IsClose (.single sort) c) : Derives .item [t, c]
  | wrapper {head : Head} {t c : Token} {us : List Token} (h : head.IsBegunBy t) (hw : head.isWrapper = true)
      (hb : head.wraps t.selfClosing = true) (hself : t.selfClosing = false) (hus : Derives .items us)
      (hc : IsClose head.kind c) (hn : head.AllowsName c.tag) : Derives .item (t :: us ++ [c])
  | condition {test : Expr} {t : Token} {us vs : List Token} (h : Head.IsBegunBy t (.condition test))
      (hself : t.selfClosing = false) (hus : Derives .items us) (hvs : Derives .elses vs) :
      Derives .item (t :: us ++ vs)
  | list {params : Expr} {t c : Token} {us : List Token} (h : Head.IsBegunBy t (.list params))
      (hself : t.selfClosing = false) (hus : Derives .items us) (hc : IsClose .list c) : Derives .item (t :: us ++ [c])
  | listElse {params : Expr} {t e c : Token} {us vs : List Token} (h : Head.IsBegunBy t (.list params))
      (hself : t.selfClosing = false) (hus : Derives .items us) (he : IsTag .otherwise none e)
      (hvs : Derives .items vs) (hc : IsClose .list c) : Derives .item (t :: us ++ (e :: vs ++ [c]))
  | attempt {t r c : Token} {us vs : List Token} (h : Head.IsBegunBy t .attempt) (hself : t.selfClosing = false)
      (hus : Derives .items us) (hr : IsTag .recover none r) (hvs : Derives .items vs) (hc : IsClose .attempt c) :
      Derives .item (t :: us ++ (r :: vs ++ [c]))
  | switch {subject : Expr} {t : Token} {us vs : List Token} (h : Head.IsBegunBy t (.switch subject))
      (hself : t.selfClosing = false) (hus : ∀ u ∈ us, IsBlank u) (hvs : Derives (.cases false) vs) :
      Derives .item (t :: us ++ vs)
  | endIf {c : Token} (hc : IsClose .condition c) : Derives .elses [c]
  | elseIf {test : Expr} {t : Token} {us vs : List Token} (h : IsTag .elseIf (some test) t) (hus : Derives .items us)
      (hvs : Derives .elses vs) : Derives .elses (t :: us ++ vs)
  | otherwise {t c : Token} {us : List Token} (h : IsTag .otherwise none t) (hus : Derives .items us)
      (hc : IsClose .condition c) : Derives .elses (t :: us ++ [c])
  | endSwitch {defaulted : Bool} {c : Token} (hc : IsClose .switch c) : Derives (.cases defaulted) [c]
  | case {defaulted : Bool} {value : Expr} {t : Token} {us vs : List Token} (h : IsTag .case (some value) t)
      (hus : Derives .items us) (hvs : Derives (.cases defaulted) vs) : Derives (.cases defaulted) (t :: us ++ vs)
  | default {t : Token} {us vs : List Token} (h : IsTag .default none t) (hus : Derives .items us)
      (hvs : Derives (.cases true) vs) : Derives (.cases false) (t :: us ++ vs)

/-! ### Frames -/

/-- How far an open node has come. For a condition, list or attempt it says whether the last part, begun by `<#else>` or
`<#recover>`, has been reached. -/
inductive Frame where
  | wrapper (head : Head)
  | condition (last : Bool)
  | list (last : Bool)
  | attempt (last : Bool)
  | switch (begun defaulted : Bool)

/-- The frame of a new node. -/
inductive Opens (t : Token) : Frame → Prop
  | wrapper {head : Head} (h : head.IsBegunBy t) (hw : head.isWrapper = true) (hb : head.wraps t.selfClosing = true)
      (hself : t.selfClosing = false) : Opens t (.wrapper head)
  | condition {test : Expr} (h : Head.IsBegunBy t (.condition test)) (hself : t.selfClosing = false) :
      Opens t (.condition false)
  | list {params : Expr} (h : Head.IsBegunBy t (.list params)) (hself : t.selfClosing = false) : Opens t (.list false)
  | attempt (h : Head.IsBegunBy t .attempt) (hself : t.selfClosing = false) : Opens t (.attempt false)
  | switch {subject : Expr} (h : Head.IsBegunBy t (.switch subject)) (hself : t.selfClosing = false) :
      Opens t (.switch false false)

/-- The tag begins a new part of the node. -/
inductive Continues (t : Token) : Frame → Frame → Prop
  | elseIf {test : Expr} (h : IsTag .elseIf (some test) t) : Continues t (.condition false) (.condition false)
  | otherwise (h : IsTag .otherwise none t) : Continues t (.condition false) (.condition true)
  | listElse (h : IsTag .otherwise none t) : Continues t (.list false) (.list true)
  | recover (h : IsTag .recover none t) : Continues t (.attempt false) (.attempt true)
  | case {begun defaulted : Bool} {value : Expr} (h : IsTag .case (some value) t) :
      Continues t (.switch begun defaulted) (.switch true defaulted)
  | default {begun : Bool} (h : IsTag .default none t) : Continues t (.switch begun false) (.switch true true)

/-- The tag closes the node. An attempt must have come to its last part. -/
inductive Closes (t : Token) : Frame → Prop
  | wrapper {head : Head} (hc : IsClose head.kind t) (hn : head.AllowsName t.tag) : Closes t (.wrapper head)
  | condition {last : Bool} (hc : IsClose .condition t) : Closes t (.condition last)
  | list {last : Bool} (hc : IsClose .list t) : Closes t (.list last)
  | attempt (hc : IsClose .attempt t) : Closes t (.attempt true)
  | switch {begun defaulted : Bool} (hc : IsClose .switch t) : Closes t (.switch begun defaulted)

namespace Frame

/-- More content of the node. -/
def Content : Frame → List Token → Prop
  | .switch false _, us => ∀ u ∈ us, IsBlank u
  | _, us => Derives .items us

/-- What follows the content up to the closing tag. -/
inductive Ends : Frame → List Token → Prop
  | wrapper {head : Head} {c : Token} (hc : IsClose head.kind c) (hn : head.AllowsName c.tag) : Ends (.wrapper head) [c]
  | elses {vs : List Token} (h : Derives .elses vs) : Ends (.condition false) vs
  | condition {c : Token} (hc : IsClose .condition c) : Ends (.condition true) [c]
  | list {last : Bool} {c : Token} (hc : IsClose .list c) : Ends (.list last) [c]
  | listElse {e c : Token} {vs : List Token} (he : IsTag .otherwise none e) (hvs : Derives .items vs)
      (hc : IsClose .list c) : Ends (.list false) (e :: vs ++ [c])
  | recover {r c : Token} {vs : List Token} (hr : IsTag .recover none r) (hvs : Derives .items vs)
      (hc : IsClose .attempt c) : Ends (.attempt false) (r :: vs ++ [c])
  | attempt {c : Token} (hc : IsClose .attempt c) : Ends (.attempt true) [c]
  | cases {begun defaulted : Bool} {vs : List Token} (h : Derives (.cases defaulted) vs) :
      Ends (.switch begun defaulted) vs

/-- What completes a node that has come so far. -/
def Completes (f : Frame) (ws : List Token) : Prop :=
  ∃ us vs, ws = us ++ vs ∧ f.Content us ∧ f.Ends vs

end Frame

theorem Frame.content_nil (f : Frame) : f.Content [] := by
  unfold Content
  split
  · simp
  · exact .nil

/-! ### First tokens -/

/-- An item is a leaf, perhaps with its closing tag, or goes on as the frame of its first token tells. -/
theorem Derives.item_first {ws : List Token} (h : Derives .item ws) :
    ∃ t us, ws = t :: us ∧
      (IsLeaf t ∧ us = [] ∨ (∃ sort c, IsSingle sort t ∧ IsClose (.single sort) c ∧ us = [c]) ∨
        ∃ f, Opens t f ∧ f.Completes us) := by
  cases h with
  | leaf h => exact ⟨_, _, rfl, .inl ⟨h, rfl⟩⟩
  | single h hc => exact ⟨_, _, rfl, .inr (.inl ⟨_, _, h, hc, rfl⟩)⟩
  | wrapper h hw hb hself hus hc hn =>
    exact ⟨_, _, rfl, .inr (.inr ⟨_, .wrapper h hw hb hself, _, _, rfl, hus, .wrapper hc hn⟩)⟩
  | condition h hself hus hvs =>
    exact ⟨_, _, rfl, .inr (.inr ⟨_, .condition h hself, _, _, rfl, hus, .elses hvs⟩)⟩
  | list h hself hus hc => exact ⟨_, _, rfl, .inr (.inr ⟨_, .list h hself, _, _, rfl, hus, .list hc⟩)⟩
  | listElse h hself hus he hvs hc =>
    exact ⟨_, _, rfl, .inr (.inr ⟨_, .list h hself, _, _, rfl, hus, .listElse he hvs hc⟩)⟩
  | attempt h hself hus hr hvs hc =>
    exact ⟨_, _, rfl, .inr (.inr ⟨_, .attempt h hself, _, _, rfl, hus, .recover hr hvs hc⟩)⟩
  | switch h hself hus hvs =>
    exact ⟨_, _, rfl, .inr (.inr ⟨_, .switch h hself, _, _, rfl, hus, .cases hvs⟩)⟩

theorem derives_of_opens {t : Token} {f : Frame} {ws : List Token} (h : Opens t f) (hw : f.Completes ws) :
    Derives .item (t :: ws) := by
  obtain ⟨us, vs, rfl, hus, hvs⟩ := hw
  cases h with
  | wrapper h hw hb hself => cases hvs with | wrapper hc hn => exact .wrapper h hw hb hself hus hc hn
  | condition h hself => cases hvs with | elses hvs => exact .condition h hself hus hvs
  | list h hself =>
    cases hvs with
    | list hc => exact .list h hself hus hc
    | listElse he hvs hc => exact .listElse h hself hus he hvs hc
  | attempt h hself => cases hvs with | recover hr hvs hc => exact .attempt h hself hus hr hvs hc
  | switch h hself => cases hvs with | cases hvs => exact .switch h hself hus hvs

/-- The end of a node is its closing tag, or goes on with a new part. -/
theorem Frame.Ends.first {f : Frame} {ws : List Token} (h : f.Ends ws) :
    ∃ t us, ws = t :: us ∧ (Closes t f ∧ us = [] ∨ ∃ f', Continues t f f' ∧ f'.Completes us) := by
  cases h with
  | wrapper hc hn => exact ⟨_, _, rfl, .inl ⟨.wrapper hc hn, rfl⟩⟩
  | elses h =>
    cases h with
    | endIf hc => exact ⟨_, _, rfl, .inl ⟨.condition hc, rfl⟩⟩
    | elseIf h hus hvs => exact ⟨_, _, rfl, .inr ⟨_, .elseIf h, _, _, rfl, hus, .elses hvs⟩⟩
    | otherwise h hus hc => exact ⟨_, _, rfl, .inr ⟨_, .otherwise h, _, _, rfl, hus, .condition hc⟩⟩
  | condition hc => exact ⟨_, _, rfl, .inl ⟨.condition hc, rfl⟩⟩
  | list hc => exact ⟨_, _, rfl, .inl ⟨.list hc, rfl⟩⟩
  | listElse he hvs hc => exact ⟨_, _, rfl, .inr ⟨_, .listElse he, _, _, rfl, hvs, .list hc⟩⟩
  | recover hr hvs hc => exact ⟨_, _, rfl, .inr ⟨_, .recover hr, _, _, rfl, hvs, .attempt hc⟩⟩
  | attempt hc => exact ⟨_, _, rfl, .inl ⟨.attempt hc, rfl⟩⟩
  | cases h =>
    cases h with
    | endSwitch hc => exact ⟨_, _, rfl, .inl ⟨.switch hc, rfl⟩⟩
    | case h hus hvs => exact ⟨_, _, rfl, .inr ⟨_, .case h, _, _, rfl, hus, .cases hvs⟩⟩
    | default h hus hvs => exact ⟨_, _, rfl, .inr ⟨_, .default h, _, _, rfl, hus, .cases hvs⟩⟩

theorem Frame.ends_of_closes {t : Token} {f : Frame} (h : Closes t f) : f.Ends [t] := by
  cases h with
  | wrapper hc hn => exact .wrapper hc hn
  | @condition last hc =>
    cases last with
    | false => exact .elses (.endIf hc)
    | true => exact .condition hc
  | list hc => exact .list hc
  | attempt hc => exact .attempt hc
  | switch hc => exact .cases (.endSwitch hc)

theorem Frame.ends_of_continues {t : Token} {f f' : Frame} {ws : List Token} (h : Continues t f f')
    (hw : f'.Completes ws) : f.Ends (t :: ws) := by
  obtain ⟨us, vs, rfl, hus, hvs⟩ := hw
  cases h with
  | elseIf h => cases hvs with | elses hvs => exact .elses (.elseIf h hus hvs)
  | otherwise h => cases hvs with | condition hc => exact .elses (.otherwise h hus hc)
  | listElse h => cases hvs with | list hc => exact .listElse h hus hc
  | recover h => cases hvs with | attempt hc => exact .recover h hus hc
  | case h => cases hvs with | cases hvs => exact .cases (.case h hus hvs)
  | default h => cases hvs with | cases hvs => exact .cases (.default h hus hvs)

/-! ### What remains -/

/-- The innermost open node takes items. -/
def Receives : List Frame → Prop
  | .switch false _ :: _ => False
  | _ => True

/-- The tokens complete the open nodes, the innermost first, and then the template. -/
def Remains : List Frame → List Token → Prop
  | [], ws => Derives .items ws
  | f :: fs, ws => ∃ us vs, ws = us ++ vs ∧ f.Completes us ∧ Remains fs vs

/-- What may follow when a tag of the given sort may still be closed. -/
def RemainsAfter (held : Option Single) (fs : List Frame) (ws : List Token) : Prop :=
  Remains fs ws ∨ ∃ sort c vs, held = some sort ∧ ws = c :: vs ∧ IsClose (.single sort) c ∧ Remains fs vs

theorem Frame.Content.of_item {f : Frame} {us vs : List Token} (hf : ∀ d, f ≠ .switch false d)
    (hi : Derives .item us) (h : f.Content vs) : f.Content (us ++ vs) := by
  cases f with
  | switch begun defaulted =>
    cases begun with
    | false => exact absurd rfl (hf defaulted)
    | true => exact .cons hi h
  | _ => exact .cons hi h

theorem Remains.of_item {fs : List Frame} {us ws : List Token} (hf : Receives fs) (hi : Derives .item us)
    (h : Remains fs ws) : Remains fs (us ++ ws) := by
  cases fs with
  | nil => exact .cons hi h
  | cons f fs =>
    obtain ⟨us', vs', rfl, ⟨cs, es, rfl, hcs, hes⟩, hvs⟩ := h
    refine ⟨us ++ (cs ++ es), vs', by simp, ⟨us ++ cs, es, by simp, ?_, hes⟩, hvs⟩
    refine hcs.of_item ?_ hi
    rintro d rfl
    exact hf

/-- Every open node still needs a token. -/
theorem remains_nil {fs : List Frame} (h : Remains fs []) : fs = [] := by
  cases fs with
  | nil => rfl
  | cons f fs =>
    obtain ⟨us, vs, heq, ⟨cs, es, rfl, -, hes⟩, -⟩ := h
    obtain ⟨t, us', rfl, -⟩ := hes.first
    simp at heq

private theorem items_first {t : Token} {ws : List Token} (h : Derives .items (t :: ws)) :
    ∃ us vs, ws = us ++ vs ∧ Derives .item (t :: us) ∧ Derives .items vs := by
  generalize heq : t :: ws = ws' at h
  cases h with
  | nil => cases heq
  | cons hi his =>
    obtain ⟨t', us, rfl, -⟩ := hi.item_first
    cases heq
    exact ⟨us, _, rfl, hi, his⟩

/-- The first token of the content of a node starts an item, unless it is blank text in front of the cases. -/
private theorem content_first {f : Frame} {t : Token} {cs : List Token} (h : f.Content (t :: cs)) :
    (∃ d, f = .switch false d ∧ IsBlank t ∧ f.Content cs) ∨
      (∀ d, f ≠ .switch false d) ∧ ∃ us vs, cs = us ++ vs ∧ Derives .item (t :: us) ∧ f.Content vs := by
  cases f with
  | switch begun defaulted =>
    cases begun with
    | false => exact .inl ⟨defaulted, rfl, h t (List.mem_cons_self ..), fun u hu => h u (List.mem_cons_of_mem t hu)⟩
    | true => exact .inr ⟨by simp, items_first h⟩
  | _ => exact .inr ⟨by simp, items_first h⟩

/-- The next token starts an item, is blank text in front of the cases, closes the innermost node, or continues it. -/
theorem Remains.first {fs : List Frame} {t : Token} {ws : List Token} (h : Remains fs (t :: ws)) :
    (Receives fs ∧ ∃ us vs, ws = us ++ vs ∧ Derives .item (t :: us) ∧ Remains fs vs) ∨
      (∃ d fs', fs = .switch false d :: fs' ∧ IsBlank t ∧ Remains fs ws) ∨
      (∃ f fs', fs = f :: fs' ∧ Closes t f ∧ Remains fs' ws) ∨
      ∃ f f' fs', fs = f :: fs' ∧ Continues t f f' ∧ Remains (f' :: fs') ws := by
  cases fs with
  | nil =>
    obtain ⟨us, vs, rfl, hi, his⟩ := items_first h
    exact .inl ⟨trivial, us, vs, rfl, hi, his⟩
  | cons f fs =>
    obtain ⟨xs, vs, heq, ⟨cs, es, rfl, hcs, hes⟩, hvs⟩ := h
    cases cs with
    | nil =>
      -- no content is left, so the token belongs to the end of the node
      obtain ⟨t', us, rfl, hor⟩ := hes.first
      cases heq
      rcases hor with ⟨hc, rfl⟩ | ⟨f', hc, hw⟩
      · exact .inr (.inr (.inl ⟨f, fs, rfl, hc, hvs⟩))
      · exact .inr (.inr (.inr ⟨f, f', fs, rfl, hc, us, vs, rfl, hw, hvs⟩))
    | cons t' cs =>
      -- the token belongs to the content
      cases heq
      rcases content_first hcs with ⟨d, rfl, hb, hcs⟩ | ⟨hf, us, cs, rfl, hi, hcs⟩
      · exact .inr (.inl ⟨d, fs, rfl, hb, cs ++ es, vs, rfl, ⟨cs, es, rfl, hcs, hes⟩, hvs⟩)
      · refine .inl ⟨?_, us, cs ++ es ++ vs, by simp, hi, cs ++ es, vs, rfl, ⟨cs, es, rfl, hcs, hes⟩, hvs⟩
        unfold Receives
        split
        · next d _ hcons =>
          cases hcons
          exact hf d rfl
        · trivial

/-! ### Steps -/

/-- A token leads from frames to frames. A tag that may still be closed is held. -/
inductive Steps (t : Token) : Option Single → List Frame → Option Single → List Frame → Prop
  | absorbs {sort : Single} {fs : List Frame} (hc : IsClose (.single sort) t) : Steps t (some sort) fs none fs
  | leaf {held : Option Single} {fs : List Frame} (h : IsLeaf t) (hs : ∀ sort, ¬IsSingle sort t) (hf : Receives fs) :
      Steps t held fs none fs
  | holds {held : Option Single} {sort : Single} {fs : List Frame} (h : IsSingle sort t) (hf : Receives fs) :
      Steps t held fs (some sort) fs
  | blank {held : Option Single} {d : Bool} {fs : List Frame} (h : IsBlank t) :
      Steps t held (.switch false d :: fs) none (.switch false d :: fs)
  | opens {held : Option Single} {f : Frame} {fs : List Frame} (h : Opens t f) (hf : Receives fs) :
      Steps t held fs none (f :: fs)
  | continues {held : Option Single} {f f' : Frame} {fs : List Frame} (h : Continues t f f') :
      Steps t held (f :: fs) none (f' :: fs)
  | closes {held : Option Single} {f : Frame} {fs : List Frame} (h : Closes t f) : Steps t held (f :: fs) none fs

theorem isLeaf_of_isSingle {sort : Single} {t : Token} (h : IsSingle sort t) : IsLeaf t := by
  obtain ⟨⟨params, hhead⟩, -⟩ := h
  exact ⟨_, hhead, .inl rfl⟩

theorem remainsAfter_none {fs : List Frame} {ws : List Token} : RemainsAfter none fs ws ↔ Remains fs ws := by
  constructor
  · rintro (h | ⟨sort, c, vs, hnone, -⟩)
    · exact h
    · cases hnone
  · exact .inl

/-- What remains after a step, with the token in front of it, remained before. -/
theorem Steps.remains {t : Token} {held held' : Option Single} {fs fs' : List Frame} {ws : List Token}
    (h : Steps t held fs held' fs') (hw : RemainsAfter held' fs' ws) : RemainsAfter held fs (t :: ws) := by
  cases h with
  | absorbs hc => exact .inr ⟨_, t, ws, rfl, rfl, hc, remainsAfter_none.mp hw⟩
  | leaf h _ hf => exact .inl (Remains.of_item hf (.leaf h) (remainsAfter_none.mp hw))
  | holds h hf =>
    rcases hw with hw | ⟨sort, c, vs, hsort, rfl, hc, hvs⟩
    · exact .inl (Remains.of_item hf (.leaf (isLeaf_of_isSingle h)) hw)
    · cases hsort
      exact .inl (Remains.of_item hf (.single h hc) hvs)
  | blank h =>
    obtain ⟨us, vs, rfl, ⟨cs, es, rfl, hcs, hes⟩, hvs⟩ := remainsAfter_none.mp hw
    refine .inl ⟨t :: (cs ++ es), vs, rfl, ⟨t :: cs, es, rfl, ?_, hes⟩, hvs⟩
    intro u hu
    rcases List.mem_cons.mp hu with rfl | hu
    · exact h
    · exact hcs u hu
  | opens h hf =>
    obtain ⟨us, vs, rfl, hus, hvs⟩ := remainsAfter_none.mp hw
    exact .inl (Remains.of_item hf (derives_of_opens h hus) hvs)
  | @continues _ f f' _ h =>
    obtain ⟨us, vs, rfl, hus, hvs⟩ := remainsAfter_none.mp hw
    exact .inl ⟨t :: us, vs, rfl, ⟨[], t :: us, rfl, f.content_nil, f.ends_of_continues h hus⟩, hvs⟩
  | @closes _ f _ h =>
    exact .inl ⟨[t], ws, rfl, ⟨[], [t], rfl, f.content_nil, f.ends_of_closes h⟩, remainsAfter_none.mp hw⟩

/-- Whatever remains begins with a step. -/
theorem steps_of_remains {t : Token} {held : Option Single} {fs : List Frame} {ws : List Token}
    (h : RemainsAfter held fs (t :: ws)) : ∃ held' fs', Steps t held fs held' fs' ∧ RemainsAfter held' fs' ws := by
  rcases h with h | ⟨sort, c, vs, rfl, heq, hc, hvs⟩
  · rcases h.first with ⟨hf, us, vs, rfl, hi, hvs⟩ | ⟨d, fs, rfl, hb, hws⟩ | ⟨f, fs, rfl, hc, hws⟩ |
      ⟨f, f', fs, rfl, hc, hws⟩
    · obtain ⟨t', us', heq, hor⟩ := hi.item_first
      cases heq
      rcases hor with ⟨hleaf, rfl⟩ | ⟨sort, c, hs, hc, rfl⟩ | ⟨f, ho, hw⟩
      · -- a leaf is held if it might still be closed
        by_cases hs : ∃ sort, IsSingle sort t
        · obtain ⟨sort, hs⟩ := hs
          exact ⟨some sort, fs, .holds hs hf, .inl hvs⟩
        · exact ⟨none, fs, .leaf hleaf (not_exists.mp hs) hf, .inl hvs⟩
      · exact ⟨some sort, fs, .holds hs hf, .inr ⟨sort, c, vs, rfl, rfl, hc, hvs⟩⟩
      · exact ⟨none, f :: fs, .opens ho hf, .inl ⟨us, vs, rfl, hw, hvs⟩⟩
    · exact ⟨none, _, .blank hb, .inl hws⟩
    · exact ⟨none, fs, .closes hc, .inl hws⟩
    · exact ⟨none, f' :: fs, .continues hc, .inl hws⟩
  · cases heq
    exact ⟨none, fs, .absorbs hc, .inl hvs⟩

end TemplateSyntax
