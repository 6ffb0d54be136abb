import TemplateSyntax.Proofs.Expr.Faults

/-!
# Nothing is lost

The tokens of a text lie one behind the other in it, each where its own characters stand, and between them there are
just blanks. What stands around a token has no say in what it is: its characters alone are the same token. A text that
has no tokens is at fault behind those that were read of it (`tokenizeAt_lossless`).
-/

namespace TemplateSyntax.Expr

open TemplateSyntax.Span (InOrder)
open Text (isBlank byteLength slice? slice?_eq_some_iff)

/-! ### Tokens in a text -/

/-- The characters of `text` stand at the span, in a text whose first byte has offset `base`. -/
def StandsAt (source : List Char) (base : Nat) (s : Span) (text : String) : Prop :=
  ∃ inner, s = inner.shift base ∧ slice? source inner = some text.toList

/-- The text consists of the tokens and of blanks. -/
structure Lossless (source : List Char) (base : Nat) (ts : List Token) : Prop where
  inOrder : InOrder base (ts.map Token.span) (base + byteLength source)
  stands : ∀ t ∈ ts, StandsAt source base t.span t.text
  blank : ∀ before d after, source = before ++ d :: after →
    let start := base + byteLength before
    isBlank d = true ∨ ∃ t ∈ ts, t.span.contains ⟨start, start + d.utf8Size⟩ = true
  lexes : ∀ t ∈ ts, Lexes t.text t.kind
  named : ∀ t ∈ ts, ∀ name, t.kind = .identifier name → name = t.text

theorem Faces.standsAt {source mid rest : List Char} {base n : Nat} (h : Faces source base (mid ++ rest) n) :
    StandsAt source base ⟨n, n + byteLength mid⟩ (String.ofList mid) := by
  obtain ⟨before, rfl, rfl⟩ := h
  refine ⟨⟨byteLength before, byteLength before + byteLength mid⟩, ?_, ?_⟩
  · simp only [Span.shift, Span.mk.injEq]
    omega
  · rw [String.toList_ofList, slice?_eq_some_iff]
    exact ⟨before, rest, (List.append_assoc ..).symm, rfl⟩

/-- A character of two texts in a row lies in the first, or in the second. -/
theorem mem_split_append {xs ys before after : List Char} {d : Char} (h : xs ++ ys = before ++ d :: after) :
    (∃ mid, xs = before ++ d :: mid) ∨ ∃ mid, before = xs ++ mid ∧ ys = mid ++ d :: after := by
  obtain ⟨mid, hbefore, hys⟩ | ⟨mid, hxs, hafter⟩ := List.append_eq_append_iff.mp h
  · exact .inr ⟨mid, hbefore, hys⟩
  · cases mid with
    | nil => exact .inr ⟨[], by rw [hxs, List.append_nil, List.append_nil], hafter.symm⟩
    | cons e mid =>
      obtain ⟨rfl, -⟩ := List.cons.inj hafter
      exact .inl ⟨mid, hxs⟩

namespace Cursor

variable {c c' : Cursor} {t : Token} {ts : List Token} {source : List Char} {base : Nat}

/-! ### One token -/

theorem standsAt_of_next (h : c.next = (.ok t, c')) (ht : t.kind ≠ .eof) (hc : Faces source base c.rest c.offset) :
    StandsAt source base t.span t.text := by
  obtain ⟨hspan, hoffset⟩ := span_of_next h ht
  have htext := (faces_of_next h ht hc).1.standsAt
  rw [String.ofList_toList, hspan] at htext
  rwa [hspan, hoffset]

/-- A character is a blank in front of the token, belongs to it, or stands behind it. -/
theorem blank_of_next (h : c.next = (.ok t, c')) (ht : t.kind ≠ .eof) {before after : List Char} {d : Char}
    (hd : c.rest = before ++ d :: after) :
    let start := c.offset + byteLength before
    isBlank d = true ∨ t.span.contains ⟨start, start + d.utf8Size⟩ = true ∨
      ∃ before', c'.rest = before' ++ d :: after ∧ c'.offset + byteLength before' = start := by
  obtain ⟨hspan, hoffset⟩ := span_of_next h ht
  rw [rest_of_next h ht] at hd
  rcases mem_split_append hd with ⟨mid, hmid⟩ | ⟨front, hbefore, hd⟩
  · exact .inl (List.mem_takeWhile_imp (hmid ▸ List.mem_append_right _ (List.mem_cons_self ..)))
  rcases mem_split_append hd with ⟨mid, hmid⟩ | ⟨before', hfront, hd⟩
  · refine .inr (.inl ?_)
    rw [hoffset, hmid] at hspan
    rw [Span.contains_iff, hspan, hbefore]
    simp only [Text.byteLength_append, Text.byteLength_cons]
    omega
  · refine .inr (.inr ⟨before', hd, ?_⟩)
    rw [hoffset, hbefore, hfront]
    simp only [Text.byteLength_append]
    omega

/-- An error is told of a part of what is left. -/
theorem within_of_next_error {e : ExprError} (h : c.next.1 = .error e) :
    c.offset ≤ e.span.start ∧ e.span.start ≤ e.span.stop ∧ e.span.stop ≤ c.offset + byteLength c.rest := by
  have hc : Faces c.rest c.offset c.rest c.offset := ⟨[], rfl, rfl⟩
  obtain ⟨hle, ⟨k, hstart, -⟩, ⟨l, hstop, hl⟩⟩ := sits_of_next_error h hc
  have hwithin := hl.le
  omega

/-! ### All tokens -/

theorem Reads.standsAt (h : c.Reads ts c') (hc : Faces source base c.rest c.offset) :
    ∀ t ∈ ts, StandsAt source base t.span t.text := by
  induction h with
  | done c => exact fun t ht => absurd ht List.not_mem_nil
  | step h ht _ ih => exact List.forall_mem_cons.mpr ⟨standsAt_of_next h ht hc, ih (faces_of_next h ht hc).2⟩

/-- A character is a blank, belongs to a token, or is left. -/
theorem Reads.blank (h : c.Reads ts c') {before after : List Char} {d : Char} (hd : c.rest = before ++ d :: after) :
    let start := c.offset + byteLength before
    isBlank d = true ∨ (∃ t ∈ ts, t.span.contains ⟨start, start + d.utf8Size⟩ = true) ∨ d ∈ c'.rest := by
  induction h generalizing before with
  | done c => exact .inr (.inr (hd ▸ List.mem_append_right _ (List.mem_cons_self ..)))
  | step h ht _ ih =>
    rcases blank_of_next h ht hd with hblank | hspan | ⟨before', hd', hoffset⟩
    · exact .inl hblank
    · exact .inr (.inl ⟨_, List.mem_cons_self .., hspan⟩)
    · rcases hoffset ▸ ih hd' with hblank | ⟨t, ht, hspan⟩ | hleft
      · exact .inl hblank
      · exact .inr (.inl ⟨t, List.mem_cons_of_mem _ ht, hspan⟩)
      · exact .inr (.inr hleft)

/-- Nothing is lost on the way to the blanks at the end. -/
theorem Reads.lossless (h : c.Reads ts c') (hend : ∀ b ∈ c'.rest, isBlank b = true) : Lossless c.rest c.offset ts where
  inOrder := by
    rw [← h.byteLength_eq]
    exact h.inOrder.mono (Nat.le_refl _) (Nat.le_add_right ..)
  stands := h.standsAt ⟨[], rfl, rfl⟩
  blank before d after hd := by
    rcases h.blank hd with hblank | hspan | hleft
    · exact .inl hblank
    · exact .inr hspan
    · exact .inl (hend d hleft)
  lexes := h.lexes
  named t ht name hname := by
    have hlexes := h.lexes t ht
    rw [hname] at hlexes
    exact (eq_of_lexes_identifier hlexes).symm

end Cursor

/-- The end token has no characters, and those are the end token alone. -/
theorem tokenizeAt_endToken : tokenizeAt (endToken 0).text 0 = .ok [endToken 0] := by
  have htokens : (Cursor.ofSource (endToken 0).text 0).tokens = .ok ([], 0) := Cursor.tokens_nil 0 false
  exact tokenizeAt_eq_ok_iff.mpr htokens

/-- A text is made of its tokens and of blanks, with the end token behind it; without tokens, it is at fault behind
those that were read of it. -/
theorem tokenizeAt_lossless (source : String) (base : Nat) :
    match tokenizeAt source base with
    | .ok tokens => ∃ ts, tokens = ts ++ [endToken (base + byteLength source.toList)] ∧ (∀ t ∈ ts, t.kind ≠ .eof) ∧
        Lossless source.toList base ts ∧ tokenizeAt (endToken 0).text 0 = .ok [endToken 0]
    | .error e => ∃ ts : List Token, (Cursor.ofSource source base).run (ts.length + 1) = ts.map .ok ++ [.error e] ∧
        (∀ t ∈ ts, t.kind ≠ .eof) ∧ InOrder base (ts.map Token.span) e.span.start ∧ e.span.start ≤ e.span.stop ∧
        e.span.stop ≤ base + byteLength source.toList := by
  cases htokens : (Cursor.ofSource source base).tokens with
  | ok p =>
    obtain ⟨ts, stop⟩ := p
    obtain ⟨c', hreads, hblank, rfl⟩ := Cursor.exists_reads_of_tokens htokens
    rw [tokenizeAt_eq_ok_iff.mpr htokens]
    exact ⟨ts, by rw [hreads.byteLength_eq]; rfl, hreads.kind_ne_eof, hreads.lossless hblank, tokenizeAt_endToken⟩
  | error e =>
    obtain ⟨ts, c', hreads, he⟩ := Cursor.exists_reads_of_tokens_error htokens
    obtain ⟨hle, hspan, hstop⟩ := Cursor.within_of_next_error he
    rw [tokenizeAt, htokens]
    refine ⟨ts, ?_, hreads.kind_ne_eof, hreads.inOrder.mono (Nat.le_refl _) hle, hspan, ?_⟩
    · rw [hreads.run_add, Cursor.run, he]
      rfl
    · rwa [hreads.byteLength_eq] at hstop

/-- Behind a name the period is a token of its own, although a number could begin with it. -/
example : (tokenizeAt "a.5 + .5" 0).toOption.map (List.map Token.text) = some ["a", ".", "5", "+", ".5", ""] := by
  decide +kernel

end TemplateSyntax.Expr
