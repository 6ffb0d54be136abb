import TemplateSyntax.Proofs.Expr.Spans
import TemplateSyntax.Proofs.Text.Boundary

/-!
# Places of faults

What is wrong with an expression is told of a token, of an expression that was read already, or of the end of the text.
All of these begin and end where tokens do, so the span of an error begins and ends at boundaries of characters and
lies in the text (`sits_of_parseAt`).
-/

namespace TemplateSyntax.Expr

open TemplateSyntax.Span (InOrder)
open Text (IsBoundary isBlank byteLength)

/-! ### Spans between given offsets -/

/-- The span runs from one offset in `P` to another. -/
structure Sits (P : Nat → Prop) (s : Span) : Prop where
  le : s.start ≤ s.stop
  start : P s.start
  stop : P s.stop

/-- The spans lie one behind the other and run from offsets in `P` to others. -/
def Laid (P : Nat → Prop) (ss : List Span) : Prop :=
  (∃ a b, InOrder a ss b) ∧ ∀ s ∈ ss, P s.start ∧ P s.stop

variable {P : Nat → Prop} {s t : Span} {ss ss' mid : List Span}

theorem Laid.sublist (h : Laid P ss) (hsub : ss'.Sublist ss) : Laid P ss' := by
  obtain ⟨⟨a, b, hin⟩, hends⟩ := h
  exact ⟨⟨a, b, hin.sublist hsub⟩, fun s hs => hends s (hsub.subset hs)⟩

theorem Laid.sits (h : Laid P ss) (hs : s ∈ ss) : Sits P s := by
  obtain ⟨⟨a, b, hin⟩, hends⟩ := h
  obtain ⟨-, hlt, -⟩ := hin.of_mem hs
  exact ⟨Nat.le_of_lt hlt, (hends s hs).1, (hends s hs).2⟩

/-- The spans from `s` to `t` may be joined. -/
theorem Laid.upTo (h : Laid P (ss ++ (s :: mid ++ t :: ss'))) : Laid P (ss ++ s.upTo t :: ss') := by
  obtain ⟨⟨a, b, hin⟩, hends⟩ := h
  obtain ⟨m, hss, hin⟩ := Span.inOrder_append.mp hin
  refine ⟨⟨a, b, Span.inOrder_append.mpr ⟨m, hss, hin.upTo.1⟩⟩, ?_⟩
  have hs := hends s (by simp)
  have ht := hends t (by simp)
  intro u hu
  rcases List.mem_append.mp hu with hu | hu
  · exact hends u (List.mem_append_left _ hu)
  · rcases List.mem_cons.mp hu with rfl | hu
    · exact ⟨hs.1, ht.2⟩
    · exact hends u (by simp [hu])

theorem Laid.upTo_next (h : Laid P (ss ++ s :: t :: ss')) : Laid P (ss ++ s.upTo t :: ss') :=
  @Laid.upTo P s t ss ss' [] h

/-! ### Outcomes -/

/-- The spans that `spans` finds in a value are laid, and the span of an error sits between offsets in `P`. -/
def Lands {α : Type} (P : Nat → Prop) (spans : α → List Span) : Except ExprError α → Prop
  | .ok a => Laid P (spans a)
  | .error e => Sits P e.span

namespace Outcome

variable {α β : Type} {m n : Nat} {spans : α → List Span} {spans' : β → List Span}

/-- The spans of the value lie behind `ss` and in front of the tokens that are left. -/
def Places (P : Nat → Prop) (ss : List Span) (spans : α → List Span) : Outcome α n → Prop
  | .ok a rest _ => Laid P (ss ++ (spans a ++ rest.map Token.span))
  | .error e _ _ => Sits P e.span

theorem Places.bind {o : Outcome α m} {h : m ≤ n} {f : (a : α) → (rest : List Token) → rest.length < m → Outcome β n}
    (ho : o.Places P ss spans)
    (hf : ∀ a rest used, Laid P (ss ++ (spans a ++ rest.map Token.span)) → (f a rest used).Places P ss' spans') :
    (o.bind h f).Places P ss' spans' := by
  cases o with
  | ok a rest used => exact hf a rest used ho
  | error e rest kept => exact ho

theorem places_map {f : α → β} {o : Outcome α n} : (o.map f).Places P ss spans' ↔ o.Places P ss (spans' ∘ f) := by
  cases o <;> rfl

theorem places_widen {h : m ≤ n} {o : Outcome α m} : (o.widen h).Places P ss spans ↔ o.Places P ss spans := by
  cases o <;> rfl

theorem Places.mono {o : Outcome α n} {spans' : α → List Span} (ho : o.Places P ss spans)
    (h : ∀ a rest, Laid P (ss ++ (spans a ++ rest)) → Laid P (ss' ++ (spans' a ++ rest))) :
    o.Places P ss' spans' := by
  cases o with
  | ok a rest used => exact h a _ ho
  | error e rest kept => exact ho

end Outcome

namespace Reader

open Outcome

/-! ### Chains -/

theorem lands_join? (ss : List Span) {op : InfixOp} {left right : Expr}
    (h : Laid P (ss ++ left.span :: right.span :: ss')) :
    Lands P (fun e => ss ++ e.span :: ss') (join? op left right) := by
  unfold join?
  split
  · exact h.sits (List.mem_append_right _ (List.mem_cons_self ..))
  · exact h.upTo_next

theorem lands_release (op : InfixOp) {held : Held} {right : Expr}
    (h : Laid P (ss ++ (held.reverse.map (fun p => p.1.span) ++ right.span :: ss'))) :
    Lands P (fun p => ss ++ (p.1.reverse.map (fun p => p.1.span) ++ p.2.span :: ss')) (release op held right) := by
  induction held generalizing right with
  | nil => exact h
  | cons first held ih =>
    obtain ⟨left, op'⟩ := first
    unfold release
    split
    · have hjoin : Lands P _ (join? op' left right) :=
        lands_join? (ss ++ held.reverse.map fun p => p.1.span) (by simpa using h)
      cases hj : join? op' left right with
      | error e => rw [hj] at hjoin; exact hjoin
      | ok e =>
        rw [hj] at hjoin
        exact ih (by simpa [Lands] using hjoin)
    · exact h

theorem lands_releaseAll {held : Held} {right : Expr}
    (h : Laid P (ss ++ (held.reverse.map (fun p => p.1.span) ++ right.span :: ss'))) :
    Lands P (fun e => ss ++ e.span :: ss') (releaseAll held right) := by
  induction held generalizing right with
  | nil => exact h
  | cons first held ih =>
    obtain ⟨left, op'⟩ := first
    unfold releaseAll
    have hjoin : Lands P _ (join? op' left right) :=
      lands_join? (ss ++ held.reverse.map fun p => p.1.span) (by simpa using h)
    cases hj : join? op' left right with
    | error e => rw [hj] at hjoin; exact hjoin
    | ok e =>
      rw [hj] at hjoin
      exact ih (by simpa [Lands] using hjoin)

/-- A wrong target of an assignment is what was read in front of it. -/
theorem lands_resolve {held : Held} {operand : Expr} {links : List (InfixOp × Expr)}
    (h : Laid P (ss ++ (held.reverse.map (fun p => p.1.span) ++
      operand.span :: (links.map (fun l => l.2.span) ++ ss')))) :
    Lands P (fun e => ss ++ e.span :: ss') (resolve held operand links) := by
  induction links generalizing held operand with
  | nil => exact lands_releaseAll h
  | cons link links ih =>
    obtain ⟨op, next⟩ := link
    unfold resolve
    have hrelease := lands_release op h
    cases hr : release op held operand with
    | error e => rw [hr] at hrelease; exact hrelease
    | ok released =>
      obtain ⟨held, left⟩ := released
      rw [hr] at hrelease
      exact ih (by simpa [Lands] using hrelease)

/-! ### Groups -/

theorem places_closing (b : Bracket) {opener : Span} (hopener : Sits P opener) {ts : List Token}
    (h : Laid P (ss ++ ts.map Token.span)) : (closing b opener ts).Places P ss fun close => [close] := by
  cases ts with
  | nil => exact hopener
  | cons t ts =>
    rw [closing]
    split
    · exact h
    · exact h.sits (List.mem_append_right _ (List.mem_cons_self ..))

section Readers

variable {stop : Nat} {item : Reader Expr} (hitem : ∀ {ss : List Span} {ts : List Token},
  Laid P (ss ++ ts.map Token.span) → (item ts).Places P ss fun e => [e.span])

include hitem

theorem places_elements (b : Bracket) {opener : Span} (hopener : Sits P opener) {ts : List Token}
    (h : Laid P (ss ++ ts.map Token.span)) : (elements item b opener ts).Places P ss fun p => [p.2] := by
  match ts with
  | [] =>
    rw [elements]
    exact hopener
  | t :: ts =>
    rw [elements]
    split
    · exact h
    · refine (hitem h).bind fun x rest used hrest => ?_
      cases rest with
      | nil => exact hopener
      | cons sep rest =>
        have hlt : rest.length < (t :: ts).length := Nat.lt_of_succ_lt used
        dsimp only
        split
        · rw [places_widen, places_map]
          exact places_elements b hopener (hrest.sublist (by simp))
        · split
          · exact hrest.sublist (by simp)
          · exact hrest.sits (by simp)
termination_by ts.length
decreasing_by exact hlt

theorem places_entries {opener : Span} (hopener : Sits P opener) {ts : List Token}
    (h : Laid P (ss ++ ts.map Token.span)) : (entries item opener ts).Places P ss fun p => [p.2] := by
  rw [entries]
  refine (hitem h).bind fun key rest used hrest => ?_
  cases rest with
  | nil => exact hopener
  | cons colon rest =>
    have hlt : rest.length < ts.length := Nat.lt_of_succ_lt used
    dsimp only
    split
    · have hvalue : Laid P (ss ++ rest.map Token.span) := hrest.sublist (by simp)
      refine (hitem hvalue).bind fun value rest' used' hrest' => ?_
      cases rest' with
      | nil => exact hopener
      | cons sep rest' =>
        have hlt' : rest'.length < ts.length := Nat.lt_trans (Nat.lt_of_succ_lt used') hlt
        dsimp only
        split
        · rw [places_widen, places_map]
          exact places_entries hopener (hrest'.sublist (by simp))
        · split
          · exact hrest'.sublist (by simp)
          · exact hrest'.sits (by simp)
    · exact hrest.sits (by simp)
termination_by ts.length
decreasing_by exact hlt'

theorem places_mapBody {opener : Span} (hopener : Sits P opener) {ts : List Token}
    (h : Laid P (ss ++ ts.map Token.span)) : (mapBody item opener ts).Places P ss fun p => [p.2] := by
  cases ts with
  | nil => exact places_entries hitem hopener h
  | cons t ts =>
    rw [mapBody]
    split
    · exact h
    · exact places_entries hitem hopener h

/-! ### Operands -/

omit hitem in
theorem sits_nextSpan (hstop : P stop) {ts : List Token} (h : Laid P (ss ++ ts.map Token.span)) :
    Sits P (nextSpan stop ts) := by
  cases ts with
  | nil => exact ⟨Nat.le_refl _, hstop, hstop⟩
  | cons t ts => exact h.sits (by simp [nextSpan])

variable (hstop : P stop)

include hstop

theorem places_primary {ts : List Token} (h : Laid P (ss ++ ts.map Token.span)) :
    (primary stop item ts).Places P ss fun e => [e.span] := by
  cases ts with
  | nil => exact ⟨Nat.le_refl _, hstop, hstop⟩
  | cons t ts =>
    have ht : Sits P t.span := h.sits (by simp)
    have hbehind : Laid P ((ss ++ [t.span]) ++ ts.map Token.span) := by simpa using h
    rw [primary]
    split
    · exact h
    · exact h
    · next name _ =>
      have hnamed : (named name t).span = t.span := (named_leaf name t).1
      simpa [Places, hnamed] using h
    · rw [places_widen, places_map]
      exact (places_elements hitem .square ht hbehind).mono fun p rest hrest =>
        Laid.upTo_next (by simpa using hrest)
    · rw [places_widen, places_map]
      exact (places_mapBody hitem ht hbehind).mono fun p rest hrest => Laid.upTo_next (by simpa using hrest)
    · -- the parentheses are left out
      have hinner : Laid P (ss ++ ts.map Token.span) := h.sublist (by simp)
      refine (hitem hinner).bind fun e rest used hrest => ?_
      rw [places_widen, places_map]
      have hclosing : Laid P ((ss ++ [e.span]) ++ rest.map Token.span) := by simpa using hrest
      exact (places_closing .paren ht hclosing).mono fun close rest hrest => hrest.sublist (by simp)
    · exact ht

theorem places_suffix? {e : Expr} {ts : List Token} (h : Laid P (ss ++ e.span :: ts.map Token.span))
    {o : Outcome Expr ts.length} (ho : suffix? stop item e ts = some o) : o.Places P ss fun e => [e.span] := by
  cases ts with
  | nil => cases ho
  | cons t ts =>
    have ht : Sits P t.span := h.sits (by simp)
    have he : Sits P e.span := h.sits (by simp)
    have hbehind : Laid P ((ss ++ [e.span, t.span]) ++ ts.map Token.span) := by simpa using h
    unfold suffix? at ho
    dsimp only at ho
    split at ho
    · split at ho
      · cases ho
        have hboth := @Laid.upTo P e.span _ ss _ [t.span] h
        exact hboth
      · cases ho
        exact sits_nextSpan hstop hbehind
    · cases ho
      refine (hitem hbehind).bind fun key rest used hrest => ?_
      rw [places_widen, places_map]
      have hclosing : Laid P ((ss ++ [e.span, t.span, key.span]) ++ rest.map Token.span) := by simpa using hrest
      refine (places_closing .square ht hclosing).mono fun close rest hrest => ?_
      exact @Laid.upTo P e.span close ss rest [t.span, key.span] (by simpa using hrest)
    · cases ho
      rw [places_widen, places_map]
      refine (places_elements hitem .paren ht hbehind).mono fun p rest hrest => ?_
      exact @Laid.upTo P e.span p.2 ss rest [t.span] (by simpa using hrest)
    · obtain ⟨op, hop, rfl⟩ := Option.map_eq_some_iff.mp ho
      split
      · exact h.upTo_next
      · exact he

theorem places_suffixes {m : Nat} {e : Expr} {ts : List Token} (h : ts.length < m)
    (hin : Laid P (ss ++ e.span :: ts.map Token.span)) :
    (suffixes stop item e ts h).Places P ss fun e => [e.span] := by
  rw [suffixes]
  split
  · exact hin
  · next o ho =>
    refine (places_suffix? hitem hstop hin ho).bind fun e rest h' hrest => ?_
    exact places_suffixes _ hrest
termination_by ts.length
decreasing_by exact h'

theorem places_operand {ts : List Token} (h : Laid P (ss ++ ts.map Token.span)) :
    (operand stop item ts).Places P ss fun e => [e.span] :=
  (places_primary hitem hstop h).bind fun _ _ used hrest => places_suffixes hitem hstop used hrest

theorem places_unary {ts : List Token} (h : Laid P (ss ++ ts.map Token.span)) :
    (unary stop item ts).Places P ss fun e => [e.span] := by
  induction ts generalizing ss with
  | nil => exact places_operand hitem hstop h
  | cons t ts ih =>
    have hbehind : Laid P ((ss ++ [t.span]) ++ ts.map Token.span) := by simpa using h
    unfold unary
    split
    · refine (ih hbehind).bind fun e rest used hrest => ?_
      exact Laid.upTo_next (by simpa using hrest)
    · refine (ih hbehind).bind fun e rest used hrest => ?_
      split
      · exact Laid.upTo_next (by simpa using hrest)
      · exact hrest.sits (by simp)
    · exact places_operand hitem hstop h

/-! ### Expressions -/

theorem places_chain {m : Nat} (ss : List Span) {ts : List Token} (h : ts.length < m)
    (hin : Laid P (ss ++ ts.map Token.span)) :
    (chain stop item ts h).Places P ss fun links => links.map fun l => l.2.span := by
  match ts, h, hin with
  | [], _, hin =>
    rw [chain]
    exact hin
  | t :: ts, h, hin =>
    rw [chain]
    split
    · exact hin
    · split
      · exact hin.sits (by simp)
      · have hbehind : Laid P (ss ++ ts.map Token.span) := hin.sublist (by simp)
        refine (places_unary hitem hstop hbehind).bind fun e rest h' hrest => ?_
        have hlt : rest.length < (t :: ts).length := Nat.lt_succ_of_lt h'
        rw [places_map]
        have hlinks : Laid P ((ss ++ [e.span]) ++ rest.map Token.span) := by simpa using hrest
        exact (places_chain (ss ++ [e.span]) _ hlinks).mono fun links rest hrest => by simpa using hrest
termination_by ts.length
decreasing_by exact hlt

theorem places_expressionOver {ts : List Token} (h : Laid P (ss ++ ts.map Token.span)) :
    (expressionOver stop item ts).Places P ss fun e => [e.span] := by
  refine (places_unary hitem hstop h).bind fun first rest used hrest => ?_
  have hchain : Laid P ((ss ++ [first.span]) ++ rest.map Token.span) := by simpa using hrest
  refine (places_chain hitem hstop (ss ++ [first.span]) used hchain).bind fun links rest used hrest => ?_
  have hlands : Lands P _ (resolve [] first links) := lands_resolve (by simpa using hrest)
  split
  · next hresolve => rw [hresolve] at hlands; exact hlands
  · next hresolve => rw [hresolve] at hlands; exact hlands

end Readers

theorem places_expression {stop : Nat} (hstop : P stop) {ts : List Token} (h : Laid P (ss ++ ts.map Token.span)) :
    (expression stop ts).Places P ss fun e => [e.span] := by
  have hwithin (depth : Nat) : ∀ {ss : List Span} {ts : List Token}, Laid P (ss ++ ts.map Token.span) →
      (expressionWithin stop depth ts).Places P ss fun e => [e.span] := by
    induction depth with
    | zero => exact fun h => sits_nextSpan hstop h
    | succ depth ih => exact fun h => places_expressionOver ih hstop h
  exact hwithin ts.length h

theorem sits_of_items {stop : Nat} (hstop : P stop) {ts : List Token} {e : ExprError} (h : items stop ts = .error e)
    (hin : Laid P (ts.map Token.span)) : Sits P e.span := by
  induction hn : ts.length using Nat.strongRecOn generalizing ts with
  | ind n ih =>
    cases ts with
    | nil =>
      rw [items] at h
      cases h
    | cons t ts =>
      rw [items] at h
      split at h
      · exact ih ts.length (hn ▸ Nat.lt_succ_self _) h (hin.sublist (List.sublist_cons_self _ _)) rfl
      · have hfirst : (expression stop (t :: ts)).Places P [] fun e => [e.span] := places_expression hstop hin
        split at h
        · next heq =>
          rw [heq] at hfirst
          cases h
          exact hfirst
        · next e' rest used heq =>
          rw [heq] at hfirst
          split at h
          · next hrest =>
            cases h
            have hfirst : Laid P (e'.span :: rest.map Token.span) := hfirst
            exact ih rest.length (hn ▸ used) hrest (hfirst.sublist (List.sublist_cons_self _ _)) rfl
          · cases h

end Reader

/-! ### Texts -/

/-- The offset is at a boundary of a text whose first byte has offset `base`. -/
def Bounds (cs : List Char) (base n : Nat) : Prop :=
  ∃ k, n = base + k ∧ IsBoundary cs k

/-- Just `rest` stands behind the offset in a text whose first byte has offset `base`. -/
def Faces (cs : List Char) (base : Nat) (rest : List Char) (n : Nat) : Prop :=
  ∃ before, cs = before ++ rest ∧ n = base + byteLength before

section Texts

variable {cs used rest : List Char} {base n : Nat}

theorem Faces.bounds (h : Faces cs base rest n) : Bounds cs base n := by
  obtain ⟨before, hcs, hn⟩ := h
  exact ⟨byteLength before, hn, before, rest, hcs, rfl⟩

theorem Faces.append (h : Faces cs base (used ++ rest) n) : Faces cs base rest (n + byteLength used) := by
  obtain ⟨before, rfl, rfl⟩ := h
  refine ⟨before ++ used, (List.append_assoc ..).symm, ?_⟩
  rw [Text.byteLength_append]
  omega

/-- An error is told of what was read or of the character where the reader stopped. -/
theorem sits_faultSpan {r : Reading} (h : Faces cs base (r.used ++ r.rest) n) (fault : Fault) :
    Sits (Bounds cs base) (r.faultSpan n fault) := by
  have hhere := h.append
  have hafter : Bounds cs base (n + byteLength r.used + (r.rest.head?.map Char.utf8Size).getD 0) := by
    cases hrest : r.rest with
    | nil => exact hhere.bounds
    | cons d ds =>
      rw [hrest] at hhere
      have hd := @Faces.append cs [d] ds base _ hhere
      simpa [Text.byteLength] using hd.bounds
  unfold Reading.faultSpan
  split
  · exact ⟨Nat.le_add_right .., h.bounds, hhere.bounds⟩
  · exact ⟨Nat.le_add_right .., hhere.bounds, hafter⟩

namespace Cursor

theorem faces_of_next {c c' : Cursor} {t : Token} (h : c.next = (.ok t, c')) (ht : t.kind ≠ .eof)
    (hc : Faces cs base c.rest c.offset) :
    Faces cs base (t.text.toList ++ c'.rest) t.span.start ∧ Faces cs base c'.rest c'.offset := by
  obtain ⟨hspan, hoffset⟩ := span_of_next h ht
  rw [rest_of_next h ht] at hc
  rw [hspan, hoffset]
  exact ⟨hc.append, hc.append.append⟩

/-- A token runs from one boundary to another, and reading goes on there. -/
theorem Reads.bounds {c c' : Cursor} {ts : List Token} (h : c.Reads ts c') (hc : Faces cs base c.rest c.offset) :
    Faces cs base c'.rest c'.offset ∧ ∀ t ∈ ts, Bounds cs base t.span.start ∧ Bounds cs base t.span.stop := by
  induction h with
  | done c => exact ⟨hc, fun t ht => absurd ht List.not_mem_nil⟩
  | @step c c₁ c₂ t ts h ht _ ih =>
    obtain ⟨hstart, hrest⟩ := faces_of_next h ht hc
    obtain ⟨hend, hts⟩ := ih hrest
    have hstop : t.span.stop = c₁.offset := by rw [(span_of_next h ht).1]
    exact ⟨hend, List.forall_mem_cons.mpr ⟨⟨hstart.bounds, hstop ▸ hrest.bounds⟩, hts⟩⟩

theorem sits_of_next_error {c : Cursor} {e : ExprError} (h : c.next.1 = .error e)
    (hc : Faces cs base c.rest c.offset) : Sits (Bounds cs base) e.span := by
  rw [← List.takeWhile_append_dropWhile (p := isBlank) (l := c.rest)] at hc
  have hskip := hc.append
  unfold next at h
  dsimp only at h
  split at h
  · cases h
  · next d ds hd =>
    rw [hd, ← append_readToken c.afterOperand d ds] at hskip
    rw [Reading.answer] at h
    split at h
    · cases h
    · cases h
      exact sits_faultSpan hskip _

/-- A text is at fault between boundaries. -/
theorem sits_of_tokens_error {c : Cursor} {e : ExprError} (h : c.tokens = .error e)
    (hc : Faces cs base c.rest c.offset) : Sits (Bounds cs base) e.span := by
  obtain ⟨ts, c', hreads, he⟩ := exists_reads_of_tokens_error h
  exact sits_of_next_error he (hreads.bounds hc).1

theorem faces_ofSource (source : String) (base : Nat) :
    Faces source.toList base (ofSource source base).rest (ofSource source base).offset :=
  ⟨[], rfl, rfl⟩

end Cursor

end Texts

/-- What is wrong with a text is told of a part of it. -/
theorem sits_of_parseAt {source : String} {base : Nat} {e : ExprError} (h : parseAt source base = .error e) :
    Sits (Bounds source.toList base) e.span := by
  have hsource := Cursor.faces_ofSource source base
  rcases parseAt_eq_error h with htokens | ⟨ts, stop, htokens, hitems⟩
  · exact Cursor.sits_of_tokens_error htokens hsource
  · obtain ⟨c', hreads, -, -⟩ := Cursor.exists_reads_of_tokens htokens
    obtain ⟨hstop, hin⟩ := Cursor.inOrder_of_tokens htokens
    have hlast : Bounds source.toList base stop := ⟨_, hstop, source.toList, [], (List.append_nil _).symm, rfl⟩
    exact Reader.sits_of_items hlast hitems ⟨⟨_, _, hin⟩, List.forall_mem_map.mpr (hreads.bounds hsource).2⟩

end TemplateSyntax.Expr
