import TemplateSyntax.Proofs.Settling
import TemplateSyntax.Proofs.Expr.Steps

/-!
# Steps come to an end

A step of a cursor never goes back. It passes something of the text, or else its answer is the end token or an
unexpected character, and that answer stays for ever. So after as many steps as there are characters the answers do not
change any more, and the tokens of a text are all read by then (`Cursor.run_settles`).
-/

namespace TemplateSyntax.Expr

open Text (isBlank byteLength)

/-! ### Unexpected characters -/

theorem followFault?_ne_unexpected (cs : List Char) (d : Char) : followFault? cs ≠ some (.unexpectedCharacter d) := by
  intro h
  unfold followFault? at h
  split at h
  · cases h
  · split at h
    · cases h
    · split at h <;> cases h

theorem readNumber_ne_unexpected (cs : List Char) (d : Char) :
    (readNumber cs).result ≠ .error (.unexpectedCharacter d) := by
  have hreading (n : Numeral) (rest : List Char) : (n.reading rest).result ≠ .error (.unexpectedCharacter d) := by
    intro h
    unfold Numeral.reading at h
    dsimp only at h
    split at h
    · next fault hfault =>
      obtain rfl := Except.error.inj h
      exact followFault?_ne_unexpected rest d hfault
    · cases h
  unfold readNumber
  split
  · exact hreading _ _
  · exact hreading _ _
  · intro h
    cases h

/-- Only a character that starts no token is unexpected, and it is left in front of the next reader. -/
theorem eq_of_readToken_unexpected {afterOperand : Bool} {c d : Char} {cs : List Char}
    (h : (readToken afterOperand c cs).result = .error (.unexpectedCharacter d)) :
    readToken afterOperand c cs = ⟨[], c :: cs, .error (.unexpectedCharacter c)⟩ := by
  unfold readToken at h ⊢
  split at h
  · exact absurd h (readNumber_ne_unexpected (c :: cs) d)
  · next hnumber =>
    rw [if_neg hnumber]
    split at h
    · unfold readString at h
      dsimp only at h
      split at h <;> cases h
    · next hquote =>
      rw [if_neg hquote]
      split at h
      · cases h
      · next hname =>
        rw [if_neg hname]
        unfold readPunctuator at h ⊢
        split at h
        · cases h
        · rfl

namespace Cursor

variable {c c' : Cursor} {ts : List Token}

/-- The end token, or a character that starts no token. -/
def IsLast : Except ExprError Token → Prop
  | .ok t => t.kind = .eof
  | .error e => ∃ d, e.fault = .unexpectedCharacter d

/-! ### A single step -/

/-- A step passes what it used of the text, and when that is nothing its answer is a last one. -/
theorem exists_passed (c : Cursor) :
    ∃ passed, c.rest = passed ++ c.next.2.rest ∧ c.next.2.offset = c.offset + byteLength passed ∧
      (passed = [] → IsLast c.next.1) := by
  have hsplit := List.takeWhile_append_dropWhile (p := isBlank) (l := c.rest)
  unfold next
  dsimp only
  split
  · next hnil =>
    rw [hnil, List.append_nil] at hsplit
    refine ⟨c.rest, (List.append_nil _).symm, by rw [hsplit], fun _ => rfl⟩
  · next d ds hrest =>
    have happend := append_readToken c.afterOperand d ds
    refine ⟨c.rest.takeWhile isBlank ++ (readToken c.afterOperand d ds).used, ?_, ?_, ?_⟩
    · rw [List.append_assoc, happend, ← hrest, hsplit]
    · rw [Text.byteLength_append, Nat.add_assoc]
    · intro hnil
      have hused := (List.append_eq_nil_iff.mp hnil).2
      have hread := (used_ne_nil_or c.afterOperand d ds).resolve_left (fun hne => hne hused)
      rw [hread]
      exact ⟨d, rfl⟩

/-- Behind a last answer the step is repeated. -/
theorem next_next_of_isLast (h : IsLast c.next.1) : c.next.2.next = c.next := by
  have hhead := List.head?_dropWhile_not isBlank c.rest
  cases hrest : c.rest.dropWhile isBlank with
  | nil =>
    have hnext : c.next = (.ok (endToken (c.offset + byteLength (c.rest.takeWhile isBlank))),
        ⟨[], c.offset + byteLength (c.rest.takeWhile isBlank), c.afterOperand⟩) := by
      simp only [next, hrest]
    rw [hnext]
    rfl
  | cons d ds =>
    rw [hrest] at hhead
    have hd : isBlank d = false := hhead
    -- no token was read there, so no kind of token is the last one
    have hread : readToken c.afterOperand d ds = ⟨[], d :: ds, .error (.unexpectedCharacter d)⟩ := by
      simp only [next, hrest, Reading.answer] at h
      split at h
      · next kind hkind => exact absurd h (kind_ne_eof_of_readToken hkind)
      · next fault hfault =>
        obtain ⟨d', rfl⟩ := h
        exact eq_of_readToken_unexpected hfault
    simp [next, hrest, hd, hread]

theorem settled_of_isLast (h : IsLast c.next.1) : Settled next c.next.1 c :=
  settled_of_repeat (next_next_of_isLast h)

theorem length_lt_or_isLast (c : Cursor) : c.next.2.rest.length < c.rest.length ∨ IsLast c.next.1 := by
  obtain ⟨passed, hrest, -, hlast⟩ := exists_passed c
  by_cases hnil : passed = []
  · exact .inr (hlast hnil)
  · have hpos := List.length_pos_iff.mpr hnil
    rw [hrest, List.length_append]
    exact .inl (by omega)

/-! ### Steps in a row -/

theorem run_eq_answers (n : Nat) (c : Cursor) : c.run n = answers next n c := by
  induction n generalizing c with
  | zero => rfl
  | succ n ih => rw [run, answers, ih]

theorem Reads.length_le (h : c.Reads ts c') : ts.length ≤ c.rest.length := by
  induction h with
  | done c => exact Nat.zero_le _
  | step h ht _ ih =>
    have hlt := length_lt_of_next h ht
    rw [List.length_cons]
    omega

/-- All tokens of a text are read in no more steps than it has characters, and the next step says how it ends. -/
theorem exists_run_eq_tokenizeAt (source : String) (base : Nat) :
    ∃ ts : List Token, ts.length ≤ source.length ∧ (∀ t ∈ ts, t.kind ≠ .eof) ∧
      match tokenizeAt source base with
      | .ok tokens =>
        ∃ stop, tokens = ts ++ [endToken stop] ∧ (ofSource source base).run (ts.length + 1) = tokens.map .ok
      | .error e => (ofSource source base).run (ts.length + 1) = ts.map .ok ++ [.error e] := by
  unfold tokenizeAt
  cases htokens : (ofSource source base).tokens with
  | ok p =>
    obtain ⟨ts, stop⟩ := p
    obtain ⟨c', hreads, hblank, rfl⟩ := exists_reads_of_tokens htokens
    refine ⟨ts, hreads.length_le, hreads.kind_ne_eof, _, rfl, ?_⟩
    have hnext := next_blanks hblank [] c'.offset c'.afterOperand
    rw [List.append_nil] at hnext
    rw [hreads.run_add, run, hnext, List.map_append]
    rfl
  | error e =>
    obtain ⟨ts, c', hreads, he⟩ := exists_reads_of_tokens_error htokens
    refine ⟨ts, hreads.length_le, hreads.kind_ne_eof, ?_⟩
    dsimp only
    rw [hreads.run_add, run, he]
    rfl

/-- Each step goes forward or gives a last answer, and a last answer stays. So from as many steps as there are
characters on all answers are the same, and the tokens of a text have been read by then. -/
theorem run_settles (source : String) (base : Nat) :
    let start := ofSource source base
    let cursor := fun n => stateAfter next n start
    (∀ n, ∃ passed, (cursor n).rest = passed ++ (cursor (n + 1)).rest ∧
      (cursor (n + 1)).offset = (cursor n).offset + byteLength passed ∧ (passed = [] → IsLast (cursor n).next.1)) ∧
    (∀ n k, IsLast (cursor n).next.1 → (cursor (n + k)).next.1 = (cursor n).next.1) ∧
    (∃ answer, ∀ n, start.run (source.length + n) = start.run source.length ++ List.replicate n answer) ∧
    ∃ ts : List Token, ts.length ≤ source.length ∧ (∀ t ∈ ts, t.kind ≠ .eof) ∧
      match tokenizeAt source base with
      | .ok tokens => ∃ stop, tokens = ts ++ [endToken stop] ∧ start.run (ts.length + 1) = tokens.map .ok
      | .error e => start.run (ts.length + 1) = ts.map .ok ++ [.error e] := by
  refine ⟨?_, ?_, ?_, exists_run_eq_tokenizeAt source base⟩
  · intro n
    dsimp only
    rw [stateAfter_succ]
    exact exists_passed _
  · intro n k h
    dsimp only
    rw [stateAfter_add]
    exact settled_of_isLast h k
  · have hstep : ∀ c : Cursor, c.next.2.rest.length < c.rest.length ∨ ∃ a, Settled next a c :=
      fun c => (length_lt_or_isLast c).imp_right fun h => ⟨_, settled_of_isLast h⟩
    have hlength : (ofSource source base).rest.length ≤ source.length := Nat.le_refl _
    obtain ⟨answer, hanswer⟩ := exists_answers_eq (fun c : Cursor => c.rest.length) hstep hlength
    refine ⟨answer, fun n => ?_⟩
    rw [run_eq_answers, run_eq_answers, hanswer n]

/-- Behind a name and an unclosed string nothing is left, and in front of an unexpected character nothing is passed. -/
theorem run_settles_unexpected :
    IsLast (stateAfter next 2 (ofSource "a 'b" 0)).next.1 ∧
      (stateAfter next (2 + 5) (ofSource "a 'b" 0)).next.1 = .ok (endToken 4) ∧
      IsLast (stateAfter next 1 (ofSource "a #b" 0)).next.1 ∧
      (stateAfter next (1 + 5) (ofSource "a #b" 0)).next.1 = .error ⟨.unexpectedCharacter '#', ⟨2, 3⟩⟩ := by
  have hend : (stateAfter next 2 (ofSource "a 'b" 0)).next.1 = .ok (endToken 4) := by decide
  have hfault : (stateAfter next 1 (ofSource "a #b" 0)).next.1 = .error ⟨.unexpectedCharacter '#', ⟨2, 3⟩⟩ := by decide
  have hlast : IsLast (stateAfter next 2 (ofSource "a 'b" 0)).next.1 := by rw [hend]; rfl
  have hlast' : IsLast (stateAfter next 1 (ofSource "a #b" 0)).next.1 := by rw [hfault]; exact ⟨'#', rfl⟩
  obtain ⟨-, hstays, -⟩ := run_settles "a 'b" 0
  obtain ⟨-, hstays', -⟩ := run_settles "a #b" 0
  exact ⟨hlast, (hstays 2 5 hlast).trans hend, hlast', (hstays' 1 5 hlast').trans hfault⟩

end Cursor

end TemplateSyntax.Expr
