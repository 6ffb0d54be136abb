import Mathlib.Data.List.TakeWhile
import TemplateSyntax.Proofs.Expr.Relexing

/-!
# One token after the other

A text is read in steps, one token after the other, until just blanks are left or a step fails (`Cursor.exists_reads`).
A step reads the same token behind other blanks, and in front of any text that does not run together with it
(`Cursor.next_loosens`). So what is read in front of a character that ends every token does not depend on what follows
it (`Cursor.Reads.append`).
-/

namespace TemplateSyntax.Expr

open Text (isBlank byteLength)

namespace Cursor

/-! ### A single step -/

section Step

variable {c c' : Cursor} {t : Token}

/-- A token stands behind blanks, and its text is used up. -/
theorem exists_of_next (h : c.next = (.ok t, c')) (ht : t.kind ≠ .eof) :
    ∃ d ds, c.rest = c.rest.takeWhile isBlank ++ d :: (ds ++ c'.rest) ∧ isBlank d = false ∧ t.text.toList = d :: ds ∧
      readToken c.afterOperand d (ds ++ c'.rest) = ⟨d :: ds, c'.rest, .ok t.kind⟩ ∧
      c'.afterOperand = t.kind.endsOperand := by
  rcases next_eq_ok h with ⟨-, rfl, -⟩ | ⟨d, ds, rest, kind, hrest, hd, -, hread, rfl, rfl⟩
  · exact absurd rfl ht
  · have hsplit := List.takeWhile_append_dropWhile (p := isBlank) (l := c.rest)
    rw [hrest] at hsplit
    exact ⟨d, ds, hsplit.symm, hd, String.toList_ofList, hread, rfl⟩

theorem rest_of_next (h : c.next = (.ok t, c')) (ht : t.kind ≠ .eof) :
    c.rest = c.rest.takeWhile isBlank ++ (t.text.toList ++ c'.rest) := by
  obtain ⟨d, ds, hrest, -, htext, -⟩ := exists_of_next h ht
  rw [htext]
  exact hrest

theorem span_of_next (h : c.next = (.ok t, c')) (ht : t.kind ≠ .eof) :
    t.span = ⟨c.offset + byteLength (c.rest.takeWhile isBlank), c'.offset⟩ ∧
      c'.offset = c.offset + byteLength (c.rest.takeWhile isBlank) + byteLength t.text.toList := by
  rcases next_eq_ok h with ⟨-, rfl, -⟩ | ⟨d, ds, rest, kind, -, -, -, -, rfl, rfl⟩
  · exact absurd rfl ht
  · exact ⟨rfl, by rw [String.toList_ofList]⟩

/-- The characters of a token alone are that token. -/
theorem lexes_of_next (h : c.next = (.ok t, c')) (ht : t.kind ≠ .eof) : Lexes t.text t.kind := by
  obtain ⟨d, ds, -, hd, htext, hread, -⟩ := exists_of_next h ht
  exact lexes_of_readToken htext hd (readToken_alone hread)

theorem tokens_of_next (h : c.next = (.ok t, c')) (ht : t.kind ≠ .eof) :
    c.tokens = c'.tokens.map fun (ts, stop) => (t :: ts, stop) := by
  rw [tokens_eq, h]
  dsimp only
  rw [if_neg ht]
  cases c'.tokens <;> rfl

theorem dropWhile_of_next_eof (h : c.next = (.ok t, c')) (ht : t.kind = .eof) : c.rest.dropWhile isBlank = [] := by
  rcases next_eq_ok h with ⟨hnil, -⟩ | ⟨d, ds, rest, kind, -, -, hkind, -, rfl, -⟩
  · exact hnil
  · exact absurd ht hkind

/-- The token is read in the same way behind other blanks and in front of a loosened text, if a number may start there
just where it could. -/
theorem next_loosens (h : c.next = (.ok t, c')) (ht : t.kind ≠ .eof) {afterOperand : Bool}
    (hstart : ∀ d ds, t.text.toList = d :: ds →
      startsNumber afterOperand d (ds ++ c'.rest) = startsNumber c.afterOperand d (ds ++ c'.rest))
    {blanks rest' : List Char} (hblanks : ∀ b ∈ blanks, isBlank b = true) (hrest : Loosens c'.rest rest')
    (offset : Nat) :
    let start := offset + byteLength blanks
    let stop := start + byteLength t.text.toList
    (⟨blanks ++ (t.text.toList ++ rest'), offset, afterOperand⟩ : Cursor).next =
      (.ok { t with span := ⟨start, stop⟩ }, ⟨rest', stop, c'.afterOperand⟩) := by
  obtain ⟨d, ds, -, hd, htext, hread, hafter⟩ := exists_of_next h ht
  have hloose : Loosens (readToken c.afterOperand d (ds ++ c'.rest)).rest rest' := by
    rw [hread]
    exact hrest
  obtain ⟨ds', hused, hread'⟩ := readToken_loosens (by rw [hread]) hloose (hstart d ds htext)
  rw [hread] at hused
  obtain rfl : ds = ds' := (List.cons.inj hused).2
  dsimp only
  rw [next_blanks hblanks, htext, List.cons_append, next_of_readToken hd hread', hafter, ← htext, String.ofList_toList]

end Step

/-! ### Steps in a row -/

/-- From the first cursor to the second the tokens are read, one after the other. -/
inductive Reads : Cursor → List Token → Cursor → Prop
  | done (c : Cursor) : Reads c [] c
  | step {c c' c'' : Cursor} {t : Token} {ts : List Token} (h : c.next = (.ok t, c')) (ht : t.kind ≠ .eof)
      (hs : Reads c' ts c'') : Reads c (t :: ts) c''

variable {c c' : Cursor} {ts : List Token} {stop : Nat} {e : ExprError}

/-- Reading goes on until just blanks are left, or until a step fails. -/
theorem exists_reads (c : Cursor) :
    ∃ ts c', c.Reads ts c' ∧ ((∀ b ∈ c'.rest, isBlank b = true) ∨ ∃ e, c'.next.1 = .error e) := by
  induction hn : c.rest.length using Nat.strongRecOn generalizing c with
  | ind n ih =>
    cases hnext : c.next with
    | mk answer c' =>
      cases answer with
      | error e => exact ⟨[], c, .done c, .inr ⟨e, by rw [hnext]⟩⟩
      | ok t =>
        by_cases ht : t.kind = .eof
        · have hblank := List.takeWhile_append_dropWhile (p := isBlank) (l := c.rest)
          rw [dropWhile_of_next_eof hnext ht, List.append_nil] at hblank
          refine ⟨[], c, .done c, .inl fun b hb => ?_⟩
          rw [← hblank] at hb
          exact List.mem_takeWhile_imp hb
        · obtain ⟨ts, c'', hreads, hend⟩ := ih c'.rest.length (hn ▸ length_lt_of_next hnext ht) c' rfl
          exact ⟨t :: ts, c'', .step hnext ht hreads, hend⟩

/-- The tokens of a text are those read up to some place, and those behind it. -/
theorem Reads.tokens_eq (h : c.Reads ts c') : c.tokens = c'.tokens.map fun (us, stop) => (ts ++ us, stop) := by
  induction h with
  | done c => cases c.tokens <;> rfl
  | @step c c₁ c₂ t ts h ht _ ih =>
    rw [tokens_of_next h ht, ih]
    cases c₂.tokens <;> rfl

theorem tokens_of_blank (h : ∀ b ∈ c.rest, isBlank b = true) : c.tokens = .ok ([], c.offset + byteLength c.rest) := by
  have htokens := tokens_blanks h [] c.offset c.afterOperand
  rwa [List.append_nil, tokens_nil] at htokens

/-- The tokens of a text are those read up to the blanks at its end. -/
theorem Reads.tokens_eq_ok (h : c.Reads ts c') (hblank : ∀ b ∈ c'.rest, isBlank b = true) :
    c.tokens = .ok (ts, c'.offset + byteLength c'.rest) := by
  rw [h.tokens_eq, tokens_of_blank hblank]
  exact congrArg (fun us => Except.ok (us, c'.offset + byteLength c'.rest)) (List.append_nil ts)

theorem tokens_of_next_error (h : c.next.1 = .error e) : c.tokens = .error e := by
  rw [Cursor.tokens_eq]
  split
  · next heq =>
    rw [heq] at h
    exact congrArg Except.error (Except.error.inj h)
  · next heq =>
    rw [heq] at h
    cases h

/-- Behind the last token just blanks are left. -/
theorem exists_reads_of_tokens (h : c.tokens = .ok (ts, stop)) :
    ∃ c', c.Reads ts c' ∧ (∀ b ∈ c'.rest, isBlank b = true) ∧ stop = c'.offset + byteLength c'.rest := by
  obtain ⟨us, c', hreads, hblank | ⟨e, he⟩⟩ := exists_reads c
  · rw [hreads.tokens_eq_ok hblank] at h
    cases h
    exact ⟨c', hreads, hblank, rfl⟩
  · rw [hreads.tokens_eq, tokens_of_next_error he] at h
    cases h

/-- A text is at fault at some token, in front of which all others were read. -/
theorem exists_reads_of_tokens_error (h : c.tokens = .error e) : ∃ ts c', c.Reads ts c' ∧ c'.next.1 = .error e := by
  obtain ⟨us, c', hreads, hblank | ⟨e', he'⟩⟩ := exists_reads c
  · rw [hreads.tokens_eq_ok hblank] at h
    cases h
  · rw [hreads.tokens_eq, tokens_of_next_error he'] at h
    obtain rfl : e' = e := Except.error.inj h
    exact ⟨us, c', hreads, he'⟩

theorem Reads.kind_ne_eof (h : c.Reads ts c') : ∀ t ∈ ts, t.kind ≠ .eof := by
  induction h with
  | done c => exact fun t ht => absurd ht List.not_mem_nil
  | step _ ht _ ih => exact List.forall_mem_cons.mpr ⟨ht, ih⟩

theorem Reads.lexes (h : c.Reads ts c') : ∀ t ∈ ts, Lexes t.text t.kind := by
  induction h with
  | done c => exact fun t ht => absurd ht List.not_mem_nil
  | step h ht _ ih => exact List.forall_mem_cons.mpr ⟨lexes_of_next h ht, ih⟩

theorem spelled_of_tokens (h : c.tokens = .ok (ts, stop)) : ∀ t ∈ ts, t.Spelled := by
  obtain ⟨c', hreads, -, -⟩ := exists_reads_of_tokens h
  exact fun t ht _ => hreads.lexes t ht

theorem Reads.byteLength_eq (h : c.Reads ts c') : c'.offset + byteLength c'.rest = c.offset + byteLength c.rest := by
  induction h with
  | done c => rfl
  | @step c c₁ c₂ t ts h ht _ ih =>
    obtain ⟨-, hoffset⟩ := span_of_next h ht
    rw [ih, rest_of_next h ht, hoffset, Text.byteLength_append, Text.byteLength_append, Nat.add_assoc, Nat.add_assoc]

/-- The first steps of a run read the tokens. -/
theorem Reads.run_add (h : c.Reads ts c') (n : Nat) : c.run (ts.length + n) = ts.map .ok ++ c'.run n := by
  induction h with
  | done c =>
    rw [List.length_nil, Nat.zero_add]
    rfl
  | @step c c₁ c₂ t ts h ht _ ih =>
    rw [List.length_cons, Nat.add_right_comm, run, h, ih]
    rfl

/-- In front of a character that ends every token the same tokens are read as in front of the end. -/
theorem Reads.append (h : c.Reads ts c') {d : Char} (hd : Severs d) (more : List Char) :
    (⟨c.rest ++ d :: more, c.offset, c.afterOperand⟩ : Cursor).Reads ts
      ⟨c'.rest ++ d :: more, c'.offset, c'.afterOperand⟩ := by
  induction h with
  | done c => exact .done _
  | @step c c₁ c₂ t ts h ht _ ih =>
    obtain ⟨hspan, hoffset⟩ := span_of_next h ht
    have hnext := next_loosens h ht (fun _ _ _ => rfl) (fun _ => List.mem_takeWhile_imp (l := c.rest))
      (loosens_append hd c₁.rest more) c.offset
    dsimp only at hnext
    rw [← hoffset, ← hspan, ← List.append_assoc t.text.toList, ← List.append_assoc, ← rest_of_next h ht] at hnext
    exact .step hnext ht ih

end Cursor

/-! ### Tokens of a text -/

theorem exists_eq_ok_of_any {α : Type} {answer : Except ExprError α} {p : α → Bool}
    (h : answer.toOption.any p = true) : ∃ a, answer = .ok a ∧ p a = true := by
  cases answer with
  | error e => cases h
  | ok a => exact ⟨a, rfl, h⟩

theorem tokenizeAt_eq_ok_iff {source : String} {base stop : Nat} {ts : List Token} :
    tokenizeAt source base = .ok (ts ++ [endToken stop]) ↔ (Cursor.ofSource source base).tokens = .ok (ts, stop) := by
  unfold tokenizeAt
  constructor
  · intro h
    split at h
    · cases h
    · next us stop' htokens =>
      obtain ⟨rfl, hend⟩ := List.append_inj' (Except.ok.inj h) rfl
      obtain rfl : stop' = stop := congrArg (Span.start ∘ Token.span) (List.singleton_inj.mp hend)
      exact htokens
  · intro h
    rw [h]

end TemplateSyntax.Expr
