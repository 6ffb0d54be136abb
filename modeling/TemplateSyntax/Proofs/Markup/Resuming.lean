import TemplateSyntax.Markup.Scan
import TemplateSyntax.Proofs.Markup.Seams
import TemplateSyntax.Proofs.Text.Utf8

/-!
# Scanning from a token on

Tokens keep offsets into the whole template, and nothing else of what stands in front of them. So a template can be
scanned in two parts if it is cut behind a token: the tokens of the second part have to be moved by the length of the
first (`tokenize_resumes`). Two templates can be joined if the first does not end in plain text, which might go on in
the second.
-/

namespace TemplateSyntax.Markup

open Text (byteLength splitBytes? splitBytes?_eq_some_iff)

/-! ### Moving tokens -/

def Fragment.shift (n : Nat) (f : Fragment) : Fragment :=
  { f with span := f.span.shift n }

def Params.shift (n : Nat) (p : Params) : Params :=
  { p with span := p.span.shift n, fragments := p.fragments.map (Fragment.shift n) }

/-- The token, its parameters and their fragments moved by `n` bytes. -/
def Token.shift (n : Nat) (t : Token) : Token :=
  { t with span := t.span.shift n, params := t.params.map (Params.shift n) }

theorem Params.shift_zero (p : Params) : p.shift 0 = p := by
  have hfragments : Fragment.shift 0 = id := rfl
  rw [shift, hfragments, List.map_id]
  rfl

theorem Token.shift_zero (t : Token) : t.shift 0 = t := by
  have hparams : Params.shift 0 = id := funext Params.shift_zero
  rw [shift, hparams, Option.map_id]
  rfl

def ScanError.shift (n : Nat) (e : ScanError) : ScanError :=
  { e with span := e.span.shift n }

theorem fragmentsAt_add (start n : Nat) (pieces : List (List Char × List Char)) :
    fragmentsAt (start + n) pieces = (fragmentsAt start pieces).map (Fragment.shift n) := by
  induction pieces generalizing start with
  | nil => rfl
  | cons piece pieces ih =>
    obtain ⟨blanks, text⟩ := piece
    simp only [fragmentsAt, List.map_cons, Fragment.shift, Span.shift]
    rw [Nat.add_right_comm start, Nat.add_right_comm (start + _), ih]

theorem Region.params?_add (r : Region) (start n : Nat) :
    r.params? (start + n) = (r.params? start).map (Params.shift n) := by
  unfold Region.params?
  split
  · rfl
  · rw [fragmentsAt_add]
    simp only [Option.map_some, Params.shift, Span.shift, Nat.add_right_comm _ n]

theorem Lexeme.token_add (x : Lexeme) (start n : Nat) : x.token (start + n) = (x.token start).shift n := by
  have hspan : (⟨start + n, start + n + byteLength x.chars⟩ : Span) =
      Span.shift n ⟨start, start + byteLength x.chars⟩ := by
    rw [Span.shift, Nat.add_right_comm start]
  unfold Lexeme.token Token.shift
  rw [hspan]
  cases x with
  | text | comment => rfl
  | tag | interpolation =>
    dsimp only
    rw [Nat.add_right_comm start, Region.params?_add]

theorem tokensAt_add (start n : Nat) (xs : List Lexeme) :
    tokensAt (start + n) xs = (tokensAt start xs).map (Token.shift n) := by
  induction xs generalizing start with
  | nil => rfl
  | cons x xs ih => rw [tokensAt, tokensAt, List.map_cons, Lexeme.token_add, Nat.add_right_comm start, ih]

theorem Failure.error_add (f : Failure) (start n : Nat) (rest : List Char) :
    f.error (start + n) rest = (f.error start rest).shift n := by
  unfold Failure.error
  split
  · simp only [ScanError.shift, Span.shift, Nat.add_right_comm _ n]
  · simp only [ScanError.shift, Span.shift, Nat.add_right_comm _ n]

/-! ### Cutting a template behind a token -/

theorem tokensAt_append (start : Nat) (xs ys : List Lexeme) :
    tokensAt start (xs ++ ys) = tokensAt start xs ++ tokensAt (start + byteLength (xs.flatMap Lexeme.chars)) ys := by
  induction xs generalizing start with
  | nil => rfl
  | cons x xs ih =>
    rw [List.cons_append, tokensAt, ih, tokensAt, List.cons_append, List.flatMap_cons, Text.byteLength_append,
      Nat.add_assoc]

/-- The tokens up to one of them come from lexemes that end where it ends. -/
theorem exists_tokensAt_take {start i : Nat} {xs : List Lexeme} (hi : i < (tokensAt start xs).length) :
    ∃ ys zs, xs = ys ++ zs ∧ (tokensAt start xs)[i].span.stop = start + byteLength (ys.flatMap Lexeme.chars) ∧
      (tokensAt start xs).take (i + 1) = tokensAt start ys ∧
      (tokensAt start xs).drop (i + 1) = tokensAt (start + byteLength (ys.flatMap Lexeme.chars)) zs := by
  induction xs generalizing start i with
  | nil => exact absurd hi (Nat.not_lt_zero i)
  | cons x xs ih =>
    cases i with
    | zero =>
      refine ⟨[x], xs, rfl, ?_, rfl, ?_⟩
      · rw [List.flatMap_singleton]
        rfl
      · rw [List.flatMap_singleton]
        rfl
    | succ i =>
      obtain ⟨ys, zs, rfl, hstop, htake, hdrop⟩ := ih (Nat.lt_of_succ_lt_succ hi)
      have hlength : start + byteLength ((x :: ys).flatMap Lexeme.chars) =
          start + byteLength x.chars + byteLength (ys.flatMap Lexeme.chars) := by
        rw [List.flatMap_cons, Text.byteLength_append, Nat.add_assoc]
      refine ⟨x :: ys, zs, rfl, by rw [hlength]; exact hstop, ?_, by rw [hlength]; exact hdrop⟩
      rw [tokensAt, List.take_succ_cons, htake]
      rfl

theorem tokenize_eq_ok_iff {source : String} {ts : List Token} :
    tokenize source = .ok ts ↔ ∃ xs, Run source.toList xs [] ∧ ts = tokensAt 0 xs := by
  unfold tokenize scan scanAt
  constructor
  · intro h
    cases hl : lexemes source.toList with
    | mk xs failure? =>
      rw [hl] at h
      cases failure? with
      | none =>
        cases h
        exact ⟨xs, lexemes_eq_none_iff.mp hl, rfl⟩
      | some => cases h
  · rintro ⟨xs, hrun, rfl⟩
    rw [lexemes_eq_none_iff.mpr hrun]
    rfl

theorem tokenize_eq_error_iff {source : String} {e : ScanError} :
    tokenize source = .error e ↔ ∃ xs rest failure, Run source.toList xs rest ∧ Lexeme.read rest = .error failure ∧
      e = failure.error (byteLength (xs.flatMap Lexeme.chars)) rest := by
  unfold tokenize scan scanAt
  constructor
  · intro h
    cases hl : lexemes source.toList with
    | mk xs failure? =>
      rw [hl] at h
      cases failure? with
      | none => cases h
      | some r =>
        obtain ⟨failure, rest⟩ := r
        obtain ⟨hrun, hread⟩ := lexemes_eq_some_iff.mp hl
        dsimp only [Option.map_some] at h
        rw [Nat.zero_add] at h
        cases h
        exact ⟨xs, rest, failure, hrun, hread, rfl⟩
  · rintro ⟨xs, rest, failure, hrun, hread, rfl⟩
    rw [lexemes_eq_some_iff.mpr ⟨hrun, hread⟩]
    dsimp only [Option.map_some]
    rw [Nat.zero_add]

/-! ### Joining templates -/

/-- The tokens are none or the last of them is markup. -/
def EndsInMarkup (ts : List Token) : Prop :=
  ∀ t ∈ ts.getLast?, t.kind ≠ .text

theorem Lexeme.kind_eq_text_iff (x : Lexeme) : x.kind = .text ↔ x.isText = true := by
  cases x with
  | tag opener => simp only [Lexeme.kind, Lexeme.isText]; cases opener.isMacro <;> decide
  | text | comment | interpolation => simp [Lexeme.kind, Lexeme.isText]

theorem exists_mem_getLast?_tokensAt {xs : List Lexeme} {x : Lexeme} (hx : x ∈ xs.getLast?) (start : Nat) :
    ∃ t ∈ (tokensAt start xs).getLast?, t.kind = x.kind := by
  induction xs generalizing start with
  | nil => cases hx
  | cons y ys ih =>
    cases ys with
    | nil =>
      cases hx
      exact ⟨_, rfl, rfl⟩
    | cons z zs => simpa [tokensAt] using ih (by simpa using hx) (start + byteLength y.chars)

variable {a : String} {ts : List Token}

/-- Behind markup a template is scanned as if it stood alone. -/
theorem Run.append_of_endsInMarkup {cs : List Char} {xs : List Lexeme} (h : Run cs xs [])
    (hends : EndsInMarkup (tokensAt 0 xs)) (rest : List Char) : Run (cs ++ rest) xs rest := by
  have happend : cs = xs.flatMap Lexeme.chars := by rw [← List.append_nil (xs.flatMap _), ← h.append_eq]
  rw [happend]
  refine h.flatMap_append fun x hx htext => ?_
  obtain ⟨t, ht, hkind⟩ := exists_mem_getLast?_tokensAt hx 0
  rw [x.kind_eq_text_iff.mpr htext] at hkind
  exact absurd hkind (hends t ht)

theorem tokenize_append (h : tokenize a = .ok ts) (hends : EndsInMarkup ts) (b : String) :
    tokenize (a ++ b) = ((tokenize b).map fun us => ts ++ us.map (Token.shift a.utf8ByteSize)).mapError
      (ScanError.shift a.utf8ByteSize) := by
  obtain ⟨xs, hxs, rfl⟩ := tokenize_eq_ok_iff.mp h
  have hfront := hxs.append_of_endsInMarkup hends
  have hlength : byteLength (xs.flatMap Lexeme.chars) = a.utf8ByteSize := by
    rw [← Text.byteLength_toList, hxs.append_eq, List.append_nil]
  cases hb : tokenize b with
  | ok us =>
    obtain ⟨ys, hys, rfl⟩ := tokenize_eq_ok_iff.mp hb
    refine tokenize_eq_ok_iff.mpr ⟨xs ++ ys, ?_, ?_⟩
    · rw [String.toList_append]
      exact run_append_iff.mpr ⟨b.toList, hfront b.toList, hys⟩
    · rw [tokensAt_append, tokensAt_add, hlength]
  | error e =>
    obtain ⟨ys, rest, failure, hys, hread, rfl⟩ := tokenize_eq_error_iff.mp hb
    refine tokenize_eq_error_iff.mpr ⟨xs ++ ys, rest, failure, ?_, hread, ?_⟩
    · rw [String.toList_append]
      exact run_append_iff.mpr ⟨b.toList, hfront b.toList, hys⟩
    · rw [List.flatMap_append, Text.byteLength_append, hlength, Nat.add_comm, Failure.error_add]

theorem exists_tokenize_take (h : tokenize a = .ok ts) {i : Nat} (hi : i < ts.length) :
    ∃ front rest us, splitBytes? ts[i].span.stop a.toList = some (front, rest) ∧
      tokenize (String.ofList front) = .ok (ts.take (i + 1)) ∧ tokenize (String.ofList rest) = .ok us ∧
      us.map (Token.shift ts[i].span.stop) = ts.drop (i + 1) := by
  obtain ⟨xs, hxs, rfl⟩ := tokenize_eq_ok_iff.mp h
  obtain ⟨ys, zs, rfl, hstop, htake, hdrop⟩ := exists_tokensAt_take hi
  obtain ⟨rest, hys, hzs⟩ := run_append_iff.mp hxs
  have hfront : Run (ys.flatMap Lexeme.chars) ys [] := by
    rw [← List.append_nil (ys.flatMap _)]
    exact hys.flatMap_append fun _ _ _ => .inl rfl
  rw [Nat.zero_add] at hstop
  rw [hstop, htake, hdrop]
  refine ⟨ys.flatMap Lexeme.chars, rest, tokensAt 0 zs, ?_, ?_, ?_, ?_⟩
  · exact splitBytes?_eq_some_iff.mpr ⟨hys.append_eq, rfl⟩
  · exact tokenize_eq_ok_iff.mpr ⟨ys, by rwa [String.toList_ofList], rfl⟩
  · exact tokenize_eq_ok_iff.mpr ⟨zs, by rwa [String.toList_ofList], rfl⟩
  · rw [tokensAt_add]

/-- A template can be cut behind each of its tokens, and then its parts are scanned one by one; a template that is empty
or ends in markup can be followed by any other, which is scanned as if it stood alone. -/
theorem tokenize_resumes (h : tokenize a = .ok ts) :
    (∀ i (hi : i < ts.length), ∃ front rest us, splitBytes? ts[i].span.stop a.toList = some (front, rest) ∧
      tokenize (String.ofList front) = .ok (ts.take (i + 1)) ∧ tokenize (String.ofList rest) = .ok us ∧
      us.map (Token.shift ts[i].span.stop) = ts.drop (i + 1)) ∧
    (EndsInMarkup ts → ∀ b, tokenize (a ++ b) =
      ((tokenize b).map fun us => ts ++ us.map (Token.shift a.utf8ByteSize)).mapError
        (ScanError.shift a.utf8ByteSize)) :=
  ⟨fun _ hi => exists_tokenize_take h hi, fun hends b => tokenize_append h hends b⟩

/-- The comment keeps its place behind two bytes of text, and the error behind ten bytes of both. -/
theorem tokenize_resumes_comment :
    ∃ ts, tokenize "é<#--b-->" = .ok ts ∧
      (∃ us, tokenize "<#--b-->" = .ok us ∧ us.map (Token.shift 2) = ts.drop 1) ∧
      tokenize ("é<#--b-->" ++ "$\x7b") = .error ⟨.unclosedTag "$\x7b", ⟨10, 12⟩⟩ := by
  let text : Token := ⟨.text, ⟨0, 2⟩, "é", none, none, false, false⟩
  let comment : Token := ⟨.comment, ⟨2, 10⟩, "<#--b-->", none, none, false, false⟩
  have hscan : scan "é<#--b-->" = ([text, comment], none) := by
    decide +kernel
  have htokens : tokenize "é<#--b-->" = .ok [text, comment] := by
    rw [tokenize, hscan]
  have hopen : scan "$\x7b" = ([], some ⟨.unclosedTag "$\x7b", ⟨0, 2⟩⟩) := by
    decide +kernel
  obtain ⟨hcut, hjoin⟩ := tokenize_resumes htokens
  refine ⟨[text, comment], htokens, ?_, ?_⟩
  · obtain ⟨front, rest, us, hsplit, -, hus, hshift⟩ := hcut 0 Nat.two_pos
    have hrest : splitBytes? 2 "é<#--b-->".toList = some (['é'], "<#--b-->".toList) := by
      decide
    cases hrest.symm.trans hsplit
    exact ⟨us, by rwa [String.ofList_toList] at hus, hshift⟩
  · have hends : EndsInMarkup [text, comment] := by
      rintro t ⟨⟩
      decide
    rw [hjoin hends, tokenize, hopen]
    rfl

end TemplateSyntax.Markup
