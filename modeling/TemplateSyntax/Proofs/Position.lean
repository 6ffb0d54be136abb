import Mathlib.Data.List.Induction
import Mathlib.Data.Prod.Lex
import TemplateSyntax.Proofs.Text.Boundary

/-!
# Positions and offsets

A position tells where an offset stands, and nothing is lost in it. Just the offsets between two characters have one.
Of two such offsets the one further on has the later position. And whoever skips the lines in front of a position, and
then the characters in front of it in its own line, is back at the offset (`at?_orderEmbedding`).
-/

namespace TemplateSyntax

namespace Text

/-! ### Offsets that are no boundaries -/

/-- The offset lies behind the first byte of a character and in front of the next character. -/
def InsideCharacter (cs : List Char) (n : Nat) : Prop :=
  ∃ before c after, cs = before ++ c :: after ∧ byteLength before < n ∧ n < byteLength before + c.utf8Size

variable {cs : List Char} {n : Nat}

theorem isBoundary_zero (cs : List Char) : IsBoundary cs 0 :=
  ⟨[], cs, rfl, rfl⟩

theorem IsBoundary.cons {k : Nat} (h : IsBoundary cs k) (c : Char) : IsBoundary (c :: cs) (c.utf8Size + k) := by
  obtain ⟨before, after, rfl, rfl⟩ := h
  exact ⟨c :: before, after, rfl, rfl⟩

theorem InsideCharacter.cons {k : Nat} (h : InsideCharacter cs k) (c : Char) :
    InsideCharacter (c :: cs) (c.utf8Size + k) := by
  obtain ⟨before, d, after, rfl, hlt, hgt⟩ := h
  refine ⟨c :: before, d, after, rfl, ?_, ?_⟩
  · rw [byteLength_cons]; omega
  · rw [byteLength_cons]; omega

theorem InsideCharacter.not_isBoundary (h : InsideCharacter cs n) : ¬IsBoundary cs n := by
  obtain ⟨before, c, after, rfl, hlt, hgt⟩ := h
  rintro ⟨front, rest, hsplit, rfl⟩
  rcases List.append_eq_append_iff.mp hsplit with ⟨mid, rfl, hmid⟩ | ⟨mid, rfl, -⟩
  · rw [byteLength_append] at hlt hgt
    cases mid with
    | nil => rw [byteLength_nil] at hlt; omega
    | cons d mid =>
      obtain ⟨rfl, -⟩ := List.cons.inj hmid
      rw [byteLength_cons] at hgt
      omega
  · rw [byteLength_append] at hlt
    omega

/-- An offset that is no boundary is behind the end, or inside a character. -/
theorem not_isBoundary_iff : ¬IsBoundary cs n ↔ byteLength cs < n ∨ InsideCharacter cs n := by
  constructor
  · intro h
    induction cs generalizing n with
    | nil =>
      have hne : n ≠ 0 := by
        rintro rfl
        exact h (isBoundary_zero [])
      exact .inl (Nat.pos_of_ne_zero hne)
    | cons c cs ih =>
      have hne : n ≠ 0 := by
        rintro rfl
        exact h (isBoundary_zero (c :: cs))
      by_cases hlt : n < c.utf8Size
      · refine .inr ⟨[], c, cs, rfl, ?_, ?_⟩
        · rw [byteLength_nil]; omega
        · rw [byteLength_nil]; omega
      · obtain ⟨k, rfl⟩ : ∃ k, n = c.utf8Size + k := ⟨n - c.utf8Size, by omega⟩
        rcases ih fun hk => h (hk.cons c) with hk | hk
        · exact .inl (by rw [byteLength_cons]; omega)
        · exact .inr (hk.cons c)
  · rintro (hlt | hinside)
    · intro h
      have hle := h.le
      omega
    · exact hinside.not_isBoundary

end Text

namespace Position

open Text (IsBoundary InsideCharacter byteLength byteLength_append byteLength_cons byteLength_toList
  not_isBoundary_iff)

/-! ### Behind a text -/

/-- The position behind a text that starts at `p`. -/
def behind (p : Position) (cs : List Char) : Position :=
  cs.foldl (fun p c => p.after c) p

@[simp] theorem behind_nil (p : Position) : p.behind [] = p := rfl

@[simp] theorem behind_cons (p : Position) (c : Char) (cs : List Char) : p.behind (c :: cs) = (p.after c).behind cs :=
  rfl

theorem behind_append (p : Position) (cs ds : List Char) : p.behind (cs ++ ds) = (p.behind cs).behind ds := by
  simp [behind]

theorem advance?_append (p : Position) (before rest : List Char) :
    p.advance? (before ++ rest) (byteLength before) = some (p.behind before) := by
  induction before generalizing p with
  | nil => cases rest <;> rfl
  | cons c before ih => rw [List.cons_append, byteLength_cons, advance?_utf8Size_add, ih, behind_cons]

/-- The position of an offset is the one behind the text in front of it. -/
theorem at?_eq_some_iff {source : String} {n : Nat} {p : Position} :
    at? source n = some p ↔
      ∃ before rest, source.toList = before ++ rest ∧ n = byteLength before ∧
        p = (⟨1, 1⟩ : Position).behind before := by
  constructor
  · intro h
    obtain ⟨before, rest, hsplit, rfl⟩ := at?_isSome_iff.mp (Option.isSome_of_mem h)
    rw [at?, hsplit, advance?_append] at h
    exact ⟨before, rest, hsplit, rfl, (Option.some.inj h).symm⟩
  · rintro ⟨before, rest, hsplit, rfl, rfl⟩
    rw [at?, hsplit, advance?_append]

/-! ### The order of positions -/

/-- Positions come one after the other by their lines, and in one line by their columns. -/
def key (p : Position) : ℕ ×ₗ ℕ :=
  toLex (p.line, p.column)

theorem key_lt_after (p : Position) (c : Char) : p.key < (p.after c).key := by
  rw [key, key, Prod.Lex.toLex_lt_toLex]
  by_cases hc : c = '\n'
  · left; simp [after, hc]
  · right; simp [after, hc]

theorem key_le_behind (p : Position) (cs : List Char) : p.key ≤ (p.behind cs).key := by
  induction cs generalizing p with
  | nil => exact le_refl _
  | cons c cs ih => exact le_trans (le_of_lt (key_lt_after p c)) (ih (p.after c))

theorem key_lt_behind (p : Position) {cs : List Char} (h : cs ≠ []) : p.key < (p.behind cs).key := by
  obtain ⟨c, cs, rfl⟩ := List.exists_cons_of_ne_nil h
  exact lt_of_lt_of_le (key_lt_after p c) (key_le_behind (p.after c) cs)

/-- Further on in a source the positions are later. -/
theorem key_lt_of_lt {source : String} {a b : Nat} {p q : Position} (hlt : a < b) (ha : at? source a = some p)
    (hb : at? source b = some q) : p.key < q.key := by
  obtain ⟨front, rest, hfront, rfl, rfl⟩ := at?_eq_some_iff.mp ha
  obtain ⟨front', rest', hfront', rfl, rfl⟩ := at?_eq_some_iff.mp hb
  rw [hfront] at hfront'
  rcases List.append_eq_append_iff.mp hfront' with ⟨mid, rfl, -⟩ | ⟨mid, rfl, -⟩
  · rw [behind_append]
    apply key_lt_behind
    rintro rfl
    rw [List.append_nil] at hlt
    omega
  · rw [byteLength_append] at hlt
    omega

/-! ### Lines and columns of a text -/

/-- The text consists of whole lines, each with its newline. -/
def WholeLines (cs : List Char) : Prop :=
  ∀ c ∈ cs.getLast?, c = '\n'

theorem wholeLines_nil : WholeLines [] := by
  simp [WholeLines]

theorem wholeLines_append_singleton {cs : List Char} {c : Char} : WholeLines (cs ++ [c]) ↔ c = '\n' := by
  simp [WholeLines]

theorem wholeLines_singleton {c : Char} : WholeLines [c] ↔ c = '\n' :=
  @wholeLines_append_singleton [] c

theorem wholeLines_cons_cons {c d : Char} {cs : List Char} : WholeLines (c :: d :: cs) ↔ WholeLines (d :: cs) := by
  simp [WholeLines]

theorem WholeLines.eq_nil {cs : List Char} (h : WholeLines cs) (hcount : cs.count '\n' = 0) : cs = [] := by
  cases cs using List.reverseRecOn with
  | nil => rfl
  | append_singleton cs c =>
    obtain rfl := wholeLines_append_singleton.mp h
    simp at hcount

/-- Lines are counted by their newlines, from the first character on. -/
theorem wholeLines_cons {n : Nat} {c : Char} {cs : List Char} :
    (c :: cs).count '\n' = n + 1 ∧ WholeLines (c :: cs) ↔
      cs.count '\n' = (if c = '\n' then n else n + 1) ∧ WholeLines cs := by
  rw [List.count_cons]
  cases cs with
  | nil =>
    rw [wholeLines_singleton]
    by_cases hc : c = '\n'
    · simp [hc, wholeLines_nil, eq_comm]
    · simp [hc]
  | cons d cs =>
    rw [wholeLines_cons_cons]
    by_cases hc : c = '\n'
    · simp [hc]
    · simp [hc]

/-- A text consists of whole lines and of a part of a line. -/
theorem exists_wholeLines (cs : List Char) : ∃ front row, cs = front ++ row ∧ WholeLines front ∧ '\n' ∉ row := by
  induction cs using List.reverseRecOn with
  | nil => exact ⟨[], [], rfl, wholeLines_nil, List.not_mem_nil⟩
  | append_singleton cs c ih =>
    by_cases hc : c = '\n'
    · exact ⟨cs ++ [c], [], (List.append_nil _).symm, wholeLines_append_singleton.mpr hc, List.not_mem_nil⟩
    · obtain ⟨front, row, rfl, hfront, hrow⟩ := ih
      refine ⟨front, row ++ [c], List.append_assoc .., hfront, ?_⟩
      simp [hrow, Ne.symm hc]

theorem line_behind (p : Position) (cs : List Char) : (p.behind cs).line = p.line + cs.count '\n' := by
  induction cs generalizing p with
  | nil => rfl
  | cons c cs ih =>
    rw [behind_cons, ih, after, List.count_cons]
    by_cases hc : c = '\n'
    · simp [hc]; omega
    · simp [hc]

/-- Behind whole lines a new line begins. -/
theorem behind_wholeLines {front : List Char} (h : WholeLines front) :
    (⟨1, 1⟩ : Position).behind front = ⟨front.count '\n' + 1, 1⟩ := by
  cases front using List.reverseRecOn with
  | nil => rfl
  | append_singleton cs c =>
    obtain rfl := wholeLines_append_singleton.mp h
    have hline := line_behind ⟨1, 1⟩ cs
    rw [behind_append, behind_cons, behind_nil, after, if_pos rfl, hline]
    simp
    omega

/-- In one line each character takes a column. -/
theorem behind_row (p : Position) {row : List Char} (h : '\n' ∉ row) :
    p.behind row = ⟨p.line, p.column + row.length⟩ := by
  induction row generalizing p with
  | nil => rfl
  | cons c row ih =>
    obtain ⟨hc, hrow⟩ := not_or.mp (mt List.mem_cons.mpr h)
    rw [behind_cons, ih _ hrow, after, if_neg (Ne.symm hc), List.length_cons, Nat.add_assoc, Nat.add_comm 1]

/-! ### Back to the offset -/

/-- The text up to behind the `n`-th newline, and what follows it. -/
def skipLines? : (n : Nat) → List Char → Option (List Char × List Char)
  | 0, cs => some ([], cs)
  | _ + 1, [] => none
  | n + 1, c :: cs => (skipLines? (if c = '\n' then n else n + 1) cs).map fun (front, rest) => (c :: front, rest)

/-- The first `n` characters of a text, if there are so many and none of them is a newline. -/
def skipColumns? (n : Nat) (cs : List Char) : Option (List Char) :=
  if (cs.take n).length = n ∧ '\n' ∉ cs.take n then some (cs.take n) else none

/-- The offset behind the lines in front of the position and the characters in front of it in its own line. -/
def offset? (source : String) (p : Position) : Option Nat :=
  if p.line = 0 ∨ p.column = 0 then none
  else
    (skipLines? (p.line - 1) source.toList).bind fun (front, rest) =>
      (skipColumns? (p.column - 1) rest).map fun row => byteLength front + byteLength row

theorem skipLines?_eq_some_iff {n : Nat} {cs front rest : List Char} :
    skipLines? n cs = some (front, rest) ↔ cs = front ++ rest ∧ front.count '\n' = n ∧ WholeLines front := by
  induction cs generalizing n front with
  | nil =>
    cases n with
    | zero =>
      constructor
      · rintro ⟨⟩
        exact ⟨rfl, rfl, wholeLines_nil⟩
      · rintro ⟨hnil, -, -⟩
        obtain ⟨rfl, rfl⟩ := List.append_eq_nil_iff.mp hnil.symm
        rfl
    | succ n =>
      constructor
      · rintro ⟨⟩
      · rintro ⟨hnil, hcount, -⟩
        obtain ⟨rfl, rfl⟩ := List.append_eq_nil_iff.mp hnil.symm
        cases hcount
  | cons c cs ih =>
    cases n with
    | zero =>
      constructor
      · rintro ⟨⟩
        exact ⟨rfl, rfl, wholeLines_nil⟩
      · rintro ⟨hsplit, hcount, hlines⟩
        obtain rfl := hlines.eq_nil hcount
        rw [skipLines?, hsplit, List.nil_append]
    | succ n =>
      rw [skipLines?]
      constructor
      · intro h
        obtain ⟨⟨front', rest'⟩, hskip, heq⟩ := Option.map_eq_some_iff.mp h
        cases heq
        obtain ⟨rfl, hlines⟩ := ih.mp hskip
        exact ⟨rfl, wholeLines_cons.mpr hlines⟩
      · rintro ⟨hsplit, hlines⟩
        cases front with
        | nil => cases hlines.1
        | cons d front =>
          obtain ⟨rfl, rfl⟩ := List.cons.inj hsplit
          rw [ih.mpr ⟨rfl, wholeLines_cons.mp hlines⟩]
          rfl

theorem skipColumns?_eq_some_iff {n : Nat} {cs row : List Char} :
    skipColumns? n cs = some row ↔ ∃ rest, cs = row ++ rest ∧ row.length = n ∧ '\n' ∉ row := by
  unfold skipColumns?
  constructor
  · intro h
    split at h
    · next hrow =>
      cases h
      exact ⟨cs.drop n, (List.take_append_drop n cs).symm, hrow⟩
    · cases h
  · rintro ⟨rest, rfl, rfl, hrow⟩
    rw [List.take_left, if_pos ⟨rfl, hrow⟩]

/-- The lines and columns of a position lead to its offset, and just there. -/
theorem offset?_eq_some_iff {source : String} {n : Nat} {p : Position} :
    offset? source p = some n ↔ at? source n = some p := by
  rw [at?_eq_some_iff]
  constructor
  · intro h
    unfold offset? at h
    split at h
    · cases h
    · next hpos =>
      obtain ⟨⟨front, rest⟩, hfront, h⟩ := Option.bind_eq_some_iff.mp h
      obtain ⟨row, hrow, rfl⟩ := Option.map_eq_some_iff.mp h
      obtain ⟨hsource, hcount, hlines⟩ := skipLines?_eq_some_iff.mp hfront
      obtain ⟨more, rfl, hlength, hnewline⟩ := skipColumns?_eq_some_iff.mp hrow
      refine ⟨front ++ row, more, by rw [hsource, List.append_assoc], (byteLength_append ..).symm, ?_⟩
      rw [behind_append, behind_wholeLines hlines, behind_row _ hnewline, hcount, hlength]
      obtain ⟨line, column⟩ := p
      simp only [mk.injEq] at hpos ⊢
      omega
  · rintro ⟨before, rest, hsource, rfl, rfl⟩
    obtain ⟨front, row, rfl, hlines, hnewline⟩ := exists_wholeLines before
    rw [behind_append, behind_wholeLines hlines, behind_row _ hnewline, offset?, if_neg (by simp)]
    have hfront : skipLines? (front.count '\n') source.toList = some (front, row ++ rest) :=
      skipLines?_eq_some_iff.mpr ⟨by rw [hsource, List.append_assoc], rfl, hlines⟩
    have hrow : skipColumns? row.length (row ++ rest) = some row :=
      skipColumns?_eq_some_iff.mpr ⟨rest, rfl, rfl, hnewline⟩
    simp only [Nat.add_sub_cancel, Nat.add_sub_cancel_left, hfront, Option.bind_some, hrow, Option.map_some,
      byteLength_append]

/-- Positions are an order embedding of the offsets that have one, and to skip lines and columns inverts it. An offset
has none just if it is behind the end of the source or inside a character. -/
theorem at?_orderEmbedding (source : String) :
    (∀ n, at? source n = none ↔ source.utf8ByteSize < n ∨ InsideCharacter source.toList n) ∧
    (∀ a b p q, a < b → at? source a = some p → at? source b = some q → p.key < q.key) ∧
    (∀ n p, at? source n = some p ↔ offset? source p = some n) ∧
    ∀ a b p, at? source a = some p → at? source b = some p → a = b := by
  refine ⟨?_, fun a b p q => key_lt_of_lt, fun n p => offset?_eq_some_iff.symm, ?_⟩
  · intro n
    rw [← Option.not_isSome_iff_eq_none, at?_isSome_iff, not_isBoundary_iff, byteLength_toList]
  · intro a b p ha hb
    have hoffset := offset?_eq_some_iff.mpr ha
    rw [offset?_eq_some_iff.mpr hb] at hoffset
    exact (Option.some.inj hoffset).symm

/-- A character of two bytes takes one column, and a newline stands in the line that it ends. -/
theorem at?_orderEmbedding_newline :
    at? "é\nb" 2 = some ⟨1, 2⟩ ∧ at? "é\nb" 3 = some ⟨2, 1⟩ ∧ (⟨1, 2⟩ : Position).key < (⟨2, 1⟩ : Position).key ∧
      offset? "é\nb" ⟨2, 1⟩ = some 3 ∧ at? "é\nb" 1 = none := by
  have hfirst : at? "é\nb" 2 = some ⟨1, 2⟩ := rfl
  have hsecond : at? "é\nb" 3 = some ⟨2, 1⟩ := rfl
  obtain ⟨hnone, hlt, hback, -⟩ := at?_orderEmbedding "é\nb"
  have hinside : InsideCharacter "é\nb".toList 1 := ⟨[], 'é', ['\n', 'b'], rfl, by decide, by decide⟩
  exact ⟨hfirst, hsecond, hlt 2 3 _ _ (by decide) hfirst hsecond, (hback 3 _).mp hsecond, (hnone 1).mpr (.inr hinside)⟩

end Position

end TemplateSyntax
