/-!
# Fixed texts at the start of a text

Symbols, markers and operators are fixed texts, probed in a given order: the first that starts the input is taken.
Where longer texts come before their own beginnings, that is the longest. Names and blanks are runs, which end in front
of the first character that does not belong to them.
-/

namespace TemplateSyntax.Text

/-- The first of the candidates whose text starts `cs`, with what follows that text. -/
def firstMatch {α : Type} (text : α → List Char) (candidates : List α) (cs : List Char) :
    Option (α × List Char) :=
  candidates.findSome? fun a => ((text a).isPrefixOf? cs).map fun rest => (a, rest)

@[simp] theorem isPrefixOf?_nil (cs : List Char) : [].isPrefixOf? cs = some cs := rfl

@[simp] theorem isPrefixOf?_cons_nil (a : Char) (l : List Char) : (a :: l).isPrefixOf? [] = none := rfl

theorem isPrefixOf?_cons_cons (a d : Char) (l cs : List Char) :
    (a :: l).isPrefixOf? (d :: cs) = if a == d then l.isPrefixOf? cs else none := rfl

theorem isPrefixOf?_eq_some {l cs rest : List Char} (h : l.isPrefixOf? cs = some rest) : cs = l ++ rest := by
  induction l generalizing cs with
  | nil =>
    rw [isPrefixOf?_nil] at h
    exact Option.some.inj h
  | cons c l ih =>
    cases cs with
    | nil => cases h
    | cons d cs =>
      rw [isPrefixOf?_cons_cons] at h
      by_cases hcd : c = d
      · subst hcd
        rw [beq_self_eq_true, if_pos rfl] at h
        rw [ih h]; rfl
      · rw [if_neg (by simpa using hcd)] at h
        cases h

theorem append_of_firstMatch {α : Type} {text : α → List Char} {candidates : List α} {cs rest : List Char} {a : α}
    (h : firstMatch text candidates cs = some (a, rest)) : cs = text a ++ rest := by
  obtain ⟨b, -, hb⟩ := List.exists_of_findSome?_eq_some h
  obtain ⟨r, hr, e⟩ := Option.map_eq_some_iff.mp hb
  cases e
  exact isPrefixOf?_eq_some hr

/-- A candidate that has no such character at the place of `z` starts a text with `z` in it only if it starts the part
in front of `z`. -/
theorem isPrefixOf?_append_cons {t front : List Char} {z : Char} (hz : t[front.length]? ≠ some z) (rest : List Char) :
    t.isPrefixOf? (front ++ z :: rest) = (t.isPrefixOf? front).map (· ++ z :: rest) := by
  induction t generalizing front with
  | nil => rfl
  | cons a t ih =>
    cases front with
    | nil =>
      have hne : a ≠ z := by simpa using hz
      rw [List.nil_append, isPrefixOf?_cons_cons, if_neg (by simpa using hne)]
      rfl
    | cons b front =>
      rw [List.cons_append, isPrefixOf?_cons_cons, isPrefixOf?_cons_cons]
      split
      · exact ih (by simpa using hz)
      · rfl

/-- A candidate that is no longer than the front of a text starts the text only if it starts the front. -/
theorem isPrefixOf?_append_of_length_le {t front : List Char} (h : t.length ≤ front.length) (rest : List Char) :
    t.isPrefixOf? (front ++ rest) = (t.isPrefixOf? front).map (· ++ rest) := by
  induction t generalizing front with
  | nil => rfl
  | cons a t ih =>
    cases front with
    | nil => cases h
    | cons b front =>
      rw [List.cons_append, isPrefixOf?_cons_cons, isPrefixOf?_cons_cons]
      split
      · exact ih (Nat.le_of_succ_le_succ h)
      · rfl

theorem firstMatch_append {α : Type} {text : α → List Char} {candidates : List α} {front rest : List Char}
    (h : ∀ a ∈ candidates, (text a).isPrefixOf? (front ++ rest) = ((text a).isPrefixOf? front).map (· ++ rest)) :
    firstMatch text candidates (front ++ rest) =
      (firstMatch text candidates front).map fun (a, after) => (a, after ++ rest) := by
  induction candidates with
  | nil => rfl
  | cons a candidates ih =>
    obtain ⟨ha, hcandidates⟩ := List.forall_mem_cons.mp h
    have hrest := ih hcandidates
    unfold firstMatch at hrest ⊢
    rw [List.findSome?_cons, List.findSome?_cons, ha]
    cases (text a).isPrefixOf? front with
    | none => exact hrest
    | some after => rfl

theorem firstMatch_append_cons {α : Type} {text : α → List Char} {candidates : List α} {front : List Char} {z : Char}
    (hz : ∀ a ∈ candidates, (text a)[front.length]? ≠ some z) (rest : List Char) :
    firstMatch text candidates (front ++ z :: rest) =
      (firstMatch text candidates front).map fun (a, after) => (a, after ++ z :: rest) :=
  firstMatch_append fun a ha => isPrefixOf?_append_cons (hz a ha) rest

theorem isPrefixOf?_append_self (t rest : List Char) : t.isPrefixOf? (t ++ rest) = some rest := by
  induction t with
  | nil => rfl
  | cons a t ih =>
    rw [List.cons_append, isPrefixOf?_cons_cons, beq_self_eq_true, if_pos rfl, ih]

/-- What starts a text starts every longer one too. -/
theorem firstMatch_isSome_append {α : Type} {text : α → List Char} {candidates : List α} {cs : List Char}
    (h : (firstMatch text candidates cs).isSome = true) (rest : List Char) :
    (firstMatch text candidates (cs ++ rest)).isSome = true := by
  obtain ⟨⟨a, after⟩, ha⟩ := Option.isSome_iff_exists.mp h
  obtain ⟨b, hb, hmap⟩ := List.exists_of_findSome?_eq_some ha
  obtain ⟨r, hr, -⟩ := Option.map_eq_some_iff.mp hmap
  rw [firstMatch, List.findSome?_isSome_iff]
  refine ⟨b, hb, ?_⟩
  rw [isPrefixOf?_eq_some hr, List.append_assoc, isPrefixOf?_append_self]
  rfl

/-! ### Runs -/

/-- What follows a run does not belong to it. -/
theorem takeWhile_append_of_head {p : Char → Bool} {run rest : List Char} (hrun : ∀ c ∈ run, p c = true)
    (hrest : ∀ c ∈ rest.head?, p c = false) : (run ++ rest).takeWhile p = run := by
  rw [List.takeWhile_append_of_pos hrun]
  cases rest with
  | nil => simp
  | cons c rest => simp [hrest c rfl]

theorem dropWhile_append_of_head {p : Char → Bool} {run rest : List Char} (hrun : ∀ c ∈ run, p c = true)
    (hrest : ∀ c ∈ rest.head?, p c = false) : (run ++ rest).dropWhile p = rest := by
  rw [List.dropWhile_append_of_pos hrun]
  cases rest with
  | nil => rfl
  | cons c rest => simp [hrest c rfl]

end TemplateSyntax.Text
