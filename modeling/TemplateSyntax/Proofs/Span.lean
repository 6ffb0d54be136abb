import TemplateSyntax.Span

/-!
# Spans in order

Tokens, siblings in a tree and the parts of an expression lie one behind the other between two offsets. Spans in order
stay so if some are left out or the offsets move apart, and those from one to another may be joined
(`InOrder.upTo`).
-/

namespace TemplateSyntax.Span

/-- The spans lie one behind the other between the two offsets, and none of them is empty. -/
def InOrder : (start : Nat) → List Span → (stop : Nat) → Prop
  | start, [], stop => start ≤ stop
  | start, s :: ss, stop => start ≤ s.start ∧ s.start < s.stop ∧ InOrder s.stop ss stop

variable {a a' b b' : Nat} {s t : Span} {ss ts : List Span}

@[simp] theorem inOrder_nil : InOrder a [] b ↔ a ≤ b := Iff.rfl

@[simp] theorem inOrder_cons : InOrder a (s :: ss) b ↔ a ≤ s.start ∧ s.start < s.stop ∧ InOrder s.stop ss b := Iff.rfl

theorem InOrder.le (h : InOrder a ss b) : a ≤ b := by
  induction ss generalizing a with
  | nil => exact h
  | cons s ss ih =>
    obtain ⟨hle, hlt, h⟩ := h
    have := ih h
    omega

theorem InOrder.mono (h : InOrder a ss b) (ha : a' ≤ a) (hb : b ≤ b') : InOrder a' ss b' := by
  induction ss generalizing a a' with
  | nil =>
    have hle : a ≤ b := h
    exact Nat.le_trans (Nat.le_trans ha hle) hb
  | cons s ss ih => exact ⟨Nat.le_trans ha h.1, h.2.1, ih h.2.2 (Nat.le_refl _)⟩

theorem inOrder_append : InOrder a (ss ++ ts) b ↔ ∃ m, InOrder a ss m ∧ InOrder m ts b := by
  induction ss generalizing a with
  | nil =>
    constructor
    · exact fun h => ⟨a, Nat.le_refl a, h⟩
    · rintro ⟨m, ham, h⟩
      exact h.mono ham (Nat.le_refl b)
  | cons s ss ih =>
    rw [List.cons_append, inOrder_cons, ih]
    constructor
    · rintro ⟨hle, hlt, m, hss, hts⟩
      exact ⟨m, ⟨hle, hlt, hss⟩, hts⟩
    · rintro ⟨m, ⟨hle, hlt, hss⟩, hts⟩
      exact ⟨hle, hlt, m, hss, hts⟩

theorem inOrder_append_singleton : InOrder a (ss ++ [s]) b ↔ InOrder a ss s.start ∧ s.start < s.stop ∧ s.stop ≤ b := by
  rw [inOrder_append]
  constructor
  · rintro ⟨m, hss, hle, hlt, hb⟩
    exact ⟨hss.mono (Nat.le_refl a) hle, hlt, hb⟩
  · rintro ⟨hss, hlt, hb⟩
    exact ⟨s.start, hss, Nat.le_refl _, hlt, hb⟩

theorem InOrder.sublist (h : InOrder a ss b) (hsub : ts.Sublist ss) : InOrder a ts b := by
  induction hsub generalizing a with
  | slnil => exact h
  | cons s _ ih =>
    obtain ⟨hle, hlt, h⟩ := h
    exact ih (h.mono (Nat.le_trans hle (Nat.le_of_lt hlt)) (Nat.le_refl b))
  | cons_cons s _ ih => exact ⟨h.1, h.2.1, ih h.2.2⟩

theorem InOrder.skip (h : InOrder a (s :: ss) b) : InOrder a ss b :=
  h.sublist (List.sublist_cons_self s ss)

theorem InOrder.of_mem (h : InOrder a ss b) (hs : s ∈ ss) : a ≤ s.start ∧ s.start < s.stop ∧ s.stop ≤ b := by
  have hone : InOrder a [s] b := h.sublist (List.singleton_sublist.mpr hs)
  exact hone

/-- The spans from `s` to `t` may be joined. -/
theorem InOrder.upTo (h : InOrder a (s :: ss ++ t :: ts) b) :
    InOrder a (s.upTo t :: ts) b ∧ InOrder s.start (s :: ss ++ [t]) t.stop := by
  obtain ⟨hle, hlt, h⟩ := h
  obtain ⟨m, hss, hm, htlt, hts⟩ := inOrder_append.mp h
  have hsm := hss.le
  refine ⟨⟨hle, ?_, hts⟩, Nat.le_refl _, hlt, inOrder_append.mpr ⟨m, hss, hm, htlt, Nat.le_refl _⟩⟩
  change s.start < t.stop
  omega

end TemplateSyntax.Span
