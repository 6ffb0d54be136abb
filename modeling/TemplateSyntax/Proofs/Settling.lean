import Mathlib.Data.List.Basic

/-!
# Calls in a row

A reader that is called again and again gives an answer each time and goes on from where it stopped. If each call
either leaves less to read or gives an answer that stays for ever, then the answers settle: there are no more calls
with an answer of their own than there is to read (`exists_answers_eq`).
-/

namespace TemplateSyntax

section Calls

variable {σ α : Type} (step : σ → α × σ)

/-- The state after `n` calls. -/
def stateAfter : (n : Nat) → σ → σ
  | 0, s => s
  | n + 1, s => stateAfter n (step s).2

/-- The answers of `n` calls. -/
def answers : (n : Nat) → σ → List α
  | 0, _ => []
  | n + 1, s => (step s).1 :: answers n (step s).2

/-- From `s` on every call gives the answer `a`. -/
def Settled (a : α) (s : σ) : Prop :=
  ∀ n, (step (stateAfter step n s)).1 = a

theorem stateAfter_add (m n : Nat) (s : σ) : stateAfter step (m + n) s = stateAfter step n (stateAfter step m s) := by
  induction m generalizing s with
  | zero => rw [Nat.zero_add]; rfl
  | succ m ih => rw [Nat.succ_add, stateAfter, stateAfter, ih]

theorem stateAfter_succ (n : Nat) (s : σ) : stateAfter step (n + 1) s = (step (stateAfter step n s)).2 :=
  stateAfter_add step n 1 s

variable {step} {a : α} {s : σ}

/-- A call that is followed by the same call once is followed by it for ever. -/
theorem settled_of_repeat (h : step (step s).2 = step s) : Settled step (step s).1 s := by
  have hall : ∀ n, step (stateAfter step n s) = step s := by
    intro n
    induction n with
    | zero => rfl
    | succ n ih => rw [stateAfter_succ, ih, h]
  intro n
  rw [hall n]

theorem Settled.next (h : Settled step a s) : Settled step a (step s).2 :=
  fun n => h (n + 1)

theorem Settled.answers_eq (h : Settled step a s) (n : Nat) : answers step n s = List.replicate n a := by
  induction n generalizing s with
  | zero => rfl
  | succ n ih =>
    have hfirst : (step s).1 = a := h 0
    rw [answers, hfirst, ih h.next, List.replicate_succ]

/-- Answers change no more often than there is something to read. -/
theorem exists_answers_eq (size : σ → Nat) (h : ∀ s, size (step s).2 < size s ∨ ∃ a, Settled step a s) {k : Nat}
    (hk : size s ≤ k) : ∃ a, ∀ n, answers step (k + n) s = answers step k s ++ List.replicate n a := by
  -- the bound takes the part of the size, so that a settled state of any size needs no more calls
  induction k generalizing s with
  | zero =>
    rcases h s with hlt | ⟨a, ha⟩
    · omega
    · refine ⟨a, fun n => ?_⟩
      rw [Nat.zero_add, ha.answers_eq]
      rfl
  | succ k ih =>
    rcases h s with hlt | ⟨a, ha⟩
    · obtain ⟨a, ha⟩ := ih (s := (step s).2) (by omega)
      refine ⟨a, fun n => ?_⟩
      rw [Nat.succ_add, answers, ha n]
      rfl
    · refine ⟨a, fun n => ?_⟩
      rw [ha.answers_eq, ha.answers_eq, List.replicate_add]

end Calls

end TemplateSyntax
