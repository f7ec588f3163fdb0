import ChainBase.Library.Run

/-! A machine made of parts that do not touch each other. Every input is for one of them,
and what a run of the whole is for a part is a run of that part alone. -/

namespace Interleaving

variable {κ : Type u} [DecidableEq κ] {α ι ω σ : κ → Type v} {π : Type w}

/-- What is for one part. -/
def only (k : κ) (xs : List (Sigma α)) : List (α k) :=
  xs.filterMap fun x => if same : x.1 = k then some (same ▸ x.2) else none

@[simp] theorem only_nil (k : κ) : only k ([] : List (Sigma α)) = [] := rfl

@[simp] theorem only_cons_self (k : κ) (a : α k) (xs : List (Sigma α)) : only k (⟨k, a⟩ :: xs) = a :: only k xs := by
  simp [only]

theorem only_cons_ne {j k : κ} (apart : j ≠ k) (a : α j) (xs : List (Sigma α)) : only k (⟨j, a⟩ :: xs) = only k xs := by
  simp [only, apart]

/-- A step of the whole is a step of the part that its input is for, and the other parts stay
as they are. -/
structure Parts (step : π → Sigma ι → Option (Sigma ω × π)) (part : ∀ k, σ k → ι k → Option (ω k × σ k))
    (view : π → ∀ k, σ k) : Prop where
  steps : ∀ p k input output after, part k (view p k) input = some (output, after) →
    ∃ q, step p ⟨k, input⟩ = some (⟨k, output⟩, q) ∧ view q k = after ∧ ∀ j, j ≠ k → view q j = view p j

variable {step : π → Sigma ι → Option (Sigma ω × π)} {part : ∀ k, σ k → ι k → Option (ω k × σ k)} {view : π → ∀ k, σ k}

/-- If every part runs alone on what is for it, the whole runs, and each part has run in it as
it does alone. -/
theorem Parts.runs (parts : Parts step part view) {inputs : List (Sigma ι)} {p : π}
    (alone : ∀ k, ∃ outputs last, Run.run (part k) (view p k) (only k inputs) = some (outputs, last)) :
    ∃ outputs q, Run.run step p inputs = some (outputs, q) ∧
      ∀ k, Run.run (part k) (view p k) (only k inputs) = some (only k outputs, view q k) := by
  induction inputs generalizing p with
  | nil => exact ⟨[], p, rfl, fun k => rfl⟩
  | cons input inputs ih =>
    obtain ⟨k, input⟩ := input
    obtain ⟨outputs, last, ran⟩ := alone k
    rw [only_cons_self] at ran
    obtain ⟨output, after, rest, first, others, -⟩ := Run.run_cons ran
    obtain ⟨q, taken, here, elsewhere⟩ := parts.steps p k input output after first
    have remaining : ∀ j, ∃ outputs last, Run.run (part j) (view q j) (only j inputs) = some (outputs, last) := by
      intro j
      by_cases same : j = k
      · subst same
        exact ⟨rest, last, here ▸ others⟩
      · have ahead := alone j
        rwa [only_cons_ne (Ne.symm same), ← elsewhere j same] at ahead
    obtain ⟨outputs, final, later, each⟩ := ih remaining
    refine ⟨⟨k, output⟩ :: outputs, final, Run.run_step taken later, fun j => ?_⟩
    by_cases same : j = k
    · subst same
      rw [only_cons_self, only_cons_self]
      exact Run.run_step first (here ▸ each j)
    · rw [only_cons_ne (Ne.symm same), only_cons_ne (Ne.symm same), ← elsewhere j same]
      exact each j

end Interleaving
