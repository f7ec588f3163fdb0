import Mathlib.Data.List.Basic

/-! Runs of a machine whose steps may be undefined, and the two inductions over
them: what every permitted step preserves, every permitted run preserves; and a
machine that follows a total specification step by step follows it to the end. -/

namespace Run

variable {σ : Type u} {τ : Type v} {ι : Type w} {ω : Type x}

/-- Perform the inputs in order and collect the outputs. -/
def run (step : σ → ι → Option (ω × σ)) : σ → List ι → Option (List ω × σ)
  | s, [] => some ([], s)
  | s, input :: inputs => do
    let (output, after) ← step s input
    let (outputs, last) ← run step after inputs
    some (output :: outputs, last)

/-- The same for a specification, which is defined everywhere. -/
def follow (spec : τ → ι → ω × τ) : τ → List ι → List ω × τ
  | t, [] => ([], t)
  | t, input :: inputs =>
    let (output, after) := spec t input
    let (outputs, last) := follow spec after inputs
    (output :: outputs, last)

theorem follow_append (spec : τ → ι → ω × τ) (t : τ) (first second : List ι) :
    follow spec t (first ++ second) =
      ((follow spec t first).1 ++ (follow spec (follow spec t first).2 second).1, (follow spec (follow spec t first).2 second).2) := by
  induction first generalizing t with
  | nil => rfl
  | cons input inputs ih => simp only [List.cons_append, follow, ih]

/-- A specification of other inputs and outputs that does the same to the state. -/
theorem follow_map {κ : Type y} {χ : Type z} {spec : τ → ι → ω × τ} {other : τ → κ → χ × τ} {f : κ → ι} {g : ω → χ}
    (same : ∀ t input, other t input = (g (spec t (f input)).1, (spec t (f input)).2)) (t : τ) (inputs : List κ) :
    follow other t inputs = ((follow spec t (inputs.map f)).1.map g, (follow spec t (inputs.map f)).2) := by
  induction inputs generalizing t with
  | nil => rfl
  | cons input inputs ih => simp only [List.map_cons, follow, same, ih]

/-- Every input is permitted in the state the run has reached by then. -/
def Permitted (step : σ → ι → Option (ω × σ)) (permits : σ → ι → Prop) : σ → List ι → Prop
  | _, [] => True
  | s, input :: inputs =>
    permits s input ∧ ∀ output after, step s input = some (output, after) → Permitted step permits after inputs

variable {step : σ → ι → Option (ω × σ)} {permits : σ → ι → Prop}

@[simp] theorem run_nil (s : σ) : run step s [] = some ([], s) := rfl

theorem run_cons {s last : σ} {input : ι} {inputs : List ι} {outputs : List ω}
    (ran : run step s (input :: inputs) = some (outputs, last)) :
    ∃ output after rest, step s input = some (output, after) ∧ run step after inputs = some (rest, last) ∧
      outputs = output :: rest := by
  cases first : step s input with
  | none => simp [run, first] at ran
  | some result =>
    obtain ⟨output, after⟩ := result
    cases others : run step after inputs with
    | none => simp [run, first, others] at ran
    | some result =>
      obtain ⟨rest, final⟩ := result
      simp only [run, first, others, Option.bind_eq_bind, Option.bind_some, Option.some.injEq, Prod.mk.injEq] at ran
      exact ⟨output, after, rest, rfl, by rw [others, ran.2], ran.1.symm⟩

theorem run_step {s after last : σ} {input : ι} {inputs : List ι} {output : ω} {outputs : List ω}
    (first : step s input = some (output, after)) (rest : run step after inputs = some (outputs, last)) :
    run step s (input :: inputs) = some (output :: outputs, last) := by
  simp [run, first, rest]

theorem run_append {first second : List ι} {s middle last : σ} {outputs more : List ω}
    (ran : run step s first = some (outputs, middle)) (rest : run step middle second = some (more, last)) :
    run step s (first ++ second) = some (outputs ++ more, last) := by
  induction first generalizing s outputs with
  | nil =>
    cases ran
    exact rest
  | cons input inputs ih =>
    obtain ⟨output, after, others, stepped, taken, rfl⟩ := run_cons ran
    exact run_step stepped (ih taken)

theorem invariant {inv : σ → Prop}
    (preserved : ∀ s input output after, inv s → permits s input → step s input = some (output, after) → inv after)
    {inputs : List ι} {s last : σ} {outputs : List ω} (initial : inv s) (permitted : Permitted step permits s inputs)
    (ran : run step s inputs = some (outputs, last)) : inv last := by
  induction inputs generalizing s outputs with
  | nil =>
    simp only [run_nil, Option.some.injEq, Prod.mk.injEq] at ran
    exact ran.2 ▸ initial
  | cons input inputs ih =>
    obtain ⟨output, after, rest, first, others, -⟩ := run_cons ran
    exact ih (preserved s input output after initial permitted.1 first) (permitted.2 output after first) others

/-- A machine whose every permitted step is defined and agrees with the
specification runs to the end and agrees with it there. -/
theorem simulates {spec : τ → ι → ω × τ} {agrees : σ → τ → Prop}
    (simulated : ∀ s t input, agrees s t → permits s input →
      ∃ after, step s input = some ((spec t input).1, after) ∧ agrees after (spec t input).2)
    {inputs : List ι} {s : σ} {t : τ} (initial : agrees s t) (permitted : Permitted step permits s inputs) :
    ∃ last, run step s inputs = some ((follow spec t inputs).1, last) ∧ agrees last (follow spec t inputs).2 := by
  induction inputs generalizing s t with
  | nil => exact ⟨s, rfl, initial⟩
  | cons input inputs ih =>
    obtain ⟨after, first, agree⟩ := simulated s t input initial permitted.1
    obtain ⟨last, rest, final⟩ := ih agree (permitted.2 _ after first)
    exact ⟨last, run_step first rest, final⟩

theorem defined {agrees : σ → τ → Prop}
    (stepped : ∀ s t input, agrees s t → permits s input →
      ∃ output after later, step s input = some (output, after) ∧ agrees after later)
    {inputs : List ι} {s : σ} {t : τ} (initial : agrees s t) (permitted : Permitted step permits s inputs) :
    ∃ outputs last, run step s inputs = some (outputs, last) := by
  induction inputs generalizing s t with
  | nil => exact ⟨[], s, rfl⟩
  | cons input inputs ih =>
    obtain ⟨output, after, later, first, agree⟩ := stepped s t input initial permitted.1
    obtain ⟨outputs, last, rest⟩ := ih agree (permitted.2 _ after first)
    exact ⟨output :: outputs, last, run_step first rest⟩

/-- Where a machine runs, another one runs too that can follow each of its steps. -/
theorem forward {first : σ → ι → Option (ω × σ)} {second : τ → ι → Option (ω × τ)} {related : σ → τ → Prop} {inputs : List ι}
    (followed : ∀ s t output after, ∀ input ∈ inputs, related s t → first s input = some (output, after) →
      ∃ later, second t input = some (output, later) ∧ related after later)
    {s last : σ} {t : τ} {outputs : List ω} (initial : related s t) (ran : run first s inputs = some (outputs, last)) :
    ∃ final, run second t inputs = some (outputs, final) ∧ related last final := by
  induction inputs generalizing s t outputs with
  | nil =>
    cases ran
    exact ⟨t, rfl, initial⟩
  | cons input inputs ih =>
    obtain ⟨output, after, rest, stepped, others, rfl⟩ := run_cons ran
    obtain ⟨later, again, still⟩ := followed s t output after input (by simp) initial stepped
    obtain ⟨final, through, atEnd⟩ :=
      ih (fun s t output after other member => followed s t output after other (by simp [member])) still others
    exact ⟨final, run_step again through, atEnd⟩

/-- Two machines that put out the same in every permitted step, and stay related, do so
to the end of every permitted run. -/
theorem lockstep {first : σ → ι → Option (ω × σ)} {second : τ → ι → Option (ω × τ)} {related : σ → τ → Prop}
    (together : ∀ s t input, related s t → permits s input → ∃ output after later,
      first s input = some (output, after) ∧ second t input = some (output, later) ∧ related after later)
    {inputs : List ι} {s : σ} {t : τ} (initial : related s t) (permitted : Permitted first permits s inputs) :
    ∃ outputs last final, run first s inputs = some (outputs, last) ∧ run second t inputs = some (outputs, final) ∧
      related last final := by
  induction inputs generalizing s t with
  | nil => exact ⟨[], s, t, rfl, rfl, initial⟩
  | cons input inputs ih =>
    obtain ⟨output, after, later, ran, again, still⟩ := together s t input initial permitted.1
    obtain ⟨outputs, last, final, rest, others, atEnd⟩ := ih still (permitted.2 output after ran)
    exact ⟨output :: outputs, last, final, run_step ran rest, run_step again others, atEnd⟩

theorem permitted_take {inputs : List ι} {s : σ} (permitted : Permitted step permits s inputs) (n : Nat) :
    Permitted step permits s (inputs.take n) := by
  induction inputs generalizing s n with
  | nil => simpa using permitted
  | cons input inputs ih =>
    cases n with
    | zero => trivial
    | succ n => exact ⟨permitted.1, fun output after ran => ih (permitted.2 output after ran) n⟩

/-- What comes after a part of a permitted run is permitted where that part ends. -/
theorem permitted_drop {first second : List ι} {s middle : σ} {outputs : List ω}
    (permitted : Permitted step permits s (first ++ second)) (ran : run step s first = some (outputs, middle)) :
    Permitted step permits middle second := by
  induction first generalizing s outputs with
  | nil =>
    cases ran
    exact permitted
  | cons input inputs ih =>
    obtain ⟨output, after, rest, taken, others, -⟩ := run_cons ran
    exact ih (permitted.2 output after taken) others

/-- A permission that implies another one wherever an invariant holds. -/
theorem permitted_mono {other : σ → ι → Prop} {inv : σ → Prop}
    (implies : ∀ s input, inv s → permits s input → other s input)
    (preserved : ∀ s input output after, inv s → permits s input → step s input = some (output, after) → inv after)
    {inputs : List ι} {s : σ} (initial : inv s) (permitted : Permitted step permits s inputs) :
    Permitted step other s inputs := by
  induction inputs generalizing s with
  | nil => trivial
  | cons input inputs ih =>
    refine ⟨implies s input initial permitted.1, ?_⟩
    intro output after ran
    exact ih (preserved s input output after initial permitted.1 ran) (permitted.2 output after ran)

theorem permitted_iff {other : σ → ι → Prop} {inv : σ → Prop}
    (agree : ∀ s input, inv s → (permits s input ↔ other s input))
    (preserved : ∀ s input output after, inv s → permits s input → step s input = some (output, after) → inv after)
    {inputs : List ι} {s : σ} (initial : inv s) : Permitted step permits s inputs ↔ Permitted step other s inputs := by
  constructor
  · apply permitted_mono (fun s input holds => (agree s input holds).mp) preserved initial
  · apply permitted_mono (fun s input holds => (agree s input holds).mpr) _ initial
    intro s input output after holds allowed
    exact preserved s input output after holds ((agree s input holds).mpr allowed)

/-- A bookkeeping beside a machine leaves its runs as they are. -/
theorem permitted_beside {f : σ → τ} {bare : τ → ι → Option (ω × τ)} {allows : τ → ι → Prop}
    (same : ∀ s input, bare (f s) input = (step s input).map fun (output, after) => (output, f after))
    {inputs : List ι} {s : σ} (permitted : Permitted step (fun s => allows (f s)) s inputs) :
    Permitted bare allows (f s) inputs := by
  induction inputs generalizing s with
  | nil => trivial
  | cons input inputs ih =>
    refine ⟨permitted.1, ?_⟩
    intro output after ran
    rw [same] at ran
    obtain ⟨⟨told, later⟩, stepped, equal⟩ := Option.map_eq_some_iff.mp ran
    cases equal
    exact ih (permitted.2 _ later stepped)

/-! ## Concrete runs -/

theorem permitted_of_forall {inputs : List ι} (all : ∀ input ∈ inputs, ∀ s, permits s input) (s : σ) :
    Permitted step permits s inputs := by
  induction inputs generalizing s with
  | nil => trivial
  | cons input inputs ih =>
    exact ⟨all input (by simp) s, fun _ after _ => ih (fun other member => all other (by simp [member])) after⟩

instance decidablePermitted [∀ s input, Decidable (permits s input)] :
    ∀ (inputs : List ι) (s : σ), Decidable (Permitted step permits s inputs)
  | [], _ => .isTrue trivial
  | input :: inputs, s =>
    match first : step s input with
    | none => decidable_of_iff (permits s input) (by simp [Permitted, first])
    | some (output, after) =>
      have := decidablePermitted inputs after
      decidable_of_iff (permits s input ∧ Permitted step permits after inputs) (by
        simp [Permitted, first])

/-! ## Reachable states -/

def Reachable (step : σ → ι → Option (ω × σ)) (permits : σ → ι → Prop) (initial s : σ) : Prop :=
  ∃ inputs outputs, Permitted step permits initial inputs ∧ run step initial inputs = some (outputs, s)

theorem Reachable.invariant {initial s : σ} (reachable : Reachable step permits initial s) {inv : σ → Prop}
    (preserved : ∀ s input output after, inv s → permits s input → step s input = some (output, after) → inv after)
    (start : inv initial) : inv s := by
  obtain ⟨inputs, outputs, permitted, ran⟩ := reachable
  exact Run.invariant preserved start permitted ran

end Run
