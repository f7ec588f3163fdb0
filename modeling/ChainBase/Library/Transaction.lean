import ChainBase.Library.Versioned

/-! Programs over a store with levels. A session opens a level, which its end pushes,
squashes or undoes; one that is left by an exception, or without an end of its own, is undone.
The meaning of a program is told twice: for all programs, with the levels they leave open,
and for those that push only outermost sessions, without any. -/

namespace Versioned
variable {τ : Type u}

/-- A value without levels. -/
def flat (t : τ) : Versioned τ := ⟨t, [], 0⟩

/-- What has come of a value without levels, where it was the current one of another. -/
def atop (w v : Versioned τ) : Versioned τ := ⟨w.current, w.saved ++ v.saved, v.revision + w.revision⟩

theorem flat_atop (v : Versioned τ) (t : τ) : (flat t).atop v = { v with current := t } := by
  simp [flat, atop]

@[simp] theorem atop_current (w v : Versioned τ) : (w.atop v).current = w.current := rfl

theorem atop_atop (u w v : Versioned τ) : (u.atop w).atop v = u.atop (w.atop v) := by
  simp only [atop, List.append_assoc, Int.add_assoc]

end Versioned

namespace Transaction

/-- How a session ends; `scope` is the end of its scope and nothing before. -/
inductive Ending where
  | push
  | squash
  | undo
  | scope
deriving DecidableEq, Repr

inductive Program (ι : Type u) where
  | skip
  | call (input : ι)
  | throw
  | andThen (first second : Program ι)
  | attempt (body handler : Program ι)
  | session (body : Program ι) (ending : Ending)

/-- A store, with a guard of type `η` for each session: it is constructed where the
session starts, told how to end, and destroyed in any case. -/
structure Machine (σ η : Type u) (ι : Type v) where
  call : σ → ι → Option (Bool × σ)
  start : σ → η × σ
  tell : Ending → η → σ → Option (η × σ)
  destroy : η → σ → Option σ

variable {σ η : Type u} {ι : Type v} {τ : Type w}

namespace Machine

def run (m : Machine σ η ι) : Program ι → σ → Option (Bool × σ)
  | .skip, s => some (true, s)
  | .call input, s => m.call s input
  | .throw, s => some (false, s)
  | .andThen first second, s => do
    let (returned, after) ← m.run first s
    if returned then m.run second after else some (false, after)
  | .attempt body handler, s => do
    let (returned, after) ← m.run body s
    if returned then some (true, after) else m.run handler after
  | .session body ending, s => do
    let (guard, started) := m.start s
    let (returned, after) ← m.run body started
    if returned then
      let (guard, ended) ← m.tell ending guard after
      let last ← m.destroy guard ended
      some (true, last)
    else
      let last ← m.destroy guard after
      some (false, last)

def Permitted (m : Machine σ η ι) (permits : σ → ι → Prop) : Program ι → σ → Prop
  | .skip, _ | .throw, _ => True
  | .call input, s => permits s input
  | .andThen first second, s =>
    m.Permitted permits first s ∧ ∀ after, m.run first s = some (true, after) → m.Permitted permits second after
  | .attempt body handler, s =>
    m.Permitted permits body s ∧ ∀ after, m.run body s = some (false, after) → m.Permitted permits handler after
  | .session body _, s => m.Permitted permits body (m.start s).2

instance decidablePermitted (m : Machine σ η ι) (permits : σ → ι → Prop) [∀ s input, Decidable (permits s input)] :
    ∀ (p : Program ι) (s : σ), Decidable (m.Permitted permits p s)
  | .skip, _ | .throw, _ => .isTrue trivial
  | .call input, s => inferInstanceAs (Decidable (permits s input))
  | .andThen first second, s =>
    have := m.decidablePermitted permits first s
    match ran : m.run first s with
    | none | some (false, _) => decidable_of_iff (m.Permitted permits first s) (by simp [Permitted, ran])
    | some (true, after) =>
      have := m.decidablePermitted permits second after
      decidable_of_iff (m.Permitted permits first s ∧ m.Permitted permits second after) (by simp [Permitted, ran])
  | .attempt body handler, s =>
    have := m.decidablePermitted permits body s
    match ran : m.run body s with
    | none | some (true, _) => decidable_of_iff (m.Permitted permits body s) (by simp [Permitted, ran])
    | some (false, after) =>
      have := m.decidablePermitted permits handler after
      decidable_of_iff (m.Permitted permits body s ∧ m.Permitted permits handler after) (by simp [Permitted, ran])
  | .session body _, s => m.decidablePermitted permits body (m.start s).2

end Machine

/-! ## The levels that a program leaves open -/

def Ending.on (v : Versioned τ) : Ending → Versioned τ
  | push => v
  | squash => v.squash
  | undo | scope => v.undo

variable (act : τ → ι → Bool × τ)

/-- The value that a program makes of another one, with the levels it adds. -/
def outcome : Program ι → τ → Bool × Versioned τ
  | .skip, t => (true, .flat t)
  | .call input, t => ((act t input).1, .flat (act t input).2)
  | .throw, t => (false, .flat t)
  | .andThen first second, t =>
    let (returned, v) := outcome first t
    if returned then
      let (returned, w) := outcome second v.current
      (returned, w.atop v)
    else (false, v)
  | .attempt body handler, t =>
    let (returned, v) := outcome body t
    if returned then (true, v)
    else
      let (returned, w) := outcome handler v.current
      (returned, w.atop v)
  | .session body ending, t =>
    let (returned, v) := outcome body t
    (returned, (if returned then ending else .scope).on (v.atop (Versioned.flat t).start))

/-- What happens to a session's own level does not depend on those around it. -/
theorem on_atop (ending : Ending) (w v : Versioned τ) :
    ending.on (w.atop v.start) = (ending.on (w.atop (Versioned.flat v.current).start)).atop v := by
  obtain ⟨current, saved, revision⟩ := w
  cases ending with
  | push =>
    simp only [Ending.on, Versioned.atop, Versioned.start, Versioned.flat, List.append_assoc, List.cons_append, List.nil_append]
    congr 1
    omega
  | squash =>
    cases saved <;>
    · simp only [Ending.on, Versioned.squash, Versioned.atop, Versioned.start, Versioned.flat, List.nil_append, List.cons_append,
        List.append_assoc]
      congr 1
      omega
  | undo | scope =>
    cases saved <;>
    · simp only [Ending.on, Versioned.undo, Versioned.atop, Versioned.start, Versioned.flat, List.nil_append, List.cons_append,
        List.append_assoc]
      congr 1
      omega

/-- A machine that stands for a versioned value, and guards that end the level that has
been opened with them, whatever happened in between. -/
structure Simulated (m : Machine σ η ι) (permits : σ → ι → Prop) (agrees : σ → Versioned τ → Prop) : Prop where
  called : ∀ s v input, agrees s v → permits s input →
    ∃ after, m.call s input = some ((act v.current input).1, after) ∧ agrees after { v with current := (act v.current input).2 }
  started : ∀ s v, agrees s v → agrees (m.start s).2 v.start
  ended : ∀ s t v ending, agrees t v → ∃ guard after last, m.tell ending (m.start s).1 t = some (guard, after) ∧
    m.destroy guard after = some last ∧ agrees last (ending.on v)
  unwound : ∀ s t v, agrees t v → ∃ last, m.destroy (m.start s).1 t = some last ∧ agrees last v.undo

/-- A program does on a store what it does on the current value alone, and leaves the older
levels as they are. -/
theorem Simulated.run {m : Machine σ η ι} {permits : σ → ι → Prop} {agrees : σ → Versioned τ → Prop}
    (simulated : Simulated act m permits agrees) {p : Program ι} {s : σ} {v : Versioned τ} (initial : agrees s v)
    (permitted : m.Permitted permits p s) :
    ∃ last, m.run p s = some ((outcome act p v.current).1, last) ∧ agrees last ((outcome act p v.current).2.atop v) := by
  induction p generalizing s v with
  | skip | throw => exact ⟨s, rfl, by simpa only [outcome, Versioned.flat_atop] using initial⟩
  | call input =>
    obtain ⟨after, ran, agree⟩ := simulated.called s v input initial permitted
    exact ⟨after, ran, by simpa only [outcome, Versioned.flat_atop] using agree⟩
  | andThen first second ihFirst ihSecond =>
    obtain ⟨after, ran, agree⟩ := ihFirst initial permitted.1
    cases returned : (outcome act first v.current).1 with
    | false =>
      rw [returned] at ran
      exact ⟨after, by simp [Machine.run, ran, outcome, returned], by simpa [outcome, returned] using agree⟩
    | true =>
      rw [returned] at ran
      obtain ⟨last, others, final⟩ := ihSecond agree (permitted.2 after ran)
      rw [← Versioned.atop_atop] at final
      exact ⟨last, by simp [Machine.run, ran, outcome, returned, others], by simpa [outcome, returned] using final⟩
  | attempt body handler ihBody ihHandler =>
    obtain ⟨after, ran, agree⟩ := ihBody initial permitted.1
    cases returned : (outcome act body v.current).1 with
    | true =>
      rw [returned] at ran
      exact ⟨after, by simp [Machine.run, ran, outcome, returned], by simpa [outcome, returned] using agree⟩
    | false =>
      rw [returned] at ran
      obtain ⟨last, others, final⟩ := ihHandler agree (permitted.2 after ran)
      rw [← Versioned.atop_atop] at final
      exact ⟨last, by simp [Machine.run, ran, outcome, returned, others], by simpa [outcome, returned] using final⟩
  | session body ending ih =>
    obtain ⟨after, ran, agree⟩ := ih (simulated.started s v initial) permitted
    change m.run body (m.start s).2 = some ((outcome act body v.current).1, after) at ran
    change agrees after ((outcome act body v.current).2.atop v.start) at agree
    cases returned : (outcome act body v.current).1 with
    | true =>
      rw [returned] at ran
      obtain ⟨guard, ended, last, told, destroyed, final⟩ := simulated.ended s after _ ending agree
      refine ⟨last, by simp [Machine.run, ran, outcome, returned, told, destroyed], ?_⟩
      rw [on_atop] at final
      simpa [outcome, returned] using final
    | false =>
      rw [returned] at ran
      obtain ⟨last, destroyed, final⟩ := simulated.unwound s after _ agree
      refine ⟨last, by simp [Machine.run, ran, outcome, returned, destroyed], ?_⟩
      have undone := on_atop .scope (outcome act body v.current).2 v
      change (Versioned.atop _ _).undo = _ at undone
      rw [undone] at final
      simpa [outcome, returned] using final

/-! ## All or nothing -/

def Program.Contained : Program ι → Prop
  | .skip | .call _ | .throw => True
  | .andThen first second => first.Contained ∧ second.Contained
  | .attempt body handler => body.Contained ∧ handler.Contained
  | .session body ending => body.Contained ∧ ending ≠ .push

def Program.Outermost : Program ι → Prop
  | .skip | .call _ | .throw => True
  | .andThen first second => first.Outermost ∧ second.Outermost
  | .attempt body handler => body.Outermost ∧ handler.Outermost
  | .session body _ => body.Contained

instance Program.decidableContained : ∀ p : Program ι, Decidable p.Contained
  | .skip | .call _ | .throw => .isTrue trivial
  | .andThen first second =>
    have := first.decidableContained
    have := second.decidableContained
    inferInstanceAs (Decidable (first.Contained ∧ second.Contained))
  | .attempt body handler =>
    have := body.decidableContained
    have := handler.decidableContained
    inferInstanceAs (Decidable (body.Contained ∧ handler.Contained))
  | .session body ending =>
    have := body.decidableContained
    inferInstanceAs (Decidable (body.Contained ∧ ending ≠ .push))

instance Program.decidableOutermost : ∀ p : Program ι, Decidable p.Outermost
  | .skip | .call _ | .throw => .isTrue trivial
  | .andThen first second =>
    have := first.decidableOutermost
    have := second.decidableOutermost
    inferInstanceAs (Decidable (first.Outermost ∧ second.Outermost))
  | .attempt body handler =>
    have := body.decidableOutermost
    have := handler.decidableOutermost
    inferInstanceAs (Decidable (body.Outermost ∧ handler.Outermost))
  | .session body _ => inferInstanceAs (Decidable body.Contained)

/-- Whether the changes of a session that comes to its end are kept. -/
def Ending.keeps : Ending → Bool
  | push | squash => true
  | undo | scope => false

/-- The value that a program makes of another one: a session makes all of its changes, or none. -/
def meaning : Program ι → τ → Bool × τ
  | .skip, t => (true, t)
  | .call input, t => act t input
  | .throw, t => (false, t)
  | .andThen first second, t =>
    let (returned, u) := meaning first t
    if returned then meaning second u else (false, u)
  | .attempt body handler, t =>
    let (returned, u) := meaning body t
    if returned then (true, u) else meaning handler u
  | .session body ending, t =>
    let (returned, u) := meaning body t
    (returned, if returned && ending.keeps then u else t)

/-- The values on which the sessions that a program pushes have started, the last one first. -/
def pushed : Program ι → τ → List τ
  | .skip, _ | .call _, _ | .throw, _ => []
  | .andThen first second, t =>
    let (returned, u) := meaning act first t
    if returned then pushed second u ++ pushed first t else pushed first t
  | .attempt body handler, t =>
    let (returned, u) := meaning act body t
    if returned then pushed body t else pushed handler u ++ pushed body t
  | .session body ending, t => if (meaning act body t).1 ∧ ending = .push then [t] else []

theorem outcome_contained {p : Program ι} (contained : p.Contained) (t : τ) :
    outcome act p t = ((meaning act p t).1, .flat (meaning act p t).2) := by
  induction p generalizing t with
  | skip | throw | call => rfl
  | andThen first second ihFirst ihSecond =>
    simp only [outcome, meaning, ihFirst contained.1]
    cases (meaning act first t).1 with
    | false => rfl
    | true => simp [ihSecond contained.2, Versioned.flat, Versioned.atop]
  | attempt body handler ihBody ihHandler =>
    simp only [outcome, meaning, ihBody contained.1]
    cases (meaning act body t).1 with
    | true => rfl
    | false => simp [ihHandler contained.2, Versioned.flat, Versioned.atop]
  | session body ending ih =>
    simp only [outcome, meaning, ih contained.1]
    cases (meaning act body t).1 with
    | false => rfl
    | true =>
      cases ending with
      | push => exact absurd rfl contained.2
      | squash | undo | scope => rfl

/-- What is pushed in the end is what each session has started from. -/
theorem outcome_outermost {p : Program ι} (outermost : p.Outermost) (t : τ) :
    outcome act p t = ((meaning act p t).1, ⟨(meaning act p t).2, pushed act p t, (pushed act p t).length⟩) := by
  induction p generalizing t with
  | skip | throw | call => rfl
  | andThen first second ihFirst ihSecond =>
    simp only [outcome, meaning, pushed, ihFirst outermost.1]
    cases (meaning act first t).1 with
    | false => rfl
    | true => simp [ihSecond outermost.2, Versioned.atop, Int.add_comm]
  | attempt body handler ihBody ihHandler =>
    simp only [outcome, meaning, pushed, ihBody outermost.1]
    cases (meaning act body t).1 with
    | true => rfl
    | false => simp [ihHandler outermost.2, Versioned.atop, Int.add_comm]
  | session body ending =>
    simp only [outcome, meaning, pushed, outcome_contained act outermost]
    cases (meaning act body t).1 with
    | false => rfl
    | true => cases ending <;> rfl

end Transaction
