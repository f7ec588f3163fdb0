import ChainBase.Library.Run

/-! Machines that record entries as they run, and machines that replay them. A
specification says what an entry does, or that it cannot be applied; a replay
follows it to the end, or fails where it stops. -/

namespace Recording

variable {σ : Type u} {τ : Type v} {ι : Type w} {ω : Type x} {ε φ : Type y}

def recorded (outputs : List (ω × List ε)) : List ε := outputs.flatMap Prod.snd

@[simp] theorem recorded_cons (output : ω × List ε) (outputs : List (ω × List ε)) :
    recorded (output :: outputs) = output.2 ++ recorded outputs := rfl

theorem recorded_append (first second : List (ω × List ε)) : recorded (first ++ second) = recorded first ++ recorded second :=
  List.flatMap_append

/-- Every entry is met in a state it is good for. -/
def Follows (apply : τ → ε → Option τ) (good : τ → ε → Prop) : τ → List ε → Prop
  | _, [] => True
  | t, entry :: entries => good t entry ∧ ∀ after, apply t entry = some after → Follows apply good after entries

variable {apply : τ → ε → Option τ} {good : τ → ε → Prop}

theorem follows_append {t : τ} {first second : List ε} : Follows apply good t (first ++ second) ↔
    Follows apply good t first ∧ ∀ middle, first.foldlM apply t = some middle → Follows apply good middle second := by
  induction first generalizing t with
  | nil => simp [Follows]
  | cons entry entries ih =>
    simp only [List.cons_append, Follows, ih, List.foldlM_cons, Option.bind_eq_bind, Option.bind_eq_some_iff, and_assoc]
    constructor
    · rintro ⟨here, later⟩
      exact ⟨here, fun after applied => (later after applied).1,
        fun middle ⟨after, applied, rest⟩ => (later after applied).2 middle rest⟩
    · rintro ⟨here, first, rest⟩
      exact ⟨here, fun after applied => ⟨first after applied, fun middle reached => rest middle ⟨after, applied, reached⟩⟩⟩

theorem replay_applied {step : σ → ε → Except φ σ} (agrees : σ → τ → Prop)
    (applied : ∀ s t entry after, agrees s t → apply t entry = some after → ∃ last, step s entry = .ok last ∧ agrees last after)
    {entries : List ε} {s : σ} {t after : τ} (initial : agrees s t) (replayed : entries.foldlM apply t = some after) :
    ∃ last, entries.foldlM step s = .ok last ∧ agrees last after := by
  induction entries generalizing s t with
  | nil =>
    cases replayed
    exact ⟨s, rfl, initial⟩
  | cons entry entries ih =>
    rw [List.foldlM_cons, Option.bind_eq_bind, Option.bind_eq_some_iff] at replayed
    obtain ⟨middle, first, rest⟩ := replayed
    obtain ⟨next, ran, agree⟩ := applied s t entry middle initial first
    obtain ⟨last, others, final⟩ := ih agree rest
    refine ⟨last, ?_, final⟩
    rw [List.foldlM_cons, ran]
    exact others

/-- A replay that fails where the specification stops does so over a whole journal. -/
theorem replay_stopped {step : σ → ε → Except φ σ} (agrees : σ → τ → Prop)
    (applied : ∀ s t entry after, agrees s t → apply t entry = some after → ∃ last, step s entry = .ok last ∧ agrees last after)
    (stopped : ∀ s t entry, agrees s t → good t entry → apply t entry = none → ∃ failure, step s entry = .error failure)
    {entries : List ε} {s : σ} {t : τ} (initial : agrees s t) (follows : Follows apply good t entries)
    (stops : entries.foldlM apply t = none) : ∃ failure, entries.foldlM step s = .error failure := by
  induction entries generalizing s t with
  | nil => cases stops
  | cons entry entries ih =>
    rw [List.foldlM_cons]
    cases first : apply t entry with
    | none =>
      obtain ⟨failure, fails⟩ := stopped s t entry initial follows.1 first
      exact ⟨failure, by rw [fails]; rfl⟩
    | some after =>
      obtain ⟨middle, ran, agree⟩ := applied s t entry after initial first
      rw [ran]
      rw [List.foldlM_cons, first] at stops
      exact ih agree (follows.2 after first) stops

theorem replay_invariant {step : σ → ε → Except φ σ} {good : σ → ε → Prop} (inv : σ → Prop) {entries : List ε}
    (preserved : ∀ s entry after, entry ∈ entries → inv s → good s entry → step s entry = .ok after → inv after) {s last : σ}
    (initial : inv s) (follows : Follows (fun s entry => (step s entry).toOption) good s entries)
    (ran : entries.foldlM step s = .ok last) : inv last := by
  induction entries generalizing s with
  | nil =>
    cases ran
    exact initial
  | cons entry entries ih =>
    rw [List.foldlM_cons] at ran
    cases first : step s entry with
    | error failure =>
      rw [first] at ran
      cases ran
    | ok after =>
      rw [first] at ran
      have here := preserved s entry after List.mem_cons_self initial follows.1 first
      exact ih (fun s other after member => preserved s other after (List.mem_cons_of_mem entry member)) here
        (follows.2 after (congrArg Except.toOption first)) ran

variable {step : σ → ι → Option ((ω × List ε) × σ)} {permits : σ → ι → Prop}

/-- A machine that stays in agreement with the replay of what it records. -/
theorem run_replayed {agrees : σ → τ → Prop}
    (stepped : ∀ s t input, agrees s t → permits s input → ∃ reply entries after later,
      step s input = some ((reply, entries), after) ∧ entries.foldlM apply t = some later ∧ agrees after later)
    {inputs : List ι} {s : σ} {t : τ} (initial : agrees s t) (permitted : Run.Permitted step permits s inputs) :
    ∃ outputs last later, Run.run step s inputs = some (outputs, last) ∧
      (recorded outputs).foldlM apply t = some later ∧ agrees last later := by
  induction inputs generalizing s t with
  | nil => exact ⟨[], s, t, rfl, rfl, initial⟩
  | cons input inputs ih =>
    obtain ⟨reply, entries, after, middle, first, replayed, agree⟩ := stepped s t input initial permitted.1
    obtain ⟨outputs, last, later, rest, others, final⟩ := ih agree (permitted.2 _ after first)
    refine ⟨(reply, entries) :: outputs, last, later, Run.run_step first rest, ?_, final⟩
    rw [recorded_cons, List.foldlM_append, replayed]
    exact others

/-- What a run records is good for the replay, as far as that gets. -/
theorem run_follows {agrees : σ → τ → Prop}
    (stepped : ∀ s t input output after, agrees s t → permits s input → step s input = some (output, after) →
      Follows apply good t output.2 ∧ ∀ later, output.2.foldlM apply t = some later → agrees after later)
    {inputs : List ι} {s last : σ} {t : τ} {outputs : List (ω × List ε)} (initial : agrees s t)
    (permitted : Run.Permitted step permits s inputs) (ran : Run.run step s inputs = some (outputs, last)) :
    Follows apply good t (recorded outputs) := by
  induction inputs generalizing s t outputs with
  | nil =>
    simp only [Run.run_nil, Option.some.injEq, Prod.mk.injEq] at ran
    exact ran.1 ▸ trivial
  | cons input inputs ih =>
    obtain ⟨output, after, rest, first, others, rfl⟩ := Run.run_cons ran
    obtain ⟨fits, agree⟩ := stepped s t input output after initial permitted.1 first
    exact follows_append.mpr ⟨fits, fun middle reached => ih (agree middle reached) (permitted.2 output after first) others⟩

theorem run_specified {spec : τ → ι → ω × τ} {agrees : σ → τ → Prop}
    (stepped : ∀ s t input, agrees s t → permits s input → ∃ entries after,
      step s input = some (((spec t input).1, entries), after) ∧ entries.foldlM apply t = some (spec t input).2 ∧
        agrees after (spec t input).2)
    {inputs : List ι} {s : σ} {t : τ} (initial : agrees s t) (permitted : Run.Permitted step permits s inputs) :
    ∃ outputs last, Run.run step s inputs = some (outputs, last) ∧ outputs.map Prod.fst = (Run.follow spec t inputs).1 ∧
      (recorded outputs).foldlM apply t = some (Run.follow spec t inputs).2 ∧ agrees last (Run.follow spec t inputs).2 := by
  induction inputs generalizing s t with
  | nil => exact ⟨[], s, rfl, rfl, rfl, initial⟩
  | cons input inputs ih =>
    obtain ⟨entries, after, first, replayed, agree⟩ := stepped s t input initial permitted.1
    obtain ⟨outputs, last, rest, replies, others, final⟩ := ih agree (permitted.2 _ after first)
    refine ⟨(_, entries) :: outputs, last, Run.run_step first rest, ?_, ?_, final⟩
    · rw [List.map_cons, replies]
      rfl
    · rw [recorded_cons, List.foldlM_append, replayed]
      exact others

theorem recorded_forall {P : ε → Prop} (each : ∀ s input output after, step s input = some (output, after) →
      ∀ entry ∈ output.2, P entry)
    {inputs : List ι} {s last : σ} {outputs : List (ω × List ε)} (ran : Run.run step s inputs = some (outputs, last)) :
    ∀ entry ∈ recorded outputs, P entry := by
  induction inputs generalizing s outputs with
  | nil =>
    cases ran
    simp [recorded]
  | cons input inputs ih =>
    obtain ⟨output, after, rest, first, others, rfl⟩ := Run.run_cons ran
    rw [recorded_cons]
    intro entry member
    rcases List.mem_append.mp member with here | later
    · exact each s input output after first entry here
    · exact ih others entry later

end Recording
