import ChainBase.Library.Recording

/-! A value in memory, and a log of what has been done to it in a file. A lifetime of the
memory ends with the value kept or lost, and the next one begins with what has been kept or
with what the log rebuilds. -/

namespace Durability

variable {σ : Type u} {τ : Type v} {ι : Type w} {ω : Type x} {ε : Type y}

/-- What is there between two lifetimes. -/
structure Store (σ : Type u) (ε : Type y) where
  image : Option σ
  log : List ε

namespace Store

def reopen (rebuild : List ε → Option σ) (store : Store σ ε) : Option σ :=
  match store.image with
  | some s => some s
  | none => rebuild store.log

/-- What a lifetime leaves that has ended with a value and has written some entries. -/
def left (store : Store σ ε) (kept : Bool) (last : σ) (entries : List ε) : Store σ ε :=
  ⟨if kept then some last else none, store.log ++ entries⟩

end Store

/-- A machine with a log. Its log rebuilds what the machine agrees with, and what `write`
leaves in the log of a permitted run says what the run has done. -/
structure Serves (step : σ → ι → Option ((ω × List ε) × σ)) (permits : σ → List ι → Prop) (write : List ε → List ε)
    (rebuild : List ε → Option σ) (agrees : σ → τ → Prop) (apply : τ → ε → Option τ) (spec : τ → ι → ω × τ) (initial : τ) :
    Prop where
  rebuilds : ∀ log t, log.foldlM apply initial = some t → ∃ s, rebuild log = some s ∧ agrees s t
  runs : ∀ s t inputs, agrees s t → permits s inputs → ∃ outputs last, Run.run step s inputs = some (outputs, last) ∧
    outputs.map Prod.fst = (Run.follow spec t inputs).1 ∧ agrees last (Run.follow spec t inputs).2 ∧
      (write (Recording.recorded outputs)).foldlM apply t = some (Run.follow spec t inputs).2

/-- The log says what a value is, and so does the image if there is one. -/
structure Store.Keeps (agrees : σ → τ → Prop) (apply : τ → ε → Option τ) (initial : τ) (store : Store σ ε) (t : τ) : Prop where
  image : ∀ s ∈ store.image, agrees s t
  log : store.log.foldlM apply initial = some t

variable {step : σ → ι → Option ((ω × List ε) × σ)} {permits : σ → List ι → Prop} {write : List ε → List ε}
  {rebuild : List ε → Option σ} {agrees : σ → τ → Prop} {apply : τ → ε → Option τ} {spec : τ → ι → ω × τ} {initial t : τ}
  {store : Store σ ε}

namespace Store

theorem Keeps.fresh : Keeps agrees apply initial ⟨none, []⟩ initial where
  image s impossible := by cases impossible
  log := rfl

theorem Keeps.reopened (serves : Serves step permits write rebuild agrees apply spec initial)
    (keeps : Keeps agrees apply initial store t) : ∃ s, store.reopen rebuild = some s ∧ agrees s t := by
  cases kept : store.image with
  | some s => exact ⟨s, by simp only [reopen, kept], keeps.image s kept⟩
  | none =>
    obtain ⟨s, rebuilt, agree⟩ := serves.rebuilds store.log t keeps.log
    exact ⟨s, by simp only [reopen, kept, rebuilt], agree⟩

/-- A lifetime replies as the specification does, and whether its value is kept or lost,
the next one goes on from there. -/
theorem Keeps.served (serves : Serves step permits write rebuild agrees apply spec initial)
    (keeps : Keeps agrees apply initial store t) {s : σ} (agree : agrees s t) {inputs : List ι} (permitted : permits s inputs) :
    ∃ outputs last, Run.run step s inputs = some (outputs, last) ∧ outputs.map Prod.fst = (Run.follow spec t inputs).1 ∧
      ∀ kept, Keeps agrees apply initial (store.left kept last (write (Recording.recorded outputs))) (Run.follow spec t inputs).2 := by
  obtain ⟨outputs, last, ran, replies, final, written⟩ := serves.runs s t inputs agree permitted
  refine ⟨outputs, last, ran, replies, fun kept => ⟨?_, ?_⟩⟩
  · cases kept with
    | false => exact fun s lost => by cases lost
    | true =>
      intro s same
      cases same
      exact final
  · rw [left, List.foldlM_append, keeps.log]
    exact written

end Store
end Durability
