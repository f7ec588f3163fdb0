import Mathlib.Data.Option.Basic
import Mathlib.Logic.Function.Basic
import Mathlib.Data.List.Basic

/-! Algorithms that get at a memory through calls, and to which a pointer is a thing that is
null or not and the same as another one or not. Where the nodes lie makes no difference to
such an algorithm, whatever it does with what it sees. -/

namespace OpaquePointers

variable {ι : Type u} {P : Type v} {Q : Type w} {M : Type x} {N : Type y}

/-- What a call returns. -/
inductive Response (P : Type v) where
  | nothing
  | number (value : Int)
  | pointer (target : Option P)
deriving DecidableEq, Repr

def Response.map (f : P → Q) : Response P → Response Q
  | .nothing => .nothing
  | .number value => .number value
  | .pointer target => .pointer (target.map f)

/-- What the algorithm sees of it: whether a pointer is null, and which of those it knows
are the same. -/
inductive Seen where
  | nothing
  | number (value : Int)
  | pointer (null : Bool) (same : List Bool)
deriving DecidableEq, Repr

/-- The pointers that a call is given are named by where they stand among the known ones. -/
structure Call (ι : Type u) where
  code : ι
  arguments : List Nat
deriving DecidableEq, Repr

/-- The next call, unless the algorithm is done. -/
abbrev Algorithm (ι : Type u) := List Seen → Option (Call ι)

/-- How a memory answers calls. -/
abbrev Machine (ι : Type u) (P : Type v) (M : Type x) := M → ι → List (Option P) → Option (Response P × M)

structure State (P : Type v) (M : Type x) where
  memory : M
  known : List (Option P)
  seen : List Seen
deriving DecidableEq, Repr

section
variable [DecidableEq P] [DecidableEq Q]

def Response.see (known : List (Option P)) : Response P → Seen
  | .nothing => .nothing
  | .number value => .number value
  | .pointer target => .pointer target.isNone (known.map fun other => decide (other = target))

def Response.learn (known : List (Option P)) : Response P → List (Option P)
  | .pointer target => known ++ [target]
  | .nothing | .number _ => known

def named (known : List (Option P)) (numbers : List Nat) : Option (List (Option P)) := numbers.mapM fun n => known[n]?

def step (machine : Machine ι P M) (algorithm : Algorithm ι) (s : State P M) : Option (State P M) :=
  match algorithm s.seen with
  | none => some s
  | some call =>
    (named s.known call.arguments).bind fun arguments =>
      (machine s.memory call.code arguments).map fun response =>
        ⟨response.2, response.1.learn s.known, s.seen ++ [response.1.see s.known]⟩

def run (machine : Machine ι P M) (algorithm : Algorithm ι) : Nat → State P M → Option (State P M)
  | 0, s => some s
  | rounds + 1, s => (step machine algorithm s).bind (run machine algorithm rounds)

/-! ## Nodes under other names -/

variable {f : P → Q} {first : Machine ι P M} {second : Machine ι Q N} {related : M → N → Prop} {s after : State P M} {t : State Q N}

structure Renamed (f : P → Q) (related : M → N → Prop) (s : State P M) (t : State Q N) : Prop where
  memory : related s.memory t.memory
  known : t.known = s.known.map (Option.map f)
  seen : t.seen = s.seen

/-- The second machine answers as the first one does, when it is asked under the other names. -/
def Follows (f : P → Q) (related : M → N → Prop) (first : Machine ι P M) (second : Machine ι Q N) : Prop :=
  ∀ ⦃memory other code arguments response after⦄, related memory other → first memory code arguments = some (response, after) →
    ∃ later, second other code (arguments.map (Option.map f)) = some (response.map f, later) ∧ related after later

omit [DecidableEq P] [DecidableEq Q] in
theorem named_map (known : List (Option P)) (numbers : List Nat) :
    named (known.map (Option.map f)) numbers = (named known numbers).map (List.map (Option.map f)) := by
  induction numbers with
  | nil => rfl
  | cons n numbers ih =>
    simp only [named, List.mapM_cons, List.getElem?_map] at ih ⊢
    rw [ih]
    cases known[n]? with
    | none => rfl
    | some target => cases numbers.mapM fun n => known[n]? <;> rfl

theorem see_map (injective : Function.Injective f) (known : List (Option P)) (response : Response P) :
    (response.map f).see (known.map (Option.map f)) = response.see known := by
  cases response with
  | nothing => rfl
  | number value => rfl
  | pointer target =>
    simp only [Response.map, Response.see, Option.isNone_map, List.map_map, Seen.pointer.injEq, true_and]
    apply List.map_congr_left
    intro other _
    simp only [Function.comp_apply, (Option.map_injective injective).eq_iff]

omit [DecidableEq P] [DecidableEq Q] in
theorem learn_map (known : List (Option P)) (response : Response P) :
    (response.map f).learn (known.map (Option.map f)) = (response.learn known).map (Option.map f) := by
  cases response <;> simp [Response.map, Response.learn]

theorem step_renamed (injective : Function.Injective f) (follows : Follows f related first second) (algorithm : Algorithm ι)
    (renamed : Renamed f related s t) (ran : step first algorithm s = some after) :
    ∃ later, step second algorithm t = some later ∧ Renamed f related after later := by
  obtain ⟨memory, known, seen⟩ := t
  obtain ⟨similar, rfl, rfl⟩ := renamed
  unfold step at ran ⊢
  cases next : algorithm s.seen with
  | none =>
    rw [next] at ran
    cases ran
    exact ⟨_, rfl, similar, rfl, rfl⟩
  | some call =>
    simp only [next, Option.bind_eq_some_iff, Option.map_eq_some_iff] at ran ⊢
    obtain ⟨arguments, resolved, ⟨response, changed⟩, answered, rfl⟩ := ran
    obtain ⟨later, again, still⟩ := follows similar answered
    refine ⟨_, ⟨_, by rw [named_map, resolved]; rfl, _, again, rfl⟩, still, ?_, ?_⟩
    · exact learn_map s.known response
    · rw [see_map injective]

/-- However the algorithm goes on from what it sees, it sees the same. -/
theorem run_renamed (injective : Function.Injective f) (follows : Follows f related first second) (algorithm : Algorithm ι)
    {rounds : Nat} (renamed : Renamed f related s t) (ran : run first algorithm rounds s = some after) :
    ∃ later, run second algorithm rounds t = some later ∧ Renamed f related after later := by
  induction rounds generalizing s t with
  | zero =>
    cases ran
    exact ⟨t, rfl, renamed⟩
  | succ rounds ih =>
    obtain ⟨middle, stepped, rest⟩ := Option.bind_eq_some_iff.mp ran
    obtain ⟨other, again, still⟩ := step_renamed injective follows algorithm renamed stepped
    obtain ⟨last, others, final⟩ := ih still rest
    exact ⟨last, Option.bind_eq_some_iff.mpr ⟨other, again, others⟩, final⟩

end

end OpaquePointers
