import ChainBase.Journal.FailedCalls

/-! `journaled<basic_multi_index>` and calls that return. Replay goes other ways
through the container than the calls did, and meets none of its checks. -/

namespace ChainBase
open OrderedSequence

namespace Entry
variable {T : Type} [Object T]

/-- The assertions on ids that recovery meets, in `emplace` and behind a modifier. -/
def AssertsId {σ : Type} (c : Target σ T) (s : σ) : Entry T → Prop
  | insert obj => c.nextId s ≤ Object.id obj
  | modify id obj => Object.id obj = id
  | _ => True

def Upheld {σ : Type} (c : Target σ T) (s : σ) (entries : List (Entry T)) : Prop :=
  Recording.Follows (fun s entry => (entry.applyRecover c s).toOption) (AssertsId c) s entries

variable {keys : List (Comparator T)} {t after : Table T keys} {entry : Entry T}

theorem onTable_asserts {s : MultiIndex T Unit} (represents : s.Represents t) (applied : entry.onTable t = some after) :
    entry.AssertsId MultiIndex.target s := by
  cases entry with
  | insert obj =>
    show s.nextId ≤ Object.id obj
    rw [represents.nextId]
    by_contra lower
    simp [onTable, Table.emplace, lower, accepted] at applied
  | modify id obj =>
    show Object.id obj = id
    by_contra other
    cases found : t.objects id with
    | none => simp [onTable, found] at applied
    | some old => simp [onTable_modify_bad found (fun both => other both.1)] at applied
  | remove id => trivial
  | level op revision => trivial

end Entry

namespace MultiIndex
variable {T : Type} [Object T] {keys : List (Comparator T)}

theorem replay_upheld {s : MultiIndex T Unit} {t after : Table T keys} (represents : s.Represents t)
    {entries : List (Entry T)} (applied : entries.foldlM Entry.onTable t = some after) :
    Entry.Upheld target s entries := by
  induction entries generalizing s t with
  | nil => trivial
  | cons entry entries ih =>
    rw [List.foldlM_cons, Option.bind_eq_bind, Option.bind_eq_some_iff] at applied
    obtain ⟨middle, first, rest⟩ := applied
    refine ⟨Entry.onTable_asserts represents first, ?_⟩
    intro next stepped
    obtain ⟨last, recovered, others⟩ := recover_applied represents entry first
    obtain rfl : last = next := by simpa [recovered, Except.toOption] using stepped
    exact ih others rest

theorem modify_returns {s : MultiIndex T Unit} (linked : s.Linked) {a : Addr} (member : a ∈ s.byId)
    {modifier : T → T × Bool} (returns : (s.modify a modifier).1 = none) :
    (Object.id (modifier (s.value a)).1 = s.id a ∧ s.Clear a (modifier (s.value a)).1) ∧ (modifier (s.value a)).2 = false := by
  have accepted : Object.id (modifier (s.value a)).1 = s.id a ∧ s.Clear a (modifier (s.value a)).1 := by
    by_contra bad
    have erased := modifyWithRevert_erased linked member bad
    cases threw : (modifier (s.value a)).2 <;> simp [modify, erased, modifyThrows, threw] at returns
  refine ⟨accepted, ?_⟩
  have kept := modifyWithRevert_kept linked accepted.1 accepted.2 none
  cases threw : (modifier (s.value a)).2 with
  | false => rfl
  | true => simp [modify, kept, modifyThrows, threw] at returns

end MultiIndex

namespace PlainOp
variable {T : Type} [Object T] {keys : List (Comparator T)}

/-- The call keeps to the contract of `emplace`, and returns. -/
def Returns (s : MultiIndex T Unit) (op : PlainOp T) : Prop :=
  Contract s op ∧ (journaledStep s op).map (fun result => result.1.1) = some true

instance (s : MultiIndex T Unit) (op : PlainOp T) : Decidable (Returns s op) :=
  inferInstanceAs (Decidable (_ ∧ _))

theorem Returns.recorded {s : MultiIndex T Unit} {t : Table T keys} (represents : s.Represents t) {op : PlainOp T}
    (returns : Returns s op) : Recorded s op := by
  cases op with
  | modify id modifier =>
    intro a found
    obtain ⟨member, rfl⟩ := represents.named_some found
    have done : (s.modify a modifier).1 = none := by
      have reply := returns.2
      simp only [journaledStep, found] at reply
      split at reply
      next after ran => rw [ran]
      · simp at reply
    obtain ⟨⟨keyed, clear⟩, quiet⟩ := MultiIndex.modify_returns represents.linked member done
    exact ⟨keyed, clear, fun threw => absurd threw (by simp [quiet])⟩
  | emplace constructor => trivial
  | remove id => trivial

private theorem returning_stepped (s : MultiIndex T Unit) (t : Table T keys) (op : PlainOp T) (represents : s.Represents t)
    (returns : Returns s op) : ∃ reply entries after later,
      journaledStep s op = some ((reply, entries), after) ∧ entries.foldlM Entry.onTable t = some later ∧
        after.Represents later :=
  journaled_stepped s t op represents ⟨returns.1, returns.recorded represents⟩

/-- At every point of a run of calls that return, the replay of the entries written so
far completes, with no assertion broken, and has the contents of the live container
in every index and its next id. -/
theorem returning_calls_reproduced [Inhabited T] (keys : List (Comparator T)) (ops : List (PlainOp T))
    (returns : Run.Permitted journaledStep Returns (MultiIndex.empty keys) ops) (done : Nat) :
    ∃ outputs live replayed, Run.run journaledStep (MultiIndex.empty keys) (ops.take done) = some (outputs, live) ∧
      replay MultiIndex.target (MultiIndex.empty keys) (Recording.recorded outputs) = .ok replayed ∧
      Entry.Upheld MultiIndex.target (MultiIndex.empty keys) (Recording.recorded outputs) ∧
      replayed.contents = live.contents ∧ replayed.nextId = live.nextId := by
  have fresh := MultiIndex.Represents.empty (E := Unit) keys
  have permitted := Run.permitted_take returns done
  obtain ⟨outputs, live, t, ran, applied, represents⟩ := Recording.run_replayed returning_stepped fresh permitted
  obtain ⟨last, replays, others⟩ := MultiIndex.replay_applied fresh applied
  exact ⟨outputs, live, last, ran, replays, MultiIndex.replay_upheld fresh applied,
    others.agrees.contents_eq represents.agrees, others.nextId.trans represents.nextId.symm⟩

theorem returning_calls_reproduced_books :
    let ops : List (PlainOp Book) :=
      [.emplace fun id => some ⟨id, 1, 1⟩, .emplace fun id => some ⟨id + 3, 2, 2⟩, .modify 0 fun book => ({ book with a := 3 }, false),
        .modify 4 fun book => ({ book with a := 1 }, false), .remove 0, .emplace fun id => some ⟨id, 3, 3⟩]
    ∃ outputs live replayed, Run.run journaledStep (MultiIndex.empty bookKeys) (ops.take 6) = some (outputs, live) ∧
      replay MultiIndex.target (MultiIndex.empty bookKeys) (Recording.recorded outputs) = .ok replayed ∧
      Entry.Upheld MultiIndex.target (MultiIndex.empty bookKeys) (Recording.recorded outputs) ∧
      replayed.contents = live.contents ∧ replayed.nextId = live.nextId :=
  returning_calls_reproduced bookKeys _ (by decide) 6

/-- Behind the largest id comes id 0 in the first index, where the lower bound of 0 is
not the book with that id: the replay of its modification does not find it. -/
theorem wrapped_id_not_found :
    let ops : List (PlainOp Book) :=
      [.emplace fun _ => some lastBook, .emplace fun id => some ⟨id, 2, 2⟩, .modify 0 fun book => ({ book with a := 3 }, false)]
    ∃ outputs live, Run.run journaledStep (MultiIndex.empty bookKeys) ops = some (outputs, live) ∧
      (outputs.map Prod.fst = [true, true, true]) ∧
      replay MultiIndex.target (MultiIndex.empty bookKeys) (Recording.recorded outputs) =
        .error (.thrown (.runtimeError "journal recover modify of non existing id 0")) :=
  ⟨_, _, rfl, rfl, rfl⟩

end PlainOp
end ChainBase
