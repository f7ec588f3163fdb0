import ChainBase.Journal.Journaled
import Mathlib.Data.List.Induction

/-! The rewriting of the last entry of a journal. It looks at the kinds of two
entries only. Setting the revision is all that is left of a level that has been
opened and committed at once, which is right only if no other level was open. -/

namespace Versioned
open ChainBase

variable {σ : Type} {m u w : Versioned σ} {first last : Int}

/-- A level opened and committed at once leaves only the revision, if no other is open. -/
theorem commit_rewritten (started : m.replay first .startUndo = some u) (committed : u.replay last .commit = some w)
    (outer : u.saved.length ≤ 1) (nonneg : 0 ≤ last) (bounded : last ≤ UndoMultiIndex.int64Max) :
    m.replay last .revision = some w := by
  obtain ⟨number, rfl⟩ := replay_startUndo.mp started
  obtain ⟨rfl, rfl⟩ := replay_commit.mp committed
  have closed : m.saved = [] := List.length_eq_zero_iff.mp (by simpa using outer)
  exact replay_revision.mpr ⟨⟨closed, by rcases number with next | raised <;> simp only <;> omega, nonneg, bounded⟩, rfl⟩

/-- The start of a level sets the revision itself. -/
theorem startUndo_rewritten (set : m.replay first .revision = some u) (started : u.replay last .startUndo = some w) :
    m.replay last .startUndo = some w := by
  obtain ⟨⟨closed, rises, nonneg, bounded⟩, rfl⟩ := replay_revision.mp set
  obtain ⟨number, rfl⟩ := replay_startUndo.mp started
  simp only at number
  refine replay_startUndo.mpr ⟨?_, by rw [closed]⟩
  by_cases next : m.revision + 1 = last
  · exact Or.inl next
  · exact Or.inr ⟨by omega, closed, by omega, by omega⟩

theorem revision_rewritten (set : m.replay first .revision = some u) (again : u.replay last .revision = some w) :
    m.replay last .revision = some w := by
  obtain ⟨⟨closed, rises, nonneg, bounded⟩, rfl⟩ := replay_revision.mp set
  obtain ⟨⟨-, higher, rest⟩, rfl⟩ := replay_revision.mp again
  exact replay_revision.mpr ⟨⟨closed, rises.trans higher, rest⟩, rfl⟩

end Versioned

namespace ChainBase
open OrderedSequence

def canCompressUndoEntry (last next : LevelOp) : Bool :=
  (last = .startUndo ∧ next = .commit) ∨ (last = .revision ∧ (next = .startUndo ∨ next = .revision))

namespace Entry
variable {T : Type}

/-- One more journal call on the entries of a file: `undo_entry` may overwrite the last. -/
def write (file : List (Entry T)) : Entry T → List (Entry T)
  | level op revision =>
    match file.getLast? with
    | some (level last _) =>
      if canCompressUndoEntry last op then
        file.dropLast ++ [level (if op ≠ .startUndo then .revision else op) revision]
      else file ++ [level op revision]
    | _ => file ++ [level op revision]
  | data => file ++ [data]

def rewrite (calls : List (Entry T)) : List (Entry T) := calls.foldl write []

/-- How many levels are open after an entry. -/
def opened (depth : Nat) : Entry T → Nat
  | level .startUndo _ => depth + 1
  | level .undo _ => depth - 1
  | level .commit _ | level .undoAll _ => 0
  | _ => depth

def openLevels (calls : List (Entry T)) : Nat := calls.foldl opened 0

/-- A commit directly after the start of a level finds no other level open. -/
def Outermost (calls : List (Entry T)) : Entry T → Prop
  | level .commit _ =>
    match calls.getLast? with
    | some (level .startUndo _) => openLevels calls ≤ 1
    | _ => True
  | _ => True

def Rewritable (calls : List (Entry T)) : Prop := ∀ i (inside : i < calls.length), Outermost (calls.take i) calls[i]

theorem rewritable_append {calls : List (Entry T)} {call : Entry T} :
    Rewritable (calls ++ [call]) ↔ Rewritable calls ∧ Outermost calls call := by
  constructor
  · intro whole
    refine ⟨fun i inside => ?_, ?_⟩
    · have here := whole i (by simp; omega)
      rwa [List.take_append_of_le_length (by omega), List.getElem_append_left inside] at here
    · have here := whole calls.length (by simp)
      simpa using here
  · rintro ⟨earlier, last⟩ i inside
    rcases Nat.lt_or_ge i calls.length with lower | reached
    · rw [List.take_append_of_le_length (by omega), List.getElem_append_left lower]
      exact earlier i lower
    · obtain rfl : i = calls.length := by
        simp at inside
        omega
      simpa using last

theorem write_cases (file : List (Entry T)) (call : Entry T) :
    (write file call = file ++ [call] ∧ ∀ first last, file.getLast? = some (level .startUndo first) → call ≠ level .commit last) ∨
    ∃ front first last, (file = front ++ [level .startUndo first] ∧ call = level .commit last ∧
        write file call = front ++ [level .revision last]) ∨
      (file = front ++ [level .revision first] ∧ call = level .startUndo last ∧
        write file call = front ++ [level .startUndo last]) ∨
      (file = front ++ [level .revision first] ∧ call = level .revision last ∧
        write file call = front ++ [level .revision last]) := by
  cases call with
  | level op last =>
    rcases file.eq_nil_or_concat with rfl | ⟨front, final, rfl⟩
    · exact Or.inl ⟨rfl, by simp⟩
    cases final with
    | level kind first =>
      by_cases compresses : canCompressUndoEntry kind op = true
      · have kinds := compresses
        simp only [canCompressUndoEntry, decide_eq_true_eq] at kinds
        rcases kinds with ⟨rfl, rfl⟩ | ⟨rfl, rfl | rfl⟩ <;>
          exact Or.inr ⟨front, first, last, by simp [write, compresses]⟩
      · refine Or.inl ⟨by simp [write, compresses], ?_⟩
        rintro first last started finished
        simp only [List.concat_eq_append, List.getLast?_append, List.getLast?_singleton, Option.some_or, Option.some.injEq,
          level.injEq] at started finished
        obtain ⟨rfl, -⟩ := started
        obtain ⟨rfl, -⟩ := finished
        exact compresses rfl
    | insert obj => exact Or.inl ⟨by simp [write], by simp⟩
    | modify id obj => exact Or.inl ⟨by simp [write], by simp⟩
    | remove id => exact Or.inl ⟨by simp [write], by simp⟩
  | insert obj => exact Or.inl ⟨rfl, by simp⟩
  | modify id obj => exact Or.inl ⟨rfl, by simp⟩
  | remove id => exact Or.inl ⟨rfl, by simp⟩

theorem rewrite_started (calls : List (Entry T)) (revision : Int) :
    (rewrite calls).getLast? = some (level .startUndo revision) ↔ calls.getLast? = some (level .startUndo revision) := by
  rcases calls.eq_nil_or_concat with rfl | ⟨earlier, call, rfl⟩
  · simp [rewrite]
  simp only [rewrite, List.concat_eq_append, List.foldl_append, List.foldl_cons, List.foldl_nil]
  obtain ⟨appends, -⟩ | ⟨front, first, last, ⟨-, rfl, result⟩ | ⟨-, rfl, result⟩ | ⟨-, rfl, result⟩⟩ :=
    write_cases (earlier.foldl write []) call
  · simp [appends]
  · simp [result]
  · simp [result]
  · simp [result]

theorem rewrite_last {calls : List (Entry T)} {op : LevelOp} {revision : Int}
    (last : (rewrite calls).getLast? = some (level op revision)) : ∃ kind, calls.getLast? = some (level kind revision) := by
  rcases calls.eq_nil_or_concat with rfl | ⟨earlier, call, rfl⟩
  · cases last
  simp only [rewrite, List.concat_eq_append, List.foldl_append, List.foldl_cons, List.foldl_nil] at last
  obtain ⟨appends, -⟩ | ⟨front, first, final, ⟨-, rfl, result⟩ | ⟨-, rfl, result⟩ | ⟨-, rfl, result⟩⟩ :=
    write_cases (earlier.foldl write []) call
  · exact ⟨op, by simpa [appends] using last⟩
  · exact ⟨.commit, by simp_all⟩
  · exact ⟨.startUndo, by simp_all⟩
  · exact ⟨.revision, by simp_all⟩

end Entry

/-! ## Overwriting one entry -/

namespace Entry
variable {T : Type} [Object T] {keys : List (Comparator T)} {v w : Versioned (Table T keys)}

theorem onVersioned_revision {op : LevelOp} {revision : Int} (applied : (level op revision).onVersioned v = some w) :
    w.revision = revision := by
  cases op with
  | startUndo => rw [(Versioned.replay_startUndo.mp applied).2]
  | commit => rw [(Versioned.replay_commit.mp applied).2]
  | undo => exact (Versioned.replay_undo.mp applied).2 ▸ (Versioned.replay_undo.mp applied).1
  | undoAll => exact (Versioned.replay_undoAll.mp applied).2 ▸ (Versioned.replay_undoAll.mp applied).1
  | revision => rw [(Versioned.replay_revision.mp applied).2]

theorem onVersioned_depth {entry : Entry T} (applied : entry.onVersioned v = some w) :
    w.saved.length = opened v.saved.length entry := by
  cases entry with
  | level op revision =>
    cases op with
    | startUndo => simp [(Versioned.replay_startUndo.mp applied).2, opened]
    | commit => simp [(Versioned.replay_commit.mp applied).2, opened]
    | undo =>
      rw [(Versioned.replay_undo.mp applied).2]
      cases stack : v.saved <;> simp [Versioned.undo, stack, opened]
    | undoAll => simp [(Versioned.replay_undoAll.mp applied).2, Versioned.undoAll, opened]
    | revision =>
      obtain ⟨set, rfl⟩ := Versioned.replay_revision.mp applied
      simp [set.1, opened]
  | _ =>
    obtain ⟨t, -, rfl⟩ := Option.map_eq_some_iff.mp applied
    rfl

theorem foldlM_depth {calls : List (Entry T)} (applied : calls.foldlM onVersioned v = some w) :
    w.saved.length = calls.foldl opened v.saved.length := by
  induction calls generalizing v with
  | nil =>
    cases applied
    rfl
  | cons call calls ih =>
    rw [List.foldlM_cons, Option.bind_eq_bind, Option.bind_eq_some_iff] at applied
    obtain ⟨middle, first, rest⟩ := applied
    rw [List.foldl_cons, ← onVersioned_depth first]
    exact ih rest

/-- Replaying the file stops, at its last entry at the latest: this sets or raises
the revision while a level is open, and whatever overwrites it will do the same. -/
def Stuck (v : Versioned (Table T keys)) (file : List (Entry T)) (revision : Int) : Prop :=
  ∀ m, file.dropLast.foldlM onVersioned v = some m → ∃ op, file.getLast? = some (level op revision) ∧ m.saved ≠ [] ∧
    (op = .revision ∧ m.revision < revision ∨ op = .startUndo ∧ m.revision + 1 < revision)

theorem Stuck.stops {file : List (Entry T)} {revision : Int} (stuck : Stuck v file revision) :
    file.foldlM onVersioned v = none := by
  rcases file.eq_nil_or_concat with rfl | ⟨front, last, rfl⟩
  · obtain ⟨op, impossible, -⟩ := stuck v rfl
    cases impossible
  rw [List.concat_eq_append, List.foldlM_append]
  cases reached : front.foldlM onVersioned v with
  | none => rfl
  | some m =>
    obtain ⟨op, final, opened, slot⟩ := stuck m (by simpa using reached)
    obtain rfl : last = level op revision := by simpa using final
    cases applied : m.replay revision op with
    | none => simp [onVersioned, applied]
    | some w =>
      rcases slot with ⟨rfl, -⟩ | ⟨rfl, raised⟩
      · exact absurd (Versioned.replay_revision.mp applied).1.1 opened
      · obtain ⟨next | closed, -⟩ := Versioned.replay_startUndo.mp applied
        · omega
        · exact absurd closed.2.1 opened

abbrev GoodFrom (v : Versioned (Table T keys)) (file : List (Entry T)) : Prop :=
  Recording.Follows onVersioned (fun v entry => Good v.current entry) v file

/-- The file has the meaning of the calls, or it is stuck because it has been rewritten
where other levels were open. -/
def Means (v : Versioned (Table T keys)) (calls file : List (Entry T)) (w : Versioned (Table T keys)) : Prop :=
  Rewritable calls ∧ file.foldlM onVersioned v = some w ∨ ¬ Rewritable calls ∧ Stuck v file w.revision

theorem foldlM_append_one {front : List (Entry T)} {last : Entry T} :
    (front ++ [last]).foldlM onVersioned v = some w ↔
      ∃ m, front.foldlM onVersioned v = some m ∧ last.onVersioned m = some w := by
  simp [List.foldlM_append, Option.bind_eq_some_iff]

/-- Overwriting the last entry keeps a file stuck. -/
private theorem Stuck.overwritten {front : List (Entry T)} {old new : LevelOp} {first last : Int}
    (stuck : Stuck v (front ++ [level old first]) first)
    (slot : ∀ m : Versioned (Table T keys), (old = .revision ∧ m.revision < first ∨ old = .startUndo ∧ m.revision + 1 < first) →
      new = .revision ∧ m.revision < last ∨ new = .startUndo ∧ m.revision + 1 < last) :
    Stuck v (front ++ [level new last]) last := by
  intro m reached
  rw [List.dropLast_concat] at reached
  obtain ⟨op, final, opened, lower⟩ := stuck m (by rwa [List.dropLast_concat])
  obtain rfl : old = op := by simpa using final
  exact ⟨new, by simp, opened, slot m lower⟩

private theorem means_overwritten {calls front : List (Entry T)} {u : Versioned (Table T keys)} {op old new : LevelOp}
    {first last : Int} (means : Means v calls (front ++ [level old first]) u) (number : w.revision = last) (earlier : u.revision = first)
    (outermost : Outermost calls (level op last))
    (kept : ∀ m : Versioned (Table T keys), m.replay first old = some u → m.replay last new = some w)
    (slot : ∀ m : Versioned (Table T keys), (old = .revision ∧ m.revision < first ∨ old = .startUndo ∧ m.revision + 1 < first) →
      new = .revision ∧ m.revision < last ∨ new = .startUndo ∧ m.revision + 1 < last) :
    Means v (calls ++ [level op last]) (front ++ [level new last]) w := by
  rcases means with ⟨rewritable, means⟩ | ⟨broken, stuck⟩
  · obtain ⟨m, reached, applied⟩ := foldlM_append_one.mp means
    exact Or.inl ⟨rewritable_append.mpr ⟨rewritable, outermost⟩, foldlM_append_one.mpr ⟨m, reached, kept m applied⟩⟩
  · subst number earlier
    exact Or.inr ⟨fun whole => broken (rewritable_append.mp whole).1, stuck.overwritten slot⟩

private theorem last_revision {calls front : List (Entry T)} {op : LevelOp} {revision : Int}
    (reached : calls.foldlM onVersioned v = some w) (file : rewrite calls = front ++ [level op revision]) :
    w.revision = revision := by
  have last : (rewrite calls).getLast? = some (level op revision) := by simp [file]
  obtain ⟨kind, final⟩ := rewrite_last last
  rcases calls.eq_nil_or_concat with rfl | ⟨earlier, call, rfl⟩
  · cases final
  rw [List.concat_eq_append] at final reached
  obtain rfl : call = level kind revision := by simpa using final
  obtain ⟨m, -, applied⟩ := foldlM_append_one.mp reached
  exact onVersioned_revision applied

private theorem write_means {calls : List (Entry T)} {u : Versioned (Table T keys)} {call : Entry T} (closed : v.saved = [])
    (reached : calls.foldlM onVersioned v = some u) (means : Means v calls (rewrite calls) u) (good : Good u.current call)
    (applied : call.onVersioned u = some w) : Means v (calls ++ [call]) (write (rewrite calls) call) w := by
  obtain ⟨appends, plain⟩ | ⟨front, first, last, ⟨file, rfl, result⟩ | ⟨file, rfl, result⟩ | ⟨file, rfl, result⟩⟩ :=
    write_cases (rewrite calls) call
  · rw [appends]
    rcases means with ⟨rewritable, means⟩ | ⟨broken, stuck⟩
    · refine Or.inl ⟨rewritable_append.mpr ⟨rewritable, ?_⟩, foldlM_append_one.mpr ⟨u, means, applied⟩⟩
      unfold Outermost
      split
      · split
        next started => exact absurd rfl (plain _ _ ((rewrite_started calls _).mpr started))
        · trivial
      · trivial
    · refine Or.inr ⟨fun whole => broken (rewritable_append.mp whole).1, fun m impossible => ?_⟩
      rw [List.dropLast_concat, stuck.stops] at impossible
      cases impossible
  · have started := (rewrite_started calls first).mp (by simp [file])
    have depth : u.saved.length = calls.foldl opened 0 := by
      rw [foldlM_depth reached, closed, List.length_nil]
    have earlier := last_revision reached file
    rw [file] at means
    rw [result]
    have number := onVersioned_revision applied
    have same : u.revision = last := (Versioned.replay_commit.mp applied).1
    by_cases outer : u.saved.length ≤ 1
    · refine means_overwritten means number earlier ?_ (fun m start => ?_) (fun m slot => ?_)
      · simpa [Outermost, started, openLevels, ← depth] using outer
      · exact Versioned.commit_rewritten start applied outer good.1 good.2
      · simp only [reduceCtorEq, false_and, true_and, false_or, or_false] at slot ⊢
        omega
    · have broken : ¬ Outermost calls (level .commit last) := by simpa [Outermost, started, openLevels, ← depth] using outer
      refine Or.inr ⟨fun whole => broken (rewritable_append.mp whole).2, ?_⟩
      rw [number]
      rcases means with ⟨rewritable, means⟩ | ⟨-, stuck⟩
      · obtain ⟨m, before, start⟩ := foldlM_append_one.mp means
        obtain ⟨revision, rfl⟩ := Versioned.replay_startUndo.mp start
        intro m' again
        rw [List.dropLast_concat, before] at again
        cases again
        refine ⟨.revision, by simp, fun none => outer (by simp [none]), Or.inl ⟨rfl, ?_⟩⟩
        omega
      · subst earlier
        refine stuck.overwritten fun m slot => ?_
        simp only [reduceCtorEq, false_and, true_and, false_or, or_false] at slot ⊢
        omega
  · have earlier := last_revision reached file
    rw [file] at means
    rw [result]
    have number := (Versioned.replay_startUndo.mp applied).1
    refine means_overwritten means (onVersioned_revision applied) earlier trivial
      (fun m set => Versioned.startUndo_rewritten set applied) (fun m slot => ?_)
    simp only [reduceCtorEq, false_and, true_and, false_or, or_false] at slot ⊢
    omega
  · have earlier := last_revision reached file
    rw [file] at means
    rw [result]
    have rises := (Versioned.replay_revision.mp applied).1.2.1
    refine means_overwritten means (onVersioned_revision applied) earlier trivial
      (fun m set => Versioned.revision_rewritten set applied) (fun m slot => ?_)
    simp only [reduceCtorEq, false_and, true_and, or_false] at slot ⊢
    omega

private theorem goodFrom_append_one {front : List (Entry T)} {last : Entry T} : GoodFrom v (front ++ [last]) ↔
    GoodFrom v front ∧ ∀ m, front.foldlM onVersioned v = some m → Good m.current last := by
  simp [GoodFrom, Recording.follows_append, Recording.Follows]

private theorem write_good {calls : List (Entry T)} {u : Versioned (Table T keys)} {call : Entry T}
    (means : Means v calls (rewrite calls) u) (before : GoodFrom v (rewrite calls)) (good : Good u.current call) :
    GoodFrom v (write (rewrite calls) call) := by
  obtain ⟨appends, -⟩ | ⟨front, first, last, ⟨file, rfl, result⟩ | ⟨file, rfl, result⟩ | ⟨file, rfl, result⟩⟩ :=
    write_cases (rewrite calls) call
  · rw [appends]
    refine goodFrom_append_one.mpr ⟨before, fun m reached => ?_⟩
    rcases means with ⟨-, means⟩ | ⟨-, stuck⟩
    · obtain rfl := Option.some.inj (means.symm.trans reached)
      exact good
    · rw [stuck.stops] at reached
      cases reached
  all_goals
    rw [file] at before
    rw [result]
    exact goodFrom_append_one.mpr ⟨(goodFrom_append_one.mp before).1, fun _ _ => good⟩

/-- Rewriting keeps the meaning of calls that can be replayed exactly as long as every
commit directly after the start of a level finds no other level open. -/
theorem rewrite_means {calls : List (Entry T)} (closed : v.saved = []) (good : GoodFrom v calls)
    (reached : calls.foldlM onVersioned v = some w) : GoodFrom v (rewrite calls) ∧ Means v calls (rewrite calls) w := by
  induction calls using List.reverseRecOn generalizing w with
  | nil => exact ⟨trivial, Or.inl ⟨fun i inside => absurd inside (Nat.not_lt_zero i), reached⟩⟩
  | append_singleton calls call ih =>
    obtain ⟨u, earlier, applied⟩ := foldlM_append_one.mp reached
    obtain ⟨before, here⟩ := goodFrom_append_one.mp good
    obtain ⟨goodFile, means⟩ := ih before earlier
    have calls_write : rewrite (calls ++ [call]) = write (rewrite calls) call := by simp [rewrite, List.foldl_append]
    rw [calls_write]
    exact ⟨write_good means goodFile (here u earlier), write_means closed earlier means (here u earlier) applied⟩

/-! ## Levels that were open before -/

/-- The same for calls before which so many levels are open. -/
def OutermostAt (depth : Nat) (calls : List (Entry T)) : Entry T → Prop
  | level .commit _ =>
    match calls.getLast? with
    | some (level .startUndo _) => calls.foldl opened depth ≤ 1
    | _ => True
  | _ => True

def RewritableAt (depth : Nat) (calls : List (Entry T)) : Prop :=
  ∀ i (inside : i < calls.length), OutermostAt depth (calls.take i) calls[i]

omit [Object T] in
private theorem RewritableAt.front {depth : Nat} {calls : List (Entry T)} {call : Entry T}
    (whole : RewritableAt depth (calls ++ [call])) : RewritableAt depth calls ∧ OutermostAt depth calls call := by
  constructor
  · intro i inside
    have here := whole i (by rw [List.length_append]; omega)
    rwa [List.take_append_of_le_length (Nat.le_of_lt inside), List.getElem_append_left inside] at here
  · simpa using whole calls.length (by simp)

/-- Rewriting keeps the meaning of calls, whatever levels are open before them. -/
theorem rewrite_kept {calls : List (Entry T)} (grounded : v.Grounded)
    (bounded : ∀ op revision, level op revision ∈ calls → revision ≤ UndoMultiIndex.int64Max)
    (outer : RewritableAt v.saved.length calls) (reached : calls.foldlM onVersioned v = some w) :
    (rewrite calls).foldlM onVersioned v = some w := by
  induction calls using List.reverseRecOn generalizing w with
  | nil => exact reached
  | append_singleton calls call ih =>
    obtain ⟨u, earlier, applied⟩ := foldlM_append_one.mp reached
    obtain ⟨before, outermost⟩ := outer.front
    have kept := ih (fun op revision member => bounded op revision (List.mem_append_left _ member)) before earlier
    have calls_write : rewrite (calls ++ [call]) = write (rewrite calls) call := by simp [rewrite, List.foldl_append]
    rw [calls_write]
    obtain ⟨appends, -⟩ | ⟨front, first, last, ⟨file, rfl, result⟩ | ⟨file, rfl, result⟩ | ⟨file, rfl, result⟩⟩ :=
      write_cases (rewrite calls) call
    · rw [appends]
      exact foldlM_append_one.mpr ⟨u, kept, applied⟩
    all_goals
      rw [file] at kept
      obtain ⟨m, start, entered⟩ := foldlM_append_one.mp kept
      rw [result]
      refine foldlM_append_one.mpr ⟨m, start, ?_⟩
    · have opens : calls.getLast? = some (level .startUndo first) := (rewrite_started calls first).mp (by simp [file])
      have depth := foldlM_depth earlier
      simp only [OutermostAt, opens, ← depth] at outermost
      have above := foldlM_grounded grounded reached
      simp only [Versioned.Grounded, onVersioned_revision applied] at above
      exact Versioned.commit_rewritten entered applied outermost (by omega) (bounded .commit last (by simp))
    · exact Versioned.startUndo_rewritten entered applied
    · exact Versioned.revision_rewritten entered applied

instance (depth : Nat) (calls : List (Entry T)) : ∀ entry : Entry T, Decidable (OutermostAt depth calls entry)
  | level .commit _ =>
    match last : calls.getLast? with
    | some (level .startUndo _) => decidable_of_iff (calls.foldl opened depth ≤ 1) (by simp [OutermostAt, last])
    | none | some (level .commit _) | some (level .undo _) | some (level .undoAll _) | some (level .revision _) | some (insert _)
    | some (modify _ _) | some (remove _) => .isTrue (by simp [OutermostAt, last])
  | level .startUndo _ | level .undo _ | level .undoAll _ | level .revision _ | insert _ | modify _ _ | remove _ => .isTrue trivial

instance (depth : Nat) (calls : List (Entry T)) : Decidable (RewritableAt depth calls) :=
  inferInstanceAs (Decidable (∀ i (inside : i < calls.length), OutermostAt depth (calls.take i) calls[i]))

end Entry

/-! ## The calls of a container -/

namespace JournaledOp
variable {T : Type} [Object T] {keys : List (Comparator T)}

def InRange (s : UndoMultiIndex T) : JournaledOp T → Prop
  | startUndo => s.revision < UndoMultiIndex.int64Max
  | _ => True

instance (s : UndoMultiIndex T) : ∀ op, Decidable (InRange s op)
  | startUndo => inferInstanceAs (Decidable (s.revision < UndoMultiIndex.int64Max))
  | emplace _ | modify _ _ | remove _ | undo | undoAll | commit _ | setRevision _ => inferInstanceAs (Decidable True)

/-- The replay of a journal has the current table and the newest levels; a commit
may have kept older ones that the replay has dropped. -/
structure Trails (s : UndoMultiIndex T) (w : Versioned (Table T keys)) (older : List (Table T keys)) : Prop where
  refines : s.Refines { w with saved := w.saved ++ older }
  grounded : Versioned.Grounded { w with saved := w.saved ++ older }
  bounded : w.revision ≤ UndoMultiIndex.int64Max

/-- Further levels below are not touched by an entry that can be replayed without them. -/
private theorem older_kept {w v' w' : Versioned (Table T keys)} {older : List (Table T keys)} {entry : Entry T}
    (live : entry.onVersioned { w with saved := w.saved ++ older } = some v') (replay : entry.onVersioned w = some w') :
    ∃ kept, v' = { w' with saved := w'.saved ++ kept } := by
  cases entry with
  | level op revision =>
    cases op with
    | startUndo =>
      obtain ⟨-, rfl⟩ := Versioned.replay_startUndo.mp live
      obtain ⟨-, rfl⟩ := Versioned.replay_startUndo.mp replay
      exact ⟨older, rfl⟩
    | commit =>
      obtain ⟨-, rfl⟩ := Versioned.replay_commit.mp live
      obtain ⟨-, rfl⟩ := Versioned.replay_commit.mp replay
      exact ⟨[], rfl⟩
    | undo =>
      obtain ⟨number, rfl⟩ := Versioned.replay_undo.mp live
      obtain ⟨same, rfl⟩ := Versioned.replay_undo.mp replay
      cases stack : w.saved with
      | nil =>
        cases older with
        | nil => exact ⟨[], by simp [stack, Versioned.undo]⟩
        | cons t rest =>
          simp only [stack, List.nil_append, Versioned.undo] at number same
          omega
      | cons t rest => exact ⟨older, by simp [stack, Versioned.undo]⟩
    | undoAll =>
      obtain ⟨number, rfl⟩ := Versioned.replay_undoAll.mp live
      obtain ⟨same, rfl⟩ := Versioned.replay_undoAll.mp replay
      simp only [Versioned.undoAll, List.length_append] at number same
      obtain rfl : older = [] := List.length_eq_zero_iff.mp (by omega)
      exact ⟨[], by simp⟩
    | revision =>
      obtain ⟨-, rfl⟩ := Versioned.replay_revision.mp live
      obtain ⟨-, rfl⟩ := Versioned.replay_revision.mp replay
      exact ⟨[], rfl⟩
  | _ =>
    obtain ⟨t, changed, rfl⟩ := Option.map_eq_some_iff.mp live
    obtain ⟨t', again, rfl⟩ := Option.map_eq_some_iff.mp replay
    obtain rfl := Option.some.inj (changed.symm.trans again)
    exact ⟨older, rfl⟩

private theorem Records.grounded {op : JournaledOp T} {v later : Versioned (Table T keys)} {entries : List (Entry T)}
    (records : Records op v later entries) (grounded : v.Grounded) : later.Grounded := by
  obtain meaning | ⟨revision, -, -, rfl⟩ := records.meaning
  · match entries, records.single with
    | [], _ =>
      cases meaning
      exact grounded
    | [entry], _ => exact Entry.onVersioned_grounded grounded (by simpa using meaning)
  · unfold Versioned.Grounded at *
    simp only [Versioned.commit, Versioned.keepAbove_eq, List.length_take]
    omega

/-- One call, and what the replay of its entry leaves behind of it. -/
theorem trails_step (s : UndoMultiIndex T) (w : Versioned (Table T keys)) (op : JournaledOp T)
    (output : Reply × List (Entry T)) (after : UndoMultiIndex T) (trails : ∃ older, Trails s w older)
    (permitted : Succeeds s op ∧ InRange s op) (ran : step s op = some (output, after)) :
    Entry.GoodFrom w output.2 ∧ ∀ w', output.2.foldlM Entry.onVersioned w = some w' → ∃ older, Trails after w' older := by
  obtain ⟨older, trails⟩ := trails
  obtain ⟨reply, entries, after', later, again, agrees, records⟩ := stepped s _ op trails.refines permitted.1
  obtain ⟨rfl, rfl⟩ := Prod.mk.inj (Option.some.inj (ran.symm.trans again))
  have grounded := records.grounded trails.grounded
  have bounded : later.revision ≤ UndoMultiIndex.int64Max := by
    rcases records.rises with lower | bounded | ⟨rfl, rfl⟩
    · exact lower.trans trails.bounded
    · exact bounded
    · have room := permitted.2
      simp only [InRange, trails.refines.revision] at room
      exact Int.add_one_le_of_lt room
  have nonneg : 0 ≤ later.revision := grounded.nonneg
  match entries, records.single with
  | [], _ =>
    refine ⟨trivial, fun w' same => ⟨older, ?_⟩⟩
    cases same
    obtain meaning | ⟨revision, -, impossible, -⟩ := records.meaning
    · cases meaning
      exact ⟨agrees, grounded, bounded⟩
    · cases impossible
  | [entry], _ =>
    refine ⟨⟨?_, fun _ _ => trivial⟩, fun w' replayed => ?_⟩
    · cases entry with
      | insert obj => exact records.follows obj (by simp)
      | level kind revision => exact records.revisions kind revision (by simp) ▸ ⟨nonneg, bounded⟩
      | _ => trivial
    · have applied : entry.onVersioned w = some w' := by simpa using replayed
      obtain meaning | ⟨revision, -, same, rfl⟩ := records.meaning
      · obtain ⟨kept, rfl⟩ := older_kept (by simpa using meaning) applied
        exact ⟨kept, agrees, grounded, bounded⟩
      · obtain rfl : entry = .level .commit w.revision := by simpa using same
        obtain ⟨-, rfl⟩ := Versioned.replay_commit.mp applied
        exact ⟨_, agrees, grounded, bounded⟩

theorem recorded_good [Inhabited T] {ops : List (JournaledOp T)} {outputs : List (Reply × List (Entry T))} {live : UndoMultiIndex T}
    (permitted : Run.Permitted step (fun s op => Succeeds s op ∧ InRange s op) (UndoMultiIndex.empty keys) ops)
    (ran : Run.run step (UndoMultiIndex.empty keys) ops = some (outputs, live)) :
    Entry.GoodFrom (⟨Table.empty keys, [], 0⟩ : Versioned (Table T keys)) (Recording.recorded outputs) := by
  have fresh := UndoMultiIndex.Refines.empty (T := T) keys
  have initial : ∃ older, Trails (UndoMultiIndex.empty keys : UndoMultiIndex T) ⟨Table.empty keys, [], 0⟩ older :=
    ⟨[], fresh, .fresh, (by decide : (0 : Int) ≤ UndoMultiIndex.int64Max)⟩
  exact Recording.run_follows trails_step initial permitted ran

/-- Replaying the rewritten file ends without an exception in what can be seen of a
container after the replay of all calls. -/
def MeaningKept [Inhabited T] (keys : List (Comparator T)) (calls : List (Entry T)) (replayed : UndoMultiIndex T) : Prop :=
  ∃ last, replay UndoMultiIndex.target (UndoMultiIndex.empty keys) (Entry.rewrite calls) = .ok last ∧
    last.observe = replayed.observe

/-- The rewriting keeps the meaning of the journal of a run exactly as long as every
commit directly after the start of a level finds no other level open. -/
theorem rewriting_keeps_meaning_iff [Inhabited T] (keys : List (Comparator T)) (ops : List (JournaledOp T))
    (permitted : Run.Permitted step (fun s op => Succeeds s op ∧ InRange s op) (UndoMultiIndex.empty keys) ops) :
    ∃ outputs live, Run.run step (UndoMultiIndex.empty keys) ops = some (outputs, live) ∧
      ∀ replayed, replay UndoMultiIndex.target (UndoMultiIndex.empty keys) (Recording.recorded outputs) = .ok replayed →
        (MeaningKept keys (Recording.recorded outputs) replayed ↔ Entry.Rewritable (Recording.recorded outputs)) := by
  have fresh := UndoMultiIndex.Refines.empty (T := T) keys
  obtain ⟨outputs, live, ran⟩ : ∃ outputs live, Run.run step (UndoMultiIndex.empty keys) ops = some (outputs, live) :=
    Run.defined (fun s v op refines both => by
      obtain ⟨reply, entries, after, later, taken, agrees, -⟩ := stepped s v op refines both.1
      exact ⟨_, after, later, taken, agrees⟩) fresh permitted
  refine ⟨outputs, live, ran, fun replayed replays => ?_⟩
  have good := recorded_good permitted ran
  cases reached : (Recording.recorded outputs).foldlM Entry.onVersioned ⟨Table.empty keys, [], 0⟩ with
  | none =>
    obtain ⟨failure, fails⟩ := UndoMultiIndex.replay_stopped fresh .fresh good reached
    rw [fails] at replays
    cases replays
  | some w =>
    obtain ⟨last, again, refines⟩ := UndoMultiIndex.replay_applied fresh .fresh reached
    obtain rfl := Except.ok.inj (again.symm.trans replays)
    obtain ⟨goodFile, ⟨rewritable, means⟩ | ⟨broken, stuck⟩⟩ := Entry.rewrite_means rfl good reached
    · refine iff_of_true ?_ rewritable
      obtain ⟨other, rewritten, others⟩ := UndoMultiIndex.replay_applied fresh .fresh means
      exact ⟨other, rewritten, others.stands.shows.observe_eq refines.stands.shows⟩
    · refine iff_of_false ?_ broken
      rintro ⟨other, rewritten, -⟩
      obtain ⟨failure, fails⟩ := UndoMultiIndex.replay_stopped fresh .fresh goodFile stuck.stops
      rw [fails] at rewritten
      cases rewritten

/-- A revision is set and a level started over it; an inner level is changed before
it is committed with the outer one; then a level is started and committed at once. -/
theorem rewriting_keeps_meaning_iff_books :
    ∃ outputs live, Run.run step (UndoMultiIndex.empty bookKeys)
        [.setRevision 4, .startUndo, .startUndo, .emplace fun id => some ⟨id, 1, 1⟩, .commit 6, .startUndo, .commit 7,
          .startUndo, .remove 0, .undo] = some (outputs, live) ∧
      ∀ replayed, replay UndoMultiIndex.target (UndoMultiIndex.empty bookKeys) (Recording.recorded outputs) = .ok replayed →
        (MeaningKept bookKeys (Recording.recorded outputs) replayed ↔ Entry.Rewritable (Recording.recorded outputs)) :=
  rewriting_keeps_meaning_iff bookKeys _ (by decide)

/-- A level opened and committed at once inside another. The file says to set the
revision while the outer level is open. -/
theorem inner_commit_not_kept :
    let ops : List (JournaledOp Book) := [.startUndo, .startUndo, .commit 2]
    let calls : List (Entry Book) := [.level .startUndo 1, .level .startUndo 2, .level .commit 2]
    Run.Permitted step (fun s op => Succeeds s op ∧ InRange s op) (UndoMultiIndex.empty bookKeys) ops ∧
      (Run.run step (UndoMultiIndex.empty bookKeys) ops).map (fun result => Recording.recorded result.1) = some calls ∧
      ∃ replayed, replay UndoMultiIndex.target (UndoMultiIndex.empty bookKeys) calls = .ok replayed ∧
        ¬ MeaningKept bookKeys calls replayed := by
  intro ops calls
  refine ⟨by decide, by decide, _, rfl, ?_⟩
  rintro ⟨last, rewritten, -⟩
  have throws : (replay UndoMultiIndex.target (UndoMultiIndex.empty bookKeys) (Entry.rewrite calls)).toOption.isNone = true := by
    decide
  rw [rewritten] at throws
  cases throws

end JournaledOp
end ChainBase
