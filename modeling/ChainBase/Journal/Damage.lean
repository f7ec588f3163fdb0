import ChainBase.Journal.Visible
import ChainBase.Journal.Rewriting
import ChainBase.Journal.AnyFile

/-! Recovery of a journal that has been cut off or altered. An entry is applied
before its size and checksum are looked at, so that the damage goes unnoticed only
where the entry, as it is read, happens to change nothing. -/

namespace ChainBase
open OrderedSequence

variable {σ T ω : Type}

/-- What becomes of an entry and those after it when the file is cut off within the
entry, or the entry is altered so that its header is not true to its payload any more. -/
def Entry.DamagedTo (codec : Codec T) (entry : Entry T) (later : List (Entry T)) (tail : List UInt8) : Prop :=
  (∃ n < (entry.encode codec).length, tail = (entry.encode codec).take n) ∨
    ∃ (log : JournalLog) (payload : List UInt8), payload.length = (entry.payload codec).length ∧
      tail = log.bytes ++ (payload ++ encodeAll codec later) ∧ ¬ log.Matches payload

/-- An entry that changes nothing, as it is read. -/
def JournalLog.Harmless (log : JournalLog) (c : Target σ T) (codec : Codec T) (idle : LevelOp → Int → Prop) (s : σ)
    (payload : List UInt8) : Prop :=
  match JournalOp.fromUnderlying log.type with
  | some .insert | some .remove => False
  | some .modify => ∃ a, c.find s (BigEndian.decode (payload.take 8)) = some a ∧
      codec.load log.version (payload.drop 8) (c.value s a) = c.value s a
  | some (.level op) => c.undo.isSome → idle op (BigEndian.decodeSigned (payload.take 8))
  | some .create | none => True

/-- There is no more than a part of a header, or an entry that can be read to its end
and changes nothing. -/
def Harmless (c : Target σ T) (codec : Codec T) (idle : LevelOp → Int → Prop) (s : σ) (tail : List UInt8) : Prop :=
  tail.length < 16 ∨ ∃ (log : JournalLog) (payload : List UInt8), tail = log.bytes ++ payload ∧
    (log.extent codec c.undo.isSome payload).isSome ∧ log.Harmless c codec idle s payload

/-- The altered header is true to what is read as its payload, which is not as long as
the entry was written, and all that is read from there on leaves no trace. -/
def Entry.Misread (c : Target σ T) (codec : Codec T) (view : σ → ω) (entry : Entry T) (s : σ) (tail : List UInt8) : Prop :=
  ∃ chunk chunks rest middle last, Reads codec c.undo.isSome tail (chunk :: chunks) rest ∧
    chunk.payload.length ≠ (entry.payload codec).length ∧ replayRead c codec rest s (chunk :: chunks) = .ok middle ∧
    Ends c codec middle 0 rest last ∧ view last.container = view s

/-- Nothing of a damaged entry and of what is behind it can be seen in the container. -/
def Entry.Unnoticed (c : Target σ T) (codec : Codec T) (idle : LevelOp → Int → Prop) (view : σ → ω) (entry : Entry T) (s : σ)
    (tail : List UInt8) : Prop :=
  Damaged codec c.undo.isSome tail ∧ Harmless c codec idle s tail ∨ entry.Misread c codec view s tail

def Recovers (c : Target σ T) (codec : Codec T) (view : σ → ω) (fresh : σ) (file : List UInt8) (entries : List (Entry T)) : Prop :=
  ∃ before recovered, replay c fresh entries = .ok before ∧ recover c codec fresh file = .ok recovered ∧
    view recovered.container = view before

variable {c : Target σ T} {codec : Codec T} {view : σ → ω} {s fresh : σ}

theorem Entry.damaged_take {entry : Entry T} (fits : entry.Fits codec) (levels : Bool) {n : Nat}
    (cut : n < (entry.encode codec).length) : Damaged codec levels ((entry.encode codec).take n) := by
  rw [length_encode] at cut
  by_cases short : n < 16
  · exact Or.inl (by rw [List.length_take]; omega)
  · obtain ⟨size, rfl⟩ := Nat.exists_eq_add_of_le (Nat.not_lt.mp short)
    refine Or.inr ⟨entry.log codec, (entry.payload codec).take size, entry.encode_take size, fun n whole => ?_⟩
    rw [extent_cut fits rfl rfl (Or.inr fits.size) (by omega)] at whole
    cases whole

/-- Bytes to which an altered header is true are not the ones that were written. -/
theorem Entry.DamagedTo.misplaced {entry : Entry T} {levels : Bool} {later : List (Entry T)} {tail rest : List UInt8}
    {chunk : Chunk} {chunks : List Chunk} (damaged : entry.DamagedTo codec later tail) (fits : entry.Fits codec)
    (reads : Reads codec levels tail (chunk :: chunks) rest) : chunk.payload.length ≠ (entry.payload codec).length := by
  rcases damaged with ⟨n, inside, rfl⟩ | ⟨log, payload, length, rfl, mismatched⟩
  · have none := (reads.unique (.stop (Entry.damaged_take fits levels inside))).1
    cases none
  · generalize file : log.bytes ++ (payload ++ encodeAll codec later) = bytes at reads
    cases reads with
    | intact whole true_to others =>
      obtain ⟨rfl, rfl⟩ := JournalLog.bytes_append_inj file
      intro same
      have size := JournalLog.extent_le whole
      simp only [List.length_take, Nat.min_eq_left size] at same
      rw [List.take_left' (length.trans same.symm)] at true_to
      exact mismatched true_to

/-- What an entry does that can be read can be seen, unless it is harmless. -/
theorem JournalLog.act_unseen {idle : LevelOp → Int → Prop} (visible : c.Visible view idle s) {log : JournalLog}
    {payload : List UInt8} {n : Nat} (whole : log.extent codec c.undo.isSome payload = some n) :
    (∃ after, log.act codec c s payload = .ok after ∧ view after = view s) ↔ log.Harmless c codec idle s payload := by
  revert whole
  simp only [extent, act, JournalLog.Harmless]
  cases JournalOp.fromUnderlying log.type with
  | none => simp
  | some op =>
    intro whole
    cases op with
    | create => simp
    | insert =>
      refine iff_of_false (fun seen => ?_) id
      obtain ⟨after, ran, same⟩ := seen
      exact visible.insert ran same
    | modify => exact visible.modify fun _ => rfl
    | remove =>
      refine iff_of_false (fun seen => ?_) id
      obtain ⟨after, ran, same⟩ := seen
      exact visible.remove ran same
    | level op =>
      cases undo : c.undo with
      | none => simp
      | some target =>
        simp only [undo, Option.isSome_some, if_true, Option.ite_none_right_eq_some, Option.some.injEq] at whole
        have length : (payload.take 8).length = 8 := by rw [List.length_take, Nat.min_eq_left whole.1]
        have range := BigEndian.decodeSigned_range (payload.take 8)
        rw [length] at range
        simp only [Option.isSome_some, forall_const]
        exact visible.level undo (by omega) (by simp only [UndoMultiIndex.int64Max]; omega)

theorem scan_damaged (propagates : c.Propagates) {idle : LevelOp → Int → Prop} (visible : c.Visible view idle s)
    {tail : List UInt8} (damaged : Damaged codec c.undo.isSome tail) (position : Nat) :
    (∃ recovered, scan c codec (tail.length + 1) position tail s = .ok recovered ∧ view recovered.container = view s) ↔
      Harmless c codec idle s tail := by
  obtain short | ⟨log, payload, rfl, mismatched⟩ := damaged
  · refine iff_of_true ?_ (Or.inl short)
    exact ⟨_, scan_short short, rfl⟩
  have long : ¬ (log.bytes ++ payload).length < 16 := by simp
  have parts : Harmless c codec idle s (log.bytes ++ payload) ↔
      (log.extent codec c.undo.isSome payload).isSome ∧ log.Harmless c codec idle s payload := by
    constructor
    · rintro (short | ⟨other, more, same, rest⟩)
      · exact absurd short long
      · obtain ⟨rfl, rfl⟩ := JournalLog.bytes_append_inj same
        exact rest
    · exact fun rest => Or.inr ⟨log, payload, rfl, rest⟩
  rw [parts]
  cases whole : log.extent codec c.undo.isSome payload with
  | none =>
    obtain ⟨failure, fails⟩ := scan_incomplete s (log.bytes ++ payload).length position propagates whole
    rw [fails]
    simp
  | some n =>
    obtain ⟨rounds, total⟩ : ∃ rounds, (log.bytes ++ payload).length = rounds + 1 :=
      Nat.exists_eq_add_of_le' (by simp; omega)
    rw [total, scan_mismatched whole (mismatched n whole), ← JournalLog.act_unseen visible whole]
    cases log.act codec c s payload <;> simp [Except.map]

/-- Where the next entry would be written is of no account. -/
theorem Ends.anywhere {position : Nat} {rest : List UInt8} {last : Recovered σ} (ends : Ends c codec s position rest last)
    (other : Nat) : ∃ again, Ends c codec s other rest again ∧ again.container = last.container := by
  cases ends with
  | short header => exact ⟨_, .short header, rfl⟩
  | unverified starts whole acts => exact ⟨_, .unverified starts whole acts, rfl⟩

theorem scan_unnoticed (propagates : c.Propagates) {idle : LevelOp → Int → Prop} (visible : c.Visible view idle s)
    {entry : Entry T} {later : List (Entry T)} {tail : List UInt8} (damaged : entry.DamagedTo codec later tail)
    (fits : entry.Fits codec) (position : Nat) :
    (∃ recovered, scan c codec (tail.length + 1) position tail s = .ok recovered ∧ view recovered.container = view s) ↔
      entry.Unnoticed c codec idle view s tail := by
  obtain ⟨chunks, rest, reads⟩ := Reads.exist codec c.undo.isSome tail
  cases chunks with
  | nil =>
    cases reads with
    | stop first =>
      rw [scan_damaged propagates visible first]
      constructor
      · exact fun harmless => Or.inl ⟨first, harmless⟩
      · rintro (⟨-, harmless⟩ | ⟨chunk, chunks, rest, -, -, again, -⟩)
        · exact harmless
        · cases (again.unique (.stop first)).1
  | cons chunk chunks =>
    constructor
    · rintro ⟨recovered, ran, same⟩
      obtain ⟨middle, last, replayed, ends, rfl⟩ := (scan_reads propagates reads (Nat.lt_succ_self _)).mp ran
      obtain ⟨again, ends, container⟩ := ends.anywhere 0
      exact Or.inr ⟨chunk, chunks, rest, middle, again, reads, damaged.misplaced fits reads, replayed, ends,
        (congrArg view container).trans same⟩
    · rintro (⟨first, -⟩ | ⟨other, others, left, middle, last, again, -, replayed, ends, same⟩)
      · cases (reads.unique (.stop first)).1
      · obtain ⟨equal, rfl⟩ := reads.unique again
        rw [equal] at replayed
        obtain ⟨again, ends, container⟩ := ends.anywhere (position + ((chunk :: chunks).flatMap Chunk.bytes).length)
        have ran := (scan_reads propagates reads (Nat.lt_succ_self _)).mpr ⟨middle, again, replayed, ends, rfl⟩
        exact ⟨_, ran, (congrArg view container).trans same⟩

theorem recovers_iff (idle : σ → LevelOp → Int → Prop) (propagates : c.Propagates) {entries : List (Entry T)}
    (fits : ∀ entry ∈ entries, entry.Fits codec) (visible : ∀ s, replay c fresh entries = .ok s → c.Visible view (idle s) s)
    {entry : Entry T} {later : List (Entry T)} {tail : List UInt8} (damaged : entry.DamagedTo codec later tail)
    (fit : entry.Fits codec) :
    Recovers c codec view fresh (Entry.encodeAll codec entries ++ tail) entries ↔
      ∃ before, replay c fresh entries = .ok before ∧ entry.Unnoticed c codec (idle before) view before tail := by
  rw [Recovers, recover_entries propagates fits]
  cases ran : replay c fresh entries with
  | error failure => simp
  | ok before =>
    simp only [Except.bind, Except.ok.injEq, exists_and_left, exists_eq_left']
    rw [← scan_unnoticed propagates (visible before ran) damaged fit (Entry.encodeAll codec entries).length]
    cases scan c codec (tail.length + 1) (Entry.encodeAll codec entries).length tail before <;>
      simp [Except.map, Recovered.onto]

/-- The file of a run whose calls can be replayed breaks no assertion. -/
theorem JournaledOp.written_ascending [Object T] [Inhabited T] {keys : List (Comparator T)} {ops : List (JournaledOp T)}
    {outputs : List (Reply × List (Entry T))} {live replayed : UndoMultiIndex T}
    (permitted : Run.Permitted step (fun s op => Succeeds s op ∧ InRange s op) (UndoMultiIndex.empty keys) ops)
    (ran : Run.run step (UndoMultiIndex.empty keys) ops = some (outputs, live))
    (replays : replay UndoMultiIndex.target (UndoMultiIndex.empty keys) (Recording.recorded outputs) = .ok replayed) :
    Entry.Ascending UndoMultiIndex.target (UndoMultiIndex.empty keys) (Entry.rewrite (Recording.recorded outputs)) := by
  have fresh := UndoMultiIndex.Refines.empty (T := T) keys
  have good := recorded_good permitted ran
  cases reached : (Recording.recorded outputs).foldlM Entry.onVersioned (⟨Table.empty keys, [], 0⟩ : Versioned (Table T keys)) with
  | none =>
    obtain ⟨failure, fails⟩ := UndoMultiIndex.replay_stopped fresh .fresh good reached
    rw [fails] at replays
    cases replays
  | some w => exact fresh.ascending .fresh (Entry.rewrite_means rfl good reached).1

end ChainBase
