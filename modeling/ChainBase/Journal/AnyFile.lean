import ChainBase.Journal.Scanning

/-! Recovery of a file of which nothing is known. It comes apart in one way into entries whose
header is true to their payload and a rest that does not begin with such an entry. -/

namespace ChainBase

variable {σ T : Type} {codec : Codec T} {levels : Bool}

/-- The first entry of what is left is incomplete, or not as its header says. -/
def Damaged (codec : Codec T) (levels : Bool) (tail : List UInt8) : Prop :=
  tail.length < 16 ∨ ∃ (log : JournalLog) (payload : List UInt8), tail = log.bytes ++ payload ∧
    ∀ n, log.extent codec levels payload = some n → ¬ log.Matches (payload.take n)

theorem damaged_iff {tail : List UInt8} : Damaged codec levels tail ↔ 16 ≤ tail.length →
    ∀ n ∈ (JournalLog.ofBytes (tail.take 16)).extent codec levels (tail.drop 16),
      ¬ (JournalLog.ofBytes (tail.take 16)).Matches ((tail.drop 16).take n) := by
  constructor
  · rintro (short | ⟨log, payload, rfl, mismatched⟩) long
    · omega
    · rw [List.take_left' log.length_bytes, List.drop_left' log.length_bytes, log.ofBytes_bytes]
      exact mismatched
  · intro mismatched
    by_cases short : tail.length < 16
    · exact Or.inl short
    · have length : (tail.take 16).length = 16 := by
        rw [List.length_take]
        omega
      refine Or.inr ⟨_, tail.drop 16, ?_, mismatched (Nat.not_lt.mp short)⟩
      rw [JournalLog.bytes_ofBytes length, List.take_append_drop]

instance {tail : List UInt8} : Decidable (Damaged codec levels tail) := decidable_of_iff _ damaged_iff.symm

structure Chunk where
  log : JournalLog
  payload : List UInt8
deriving DecidableEq, Repr

namespace Chunk

def bytes (chunk : Chunk) : List UInt8 := chunk.log.bytes ++ chunk.payload

def frame (chunk : Chunk) : Frame := ⟨chunk.log.type, chunk.log.version, chunk.payload⟩

end Chunk

/-- The bytes are read as these entries, all of them intact, and a rest. -/
inductive Reads (codec : Codec T) (levels : Bool) : List UInt8 → List Chunk → List UInt8 → Prop
  | stop {rest : List UInt8} (damaged : Damaged codec levels rest) : Reads codec levels rest [] rest
  | intact {log : JournalLog} {bytes rest : List UInt8} {n : Nat} {chunks : List Chunk}
      (whole : log.extent codec levels bytes = some n) (true_to : log.Matches (bytes.take n))
      (others : Reads codec levels (bytes.drop n) chunks rest) :
      Reads codec levels (log.bytes ++ bytes) (⟨log, bytes.take n⟩ :: chunks) rest

namespace Reads
variable {bytes rest other : List UInt8} {chunks others : List Chunk}

theorem bytes_eq (reads : Reads codec levels bytes chunks rest) : bytes = chunks.flatMap Chunk.bytes ++ rest := by
  induction reads with
  | stop => rfl
  | @intact log bytes rest n chunks whole true_to others ih =>
    rw [List.flatMap_cons, Chunk.bytes, List.append_assoc, List.append_assoc, ← ih, List.take_append_drop]

/-- An intact entry is in the way of a damaged one. -/
private theorem not_damaged {log : JournalLog} {n : Nat} (whole : log.extent codec levels bytes = some n)
    (true_to : log.Matches (bytes.take n)) : ¬ Damaged codec levels (log.bytes ++ bytes) := by
  rintro (short | ⟨again, payload, same, mismatched⟩)
  · simp at short
  · obtain ⟨rfl, rfl⟩ := JournalLog.bytes_append_inj same
    exact mismatched n whole true_to

theorem unique (reads : Reads codec levels bytes chunks rest) (again : Reads codec levels bytes others other) :
    others = chunks ∧ other = rest := by
  induction reads generalizing others other with
  | stop damaged =>
    cases again with
    | stop => exact ⟨rfl, rfl⟩
    | intact whole true_to => exact absurd damaged (not_damaged whole true_to)
  | @intact log bytes rest n chunks whole true_to reads ih =>
    generalize file : log.bytes ++ bytes = start at again
    cases again with
    | stop damaged => exact absurd (file ▸ damaged) (not_damaged whole true_to)
    | @intact first more _ m later size kept last =>
      obtain ⟨rfl, rfl⟩ := JournalLog.bytes_append_inj file
      rw [whole, Option.some.injEq] at size
      subst size
      obtain ⟨rfl, rfl⟩ := ih last
      exact ⟨rfl, rfl⟩

theorem exist (codec : Codec T) (levels : Bool) (bytes : List UInt8) : ∃ chunks rest, Reads codec levels bytes chunks rest := by
  induction length : bytes.length using Nat.strongRecOn generalizing bytes with
  | ind length ih =>
    by_cases damaged : Damaged codec levels bytes
    · exact ⟨[], bytes, .stop damaged⟩
    · rw [damaged_iff] at damaged
      push Not at damaged
      obtain ⟨long, n, whole, true_to⟩ := damaged
      have header : (bytes.take 16).length = 16 := by simpa using long
      obtain ⟨chunks, rest, reads⟩ := ih ((bytes.drop 16).drop n).length (by simp; omega) _ rfl
      have intact := Reads.intact whole true_to reads
      rw [JournalLog.bytes_ofBytes header, List.take_append_drop] at intact
      exact ⟨_, rest, intact⟩

end Reads

/-- What the entries make of a container, each read where it stands in the file. -/
def replayRead (c : Target σ T) (codec : Codec T) (rest : List UInt8) : σ → List Chunk → Except Failure σ
  | s, [] => .ok s
  | s, chunk :: chunks =>
    (chunk.log.act codec c s (chunk.payload ++ (chunks.flatMap Chunk.bytes ++ rest))).bind fun s =>
      replayRead c codec rest s chunks

/-- How a recovery ends that does not fail: in front of an entry that it has already applied, or
at the end of the file, where there may be a part of a header. -/
inductive Ends (c : Target σ T) (codec : Codec T) (s : σ) (position : Nat) (rest : List UInt8) : Recovered σ → Prop
  | short (header : rest.length < 16) : Ends c codec s position rest ⟨s, position + rest.length, []⟩
  | unverified {log : JournalLog} {payload : List UInt8} {n : Nat} {after : σ} (starts : rest = log.bytes ++ payload)
      (whole : log.extent codec c.undo.isSome payload = some n) (acts : log.act codec c s payload = .ok after) :
      Ends c codec s position rest ⟨after, position, [⟨log.type, log.version, payload.take n⟩]⟩

variable {c : Target σ T} {s : σ} {bytes rest : List UInt8} {chunks : List Chunk} {rounds position : Nat}

theorem scan_rest (propagates : c.Propagates) (damaged : Damaged codec c.undo.isSome rest) (enough : rest.length < rounds)
    {recovered : Recovered σ} : scan c codec rounds position rest s = .ok recovered ↔ Ends c codec s position rest recovered := by
  obtain ⟨rounds, rfl⟩ := Nat.exists_eq_add_of_le' (Nat.one_le_of_lt enough)
  rcases damaged with short | ⟨log, payload, rfl, mismatched⟩
  · rw [scan_short short]
    constructor
    · rintro ⟨⟩
      exact .short short
    · intro ends
      cases ends with
      | short => rfl
      | unverified starts =>
        subst starts
        simp at short
  · have long : ¬ (log.bytes ++ payload).length < 16 := by simp
    cases whole : log.extent codec c.undo.isSome payload with
    | none =>
      obtain ⟨failure, fails⟩ := scan_incomplete s rounds position propagates whole
      rw [fails]
      refine iff_of_false nofun fun ends => ?_
      cases ends with
      | short header => exact long header
      | unverified starts whole' =>
        obtain ⟨rfl, rfl⟩ := JournalLog.bytes_append_inj starts
        rw [whole] at whole'
        cases whole'
    | some n =>
      obtain ⟨rounds, rfl⟩ : ∃ more, rounds = more + 1 := Nat.exists_eq_add_of_le' (by simp at enough; omega)
      rw [scan_mismatched whole (mismatched n whole)]
      constructor
      · intro ran
        cases acts : log.act codec c s payload with
        | error failure =>
          rw [acts] at ran
          cases ran
        | ok after =>
          rw [acts] at ran
          cases ran
          exact .unverified rfl whole acts
      · intro ends
        cases ends with
        | short header => exact absurd header long
        | unverified starts whole' acts =>
          obtain ⟨rfl, rfl⟩ := JournalLog.bytes_append_inj starts
          rw [whole, Option.some.injEq] at whole'
          subst whole'
          rw [acts]
          rfl

theorem scan_reads (propagates : c.Propagates) (reads : Reads codec c.undo.isSome bytes chunks rest)
    (enough : bytes.length < rounds) {recovered : Recovered σ} :
    scan c codec rounds position bytes s = .ok recovered ↔ ∃ before last, replayRead c codec rest s chunks = .ok before ∧
      Ends c codec before (position + (chunks.flatMap Chunk.bytes).length) rest last ∧
      recovered = last.onto (chunks.map Chunk.frame) := by
  induction reads generalizing rounds position s recovered with
  | stop damaged =>
    rw [scan_rest propagates damaged enough]
    constructor
    · intro ends
      exact ⟨s, recovered, rfl, by simpa using ends, rfl⟩
    · rintro ⟨before, last, ⟨⟩, ends, rfl⟩
      simpa [Recovered.onto] using ends
  | @intact log bytes rest n chunks whole true_to others ih =>
    obtain ⟨rounds, rfl⟩ := Nat.exists_eq_add_of_le' (Nat.one_le_of_lt enough)
    have inside := JournalLog.extent_le whole
    rw [List.length_append, JournalLog.length_bytes] at enough
    have parts : bytes.take n ++ (chunks.flatMap Chunk.bytes ++ rest) = bytes := by
      rw [← others.bytes_eq, List.take_append_drop]
    have size : (⟨log, bytes.take n⟩ : Chunk).bytes.length = 16 + n := by
      simp [Chunk.bytes, Nat.min_eq_left inside]
    have position_eq : position + ((⟨log, bytes.take n⟩ :: chunks).flatMap Chunk.bytes).length =
        position + (16 + n) + (chunks.flatMap Chunk.bytes).length := by
      rw [List.flatMap_cons, List.length_append, size]
      omega
    rw [scan_matched whole true_to, replayRead, parts, position_eq]
    cases log.act codec c s bytes with
    | error failure =>
      refine iff_of_false (by simp [Except.bind]) ?_
      rintro ⟨before, last, ⟨⟩, -⟩
    | ok after =>
      have later := @ih after rounds (position + (16 + n)) (by rw [List.length_drop]; omega)
      simp only [Except.bind]
      constructor
      · intro ran
        cases inner : scan c codec rounds (position + (16 + n)) (bytes.drop n) after with
        | error failure =>
          rw [inner] at ran
          cases ran
        | ok found =>
          rw [inner] at ran
          cases ran
          obtain ⟨before, last, replayed, ends, rfl⟩ := later.mp inner
          exact ⟨before, last, replayed, ends, by simp [Recovered.onto, Chunk.frame]⟩
      · rintro ⟨before, last, replayed, ends, same⟩
        rw [later.mpr ⟨before, last, replayed, ends, rfl⟩, same]
        simp [Recovered.onto, Chunk.frame, Except.map]

/-- Recovery of any file applies its intact entries, in order, and at most one more, whose
header is not true to what has been read; it goes on to write in front of that one, or at the end
of the file. It fails if and only if one of these cannot be read or applied. -/
theorem any_file_recovered (propagates : c.Propagates) (codec : Codec T) (fresh : σ) (file : List UInt8) :
    ∃ chunks rest, Reads codec c.undo.isSome file chunks rest ∧
      (∀ others other, Reads codec c.undo.isSome file others other → others = chunks ∧ other = rest) ∧
      ∀ recovered, recover c codec fresh file = .ok recovered ↔ ∃ before last,
        replayRead c codec rest fresh chunks = .ok before ∧
        Ends c codec before (chunks.flatMap Chunk.bytes).length rest last ∧ recovered = last.onto (chunks.map Chunk.frame) := by
  obtain ⟨chunks, rest, reads⟩ := Reads.exist codec c.undo.isSome file
  refine ⟨chunks, rest, reads, fun others other again => reads.unique again, fun recovered => ?_⟩
  have scanned := @scan_reads _ _ codec c fresh file rest chunks (file.length + 1) 0 propagates reads (Nat.lt_succ_self _) recovered
  rwa [Nat.zero_add] at scanned

theorem any_file_recovered_books :
    let file := Entry.encodeAll bookCodec [.insert ⟨0, 1, 1⟩] ++ (Entry.encode bookCodec (.insert ⟨1, 2, 2⟩)).set 30 7 ++ [1, 2, 3]
    let c : Target (UndoMultiIndex Book) Book := UndoMultiIndex.target
    let fresh := UndoMultiIndex.empty bookKeys
    ∃ chunks rest, Reads bookCodec c.undo.isSome file chunks rest ∧
      (∀ others other, Reads bookCodec c.undo.isSome file others other → others = chunks ∧ other = rest) ∧
      ∀ recovered, recover c bookCodec fresh file = .ok recovered ↔ ∃ before last,
        replayRead c bookCodec rest fresh chunks = .ok before ∧
        Ends c bookCodec before (chunks.flatMap Chunk.bytes).length rest last ∧ recovered = last.onto (chunks.map Chunk.frame) := by
  intro file c fresh
  exact any_file_recovered UndoMultiIndex.propagates bookCodec fresh file

end ChainBase
