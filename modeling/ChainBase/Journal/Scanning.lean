import ChainBase.Journal.Reading

/-! The loop of a recovery, entry by entry. -/

namespace ChainBase

variable {σ T : Type} {c : Target σ T} {codec : Codec T} {s : σ} {position rounds : Nat} {rest : List UInt8}

namespace JournalLog

/-- The payload has the size and the checksum that the header says. -/
def Matches (log : JournalLog) (payload : List UInt8) : Prop :=
  payload.length = log.size.toNat ∧ Crc32.checksum payload = log.crc

instance (log : JournalLog) (payload : List UInt8) : Decidable (log.Matches payload) :=
  inferInstanceAs (Decidable (_ ∧ _))

/-- What has been read since the last header is what it says. -/
def Settled (log : JournalLog) (position : Nat) (input : Input) : Prop :=
  input.position - position = log.size.toNat ∧ Crc32.finish input.crc = log.crc

variable {log : JournalLog} {input : Input}

theorem readHeader_unsettled (unsettled : ¬ log.Settled position input) :
    log.readHeader input position = (none, position - 16) := by
  by_cases size : input.position - position = log.size.toNat
  · have crc : Crc32.finish input.crc ≠ log.crc := fun crc => unsettled ⟨size, crc⟩
    simp [readHeader, Input.checksum, size, crc]
  · simp [readHeader, size]

theorem readHeader_settled (settled : log.Settled position input) :
    log.readHeader input position = if input.rest.length < 16 then (none, input.position + input.rest.length)
      else (some (ofBytes (input.rest.take 16), ⟨input.rest.drop 16, input.position + 16, Crc32.initial⟩), input.position + 16) := by
  obtain ⟨size, crc⟩ := settled
  simp [readHeader, Input.checksum, size, crc]

theorem settled_start (position : Nat) (rest : List UInt8) :
    (⟨0, 0, 0, 0⟩ : JournalLog).Settled position ⟨rest, position, Crc32.initial⟩ :=
  ⟨Nat.sub_self position, Crc32.checksum_nil⟩

theorem settled_advance {n : Nat} (log : JournalLog) (position : Nat) (enough : n ≤ rest.length) :
    log.Settled position (Input.advance ⟨rest, position, Crc32.initial⟩ n) ↔ log.Matches (rest.take n) := by
  simp [Settled, Matches, Input.advance, Crc32.checksum, Nat.min_eq_left enough]

theorem extent_le {levels : Bool} {bytes : List UInt8} {n : Nat} (whole : log.extent codec levels bytes = some n) :
    n ≤ bytes.length := by
  simp only [extent] at whole
  split at whole
  · exact codec.extent_le whole
  · simp only [Option.ite_none_right_eq_some, Option.map_eq_some_iff] at whole
    obtain ⟨id, size, object, rfl⟩ := whole
    have := codec.extent_le object
    rw [List.length_drop] at this
    omega
  all_goals grind

end JournalLog

/-- The loop looks back only to check the last entry. -/
theorem recoverLoop_settled {log : JournalLog} {input : Input} (settled : log.Settled position input) :
    recoverLoop c codec rounds log position input s = scan c codec rounds input.position input.rest s := by
  cases rounds with
  | zero => rfl
  | succ rounds =>
    rw [scan, recoverLoop, recoverLoop, JournalLog.readHeader_settled settled,
      JournalLog.readHeader_settled (JournalLog.settled_start input.position input.rest)]

theorem recoverLoop_unsettled {log : JournalLog} {input : Input} (unsettled : ¬ log.Settled position input) :
    recoverLoop c codec (rounds + 1) log position input s = .ok ⟨s, position - 16, []⟩ := by
  rw [recoverLoop, JournalLog.readHeader_unsettled unsettled]

theorem scan_short (short : rest.length < 16) : scan c codec (rounds + 1) position rest s = .ok ⟨s, position + rest.length, []⟩ := by
  rw [scan, recoverLoop, JournalLog.readHeader_settled (JournalLog.settled_start position rest), if_pos short]

theorem scan_header (header : 16 ≤ rest.length) : scan c codec (rounds + 1) position rest s =
    ((JournalLog.ofBytes (rest.take 16)).recoverEntry c codec s ⟨rest.drop 16, position + 16, Crc32.initial⟩).bind
      fun (s, later) => (recoverLoop c codec rounds (JournalLog.ofBytes (rest.take 16)) (position + 16) later s).map
        (Recovered.onto [⟨(JournalLog.ofBytes (rest.take 16)).type, (JournalLog.ofBytes (rest.take 16)).version,
          (rest.drop 16).take (later.position - (position + 16))⟩]) := by
  rw [scan, recoverLoop, JournalLog.readHeader_settled (JournalLog.settled_start position rest), if_neg (Nat.not_lt.mpr header)]
  simp only [bind]
  cases (JournalLog.ofBytes (rest.take 16)).recoverEntry c codec s ⟨rest.drop 16, position + 16, Crc32.initial⟩ with
  | error failure => rfl
  | ok result =>
    obtain ⟨s, later⟩ := result
    simp only [Except.bind]
    cases recoverLoop c codec rounds (JournalLog.ofBytes (rest.take 16)) (position + 16) later s <;> rfl

variable {log : JournalLog} {payload : List UInt8}

theorem scan_incomplete (s : σ) (rounds position : Nat) (propagates : c.Propagates)
    (incomplete : log.extent codec c.undo.isSome payload = none) :
    ∃ failure, scan c codec (rounds + 1) position (log.bytes ++ payload) s = .error failure := by
  obtain ⟨failure, fails⟩ := @JournalLog.recoverEntry_incomplete _ _ codec log c s
    ⟨payload, position + 16, Crc32.initial⟩ propagates incomplete
  refine ⟨failure, ?_⟩
  rw [scan_header (by simp), List.take_left' log.length_bytes, List.drop_left' log.length_bytes, log.ofBytes_bytes, fails]
  rfl

private theorem scan_whole {n : Nat} (whole : log.extent codec c.undo.isSome payload = some n) :
    scan c codec (rounds + 1) position (log.bytes ++ payload) s =
      (log.act codec c s payload).bind fun after =>
        (recoverLoop c codec rounds log (position + 16) ((⟨payload, position + 16, Crc32.initial⟩ : Input).advance n) after).map
          (Recovered.onto [⟨log.type, log.version, payload.take n⟩]) := by
  rw [scan_header (by simp), List.take_left' log.length_bytes, List.drop_left' log.length_bytes, log.ofBytes_bytes,
    JournalLog.recoverEntry_whole whole]
  cases log.act codec c s payload with
  | error failure => rfl
  | ok after => simp [Except.map, Except.bind, Input.advance]

/-- A header with a payload that is not as it says: it is applied, and only then
found to be wrong. -/
theorem scan_mismatched {n : Nat} (whole : log.extent codec c.undo.isSome payload = some n)
    (mismatched : ¬ log.Matches (payload.take n)) : scan c codec (rounds + 2) position (log.bytes ++ payload) s =
      (log.act codec c s payload).map fun s => ⟨s, position, [⟨log.type, log.version, payload.take n⟩]⟩ := by
  have unsettled := mt (JournalLog.settled_advance log (position + 16) (JournalLog.extent_le whole)).mp mismatched
  rw [scan_whole whole]
  cases log.act codec c s payload with
  | error failure => rfl
  | ok after =>
    simp only [Except.map, Except.bind]
    rw [recoverLoop_unsettled unsettled]
    simp [Recovered.onto]

theorem scan_matched {n : Nat} (whole : log.extent codec c.undo.isSome payload = some n)
    (matched : log.Matches (payload.take n)) : scan c codec (rounds + 1) position (log.bytes ++ payload) s =
      (log.act codec c s payload).bind fun s => (scan c codec rounds (position + (16 + n)) (payload.drop n) s).map
        (Recovered.onto [⟨log.type, log.version, payload.take n⟩]) := by
  have settled := (JournalLog.settled_advance log (position + 16) (JournalLog.extent_le whole)).mpr matched
  rw [scan_whole whole]
  cases log.act codec c s payload with
  | error failure => rfl
  | ok after =>
    simp only [Except.bind]
    rw [recoverLoop_settled settled]
    simp [Input.advance, Nat.add_assoc]

/-! ## Rounds -/

private theorem recoverEntry_rest {input later : Input} {after : σ} (propagates : c.Propagates)
    (ran : log.recoverEntry c codec s input = .ok (after, later)) : later.rest.length ≤ input.rest.length := by
  cases whole : log.extent codec c.undo.isSome input.rest with
  | none =>
    obtain ⟨failure, fails⟩ := JournalLog.recoverEntry_incomplete (s := s) propagates whole
    rw [fails] at ran
    cases ran
  | some n =>
    rw [JournalLog.recoverEntry_whole whole] at ran
    cases acts : log.act codec c s input.rest with
    | error failure =>
      rw [acts] at ran
      cases ran
    | ok other =>
      rw [acts] at ran
      cases ran
      simp [Input.advance]

private theorem recoverLoop_rounds {input : Input} {others : Nat} (propagates : c.Propagates)
    (enough : input.rest.length < rounds) (also_enough : input.rest.length < others) :
    recoverLoop c codec rounds log position input s = recoverLoop c codec others log position input s := by
  induction rounds generalizing log position input s others with
  | zero => omega
  | succ rounds ih =>
    obtain ⟨others, rfl⟩ : ∃ n, others = n + 1 := ⟨others - 1, by omega⟩
    by_cases settled : log.Settled position input
    · rw [recoverLoop, recoverLoop, JournalLog.readHeader_settled settled]
      by_cases short : input.rest.length < 16
      · rw [if_pos short]
      · rw [if_neg short]
        simp only [bind, Except.bind]
        split
        · rfl
        next result ran =>
          have less := recoverEntry_rest propagates ran
          rw [List.length_drop] at less
          rw [ih (by omega) (by omega : result.2.rest.length < others)]
    · rw [recoverLoop_unsettled settled, recoverLoop_unsettled settled]

theorem scan_rounds (propagates : c.Propagates) (enough : rest.length < rounds) :
    scan c codec rounds position rest s = scan c codec (rest.length + 1) position rest s :=
  recoverLoop_rounds propagates enough (Nat.lt_succ_self _)

/-! ## Whole entries -/

namespace Entry

/-- A container that knows no levels skips them by the size in the header. -/
def Known (levels : Bool) : Entry T → Prop
  | level _ _ => levels = true
  | _ => True

variable {entry : Entry T} {log : JournalLog}

theorem extent_payload (typed : entry.Typed codec) (type : log.type = entry.op.toUnderlying) (version : log.version = entry.version codec)
    {levels : Bool} (known : entry.Known levels ∨ log.size.toNat = (entry.payload codec).length) (more : List UInt8) :
    log.extent codec levels (entry.payload codec ++ more) = some (entry.payload codec).length := by
  cases entry with
  | insert obj =>
    simp only [JournalLog.extent, type, version, op, Entry.version, payload, JournalOp.fromUnderlying_toUnderlying]
    exact codec.extent_append more (codec.extent_save typed)
  | modify id obj =>
    have object := codec.extent_append more (codec.extent_save typed.2)
    simp [JournalLog.extent, type, version, op, Entry.version, payload, object]
  | remove id => simp [JournalLog.extent, type, op, payload]
  | level kind revision =>
    cases levels with
    | true => simp [JournalLog.extent, type, op, payload]
    | false =>
      have size : log.size.toNat = 8 := by simpa [Known, payload] using known
      simp [JournalLog.extent, type, op, payload, size]

theorem extent_cut (fits : entry.Fits codec) (type : log.type = entry.op.toUnderlying) (version : log.version = entry.version codec)
    {levels : Bool} (known : entry.Known levels ∨ log.size.toNat = (entry.payload codec).length) {n : Nat}
    (cut : n < (entry.payload codec).length) : log.extent codec levels ((entry.payload codec).take n) = none := by
  cases entry with
  | insert obj =>
    simp only [JournalLog.extent, type, version, op, Entry.version, payload, JournalOp.fromUnderlying_toUnderlying]
    exact codec.extent_take fits.2 cut
  | modify id obj =>
    simp only [payload, List.length_append, BigEndian.length_encode] at cut
    by_cases whole : 8 ≤ n
    · have parts : (BigEndian.encode 8 id ++ codec.save obj).take n = BigEndian.encode 8 id ++ (codec.save obj).take (n - 8) := by
        rw [List.take_append, List.take_of_length_le (by simpa using whole), BigEndian.length_encode]
      have object := codec.extent_take fits.2.2 (by omega : n - 8 < (codec.save obj).length)
      simp [JournalLog.extent, type, version, op, Entry.version, payload, parts, object]
    · have short : ¬ 8 ≤ ((BigEndian.encode 8 id ++ codec.save obj).take n).length := by
        rw [List.length_take]
        omega
      simp only [JournalLog.extent, type, op, payload, JournalOp.fromUnderlying_toUnderlying]
      exact if_neg short
  | remove id =>
    simp only [payload, BigEndian.length_encode] at cut
    simp [JournalLog.extent, type, op, payload, cut]
  | level kind revision =>
    simp only [payload, BigEndian.length_encodeSigned] at cut
    cases levels with
    | true => simp [JournalLog.extent, type, op, payload, cut]
    | false =>
      have size : log.size.toNat = 8 := by simpa [Known, payload] using known
      simp [JournalLog.extent, type, op, payload, size, cut]

theorem act_payload (typed : entry.Typed codec) (type : log.type = entry.op.toUnderlying) (version : log.version = entry.version codec)
    (more : List UInt8) : log.act codec c s (entry.payload codec ++ more) = entry.applyRecover c s := by
  cases entry with
  | insert obj =>
    simp [JournalLog.act, type, version, op, Entry.version, payload, applyRecover, codec.load_save more _ typed]
  | modify id obj =>
    have key := @BigEndian.decode_encode_of_lt 8 id (by have := typed.1; omega)
    simp [JournalLog.act, type, version, op, Entry.version, payload, applyRecover, key, codec.load_save more _ typed.2]
  | remove id =>
    have key := @BigEndian.decode_encode_of_lt 8 id (by have : id < 2 ^ 64 := typed; omega)
    simp [JournalLog.act, type, op, payload, applyRecover, key]
  | level kind revision =>
    have number := @BigEndian.decodeSigned_encodeSigned 8 revision (by have := typed.1; omega) (by
      have := typed.2
      simp only [UndoMultiIndex.int64Max] at this
      omega)
    have front := @List.take_left' _ _ more _ (BigEndian.length_encodeSigned 8 revision)
    cases undo : c.undo with
    | none => simp [JournalLog.act, type, op, applyRecover, undo]
    | some undo => simp [JournalLog.act, type, op, payload, applyRecover, undo, front, number]

theorem log_matches (fits : entry.Fits codec) : (entry.log codec).Matches (entry.payload codec) := ⟨fits.size.symm, rfl⟩

end Entry

theorem scan_entry {entry : Entry T} (fits : entry.Fits codec) (more : List UInt8) :
    scan c codec (rounds + 1) position (entry.encode codec ++ more) s = (entry.applyRecover c s).bind fun s =>
      (scan c codec rounds (position + (entry.encode codec).length) more s).map (Recovered.onto [entry.frame codec]) := by
  have whole : (entry.log codec).extent codec c.undo.isSome (entry.payload codec ++ more) = some (entry.payload codec).length :=
    Entry.extent_payload fits.typed rfl rfl (Or.inr fits.size) more
  have matched : (entry.log codec).Matches ((entry.payload codec ++ more).take (entry.payload codec).length) := by
    rw [List.take_left]
    exact Entry.log_matches fits
  rw [Entry.encode, List.append_assoc, scan_matched whole matched, Entry.act_payload fits.typed rfl rfl, List.drop_left,
    List.length_append, JournalLog.length_bytes, List.take_left]
  rfl

theorem scan_entries {entries : List (Entry T)} (fits : ∀ entry ∈ entries, entry.Fits codec) (more : List UInt8) :
    scan c codec (entries.length + rounds) position (Entry.encodeAll codec entries ++ more) s =
      (replay c s entries).bind fun s => (scan c codec rounds (position + (Entry.encodeAll codec entries).length) more s).map
        (Recovered.onto (entries.map (Entry.frame codec))) := by
  induction entries generalizing position s with
  | nil =>
    simp only [List.length_nil, Nat.zero_add]
    change scan c codec rounds position more s = (scan c codec rounds position more s).map (Recovered.onto [])
    cases scan c codec rounds position more s <;> rfl
  | cons entry entries ih =>
    have here := fits entry List.mem_cons_self
    have others := fun other member => fits other (List.mem_cons_of_mem entry member)
    rw [List.length_cons, Nat.add_right_comm, Entry.encodeAll_cons, List.append_assoc, scan_entry here, replay, List.foldlM_cons]
    cases entry.applyRecover c s with
    | error failure => rfl
    | ok after =>
      change (scan c codec _ _ _ after).map _ = (replay c after entries).bind _
      rw [ih others, List.length_append, Nat.add_assoc]
      cases replay c after entries with
      | error failure => rfl
      | ok last =>
        simp only [Except.bind]
        cases scan c codec rounds (position + ((entry.encode codec).length + (Entry.encodeAll codec entries).length)) more last
          <;> rfl

theorem recover_entries (propagates : c.Propagates) {entries : List (Entry T)} (fits : ∀ entry ∈ entries, entry.Fits codec)
    (more : List UInt8) (fresh : σ) : recover c codec fresh (Entry.encodeAll codec entries ++ more) =
      (replay c fresh entries).bind fun s => (scan c codec (more.length + 1) (Entry.encodeAll codec entries).length more s).map
        (Recovered.onto (entries.map (Entry.frame codec))) := by
  have long := Entry.length_le_encodeAll codec entries
  obtain ⟨rounds, total⟩ : ∃ rounds, (Entry.encodeAll codec entries ++ more).length + 1 = entries.length + rounds :=
    Nat.exists_eq_add_of_le (by rw [List.length_append]; omega)
  have enough : more.length < rounds := by
    rw [List.length_append] at total
    omega
  rw [recover, total, scan_entries fits, Nat.zero_add]
  simp only [scan_rounds propagates enough]

/-- The bytes that frames take up in a file. -/
def Frame.total (frames : List Frame) : Nat := (frames.map fun frame => 16 + frame.payload.length).sum

theorem Entry.total_frames (entries : List (Entry T)) :
    Frame.total (entries.map (Entry.frame codec)) = (Entry.encodeAll codec entries).length := by
  simp [Frame.total, Entry.encodeAll, Entry.frame, Entry.length_encode, Function.comp_def, List.length_flatMap]

/-- The loop ends at the end of the file, or in front of the last entry it has applied. -/
theorem scan_position (propagates : c.Propagates) {recovered : Recovered σ} (enough : rest.length < rounds)
    (ran : scan c codec rounds position rest s = .ok recovered) :
    recovered.position = position + rest.length ∨ ∃ front last, recovered.applied = front ++ [last] ∧
      recovered.position = position + Frame.total front := by
  induction rounds generalizing position rest s recovered with
  | zero => omega
  | succ rounds ih =>
    rcases Nat.lt_or_ge rest.length 16 with short | header
    · rw [scan_short short] at ran
      cases ran
      exact Or.inl rfl
    obtain ⟨log, payload, rfl⟩ : ∃ (log : JournalLog) (payload : List UInt8), rest = log.bytes ++ payload :=
      ⟨JournalLog.ofBytes (rest.take 16), rest.drop 16, by
        rw [JournalLog.bytes_ofBytes (by simpa using header), List.take_append_drop]⟩
    rw [List.length_append, JournalLog.length_bytes] at enough
    cases whole : log.extent codec c.undo.isSome payload with
    | none =>
      obtain ⟨failure, fails⟩ := scan_incomplete s rounds position propagates whole
      rw [fails] at ran
      cases ran
    | some n =>
      have inside := JournalLog.extent_le whole
      by_cases matched : log.Matches (payload.take n)
      · rw [scan_matched whole matched] at ran
        cases acts : log.act codec c s payload with
        | error failure =>
          rw [acts] at ran
          cases ran
        | ok after =>
          simp only [acts, Except.bind] at ran
          cases others : scan c codec rounds (position + (16 + n)) (payload.drop n) after with
          | error failure =>
            rw [others] at ran
            cases ran
          | ok later =>
            rw [others] at ran
            cases ran
            rw [List.length_append, JournalLog.length_bytes]
            obtain final | ⟨front, last, applied, final⟩ := ih (by rw [List.length_drop]; omega) others
            · refine Or.inl (final.trans ?_)
              rw [List.length_drop]
              omega
            · refine Or.inr ⟨⟨log.type, log.version, payload.take n⟩ :: front, last, by simp [Recovered.onto, applied], ?_⟩
              refine final.trans ?_
              simp only [Frame.total, List.map_cons, List.sum_cons, List.length_take, Nat.min_eq_left inside]
              omega
      · obtain ⟨more, rfl⟩ : ∃ more, rounds = more + 1 := Nat.exists_eq_add_of_le' (by omega)
        rw [scan_mismatched whole matched] at ran
        cases acts : log.act codec c s payload with
        | error failure =>
          rw [acts] at ran
          cases ran
        | ok after =>
          rw [acts] at ran
          cases ran
          exact Or.inr ⟨[], _, rfl, rfl⟩

end ChainBase
