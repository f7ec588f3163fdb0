import ChainBase.Journal.Writing
import ChainBase.Journal.Scanning

/-! A journal whose last entry was torn while it was written, recovered and written
on. Nothing cuts the torn entry off: a part of its header stays in front of what is
written next, and its payload, once complete, is taken for an entry. -/

namespace ChainBase
open OrderedSequence

variable {σ T : Type}

namespace Entry
variable (codec : Codec T)

def blank (entry : Entry T) : JournalLog := ⟨0, 0, entry.op.toUnderlying, entry.version codec⟩

def patchedHeader (entry : Entry T) (patched : Nat) : List UInt8 :=
  (entry.log codec).bytes.take patched ++ (entry.blank codec).bytes.drop patched

/-- The bytes of an entry that are in the file, `present` of them, of whose header
some have been patched. -/
def torn (entry : Entry T) (patched present : Nat) : List UInt8 :=
  (entry.patchedHeader codec patched ++ entry.payload codec).take present

variable {codec} {entry : Entry T} {patched : Nat}

private theorem drop_take_append_drop {first second : List UInt8} {n : Nat} (same : first.drop n = second.drop n) (m : Nat)
    (length : first.length = second.length) : (first.take m ++ second.drop m).drop n = first.drop n := by
  refine List.ext_getElem? fun i => ?_
  have shared := congrArg (fun bytes => bytes[i]?) same
  simp only [List.getElem?_drop] at shared ⊢
  rw [List.getElem?_append, List.length_take]
  split
  next inside => rw [List.getElem?_take_of_lt (by omega)]
  next outside =>
    rw [List.getElem?_drop]
    rcases Nat.le_total m first.length with short | long
    · rw [shared, Nat.min_eq_left short, Nat.add_sub_cancel' (by omega)]
    · rw [List.getElem?_eq_none (by omega), List.getElem?_eq_none (by omega)]

theorem length_patchedHeader : (entry.patchedHeader codec patched).length = 16 := by
  simp only [patchedHeader, List.length_append, List.length_take, List.length_drop, JournalLog.length_bytes]
  omega

theorem patchedHeader_eq : ∃ log : JournalLog, entry.patchedHeader codec patched = log.bytes ∧
    log.type = entry.op.toUnderlying ∧ log.version = entry.version codec := by
  have behind : (entry.patchedHeader codec patched).drop 8 = (entry.log codec).bytes.drop 8 := by
    refine drop_take_append_drop ?_ patched (by simp)
    simp [JournalLog.bytes, log, blank, List.drop_append, List.drop_eq_nil_of_le]
  refine ⟨JournalLog.ofBytes (entry.patchedHeader codec patched), (JournalLog.bytes_ofBytes length_patchedHeader).symm, ?_, ?_⟩
  · have type := congrArg JournalLog.type (JournalLog.ofBytes_bytes (entry.log codec))
    refine Eq.trans ?_ type
    simp only [JournalLog.ofBytes, JournalLog.field, behind]
  · have version := congrArg JournalLog.version (JournalLog.ofBytes_bytes (entry.log codec))
    refine Eq.trans ?_ version
    have further : (entry.patchedHeader codec patched).drop 12 = (entry.log codec).bytes.drop 12 := by
      simpa only [List.drop_drop] using congrArg (List.drop 4) behind
    simp only [JournalLog.ofBytes, JournalLog.field, further]

end Entry

/-- If recovery completes, whatever is written next is what a second recovery finds
behind the intact entries, and nothing else. -/
def Durable (c : Target σ T) (codec : Codec T) (fresh : σ) (intact : List (Entry T)) (torn : List UInt8) : Prop :=
  ∀ first, recover c codec fresh (Entry.encodeAll codec intact ++ torn) = .ok first →
    ∀ next : List (Entry T), (∀ entry ∈ next, entry.Fits codec) → (∃ last, replay c first.container next = .ok last) →
      ∃ second, recover c codec fresh
          ((Journal.opened (Entry.encodeAll codec intact ++ torn) first.position).writeAll codec next).file = .ok second ∧
        second.applied = (intact ++ Entry.rewrite next).map (Entry.frame codec) ∧
        second.position = (Entry.encodeAll codec (intact ++ Entry.rewrite next)).length

variable {c : Target σ T} {codec : Codec T} {fresh : σ} {intact : List (Entry T)} {torn : List UInt8}

theorem durable_of_error {failure : Failure} (fails : recover c codec fresh (Entry.encodeAll codec intact ++ torn) = .error failure) :
    Durable c codec fresh intact torn := by
  intro first ran
  rw [fails] at ran
  cases ran

theorem Durable.again (durable : Durable c codec fresh intact torn) {first : Recovered σ}
    (ran : recover c codec fresh (Entry.encodeAll codec intact ++ torn) = .ok first) :
    first.applied = intact.map (Entry.frame codec) := by
  obtain ⟨second, again, applied, -⟩ := durable first ran [] (by simp) ⟨first.container, rfl⟩
  obtain rfl := Except.ok.inj (again.symm.trans ran)
  simpa [Entry.rewrite] using applied

theorem recover_torn_header (fresh : σ) (propagates : c.Propagates) (fits : ∀ entry ∈ intact, entry.Fits codec) (short : torn.length < 16) :
    recover c codec fresh (Entry.encodeAll codec intact ++ torn) = (replay c fresh intact).map fun s =>
      ⟨s, (Entry.encodeAll codec intact).length + torn.length, intact.map (Entry.frame codec)⟩ := by
  rw [recover_entries propagates fits]
  cases replay c fresh intact with
  | error failure => rfl
  | ok s =>
    simp only [Except.bind, Except.map]
    rw [scan_short short]
    simp [Recovered.onto]

/-- Behind a part of a header nothing is recovered as it was written, whatever that is. -/
theorem torn_header_spoils (propagates : c.Propagates) (fits : ∀ entry ∈ intact, entry.Fits codec) (begun : 0 < torn.length)
    (short : torn.length < 16) {first : Recovered σ} (ran : recover c codec fresh (Entry.encodeAll codec intact ++ torn) = .ok first)
    (next : List (Entry T)) {second : Recovered σ}
    (again : recover c codec fresh ((Journal.opened (Entry.encodeAll codec intact ++ torn) first.position).writeAll codec next).file =
      .ok second) (applied : second.applied = (intact ++ Entry.rewrite next).map (Entry.frame codec)) :
    second.position ≠ (Entry.encodeAll codec (intact ++ Entry.rewrite next)).length := by
  rw [recover_torn_header fresh propagates fits short] at ran
  cases replays : replay c fresh intact with
  | error failure =>
    rw [replays] at ran
    cases ran
  | ok s =>
    rw [replays] at ran
    cases ran
    have wrote := (@Journal.wrote_writeAll T codec (Entry.encodeAll codec intact ++ torn) [] next).place.1
    rw [List.drop_nil, List.append_nil, List.append_nil, List.length_append] at wrote
    rw [wrote, List.append_assoc, recover_entries propagates fits, replays] at again
    simp only [Except.bind] at again
    cases scanned : scan c codec _ (Entry.encodeAll codec intact).length (torn ++ Entry.encodeAll codec (Entry.rewrite next)) s with
    | error failure =>
      rw [scanned] at again
      cases again
    | ok rest =>
      rw [scanned] at again
      cases again
      simp only [Recovered.onto, List.map_append, List.append_cancel_left_eq] at applied
      rw [Entry.encodeAll_append, List.length_append]
      obtain final | ⟨front, last, parts, final⟩ := scan_position propagates (Nat.lt_succ_self _) scanned
      · rw [List.length_append] at final
        simp only [Recovered.onto, final]
        omega
      · have total := @Entry.total_frames T codec (Entry.rewrite next)
        rw [← applied, parts] at total
        simp only [Frame.total, List.map_append, List.sum_append, List.map_cons, List.sum_cons] at total final
        simp only [Recovered.onto, final]
        omega

variable {entry : Entry T} {patched present : Nat}

theorem recover_torn_payload (fresh : σ) (patched : Nat) (propagates : c.Propagates)
    (fits : ∀ entry ∈ intact, entry.Fits codec) (fit : entry.Fits codec) (known : entry.Known c.undo.isSome)
    (header : 16 ≤ present) (cut : present < (entry.encode codec).length) :
    ∃ failure, recover c codec fresh (Entry.encodeAll codec intact ++ entry.torn codec patched present) = .error failure := by
  obtain ⟨log, bytes, type, version⟩ := @Entry.patchedHeader_eq _ codec entry patched
  obtain ⟨size, rfl⟩ := Nat.exists_eq_add_of_le header
  have parts : entry.torn codec patched (16 + size) = log.bytes ++ (entry.payload codec).take size := by
    rw [Entry.torn, bytes, List.take_append, List.take_of_length_le (by simp), JournalLog.length_bytes, Nat.add_sub_cancel_left]
  rw [Entry.length_encode] at cut
  have incomplete := Entry.extent_cut fit type version (Or.inl known) (by omega : size < (entry.payload codec).length)
  rw [recover_entries propagates fits, parts]
  cases replay c fresh intact with
  | error failure => exact ⟨failure, rfl⟩
  | ok s =>
    obtain ⟨failure, fails⟩ := scan_incomplete s (log.bytes ++ (entry.payload codec).take size).length
      (Entry.encodeAll codec intact).length propagates incomplete
    refine ⟨failure, ?_⟩
    simp only [Except.bind]
    rw [fails]
    rfl

/-- The payload is complete, but not the header: the entry is applied. -/
theorem recover_unpatched (fresh : σ) (propagates : c.Propagates) (fits : ∀ entry ∈ intact, entry.Fits codec) (fit : entry.Fits codec)
    (known : entry.Known c.undo.isSome) (partly : entry.torn codec patched (entry.encode codec).length ≠ entry.encode codec) :
    recover c codec fresh (Entry.encodeAll codec intact ++ entry.torn codec patched (entry.encode codec).length) =
      (replay c fresh (intact ++ [entry])).map fun s =>
        ⟨s, (Entry.encodeAll codec intact).length, intact.map (Entry.frame codec) ++ [entry.frame codec]⟩ := by
  obtain ⟨log, bytes, type, version⟩ := @Entry.patchedHeader_eq _ codec entry patched
  have parts : entry.torn codec patched (entry.encode codec).length = log.bytes ++ entry.payload codec := by
    rw [Entry.torn, bytes, List.take_of_length_le (by simp [Entry.length_encode])]
  have whole := Entry.extent_payload fit.typed type version (Or.inl known) []
  rw [List.append_nil] at whole
  have mismatched : ¬ log.Matches ((entry.payload codec).take (entry.payload codec).length) := by
    rw [List.take_length]
    rintro ⟨size, crc⟩
    have sizes : log.size = (entry.log codec).size := UInt32.toNat.inj (size.symm.trans fit.size.symm)
    have same : log = entry.log codec := by
      cases log
      simp_all [Entry.log]
    exact partly (by rw [parts, same, Entry.encode])
  obtain ⟨rounds, total⟩ : ∃ rounds, (log.bytes ++ entry.payload codec).length = rounds + 1 :=
    Nat.exists_eq_add_of_le' (by simp; omega)
  rw [recover_entries propagates fits, parts, total, replay_append]
  cases replay c fresh intact with
  | error failure => rfl
  | ok s =>
    have acts := Entry.act_payload (c := c) (s := s) fit.typed type version []
    rw [List.append_nil] at acts
    simp only [Except.bind]
    rw [scan_mismatched whole mismatched, acts]
    simp only [replay, List.foldlM_cons, List.foldlM_nil, List.take_length, type, version]
    cases entry.applyRecover c s <;> rfl

/-- The entries cannot be replayed, or the torn one has its header but not all of
its payload: recovery throws. -/
def Refused (c : Target σ T) (codec : Codec T) (fresh : σ) (intact : List (Entry T)) (entry : Entry T) (present : Nat) : Prop :=
  (¬ ∃ last, replay c fresh intact = .ok last) ∨ 16 ≤ present ∧
    (present < (entry.encode codec).length ∨ ¬ ∃ last, replay c fresh (intact ++ [entry]) = .ok last)

theorem durable_iff (propagates : c.Propagates) (fits : ∀ entry ∈ intact, entry.Fits codec) (fit : entry.Fits codec)
    (known : entry.Known c.undo.isSome) (begun : 0 < present) (inside : present ≤ (entry.encode codec).length)
    (partly : entry.torn codec patched present ≠ entry.encode codec) :
    Durable c codec fresh intact (entry.torn codec patched present) ↔ Refused c codec fresh intact entry present := by
  have length : (entry.torn codec patched present).length = present := by
    rw [Entry.length_encode] at inside
    rw [Entry.torn, List.length_take, List.length_append, Entry.length_patchedHeader, Nat.min_eq_left inside]
  rcases Nat.lt_or_ge present 16 with short | header
  · have ran := recover_torn_header fresh propagates fits (by omega : (entry.torn codec patched present).length < 16)
    cases replays : replay c fresh intact with
    | error failure =>
      rw [replays] at ran
      exact iff_of_true (durable_of_error ran) (Or.inl (by simp [replays]))
    | ok s =>
      rw [replays] at ran
      refine iff_of_false (fun durable => ?_) (by simp [Refused, replays]; omega)
      obtain ⟨second, again, applied, position⟩ := durable _ ran [] (by simp) ⟨s, rfl⟩
      exact torn_header_spoils propagates fits (by omega) (by omega) ran [] again applied position
  rcases Nat.lt_or_ge present (entry.encode codec).length with cut | complete
  · obtain ⟨failure, fails⟩ := recover_torn_payload fresh patched propagates fits fit known header cut
    exact iff_of_true (durable_of_error fails) (Or.inr ⟨header, Or.inl cut⟩)
  · obtain rfl : present = (entry.encode codec).length := Nat.le_antisymm inside complete
    have ran := recover_unpatched fresh propagates fits fit known partly
    cases replays : replay c fresh (intact ++ [entry]) with
    | error failure =>
      rw [replays] at ran
      exact iff_of_true (durable_of_error ran) (Or.inr ⟨header, Or.inr (by simp [replays])⟩)
    | ok last =>
      rw [replays] at ran
      refine iff_of_false (fun durable => ?_) ?_
      · simpa using durable.again ran
      · rintro (refused | ⟨-, cut | refused⟩)
        · exact refused (replay_front replays)
        · exact absurd cut (Nat.lt_irrefl _)
        · exact refused ⟨last, replays⟩

/-- What is written after the recovery of a torn journal is durable exactly where
that recovery does not complete. -/
theorem torn_journal_durable_iff [Object T] [Inhabited T] (keys : List (Comparator T)) (codec : Codec T) {intact : List (Entry T)}
    {entry : Entry T} {patched present : Nat} (fits : ∀ entry ∈ intact, entry.Fits codec) (fit : entry.Fits codec)
    (begun : 0 < present) (inside : present ≤ (entry.encode codec).length)
    (partly : entry.torn codec patched present ≠ entry.encode codec) :
    (Durable UndoMultiIndex.target codec (UndoMultiIndex.empty keys) intact (entry.torn codec patched present) ↔
      Refused UndoMultiIndex.target codec (UndoMultiIndex.empty keys) intact entry present) ∧
    (entry.Known false →
      (Durable MultiIndex.target codec (MultiIndex.empty keys) intact (entry.torn codec patched present) ↔
        Refused MultiIndex.target codec (MultiIndex.empty keys) intact entry present)) := by
  constructor
  · have known : entry.Known true := by cases entry <;> trivial
    exact durable_iff UndoMultiIndex.propagates fits fit known begun inside partly
  · intro known
    exact durable_iff MultiIndex.propagates fits fit known begun inside partly

theorem torn_journal_durable_iff_books :
    let intact : List (Entry Book) := [.insert ⟨0, 1, 1⟩]
    let entry : Entry Book := .modify 0 ⟨0, 2, 2⟩
    (Durable UndoMultiIndex.target bookCodec (UndoMultiIndex.empty bookKeys) intact (entry.torn bookCodec 5 40) ↔
      Refused UndoMultiIndex.target bookCodec (UndoMultiIndex.empty bookKeys) intact entry 40) ∧
    (Durable MultiIndex.target bookCodec (MultiIndex.empty bookKeys) intact (entry.torn bookCodec 5 40) ↔
      Refused MultiIndex.target bookCodec (MultiIndex.empty bookKeys) intact entry 40) := by
  intro intact entry
  have both := @torn_journal_durable_iff Book _ _ bookKeys bookCodec intact entry 5 40 (by decide) (by decide) (by decide) (by decide)
    (by decide +kernel)
  exact ⟨both.1, both.2 trivial⟩

/-- Twelve bytes of a header are left in front of the removal of the only book. The
second recovery takes them for the start of an insertion and keeps the book. -/
theorem torn_header_misread :
    let intact : List (Entry Book) := [.insert ⟨0, 1, 1⟩]
    let torn := (Entry.insert (⟨1, 2, 2⟩ : Book)).torn bookCodec 0 12
    torn ≠ (Entry.insert (⟨1, 2, 2⟩ : Book)).encode bookCodec ∧
      ¬ Durable UndoMultiIndex.target bookCodec (UndoMultiIndex.empty bookKeys) intact torn := by
  intro intact torn
  refine ⟨by decide +kernel, fun durable => ?_⟩
  have seen : ((recover UndoMultiIndex.target bookCodec (UndoMultiIndex.empty bookKeys)
      (Entry.encodeAll bookCodec intact ++ torn)).toOption.bind fun first =>
        (replay UndoMultiIndex.target first.container [.remove 0]).toOption.bind fun _ =>
          (recover UndoMultiIndex.target bookCodec (UndoMultiIndex.empty bookKeys)
            ((Journal.opened (Entry.encodeAll bookCodec intact ++ torn) first.position).writeAll bookCodec
              ([.remove 0] : List (Entry Book))).file).toOption.map Recovered.position) = some 32 := by
    decide +kernel
  cases ran : recover UndoMultiIndex.target bookCodec (UndoMultiIndex.empty bookKeys) (Entry.encodeAll bookCodec intact ++ torn) with
  | error failure => simp [ran, Except.toOption] at seen
  | ok first =>
    simp only [ran, Except.toOption, Option.bind_some] at seen
    cases replays : replay UndoMultiIndex.target first.container ([.remove 0] : List (Entry Book)) with
    | error failure => simp [replays] at seen
    | ok last =>
      obtain ⟨second, again, -, position⟩ := durable first ran [.remove 0] (by decide) ⟨last, replays⟩
      simp only [replays, again, Option.bind_some, Option.map_some, Option.some.injEq, position] at seen
      exact absurd seen (by decide)

end ChainBase
