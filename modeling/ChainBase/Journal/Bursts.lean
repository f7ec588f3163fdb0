import ChainBase.Library.CrcBurst
import ChainBase.Journal.Scanning
import ChainBase.Journal.Writing

/-! Alterations that recovery cannot miss, whatever container it recovers and whatever
follows in the file. The type and the version of an entry are under no checksum. -/

namespace ChainBase

variable {σ T : Type} {c : Target σ T} {codec : Codec T}

namespace Entry

/-- A burst in the payload, another checksum, or, if the container does not take it on
trust, another size. -/
inductive Altered (codec : Codec T) (levels : Bool) (entry : Entry T) : JournalLog → List UInt8 → Prop
  | payload {received : List UInt8} (burst : Crc32.Burst 32 (entry.payload codec) received) :
      Altered codec levels entry (entry.log codec) received
  | crc {crc : UInt32} (other : crc ≠ (entry.log codec).crc) :
      Altered codec levels entry { entry.log codec with crc } (entry.payload codec)
  | size {size : UInt32} (known : entry.Known levels) (other : size ≠ (entry.log codec).size) :
      Altered codec levels entry { entry.log codec with size } (entry.payload codec)

variable {entry : Entry T} {levels : Bool} {log : JournalLog} {received : List UInt8}

theorem Altered.mismatched (altered : entry.Altered codec levels log received) (fits : entry.Fits codec) (more : List UInt8)
    {n : Nat} (whole : log.extent codec levels (received ++ more) = some n) : ¬ log.Matches ((received ++ more).take n) := by
  have inside := JournalLog.extent_le whole
  rintro ⟨size, crc⟩
  rw [List.length_take, Nat.min_eq_left inside] at size
  cases altered with
  | payload burst =>
    rw [fits.size, burst.length_eq] at size
    rw [size, List.take_left] at crc
    exact burst.checksum_ne crc.symm
  | crc other =>
    rw [fits.size] at size
    rw [size, List.take_left] at crc
    exact other crc.symm
  | @size size' known other =>
    rw [extent_payload fits.typed rfl rfl (Or.inl known), Option.some.injEq] at whole
    apply other
    rw [← UInt32.toNat_inj, fits.size, whole]
    exact size.symm

end Entry

/-- Recovery has stopped at an entry: nothing behind it is read, the container is what the
entries before it have made it but for this entry as it is read, and the next calls are
written over it. -/
structure StopsAt (c : Target σ T) (codec : Codec T) (fresh : σ) (earlier : List (Entry T)) (log : JournalLog)
    (rest : List UInt8) (recovered : Recovered σ) : Prop where
  applied : ∃ payload, recovered.applied = earlier.map (Entry.frame codec) ++ [⟨log.type, log.version, payload⟩]
  container : ∃ before, replay c fresh earlier = .ok before ∧ log.act codec c before rest = .ok recovered.container
  written (calls : List (Entry T)) : ∃ left,
    ((Journal.opened (Entry.encodeAll codec earlier ++ (log.bytes ++ rest)) recovered.position).writeAll codec calls).file =
      Entry.encodeAll codec (earlier ++ Entry.rewrite calls) ++ left

/-- An entry with such an alteration is noticed: recovery throws, or it stops there. -/
theorem altered_entry_noticed (propagates : c.Propagates) {earlier : List (Entry T)} (fits : ∀ entry ∈ earlier, entry.Fits codec)
    {entry : Entry T} (fit : entry.Fits codec) {log : JournalLog} {received : List UInt8}
    (altered : entry.Altered codec c.undo.isSome log received) (more : List UInt8) (fresh : σ) {recovered : Recovered σ}
    (ran : recover c codec fresh (Entry.encodeAll codec earlier ++ (log.bytes ++ (received ++ more))) = .ok recovered) :
    StopsAt c codec fresh earlier log (received ++ more) recovered := by
  rw [recover_entries propagates fits] at ran
  cases replayed : replay c fresh earlier with
  | error failure =>
    rw [replayed] at ran
    cases ran
  | ok before =>
    simp only [replayed, Except.bind] at ran
    have total : (log.bytes ++ (received ++ more)).length + 1 = ((received ++ more).length + 15) + 2 := by
      rw [List.length_append, log.length_bytes]
      omega
    cases whole : log.extent codec c.undo.isSome (received ++ more) with
    | none =>
      obtain ⟨failure, fails⟩ := scan_incomplete before (log.bytes ++ (received ++ more)).length
        (Entry.encodeAll codec earlier).length propagates whole
      rw [fails] at ran
      cases ran
    | some n =>
      rw [total, scan_mismatched whole (altered.mismatched fit more whole)] at ran
      cases acts : log.act codec c before (received ++ more) with
      | error failure =>
        rw [acts] at ran
        cases ran
      | ok after =>
        rw [acts] at ran
        cases ran
        refine ⟨⟨_, rfl⟩, ⟨before, replayed, acts⟩, fun calls => ?_⟩
        have wrote := (@Journal.wrote_writeAll T codec (Entry.encodeAll codec earlier) (log.bytes ++ (received ++ more)) calls).place.1
        rw [← Entry.encodeAll_append] at wrote
        exact ⟨_, wrote⟩

theorem altered_entry_noticed_books :
    let entry : Entry Book := .modify 0 ⟨0, 2, 1⟩
    let received := BigEndian.encode 8 0 ++ BigEndian.encode 8 0 ++ ([1, 2, 3] ++ [2, 0, 0, 0, 1])
    let more := Entry.encodeAll bookCodec [.remove 0]
    ∃ recovered, recover UndoMultiIndex.target bookCodec (UndoMultiIndex.empty bookKeys)
        (Entry.encodeAll bookCodec [.insert ⟨0, 1, 1⟩] ++ ((entry.log bookCodec).bytes ++ (received ++ more))) = .ok recovered ∧
      StopsAt UndoMultiIndex.target bookCodec (UndoMultiIndex.empty bookKeys) [.insert ⟨0, 1, 1⟩] (entry.log bookCodec)
        (received ++ more) recovered := by
  intro entry received more
  have sent : entry.payload bookCodec = BigEndian.encode 8 0 ++ BigEndian.encode 8 0 ++ ([0, 0, 0] ++ [2, 0, 0, 0, 1]) := by
    decide
  have burst : Crc32.Burst 32 (entry.payload bookCodec) received := by
    rw [sent]
    exact Crc32.burst_bytes _ _ rfl (by decide) (by decide)
  have ends : (recover UndoMultiIndex.target bookCodec (UndoMultiIndex.empty bookKeys)
      (Entry.encodeAll bookCodec [.insert ⟨0, 1, 1⟩] ++ ((entry.log bookCodec).bytes ++ (received ++ more)))).toOption.isSome = true := by
    decide +kernel
  cases ran : recover UndoMultiIndex.target bookCodec (UndoMultiIndex.empty bookKeys)
      (Entry.encodeAll bookCodec [.insert ⟨0, 1, 1⟩] ++ ((entry.log bookCodec).bytes ++ (received ++ more))) with
  | error failure =>
    rw [ran] at ends
    cases ends
  | ok recovered =>
    exact ⟨recovered, rfl, altered_entry_noticed UndoMultiIndex.propagates (by decide) (by decide) (.payload burst) more _ ran⟩

end ChainBase
