import ChainBase.Journal.Format

/-! `journal::open` with recovery. The loop applies an entry as it reads it, and
looks at the size and the checksum only when it comes for the next header. -/

namespace ChainBase

variable {σ T : Type}

namespace Codec
variable (codec : Codec T)

def read (format : UInt32) (input : Input) (old : T) : T × Bool :=
  (codec.load format input.rest old, (codec.extent format input.rest).isNone)

def construct (format : UInt32) (input : Input) (id : Nat) : Option T :=
  match codec.read format input (codec.initial id) with
  | (obj, false) => some obj
  | (_, true) => none

/-- The container rethrows what its callback throws: where the stream ends within the
object, that is the exception of the stream. -/
def rethrown {σ : Type} (format : UInt32) (input : Input) (result : Except Failure σ) : Except Failure σ :=
  if (codec.extent format input.rest).isSome then result
  else result.mapError fun failure => if failure = .thrown .user then Input.inputReadError else failure

def after (format : UInt32) (input : Input) : Input := input.advance ((codec.extent format input.rest).getD 0)

end Codec

namespace JournalLog
variable (c : Target σ T) (codec : Codec T) (log : JournalLog) (s : σ) (input : Input)

/-- `apply_recover`, from the stream: whether the container knows the entry, and
the container and the stream after it. -/
def applyRecover : Except Failure (Bool × σ × Input) :=
  match JournalOp.fromUnderlying log.type with
  | some .insert => do
    let s ← codec.rethrown log.version input (c.recoverInsert s (codec.construct log.version input))
    .ok (true, s, codec.after log.version input)
  | some .modify => do
    let (id, input) ← input.readUInt64
    let s ← codec.rethrown log.version input (c.recoverModify s id (codec.read log.version input))
    .ok (true, s, codec.after log.version input)
  | some .remove => do
    let (id, input) ← input.readUInt64
    let s ← c.recoverRemove s id
    .ok (true, s, input)
  | some (.level op) =>
    match c.undo with
    | some undo => do
      let (revision, input) ← input.readInt64
      let s ← undo.recoverLevel s op revision
      .ok (true, s, input)
    | none => .ok (false, s, input)
  | some .create | none => .ok (false, s, input)

/-- The body of the loop: what the container does not know is skipped. -/
def recoverEntry : Except Failure (σ × Input) := do
  let (known, s, input) ← log.applyRecover c codec s input
  let input ← if known then .ok input else input.skip log.size.toNat
  .ok (s, input)

/-- `read_header`: the next header, if there is one, with the stream after it, and
the position of its payload or else the position to write at. The header of the
entry before says what must have been read since. -/
def readHeader (position : Nat) : Option (JournalLog × Input) × Nat :=
  if input.position - position ≠ log.size.toNat then (none, position - 16)
  else
    let (crc, input) := input.checksum
    if crc ≠ log.crc then (none, position - 16)
    else if input.rest.length < 16 then (none, input.position + input.rest.length)
    else
      let next := { input with rest := input.rest.drop 16, position := input.position + 16 }
      (some (ofBytes (input.rest.take 16), next), next.position)

end JournalLog

structure Recovered (σ : Type) where
  container : σ
  position : Nat
  applied : List Frame

def Recovered.onto (earlier : List Frame) (recovered : Recovered σ) : Recovered σ :=
  { recovered with applied := earlier ++ recovered.applied }

/-- The loop, for a number of rounds that it does not reach. -/
def recoverLoop (c : Target σ T) (codec : Codec T) :
    Nat → JournalLog → Nat → Input → σ → Except Failure (Recovered σ)
  | 0, _, _, _, _ => .error .fault
  | rounds + 1, log, position, input, s =>
    match log.readHeader input position with
    | (none, position) => .ok ⟨s, position, []⟩
    | (some (log, input), position) => do
      let (s, later) ← log.recoverEntry c codec s input
      let frame := ⟨log.type, log.version, input.rest.take (later.position - input.position)⟩
      let recovered ← recoverLoop c codec rounds log position later s
      .ok (recovered.onto [frame])

/-- The loop from the boundary of two entries on. -/
def scan (c : Target σ T) (codec : Codec T) (rounds position : Nat) (rest : List UInt8) (s : σ) :
    Except Failure (Recovered σ) :=
  recoverLoop c codec rounds ⟨0, 0, 0, 0⟩ position ⟨rest, position, Crc32.initial⟩ s

/-- `open`, with `recover` set. Every header is 16 bytes long. -/
def recover (c : Target σ T) (codec : Codec T) (fresh : σ) (file : List UInt8) : Except Failure (Recovered σ) :=
  scan c codec (file.length + 1) 0 file fresh

/-! ## One entry -/

/-- An exception of a constructor or a modifier ends a recovery. -/
structure Target.Propagates (c : Target σ T) : Prop where
  constructor (s : σ) (constructor : Nat → Option T) : (∀ id, constructor id = none) →
    ∃ failure, c.recoverInsert s constructor = .error failure
  modifier (s : σ) (id : Nat) (modifier : T → T × Bool) : (∀ old, (modifier old).2 = true) →
    ∃ failure, c.recoverModify s id modifier = .error failure

theorem MultiIndex.propagates [Object T] : (MultiIndex.target : Target (MultiIndex T Unit) T).Propagates where
  constructor s constructor throws := by
    simp [Target.recoverInsert, MultiIndex.target, MultiIndex.emplace, throws]
  modifier s id modifier throws := by
    simp only [Target.recoverModify]
    split
    · simp [MultiIndex.target, MultiIndex.modify, MultiIndex.modifyThrows, throws]
    · exact ⟨_, rfl⟩

private theorem UndoMultiIndex.modify_threw [Object T] (s : UndoMultiIndex T) (a : Addr) (modifier : T → T × Bool)
    (threw : (modifier (s.value a)).2 = true) :
    s.modify a modifier = none ∨ ∃ after, s.modify a modifier = some (some .user, after) := by
  simp only [UndoMultiIndex.modify, threw, MultiIndex.modifyThrows, if_true]
  split
  · exact Or.inr ⟨_, rfl⟩
  · exact Or.inr ⟨_, rfl⟩
  · exact Or.inr ⟨_, rfl⟩
  · exact Or.inl rfl

theorem UndoMultiIndex.propagates [Object T] : (UndoMultiIndex.target : Target (UndoMultiIndex T) T).Propagates where
  constructor s constructor throws := by
    simp [Target.recoverInsert, UndoMultiIndex.target, UndoMultiIndex.emplace, MultiIndex.emplace, throws]
  modifier s id modifier throws := by
    simp only [Target.recoverModify]
    split
    next a found =>
      simp only [UndoMultiIndex.target]
      rcases UndoMultiIndex.modify_threw s a modifier (throws _) with fails | ⟨after, threw⟩
      · exact ⟨_, by simp [fails]; rfl⟩
      · exact ⟨_, by simp [threw]; rfl⟩
    · exact ⟨_, rfl⟩

namespace JournalLog
variable (codec : Codec T) (log : JournalLog)

/-- How many bytes are read as the payload of an entry, if the stream does not end before. -/
def extent (levels : Bool) (bytes : List UInt8) : Option Nat :=
  match JournalOp.fromUnderlying log.type with
  | some .insert => codec.extent log.version bytes
  | some .modify => if 8 ≤ bytes.length then (codec.extent log.version (bytes.drop 8)).map (8 + ·) else none
  | some .remove => if 8 ≤ bytes.length then some 8 else none
  | some (.level _) =>
    if levels then if 8 ≤ bytes.length then some 8 else none
    else if log.size.toNat ≤ bytes.length then some log.size.toNat else none
  | some .create | none => if log.size.toNat ≤ bytes.length then some log.size.toNat else none

def act (c : Target σ T) (s : σ) (bytes : List UInt8) : Except Failure σ :=
  match JournalOp.fromUnderlying log.type with
  | some .insert => c.recoverInsert s fun id => some (codec.load log.version bytes (codec.initial id))
  | some .modify =>
    c.recoverModify s (BigEndian.decode (bytes.take 8)) fun old => (codec.load log.version (bytes.drop 8) old, false)
  | some .remove => c.recoverRemove s (BigEndian.decode (bytes.take 8))
  | some (.level op) =>
    match c.undo with
    | some undo => undo.recoverLevel s op (BigEndian.decodeSigned (bytes.take 8))
    | none => .ok s
  | some .create | none => .ok s

variable {codec} {log} {c : Target σ T} {s : σ} {input : Input}

theorem recoverEntry_whole {n : Nat} (whole : log.extent codec c.undo.isSome input.rest = some n) :
    log.recoverEntry c codec s input = (log.act codec c s input.rest).map fun s => (s, input.advance n) := by
  revert whole
  simp only [extent, recoverEntry, applyRecover, act]
  cases JournalOp.fromUnderlying log.type with
  | none =>
    intro whole
    simp only [Option.ite_none_right_eq_some, Option.some.injEq] at whole
    obtain ⟨enough, rfl⟩ := whole
    simp [Input.skip_eq, enough, Except.map, bind, Except.bind]
  | some op =>
    intro whole
    cases op with
    | create =>
      simp only [Option.ite_none_right_eq_some, Option.some.injEq] at whole
      obtain ⟨enough, rfl⟩ := whole
      simp [Input.skip_eq, enough, Except.map, bind, Except.bind]
    | insert =>
      have constructs : codec.construct log.version input =
          fun id => some (codec.load log.version input.rest (codec.initial id)) := by
        funext id
        simp [Codec.construct, Codec.read, whole]
      simp only [constructs, Codec.rethrown, Codec.after, whole, Option.isSome_some, if_true, Option.getD_some, bind, Except.bind,
        Except.map]
      cases c.recoverInsert s _ <;> rfl
    | modify =>
      simp only [Option.ite_none_right_eq_some, Option.map_eq_some_iff] at whole
      obtain ⟨id, size, object, rfl⟩ := whole
      have modifies : codec.read log.version (input.advance 8) =
          fun old => (codec.load log.version (input.rest.drop 8) old, false) := by
        funext old
        simp [Codec.read, Input.advance, object]
      have after : codec.after log.version (input.advance 8) = input.advance (8 + size) := by
        rw [Codec.after, ← Input.advance_advance]
        simp [Input.advance, object]
      have found : (codec.extent log.version (input.advance 8).rest).isSome := by simp [Input.advance, object]
      simp only [Input.readUInt64_whole id, modifies, Codec.rethrown, found, if_true, after, bind, Except.bind, Except.map]
      cases c.recoverModify s _ _ <;> rfl
    | remove =>
      simp only [Option.ite_none_right_eq_some, Option.some.injEq] at whole
      obtain ⟨id, rfl⟩ := whole
      simp only [Input.readUInt64_whole id, bind, Except.bind, Except.map]
      cases c.recoverRemove s _ <;> rfl
    | level op =>
      cases undo : c.undo with
      | none =>
        simp only [undo, Option.isSome_none, Bool.false_eq_true, if_false, Option.ite_none_right_eq_some,
          Option.some.injEq] at whole
        obtain ⟨enough, rfl⟩ := whole
        simp [Input.skip_eq, enough, Except.map, bind, Except.bind]
      | some target =>
        simp only [undo, Option.isSome_some, if_true, Option.ite_none_right_eq_some, Option.some.injEq] at whole
        obtain ⟨revision, rfl⟩ := whole
        simp only [Input.readInt64_whole revision, bind, Except.bind, Except.map]
        cases target.recoverLevel s op _ <;> rfl

theorem recoverEntry_incomplete (propagates : c.Propagates) (incomplete : log.extent codec c.undo.isSome input.rest = none) :
    ∃ failure, log.recoverEntry c codec s input = .error failure := by
  revert incomplete
  simp only [extent, recoverEntry, applyRecover]
  cases JournalOp.fromUnderlying log.type with
  | none =>
    intro incomplete
    simp only [ite_eq_right_iff, reduceCtorEq, imp_false] at incomplete
    simp [Input.skip_eq, incomplete, bind, Except.bind]
  | some op =>
    intro incomplete
    cases op with
    | create =>
      simp only [ite_eq_right_iff, reduceCtorEq, imp_false] at incomplete
      simp [Input.skip_eq, incomplete, bind, Except.bind]
    | insert =>
      obtain ⟨failure, fails⟩ := propagates.constructor s (codec.construct log.version input) fun id => by
        simp [Codec.construct, Codec.read, incomplete]
      exact ⟨_, by simp [fails, Codec.rethrown, incomplete, Except.mapError, bind, Except.bind]; rfl⟩
    | modify =>
      by_cases id : 8 ≤ input.rest.length
      · simp only [id, if_true, Option.map_eq_none_iff] at incomplete
        obtain ⟨failure, fails⟩ := propagates.modifier s (BigEndian.decode (input.rest.take 8))
          (codec.read log.version (input.advance 8)) fun old => by simp [Codec.read, Input.advance, incomplete]
        have ends : (codec.extent log.version (input.advance 8).rest).isSome = false := by simp [Input.advance, incomplete]
        exact ⟨_, by simp [Input.readUInt64_whole id, fails, Codec.rethrown, ends, Except.mapError, bind, Except.bind]; rfl⟩
      · exact ⟨_, by simp [Input.readUInt64_short (Nat.not_le.mp id), bind, Except.bind]; rfl⟩
    | remove =>
      simp only [ite_eq_right_iff, reduceCtorEq, imp_false] at incomplete
      exact ⟨_, by simp [Input.readUInt64_short (Nat.not_le.mp incomplete), bind, Except.bind]; rfl⟩
    | level op =>
      cases undo : c.undo with
      | none =>
        simp only [undo, Option.isSome_none, Bool.false_eq_true, if_false, ite_eq_right_iff, reduceCtorEq,
          imp_false] at incomplete
        simp [Input.skip_eq, incomplete, bind, Except.bind]
      | some target =>
        simp only [undo, Option.isSome_some, if_true, ite_eq_right_iff, reduceCtorEq, imp_false] at incomplete
        exact ⟨_, by simp [Input.readInt64_short (Nat.not_le.mp incomplete), bind, Except.bind]; rfl⟩

end JournalLog
end ChainBase
