import ChainBase.Database.HeaderImage

/-! Any number of processes on one database file, down to the bytes of its header: nothing
they do to the bytes is anything but what they do to the header's members. -/

namespace ChainBase

/-! ## What is done to the bytes -/

def resizeImage (image : List UInt8) (size : Nat) : List UInt8 := image.take size ++ List.replicate (size - image.length) 0

def writeAt (offset : Nat) (bytes image : List UInt8) : List UInt8 :=
  image.take offset ++ (bytes.take (image.length - offset) ++ image.drop (offset + bytes.length))

/-- `dirty` and `flush`, which leave a flag alone that is as they want it. -/
def markImage (flag : Bool) (image : List UInt8) : List UInt8 :=
  if image[headerDirtyBitOffset]?.any (· ≠ 0) = flag then image else image.set headerDirtyBitOffset (byteOf flag)

inductive ByteStepped where
  | running (opening : Opening)
  | opened (opening : Opening)
  | threw (error : ByteError)
  | killed
deriving DecidableEq, Repr

def Stepped.toBytes : Stepped → ByteStepped
  | .running o => .running o
  | .opened o => .opened o
  | .threw error => .threw error.bytes
  | .killed => .killed

/-- A write through the mapped region. -/
def throughImage (file : Option (List UInt8)) (write : List UInt8 → List UInt8) (next : ByteStepped) :
    ByteStepped × Option (List UInt8) :=
  match file with
  | none => (.killed, none)
  | some image => if headerSize < image.length then (next, some (write image)) else (.killed, some image)

namespace Opening

/-- What `validate_db_header` has the constructor do. -/
def validated (o : Opening) : Except ByteError Bool → ByteStepped
  | .error error => .threw error
  | .ok true => .running { o with next := o.mapping }
  | .ok false =>
    match o.dirtyOutcome with
    | .error error => .threw error.bytes
    | .ok outcome =>
      let found := { o with outcome := some outcome }
      .running { found with next := found.mapping }

/-- One step of the constructor on a file of bytes. The segment manager, where it is at work,
writes some bytes behind the header. -/
def stepImage (o : Opening) (free : Bool) (memory : List UInt8) (file : Option (List UInt8)) :
    Option (ByteStepped × Option (List UInt8)) :=
  match o.next with
  | .exists =>
    if !o.writable && file.isNone then some (.threw (.throwError o.args.fpath .notFound (utf8 "file not found")), file)
    else if file.isSome then
      some (.running { o with next := .validateDbHeader, fileExists := true, outcome := some .good }, file)
    else
      let outcome := if o.args.fpath.parentPath = "" then o.outcome else some .created
      some (.running { o with next := .touch, fileExists := false, outcome }, file)
  | .validateDbHeader => (validateImage o.args.fpath o.args.environment file).map fun result => (o.validated result, file)
  | .touch => some (.running { o with next := .resizeNew }, some [])
  | .resizeNew => some (.running { o with next := .mapNew }, file.map (resizeImage · o.size))
  | .mapNew => some (.running { o with next := .constructSegment }, file)
  | .constructSegment => some (throughImage file (writeAt headerSize memory) (.running { o with next := .writeHeader }))
  | .writeHeader => some (throughImage file (writeAt 0 (headerOf o.args.environment 0)) (.running { o with next := .tryLock }))
  | .fileSize =>
    let existingFileSize := (file.map List.length).getD 0
    if existingFileSize < o.size then
      some (.running { o with next := .resizeOld, grow := o.size - existingFileSize }, file)
    else some (.running { o with next := .mapOld, grow := 0 }, file)
  | .resizeOld => some (.running { o with next := .mapOld }, file.map (resizeImage · o.size))
  | .mapOld => some (.running { o with next := if o.grow ≠ 0 then .growSegment else .tryLock }, file)
  | .growSegment => some (throughImage file (writeAt headerSize memory) (.running { o with next := .tryLock }))
  | .mapReadOnly => some (.opened o, file)
  | .tryLock =>
    if free then some (.running { o with next := .dirty }, file)
    else some (.threw (.throwError o.args.fpath .noAccess (utf8 "could not acquire file lock")), file)
  | .dirty => some (throughImage file (markImage true) (.opened o))

end Opening

/-! ## What the bytes show -/

/-- The header is in the bytes, as far as the file reaches; behind its end it is blank. -/
structure Shows {γ : Type} (image : List UInt8) (file : DbFile γ) : Prop where
  length : image.length = file.length
  header : (image ++ List.replicate 276 0).take 276 = file.header.bytes
  stored : file.header.Stored

section
variable {γ : Type} [SegmentManager γ] {image : List UInt8} {file : DbFile γ}

omit [SegmentManager γ] in
theorem Shows.whole (shown : Shows image file) (long : 276 ≤ image.length) : image.take 276 = file.header.bytes := by
  rw [← shown.header, List.take_append_of_le_length long]

omit [SegmentManager γ] in
theorem Shows.of_take {changed : DbFile γ} {bytes : List UInt8} (length : bytes.length = changed.length) (long : 276 ≤ bytes.length)
    (header : bytes.take 276 = changed.header.bytes) (stored : changed.header.Stored) : Shows bytes changed :=
  ⟨length, by rw [List.take_append_of_le_length long, header], stored⟩

omit [SegmentManager γ] in
theorem blank_bytes : DbHeader.bytes ⟨0, 0, false, .zeroed⟩ = List.replicate 276 0 := by
  have id : LittleEndian.encode 8 0 = List.replicate 8 0 := rfl
  have number : LittleEndian.encode 4 0 = List.replicate 4 0 := rfl
  have compiler (n : Nat) : strncpy (utf8 "") n = List.replicate n 0 := by simp [strncpy, show utf8 "" = [] by rfl]
  apply List.eq_replicate_iff.mpr
  refine ⟨DbHeader.length_bytes _, fun byte member => ?_⟩
  simp only [DbHeader.bytes, Environment.bytes, Environment.zeroed, compiler, id, number, byteOf, Os.toByte, Arch.toByte,
    List.mem_append, List.mem_cons, List.mem_replicate, List.not_mem_nil, or_false] at member
  simpa using member

theorem blank_stored : DbHeader.Stored ⟨0, 0, false, .zeroed⟩ := ⟨by decide, by decide, by decide⟩

theorem own_stored {own : Environment} (built : own.Built) (dirty : Bool) : DbHeader.Stored ⟨headerId, headerSize, dirty, own⟩ where
  id := show headerId < 256 ^ 8 by decide
  size := show headerSize < 256 ^ 4 by decide
  environ := built

theorem shows_truncated : Shows [] (DbFile.truncated : DbFile γ) := by
  constructor
  · rfl
  · exact (List.take_of_length_le (by rw [List.nil_append, List.length_replicate])).trans blank_bytes.symm
  · exact blank_stored

theorem Shows.resize (shown : Shows image file) {size : Nat} (enough : 276 ≤ size) :
    Shows (resizeImage image size) (file.resize size) := by
  have length : (resizeImage image size).length = size := by
    simp [resizeImage]
    omega
  refine ⟨length, ?_, shown.stored⟩
  rw [List.take_append_of_le_length (by rw [length]; exact enough), DbFile.resize, ← shown.header, resizeImage]
  rcases Nat.le_total size image.length with shorter | longer
  · rw [Nat.sub_eq_zero_of_le shorter, List.replicate_zero, List.append_nil, List.take_take, Nat.min_eq_left enough,
      List.take_append_of_le_length (enough.trans shorter)]
  · rw [List.take_of_length_le longer, List.take_append, List.take_append, List.take_replicate, List.take_replicate]
    congr 2
    omega

theorem length_writeAt {offset : Nat} (bytes : List UInt8) (inside : offset ≤ image.length) :
    (writeAt offset bytes image).length = image.length := by
  simp [writeAt]
  omega

theorem writeAt_behind {offset : Nat} (bytes : List UInt8) (outside : image.length ≤ offset) :
    writeAt offset bytes image = image := by
  rw [writeAt, List.take_of_length_le outside, Nat.sub_eq_zero_of_le outside, List.take_zero, List.nil_append,
    List.drop_eq_nil_of_le (by omega), List.append_nil]

omit [SegmentManager γ] in
theorem Shows.writeSegment (shown : Shows image file) (memory : List UInt8) (segment : γ) :
    Shows (writeAt headerSize memory image) { file with segment } := by
  rcases Nat.lt_or_ge headerSize image.length with long | short
  · have length := length_writeAt memory (Nat.le_of_lt long)
    have wide : 1024 < image.length := long
    have front : (writeAt headerSize memory image).take 276 = image.take 276 := by
      rw [writeAt, List.take_append_of_le_length (by simp; exact ⟨by decide, by omega⟩), List.take_take]
      rfl
    apply Shows.of_take
    · rw [length, shown.length]
    · omega
    · rw [front, shown.whole (by omega)]
    · exact shown.stored
  · rw [writeAt_behind memory short]
    exact ⟨shown.length, shown.header, shown.stored⟩

omit [SegmentManager γ] in
theorem Shows.writeHeader (shown : Shows image file) (long : headerSize < image.length) {own : Environment} (built : own.Built) :
    Shows (writeAt 0 (headerOf own 0) image) { file with header := ⟨headerId, headerSize, false, own⟩ } := by
  have length := length_writeAt (headerOf own 0) (Nat.zero_le image.length)
  have wide : 1024 < image.length := long
  have size : (headerOf own 0).length = 276 := by simp [headerOf]
  apply Shows.of_take
  · rw [length, shown.length]
  · omega
  · have fits : (headerOf own 0).length ≤ image.length := by omega
    rw [writeAt, List.take_zero, List.nil_append, Nat.sub_zero, List.take_of_length_le fits, List.take_left' size]
    rfl
  · exact own_stored built false

omit [SegmentManager γ] in
theorem Shows.mark (shown : Shows image file) (long : headerSize < image.length) (flag : Bool) :
    Shows (markImage flag image) (file.setDirty flag) := by
  have wide : 1024 < image.length := long
  have whole := shown.whole (by omega)
  have byte : image[12]? = some (byteOf file.header.dirty) := by
    rw [← List.getElem?_take_of_lt (by decide : 12 < 276), whole]
    exact file.header.getElem?_dirty
  have reads : (image[headerDirtyBitOffset]?.any (· ≠ 0)) = file.header.dirty := by
    rw [headerDirtyBitOffset, byte]
    cases file.header.dirty <;> rfl
  rw [markImage, reads]
  split
  · rename_i same
    have unchanged : file.setDirty flag = file := by rw [DbFile.setDirty, ← same]
    rw [unchanged]
    exact shown
  · apply Shows.of_take
    · rw [List.length_set, shown.length]
      rfl
    · rw [List.length_set]
      omega
    · rw [List.take_set, whole]
      exact file.header.set_dirty flag
    · exact ⟨shown.stored.id, shown.stored.size, shown.stored.environ⟩

omit [SegmentManager γ] in
/-- The check of the header reads in the bytes what it is, and throws the same texts. -/
theorem Shows.validate (shown : Shows image file) (fpath : Path) {own : Environment} (built : own.Built) :
    validateImage fpath own (some image) = some ((validateDbHeader fpath own (some file)).mapError SystemError.bytes) := by
  unfold validateDbHeader
  simp only [validateImage, List.length_take]
  by_cases short : image.length < headerSize
  · have short_ : min headerSize image.length < headerSize := by omega
    rw [if_pos short_, if_pos (shown.length ▸ short), ← SystemError.bytes_throwError]
    rfl
  · have wide : 1024 ≤ image.length := Nat.not_lt.mp short
    have long : ¬ min headerSize image.length < headerSize := by omega
    obtain ⟨rest, parts⟩ : ∃ rest, image.take headerSize = file.header.bytes ++ rest := by
      refine ⟨(image.take headerSize).drop 276, ?_⟩
      have front : (image.take headerSize).take 276 = file.header.bytes := by
        rw [List.take_take, ← shown.whole (by omega)]
        rfl
      rw [← front, List.take_append_drop]
    have whole : ¬ file.length < headerSize := shown.length ▸ short
    rw [if_neg long, if_neg whole, parts, shown.stored.read_id, shown.stored.read_size, file.header.read_dirty,
      file.header.read_dbenviron, shown.stored.read_str]
    by_cases version : file.header.id ≠ headerId ∨ file.header.size ≠ headerSize
    · rw [if_pos version, if_pos version, ← SystemError.bytes_throwError]
      rfl
    · rw [if_neg version, if_neg version]
      by_cases same : file.header.dbenviron = own
      · have bytes : file.header.dbenviron.bytes = own.bytes := congrArg Environment.bytes same
        rw [if_neg (not_not.mpr bytes), if_neg (not_not.mpr same)]
        rfl
      · have bytes : file.header.dbenviron.bytes ≠ own.bytes := fun equal =>
          same ((Environment.bytes_inj shown.stored.environ built).mp equal)
        rw [if_pos bytes, if_pos same, Option.map_some, ← utf8_append, ← SystemError.bytes_throwError]
        rfl

/-! ## One step of the constructor -/

variable {before : Option (List UInt8)} {found : Option (DbFile γ)}

omit [SegmentManager γ] in
theorem validateImage_shows (shown : Option.Rel Shows before found) (fpath : Path) {own : Environment} (built : own.Built) :
    validateImage fpath own before = some ((validateDbHeader fpath own found).mapError SystemError.bytes) := by
  cases shown with
  | none =>
    simp only [validateImage, validateDbHeader, ← SystemError.bytes_throwError]
    rfl
  | some shown => exact shown.validate fpath built

theorem resizeImage_shows (shown : Option.Rel Shows before found) {size : Nat} (enough : 276 ≤ size) :
    Option.Rel Shows (before.map (resizeImage · size)) (found.map (·.resize size)) := by
  cases shown with
  | none => exact .none
  | some shown => exact .some (shown.resize enough)

omit [SegmentManager γ] in
theorem throughImage_shows (shown : Option.Rel Shows before found) {write : List UInt8 → List UInt8} {change : DbFile γ → DbFile γ}
    (next : Stepped) (same : ∀ image file, Shows image file → headerSize < image.length → Shows (write image) (change file)) :
    ∃ after, throughImage before write next.toBytes = ((throughMapping found change next).1.toBytes, after) ∧
      Option.Rel Shows after (throughMapping found change next).2 := by
  cases shown with
  | none => exact ⟨none, rfl, .none⟩
  | @some image file shown =>
    have length := shown.length
    by_cases long : headerSize < image.length
    · have fits : headerSize < file.length := length ▸ long
      refine ⟨some (write image), ?_, ?_⟩
      · simp only [throughImage, throughMapping, if_pos long, if_pos fits]
      · simp only [throughMapping, if_pos fits]
        exact .some (same image file shown long)
    · have short : ¬ headerSize < file.length := length ▸ long
      refine ⟨some image, ?_, ?_⟩
      · simp only [throughImage, throughMapping, if_neg long, if_neg short]
        rfl
      · simp only [throughMapping, if_neg short]
        exact .some shown

namespace Opening
variable {o : Opening}

theorem step_validate (point : o.next = .validateDbHeader) (free : Bool) (file : Option (DbFile γ)) :
    (o.step free file).1.toBytes = o.validated ((validateDbHeader o.args.fpath o.args.environment file).mapError SystemError.bytes) ∧
      (o.step free file).2 = file := by
  simp only [step, point]
  cases validateDbHeader o.args.fpath o.args.environment file with
  | error error => exact ⟨rfl, rfl⟩
  | ok clean =>
    cases clean with
    | true => exact ⟨rfl, rfl⟩
    | false =>
      simp only [Except.mapError, validated]
      cases o.dirtyOutcome <;> exact ⟨rfl, rfl⟩

private theorem stepImage_through {free : Bool} {memory : List UInt8} {write : List UInt8 → List UInt8}
    {change : DbFile γ → DbFile γ} (shown : Option.Rel Shows before found) (next : Stepped)
    (same : ∀ image file, Shows image file → headerSize < image.length → Shows (write image) (change file))
    (steps : o.stepImage free memory before = some (throughImage before write next.toBytes))
    (stepped : o.step free found = throughMapping found change next) :
    ∃ after, o.stepImage free memory before = some ((o.step free found).1.toBytes, after) ∧
      Option.Rel Shows after (o.step free found).2 := by
  obtain ⟨after, wrote, still⟩ := throughImage_shows shown next same
  rw [steps, stepped]
  exact ⟨after, congrArg some wrote, still⟩

theorem stepImage_shows (o : Opening) (built : o.args.environment.Built) (free : Bool) (memory : List UInt8)
    (shown : Option.Rel Shows before found) :
    ∃ after, o.stepImage free memory before = some ((o.step free found).1.toBytes, after) ∧ Option.Rel Shows after (o.step free found).2 := by
  have wide : 276 ≤ o.size := (by decide : 276 ≤ headerSize).trans (Nat.le_of_lt o.headerSize_lt_size)
  have present : before.isNone = found.isNone ∧ before.isSome = found.isSome := by cases shown <;> exact ⟨rfl, rfl⟩
  cases point : o.next with
  | «exists» =>
    refine ⟨before, ?_, ?_⟩
    · simp only [stepImage, step, point, present]
      split
      · rw [← SystemError.bytes_throwError]
        rfl
      · split <;> rfl
    · simp only [step, point]
      split
      · exact shown
      · split <;> exact shown
  | validateDbHeader =>
    obtain ⟨stepped, same⟩ := step_validate point free found
    refine ⟨before, ?_, by rw [same]; exact shown⟩
    simp only [stepImage, point, validateImage_shows shown o.args.fpath built, Option.map_some, stepped]
  | touch =>
    refine ⟨some [], ?_, ?_⟩
    · simp only [stepImage, step, point]
      rfl
    · simp only [step, point]
      exact .some shows_truncated
  | resizeNew | resizeOld =>
    refine ⟨before.map (resizeImage · o.size), ?_, ?_⟩
    · simp only [stepImage, step, point]
      rfl
    · simp only [step, point]
      exact resizeImage_shows shown wide
  | mapNew | mapOld | mapReadOnly =>
    refine ⟨before, ?_, ?_⟩
    · simp only [stepImage, step, point]
      rfl
    · simp only [step, point]
      exact shown
  | fileSize =>
    have length : (before.map List.length).getD 0 = (found.map DbFile.length).getD 0 := by
      cases shown with
      | none => rfl
      | some shown => exact shown.length
    refine ⟨before, ?_, ?_⟩
    · simp only [stepImage, step, point, length]
      split <;> rfl
    · simp only [step, point]
      split <;> exact shown
  | constructSegment =>
    refine stepImage_through shown (.running { o with next := .writeHeader })
      (fun image file shown _ => shown.writeSegment memory (SegmentManager.construct (o.size - headerSize))) ?_ ?_
    · simp only [stepImage, point]
      rfl
    · simp only [step, point]
  | growSegment =>
    refine stepImage_through shown (.running { o with next := .tryLock })
      (fun image file shown _ => shown.writeSegment memory (SegmentManager.grow file.segment o.grow)) ?_ ?_
    · simp only [stepImage, point]
      rfl
    · simp only [step, point]
  | writeHeader =>
    refine stepImage_through shown (.running { o with next := .tryLock })
      (fun image file shown long => shown.writeHeader long built) ?_ ?_
    · simp only [stepImage, point]
      rfl
    · simp only [step, point]
  | tryLock =>
    refine ⟨before, ?_, ?_⟩
    · simp only [stepImage, step, point]
      split
      · rfl
      · rw [← SystemError.bytes_throwError]
        rfl
    · simp only [step, point]
      split <;> exact shown
  | dirty =>
    refine stepImage_through shown (.opened o) (fun image file shown long => shown.mark long true) ?_ ?_
    · simp only [stepImage, point]
      rfl
    · simp only [step, point]

end Opening

end

/-! ## The processes -/

/-- The bytes of the file, and every handle with the process it belongs to. -/
structure ImageWorld where
  file : Option (List UInt8)
  handles : List (Nat × Handle)

namespace ImageWorld

def put (w : ImageWorld) (handle process : Nat) (state : Handle) : ImageWorld :=
  { w with handles := w.handles.set handle (process, state) }

def crash (w : ImageWorld) (process : Nat) : ImageWorld :=
  { w with handles := w.handles.map fun (owner, state) => (owner, if owner = process then .gone else state) }

def lockedByOther (w : ImageWorld) (process : Nat) : Bool :=
  w.handles.any fun (owner, state) => owner ≠ process && state.locks

def conclude (w : ImageWorld) (handle process : Nat) : ByteStepped → Option ByteError × ImageWorld
  | .running later => (none, w.put handle process (.opening later))
  | .opened later => (none, w.put handle process (.opened later))
  | .threw error => (some error, w.put handle process .gone)
  | .killed => (none, w.crash process)

def destroy (w : ImageWorld) (handle process : Nat) (o : Opening) : ImageWorld :=
  if o.writable then
    match throughImage w.file (markImage false) (.opened o) with
    | (.killed, file) => { w with file }.crash process
    | (_, file) => { w with file }.put handle process .gone
  else w.put handle process .gone

/-- One event, with the bytes that are written behind the header in it. There is no result
where a constructor reads on behind the header it has in memory. -/
def step {γ : Type} (w : ImageWorld) (event : Event γ × List UInt8) : Option (Option ByteError × ImageWorld) :=
  match event.1 with
  | .start process args => some (none, { w with handles := w.handles ++ [(process, .opening (.begin args))] })
  | .advance handle =>
    match w.handles[handle]? with
    | some (process, .opening o) =>
      (o.stepImage (!w.lockedByOther process) event.2 w.file).map fun result =>
        { w with file := result.2 }.conclude handle process result.1
    | _ => some (none, w)
  | .interrupt handle =>
    match w.handles[handle]? with
    | some (process, .opening _) => some (none, w.put handle process .gone)
    | _ => some (none, w)
  | .close handle =>
    match w.handles[handle]? with
    | some (process, .opened o) => some (none, w.destroy handle process o)
    | _ => some (none, w)
  | .crash process => some (none, w.crash process)
  | .write handle _ =>
    match w.handles[handle]? with
    | some (_, .opened o) =>
      some (none, if o.writable then { w with file := w.file.map (writeAt headerSize event.2) } else w)
    | _ => some (none, w)

end ImageWorld

def Handle.Built : Handle → Prop
  | .opening o | .opened o => o.args.environment.Built
  | .gone => True

/-- Databases are opened by programs that have been built. -/
def Event.Built {γ : Type} : Event γ → Prop
  | .start _ args => args.environment.Built
  | _ => True

namespace World
variable {γ : Type} [SegmentManager γ] {world : World γ}

theorem built_step (sound : world.Sound) (built : ∀ process state, (process, state) ∈ world.handles → state.Built) (event : Event γ)
    (starts : event.Built) : ∀ process state, (process, state) ∈ (world.step event).2.handles → state.Built := by
  have unchanged {q : Nat} {k : Handle} (either : (q, k) ∈ world.handles ∨ k = .gone) : k.Built := by
    rcases either with old | rfl
    · exact built q k old
    · trivial
  intro q k member
  cases event with
  | start process args =>
    rcases List.mem_append.mp member with old | new
    · exact built q k old
    · rw [List.mem_singleton] at new
      cases new
      exact starts
  | advance handle =>
    simp only [World.step] at member
    split at member
    · rename_i process o found
      have there := List.mem_of_getElem? found
      rcases mem_conclude member with old | rfl | ⟨-, rfl⟩
      · exact built q k old
      · trivial
      · have own : o.args.environment.Built := built process _ there
        cases ran : (o.step (!world.lockedByOther process) world.file).1 with
        | running later =>
          have same := (Opening.step_running (sound.sane process _ there) ran).args
          show later.args.environment.Built
          rw [same]
          exact own
        | opened later =>
          obtain ⟨rfl, -⟩ := Opening.step_opened ran
          exact own
        | threw error | killed => trivial
    · exact built q k member
  | interrupt handle =>
    simp only [World.step] at member
    split at member
    · exact unchanged ((mem_put member).imp_right And.right)
    · exact built q k member
  | close handle =>
    simp only [World.step] at member
    split at member
    · exact unchanged (mem_destroy member)
    · exact built q k member
  | crash process => exact unchanged (mem_crash member)
  | write handle segment =>
    simp only [World.step] at member
    split at member
    · split at member <;> exact built q k member
    · exact built q k member

end World

namespace ImageWorld
variable {γ : Type} {w : ImageWorld} {world : World γ}

/-- The file shows what the header's members are, and the handles are the same. -/
structure Depicts (w : ImageWorld) (world : World γ) : Prop where
  file : Option.Rel Shows w.file world.file
  handles : w.handles = world.handles

theorem Depicts.put (depicts : w.Depicts world) (handle process : Nat) (state : Handle) :
    (w.put handle process state).Depicts (world.put handle process state) :=
  ⟨depicts.file, by rw [ImageWorld.put, World.put, depicts.handles]⟩

theorem Depicts.crash (depicts : w.Depicts world) (process : Nat) : (w.crash process).Depicts (world.crash process) :=
  ⟨depicts.file, by rw [ImageWorld.crash, World.crash, depicts.handles]⟩

theorem Depicts.lockedByOther (depicts : w.Depicts world) (process : Nat) : w.lockedByOther process = world.lockedByOther process := by
  rw [ImageWorld.lockedByOther, World.lockedByOther, depicts.handles]

theorem Depicts.conclude (depicts : w.Depicts world) (handle process : Nat) (stepped : Stepped) :
    (w.conclude handle process stepped.toBytes).1 = (world.conclude handle process stepped).1.map SystemError.bytes ∧
      (w.conclude handle process stepped.toBytes).2.Depicts (world.conclude handle process stepped).2 := by
  cases stepped with
  | running later => exact ⟨rfl, depicts.put handle process _⟩
  | opened later => exact ⟨rfl, depicts.put handle process _⟩
  | threw error => exact ⟨rfl, depicts.put handle process _⟩
  | killed => exact ⟨rfl, depicts.crash process⟩

theorem Depicts.destroy (depicts : w.Depicts world) (handle process : Nat) (o : Opening) :
    (w.destroy handle process o).Depicts (world.destroy handle process o) := by
  unfold ImageWorld.destroy World.destroy
  split
  · obtain ⟨after, wrote, still⟩ := throughImage_shows depicts.file (.opened o) fun image file shown long => shown.mark long false
    have marked : throughImage w.file (markImage false) (.opened o) = _ := wrote
    rw [marked]
    cases ended : throughMapping world.file (·.setDirty false) (.opened o) with
    | mk stepped file =>
      rw [ended] at still
      have both : ImageWorld.Depicts ⟨after, w.handles⟩ (⟨file, world.handles⟩ : World γ) := ⟨still, depicts.handles⟩
      cases stepped with
      | killed => exact both.crash process
      | running later => exact both.put handle process .gone
      | opened later => exact both.put handle process .gone
      | threw error => exact both.put handle process .gone
  · exact depicts.put handle process .gone

variable [SegmentManager γ]

theorem Depicts.step (depicts : w.Depicts world) (built : ∀ process state, (process, state) ∈ world.handles → state.Built)
    (event : Event γ × List UInt8) : ∃ after, ImageWorld.step w event = some ((world.step event.1).1.map SystemError.bytes, after) ∧
      after.Depicts (world.step event.1).2 := by
  obtain ⟨event, memory⟩ := event
  cases event with
  | start process args =>
    refine ⟨{ w with handles := w.handles ++ [(process, .opening (.begin args))] }, rfl, depicts.file, ?_⟩
    exact congrArg (· ++ [(process, Handle.opening (.begin args))]) depicts.handles
  | advance handle =>
    rcases found : world.handles[handle]? with _ | ⟨process, o | o | _⟩ <;>
      simp only [ImageWorld.step, World.step, depicts.handles, found]
    case advance.some.opening =>
      have own : o.args.environment.Built := built process _ (List.mem_of_getElem? found)
      obtain ⟨after, stepped, still⟩ := o.stepImage_shows own (!world.lockedByOther process) memory depicts.file
      have both : ImageWorld.Depicts ⟨after, world.handles⟩ { world with file := (o.step (!world.lockedByOther process) world.file).2 } :=
        ⟨still, rfl⟩
      obtain ⟨thrown, concluded⟩ := both.conclude handle process (o.step (!world.lockedByOther process) world.file).1
      refine ⟨_, ?_, concluded⟩
      rw [depicts.lockedByOther, stepped, Option.map_some, ← thrown]
    all_goals exact ⟨w, rfl, depicts⟩
  | interrupt handle =>
    rcases found : world.handles[handle]? with _ | ⟨process, o | o | _⟩ <;>
      simp only [ImageWorld.step, World.step, depicts.handles, found]
    case interrupt.some.opening => exact ⟨_, rfl, depicts.put handle process .gone⟩
    all_goals exact ⟨w, rfl, depicts⟩
  | close handle =>
    rcases found : world.handles[handle]? with _ | ⟨process, o | o | _⟩ <;>
      simp only [ImageWorld.step, World.step, depicts.handles, found]
    case close.some.opened => exact ⟨_, rfl, depicts.destroy handle process o⟩
    all_goals exact ⟨w, rfl, depicts⟩
  | crash process => exact ⟨_, rfl, depicts.crash process⟩
  | write handle segment =>
    rcases found : world.handles[handle]? with _ | ⟨process, o | o | _⟩ <;>
      simp only [ImageWorld.step, World.step, depicts.handles, found]
    case write.some.opened =>
      split
      · refine ⟨_, rfl, ?_, rfl⟩
        have file := depicts.file
        cases before : w.file <;> cases members : world.file <;> rw [before, members] at file
        · exact .none
        · cases file
        · cases file
        · cases file with
          | some shown => exact .some (shown.writeSegment memory segment)
      · exact ⟨w, rfl, depicts⟩
    all_goals exact ⟨w, rfl, depicts⟩

/-- Processes that open, write, close and crash on the bytes of a file do what they do on the
members of its header: every constructor goes the same way and throws the same text, none
reads behind the header it has in memory, and the bytes stay those of the members. -/
theorem bytes_follow_header (image : Option (List UInt8)) (file : Option (DbFile γ)) (shown : Option.Rel Shows image file)
    (events : List (Event γ × List UInt8)) (built : ∀ event ∈ events, event.1.Built) :
    let world := World.run ⟨file, []⟩ (events.map Prod.fst)
    ∃ final, Run.run step ⟨image, []⟩ events =
        some ((Run.follow World.step ⟨file, []⟩ (events.map Prod.fst)).1.map (Option.map SystemError.bytes), final) ∧
      final.handles = world.handles ∧ Option.Rel Shows final.file world.file := by
  let spec (world : World γ) (event : Event γ × List UInt8) : Option ByteError × World γ :=
    ((world.step event.1).1.map SystemError.bytes, (world.step event.1).2)
  let agrees (w : ImageWorld) (world : World γ) : Prop :=
    w.Depicts world ∧ world.Sound ∧ ∀ process state, (process, state) ∈ world.handles → state.Built
  have start : agrees ⟨image, []⟩ ⟨file, []⟩ := ⟨⟨shown, rfl⟩, World.sound_closed file, by simp⟩
  have same : Run.follow spec ⟨file, []⟩ events =
      ((Run.follow World.step ⟨file, []⟩ (events.map Prod.fst)).1.map (Option.map SystemError.bytes),
        World.run ⟨file, []⟩ (events.map Prod.fst)) := Run.follow_map (fun _ _ => rfl) _ events
  obtain ⟨final, ran, depicts, -⟩ : ∃ final, Run.run step ⟨image, []⟩ events = some ((Run.follow spec ⟨file, []⟩ events).1, final) ∧
      agrees final (Run.follow spec ⟨file, []⟩ events).2 := by
    have permitted : Run.Permitted step (fun _ event => event.1.Built) ⟨image, []⟩ events :=
      Run.permitted_of_forall (fun event member _ => built event member) _
    refine Run.simulates (fun w world event agreed starts => ?_) start permitted
    obtain ⟨depicts, sound, all⟩ := agreed
    obtain ⟨after, stepped, still⟩ := depicts.step all event
    exact ⟨after, stepped, still, sound.step event.1, World.built_step sound all event.1 starts⟩
  rw [same] at ran depicts
  exact ⟨final, ran, depicts.handles, depicts.file⟩

/-- A process makes the file and closes it, another one enlarges it and is lost, and one of
a debug build is told by the bytes that it is not of the same build. -/
theorem bytes_follow_header_books :
    let debug : Environment := { Environment.zeroed with debug := true }
    let calls : List (Event BareSegment) :=
      .start 1 (World.booksArgs 0 .fail) :: World.advances 8 0 ++ [.write 0 ⟨3072⟩, .close 0, .start 2 (World.booksArgs 8192 .fail)] ++
        World.advances 7 1 ++ .crash 2 :: .start 3 { World.booksArgs 0 .fail with environment := debug } :: World.advances 2 2
    let events : List (Event BareSegment × List UInt8) := calls.map fun event => (event, [1, 2, 3])
    let world := World.run ⟨none, []⟩ (events.map Prod.fst)
    ∃ final, Run.run step ⟨none, []⟩ events =
        some ((Run.follow World.step ⟨none, []⟩ (events.map Prod.fst)).1.map (Option.map SystemError.bytes), final) ∧
      final.handles = world.handles ∧ Option.Rel Shows final.file world.file := by
  intro debug calls events
  have built : ∀ event ∈ events, event.1.Built := by
    have zeroed : Environment.zeroed.Built := by decide
    have other : debug.Built := by decide
    simp [events, calls, World.advances, Event.Built, World.booksArgs, zeroed, other]
  exact bytes_follow_header none none .none events built

end ImageWorld

end ChainBase
