import ChainBase.Container.RevisionRange

/-! Session handles of any number of containers. A handle refers to one container for
good, but move assignment gives it a level that may have been started on another. -/

namespace ChainBase

/-- `session`, with the container on which the level it owns was started. -/
structure Session where
  index : Nat
  apply : Bool
  started : Nat
deriving DecidableEq, Repr

/-- Calls of numbered containers and handles. A handle that is constructed is a new one. -/
inductive HandleOp (T : Type) where
  | emplace (container : Nat) (constructor : Nat → Option T)
  | modify (container id : Nat) (modifier : T → T × Bool)
  | remove (container id : Nat)
  | startUndoSession (container : Nat)
  | moveConstruct (source : Nat)
  | moveAssign (target source : Nat)
  | push (handle : Nat)
  | squash (handle : Nat)
  | undo (handle : Nat)
  | destroy (handle : Nat)

/-- The containers, the handles, of which those destroyed are `none`, and how many levels
of a container have been pushed. -/
structure SessionHandles (T : Type) where
  containers : Nat → UndoMultiIndex T
  sessions : List (Option Session)
  pushed : Nat → Nat

namespace UndoMultiIndex
variable {T : Type} [Object T] {s after : UndoMultiIndex T}

omit [Object T] in
theorem closed_depth (gone : after.counters = closed s.counters) : after.depth = s.depth - 1 := by
  rw [counters, counters, closed_eq] at gone
  exact (Prod.mk.inj gone).1

theorem undo_depth (ran : s.undo = some after) : after.depth = s.depth - 1 := closed_depth (undo_counters ran)

theorem squash_depth (ran : s.squash = some after) : after.depth = s.depth - 1 := closed_depth (squash_counters ran)

theorem data_depth {op : UndoOp T} {reply : Reply} (ran : UndoOp.step s op = some (reply, after))
    (data : (∃ constructor, op = .emplace constructor) ∨ (∃ id modifier, op = .modify id modifier) ∨ ∃ id, op = .remove id) :
    after.depth = s.depth := by
  rcases data with ⟨constructor, rfl⟩ | ⟨id, modifier, rfl⟩ | ⟨id, rfl⟩
  · cases UndoOp.performs ran with
    | emplace => exact congrArg Prod.fst (emplace_counters s constructor)
  · cases UndoOp.performs ran with
    | modify found modified => exact congrArg Prod.fst (modify_counters modified)
    | modifyMissing => rfl
  · cases UndoOp.performs ran with
    | remove found => exact congrArg Prod.fst (remove_counters s _)
    | removeMissing => rfl

end UndoMultiIndex

namespace SessionHandles
variable {T : Type} [Object T]

def start (containers : Nat → UndoMultiIndex T) : SessionHandles T := ⟨containers, [], fun _ => 0⟩

def live (s : SessionHandles T) (handle : Nat) : Option Session := (s.sessions[handle]?).join

def put (s : SessionHandles T) (handle : Nat) (session : Option Session) : SessionHandles T :=
  { s with sessions := s.sessions.set handle session }

/-- `if (_apply) _index.undo(); _apply = false;`, and the same with `squash`. -/
def finish (s : SessionHandles T) (handle : Nat) (session : Session)
    (ending : UndoMultiIndex T → Option (UndoMultiIndex T)) : Option (SessionHandles T) :=
  (if session.apply then ending (s.containers session.index) else some (s.containers session.index)).map fun ended =>
    { s with containers := Function.update s.containers session.index ended }.put handle
      (some { session with apply := false })

def onContainer (s : SessionHandles T) (container : Nat) (op : UndoOp T) : Option (Reply × SessionHandles T) := do
  let (reply, after) ← UndoOp.step (s.containers container) op
  some (reply, { s with containers := Function.update s.containers container after })

def step (s : SessionHandles T) : HandleOp T → Option (Reply × SessionHandles T)
  | .emplace container constructor => s.onContainer container (.emplace constructor)
  | .modify container id modifier => s.onContainer container (.modify id modifier)
  | .remove container id => s.onContainer container (.remove id)
  | .startUndoSession container => do
    let (_, started) ← s.onContainer container .startUndo
    some (.returned, { started with sessions := s.sessions ++ [some ⟨container, true, container⟩] })
  | .moveConstruct source => do
    let other ← s.live source
    let left := s.put source (some { other with apply := false })
    some (.returned, { left with sessions := left.sessions ++ [some other] })
  | .moveAssign target source => do
    let self ← s.live target
    let other ← s.live source
    if target = source then some (.returned, s)
    else
      let ended ← s.finish target self UndoMultiIndex.undo
      some (.returned, (ended.put source (some { other with apply := false })).put target
        (some { self with apply := other.apply, started := other.started }))
  | .push handle => do
    let session ← s.live handle
    let pushed := if session.apply then Function.update s.pushed session.started (s.pushed session.started + 1) else s.pushed
    some (.returned, { s with pushed }.put handle (some { session with apply := false }))
  | .squash handle => do
    let session ← s.live handle
    let ended ← s.finish handle session UndoMultiIndex.squash
    some (.returned, ended)
  | .undo handle => do
    let session ← s.live handle
    let ended ← s.finish handle session UndoMultiIndex.undo
    some (.returned, ended)
  | .destroy handle => do
    let session ← s.live handle
    let ended ← s.finish handle session UndoMultiIndex.undo
    some (.returned, ended.put handle none)

/-- The session owns a level that was started on the container. -/
def owns (container : Nat) : Option Session → Bool
  | some session => session.apply && session.started = container
  | none => false

def owners (s : SessionHandles T) (container : Nat) : Nat := s.sessions.countP (owns container)

/-- Every level above those at the beginning has been pushed or has an owner. -/
def Even (initial : Nat → UndoMultiIndex T) (s : SessionHandles T) : Prop :=
  ∀ c, (s.containers c).depth = (initial c).depth + s.pushed c + s.owners c

/-- The levels add up at every point, and without the owned ones when all handles are gone. -/
def Balanced (initial : Nat → UndoMultiIndex T) (ops : List (HandleOp T)) : Prop :=
  ∀ front back, ops = front ++ back → ∀ outputs s, Run.run step (start initial) front = some (outputs, s) →
    s.Even initial ∧
    ((∀ session ∈ s.sessions, session = none) → ∀ c, (s.containers c).depth = (initial c).depth + s.pushed c)

/-- A handle that owns a level refers to the container on which it was started. -/
def AtHome (s : SessionHandles T) (handle : Nat) : Prop :=
  ∀ session, s.live handle = some session → session.apply = true → session.index = session.started

/-- The handle that ends a level is at home: one that has been given a level of another
container by move assignment does nothing but push it or pass it on. -/
def EndsAtHome (s : SessionHandles T) : HandleOp T → Prop
  | .squash handle | .undo handle | .destroy handle => s.AtHome handle
  | .moveAssign target source => target = source ∨ s.AtHome target
  | _ => True

instance (s : SessionHandles T) (handle : Nat) : Decidable (s.AtHome handle) :=
  inferInstanceAs (Decidable (∀ session ∈ s.live handle, session.apply = true → session.index = session.started))

instance (s : SessionHandles T) : ∀ op, Decidable (s.EndsAtHome op)
  | .squash handle | .undo handle | .destroy handle => inferInstanceAs (Decidable (s.AtHome handle))
  | .moveAssign target source => inferInstanceAs (Decidable (target = source ∨ s.AtHome target))
  | .emplace _ _ | .modify _ _ _ | .remove _ _ | .startUndoSession _ | .moveConstruct _ | .push _ => .isTrue trivial

variable {initial : Nat → UndoMultiIndex T} {s after : SessionHandles T}

omit [Object T] in
theorem live_mem {handle : Nat} {session : Session} (live : s.live handle = some session) :
    s.sessions[handle]? = some (some session) := Option.join_eq_some_iff.mp live

omit [Object T] in
theorem owners_put {handle : Nat} {old : Option Session} (found : s.sessions[handle]? = some old) (new : Option Session)
    (c : Nat) : (s.put handle new).owners c + (owns c old).toNat = s.owners c + (owns c new).toNat := by
  obtain ⟨inside, rfl⟩ := List.getElem?_eq_some_iff.mp found
  have counted := List.boole_getElem_le_countP (p := owns c) inside
  simp only [put, owners, List.countP_set inside]
  cases old : owns c s.sessions[handle] <;> cases new : owns c new <;>
    simp only [old, Bool.toNat_false, Bool.toNat_true, if_true, Bool.false_eq_true, if_false] at counted ⊢ <;> omega

omit [Object T] in
theorem owners_release {handle : Nat} {session : Session} (live : s.live handle = some session) (c : Nat) :
    (s.put handle (some { session with apply := false })).owners c + (owns c (some session)).toNat = s.owners c := by
  simpa [owns] using owners_put (live_mem live) (some { session with apply := false }) c

omit [Object T] in
theorem even_start (initial : Nat → UndoMultiIndex T) : (start initial).Even initial := fun c => by simp [start, owners]

omit [Object T] in
theorem owned {handle : Nat} {session : Session} (live : s.live handle = some session) (applies : session.apply = true) :
    0 < s.owners session.started :=
  List.countP_pos_iff.mpr ⟨_, List.mem_of_getElem? (live_mem live), by simp [owns, applies]⟩

omit [Object T] in
theorem finish_counts {handle : Nat} {session : Session} {ending : UndoMultiIndex T → Option (UndoMultiIndex T)}
    (pops : ∀ t u, ending t = some u → u.depth = t.depth - 1) (live : s.live handle = some session)
    (ran : s.finish handle session ending = some after) :
    after.pushed = s.pushed ∧
    (∀ c, (after.containers c).depth =
      (s.containers c).depth - if session.apply = true ∧ c = session.index then 1 else 0) ∧
    ∀ c, after.owners c + (owns c (some session)).toNat = s.owners c := by
  obtain ⟨ended, popped, rfl⟩ := Option.map_eq_some_iff.mp ran
  refine ⟨rfl, fun c => ?_, fun c => owners_release live c⟩
  by_cases here : c = session.index
  · subst here
    simp only [put, Function.update_self, and_true]
    split at popped
    · rename_i applies
      rw [if_pos applies, pops _ _ popped]
    · rename_i spent
      cases popped
      rw [if_neg spent, Nat.sub_zero]
  · simp [put, here]

omit [Object T] in
theorem Even.finish (even : s.Even initial) {handle : Nat} {session : Session}
    {ending : UndoMultiIndex T → Option (UndoMultiIndex T)} (pops : ∀ t u, ending t = some u → u.depth = t.depth - 1)
    (live : s.live handle = some session) (ran : s.finish handle session ending = some after) :
    after.Even initial ↔ s.AtHome handle := by
  obtain ⟨pushed, depths, counts⟩ := finish_counts pops live ran
  constructor
  · intro still other found applies
    rw [live] at found
    cases found
    by_contra away
    have before := even session.started
    have later := still session.started
    have gone := counts session.started
    have lost : (owns session.started (some session)).toNat = 1 := by simp [owns, applies]
    rw [pushed, depths, if_neg (by simp [Ne.symm away])] at later
    omega
  · intro home c
    have before := even c
    have gone := counts c
    rw [pushed, depths]
    by_cases applies : session.apply = true
    · have here := home session live applies
      by_cases same : c = session.index
      · have lost : (owns c (some session)).toNat = 1 := by simp [owns, applies, same, here]
        rw [if_pos ⟨applies, same⟩]
        omega
      · have kept : (owns c (some session)).toNat = 0 := by simp [owns, ← here, Ne.symm same]
        rw [if_neg (by simp [same])]
        omega
    · have kept : (owns c (some session)).toNat = 0 := by simp [owns, applies]
      rw [if_neg (by simp [applies])]
      omega

omit [Object T] in
theorem even_congr (s : SessionHandles T) {sessions : List (Option Session)}
    (owners : ∀ c, sessions.countP (owns c) = s.owners c) : ({ s with sessions }).Even initial ↔ s.Even initial := by
  simp only [Even, SessionHandles.owners, owners]

theorem Even.onContainer (even : s.Even initial) {container : Nat} {op : UndoOp T} {reply : Reply}
    (data : (∃ constructor, op = .emplace constructor) ∨ (∃ id modifier, op = .modify id modifier) ∨ ∃ id, op = .remove id)
    (ran : s.onContainer container op = some (reply, after)) : after.Even initial := by
  simp only [SessionHandles.onContainer, Option.bind_eq_bind, Option.bind_eq_some_iff] at ran
  obtain ⟨⟨answer, result⟩, called, same⟩ := ran
  cases same
  intro c
  have depth : (Function.update s.containers container result c).depth = (s.containers c).depth := by
    by_cases here : c = container
    · subst here
      rw [Function.update_self, UndoMultiIndex.data_depth called data]
    · rw [Function.update_of_ne here]
  exact depth.trans (even c)

omit [Object T] in
theorem owners_handOver {target source : Nat} {self other : Session} (apart : target ≠ source)
    (spent : s.sessions[target]? = some (some { self with apply := false })) (live : s.live source = some other) (c : Nat) :
    ((s.put source (some { other with apply := false })).put target
      (some { self with apply := other.apply, started := other.started })).owners c = s.owners c := by
  have released := owners_release live c
  have kept : (s.put source (some { other with apply := false })).sessions[target]? = some (some { self with apply := false }) := by
    rw [put, List.getElem?_set_ne (Ne.symm apart), spent]
  have taken := owners_put kept (some { self with apply := other.apply, started := other.started }) c
  simp only [owns, Bool.false_and, Bool.toNat_false] at taken released
  omega

omit [Object T] in
theorem finish_spent {handle : Nat} {session : Session} {ending : UndoMultiIndex T → Option (UndoMultiIndex T)}
    (live : s.live handle = some session) (ran : s.finish handle session ending = some after) :
    after.sessions[handle]? = some (some { session with apply := false }) ∧
      ∀ other, other ≠ handle → after.live other = s.live other := by
  obtain ⟨ended, -, rfl⟩ := Option.map_eq_some_iff.mp ran
  refine ⟨?_, fun other apart => ?_⟩
  · simp [put, (List.getElem?_eq_some_iff.mp (live_mem live)).1]
  · simp [SessionHandles.live, put, List.getElem?_set_ne (Ne.symm apart)]

omit [Object T] in
theorem Even.started (even : s.Even initial) (container : Nat) :
    ({ s with
      containers := Function.update s.containers container (s.containers container).startUndo.2
      sessions := s.sessions ++ [some (⟨container, true, container⟩ : Session)] }).Even initial := by
  intro c
  have before := even c
  simp only [owners, List.countP_append, List.countP_singleton] at before ⊢
  by_cases here : c = container
  · subst here
    simp only [UndoMultiIndex.depth, UndoMultiIndex.startUndo, Function.update_self, List.length_cons, owns, decide_true,
      Bool.and_self, if_true] at before ⊢
    omega
  · simpa [Function.update_of_ne here, owns, Ne.symm here] using before

omit [Object T] in
theorem Even.pushed (even : s.Even initial) {handle : Nat} {session : Session} (live : s.live handle = some session) :
    ({ s with
      pushed := if session.apply then Function.update s.pushed session.started (s.pushed session.started + 1) else s.pushed
      }.put handle (some { session with apply := false })).Even initial := by
  intro c
  have before := even c
  have released := owners_release live c
  change (s.containers c).depth = (initial c).depth + (if session.apply then _ else s.pushed) c +
    (s.put handle (some { session with apply := false })).owners c
  by_cases applies : session.apply = true
  · rw [if_pos applies]
    by_cases here : c = session.started
    · subst here
      simp only [owns, applies, decide_true, Bool.and_self, Bool.toNat_true] at released
      rw [Function.update_self]
      omega
    · simp only [owns, Ne.symm here, decide_false, Bool.and_false, Bool.toNat_false] at released
      rw [Function.update_of_ne here]
      omega
  · simp only [owns, applies, Bool.false_and, Bool.toNat_false] at released
    rw [if_neg applies]
    omega

/-- One call keeps the levels even exactly if the handle that ends a level is at home. -/
theorem Even.step (even : s.Even initial) {op : HandleOp T} {reply : Reply} (ran : s.step op = some (reply, after)) :
    after.Even initial ↔ s.EndsAtHome op := by
  cases op with
  | emplace container constructor => exact iff_of_true (even.onContainer (.inl ⟨constructor, rfl⟩) ran) trivial
  | modify container id modifier => exact iff_of_true (even.onContainer (.inr (.inl ⟨id, modifier, rfl⟩)) ran) trivial
  | remove container id => exact iff_of_true (even.onContainer (.inr (.inr ⟨id, rfl⟩)) ran) trivial
  | startUndoSession container =>
    simp only [SessionHandles.step, SessionHandles.onContainer, UndoOp.step, Option.bind_eq_bind, Option.bind_some,
      Option.some.injEq, Prod.mk.injEq] at ran
    obtain ⟨-, rfl⟩ := ran
    exact iff_of_true (even.started container) trivial
  | moveConstruct source =>
    simp only [SessionHandles.step, Option.bind_eq_bind, Option.bind_eq_some_iff] at ran
    obtain ⟨other, live, same⟩ := ran
    cases same
    refine iff_of_true ((even_congr s fun c => ?_).mpr even) trivial
    have released := owners_release live c
    simp only [owners, List.countP_append, List.countP_singleton] at released ⊢
    cases owned : owns c (some other) <;> simp only [owned, Bool.toNat_true, Bool.toNat_false] at released ⊢ <;> simpa using released
  | moveAssign target source =>
    simp only [SessionHandles.step, Option.bind_eq_bind, Option.bind_eq_some_iff] at ran
    obtain ⟨self, live, other, present, assigned⟩ := ran
    split at assigned
    · rename_i same
      cases assigned
      exact iff_of_true even (.inl same)
    · rename_i apart
      obtain ⟨ended, finished, same⟩ := Option.bind_eq_some_iff.mp assigned
      cases same
      obtain ⟨spent, others⟩ := finish_spent live finished
      have handed := owners_handOver apart spent ((others source (Ne.symm apart)).trans present)
      refine (even_congr ended handed).trans ?_
      rw [even.finish (fun _ _ => UndoMultiIndex.undo_depth) live finished]
      simp [EndsAtHome, apart]
  | push handle =>
    simp only [SessionHandles.step, Option.bind_eq_bind, Option.bind_eq_some_iff] at ran
    obtain ⟨session, live, same⟩ := ran
    cases same
    exact iff_of_true (even.pushed live) trivial
  | squash handle =>
    simp only [SessionHandles.step, Option.bind_eq_bind, Option.bind_eq_some_iff] at ran
    obtain ⟨session, live, ended, finished, same⟩ := ran
    cases same
    exact even.finish (fun _ _ => UndoMultiIndex.squash_depth) live finished
  | undo handle =>
    simp only [SessionHandles.step, Option.bind_eq_bind, Option.bind_eq_some_iff] at ran
    obtain ⟨session, live, ended, finished, same⟩ := ran
    cases same
    exact even.finish (fun _ _ => UndoMultiIndex.undo_depth) live finished
  | destroy handle =>
    simp only [SessionHandles.step, Option.bind_eq_bind, Option.bind_eq_some_iff] at ran
    obtain ⟨session, live, ended, finished, same⟩ := ran
    cases same
    refine (even_congr ended fun c => ?_).trans (even.finish (fun _ _ => UndoMultiIndex.undo_depth) live finished)
    have dropped := owners_put (finish_spent live finished).1 none c
    simp only [owns, Bool.false_and, Bool.toNat_false, Nat.add_zero] at dropped
    exact dropped

omit [Object T] in
theorem Even.settled (even : s.Even initial) (gone : ∀ session ∈ s.sessions, session = none) (c : Nat) :
    (s.containers c).depth = (initial c).depth + s.pushed c := by
  have none : s.owners c = 0 := List.countP_eq_zero.mpr fun session member => by simp [gone session member, owns]
  rw [even c, none, Nat.add_zero]

theorem Even.run (even : s.Even initial) {ops : List (HandleOp T)} (home : Run.Permitted SessionHandles.step EndsAtHome s ops)
    {outputs : List Reply} (ran : Run.run SessionHandles.step s ops = some (outputs, after)) : after.Even initial := by
  refine Run.invariant ?_ even home ran
  intro s op reply after still home ran
  exact (still.step ran).mpr home

theorem Even.home (even : s.Even initial) {ops : List (HandleOp T)} {outputs : List Reply}
    (ran : Run.run SessionHandles.step s ops = some (outputs, after))
    (still : ∀ front back, ops = front ++ back → ∀ outputs middle,
      Run.run SessionHandles.step s front = some (outputs, middle) → middle.Even initial) :
    Run.Permitted SessionHandles.step EndsAtHome s ops := by
  induction ops generalizing s outputs with
  | nil => trivial
  | cons op ops ih =>
    obtain ⟨reply, next, rest, first, others, -⟩ := Run.run_cons ran
    have kept := still [op] ops rfl [reply] next (Run.run_step first rfl)
    refine ⟨(even.step first).mp kept, fun output later same => ?_⟩
    rw [first] at same
    cases same
    exact ih kept others fun front back same outputs middle ran =>
      still (op :: front) back (by rw [same]; rfl) (reply :: outputs) middle (Run.run_step first ran)

/-- In every run the levels stay balanced exactly if the handles that end one are at home. -/
theorem sessions_balanced_iff (initial : Nat → UndoMultiIndex T) (ops : List (HandleOp T)) {outputs : List Reply}
    {last : SessionHandles T} (ran : Run.run step (start initial) ops = some (outputs, last)) :
    Balanced initial ops ↔ Run.Permitted step EndsAtHome (start initial) ops := by
  constructor
  · intro balanced
    exact (even_start initial).home ran fun front back same outputs middle ran => (balanced front back same outputs middle ran).1
  · rintro home front back rfl outputs middle ran
    have even := (even_start initial).run (by simpa using Run.permitted_take home front.length) ran
    exact ⟨even, even.settled⟩

/-- Two containers, and two sessions of each: one is pushed by the handle it has moved to,
one is undone when its handle is given another, which is squashed, and one is destroyed. -/
theorem sessions_balanced_books : Balanced (fun _ => UndoMultiIndex.empty bookKeys)
    [.startUndoSession 0, .emplace 0 fun id => some ⟨id, 1, 1⟩, .startUndoSession 1, .startUndoSession 1, .startUndoSession 0,
      .moveConstruct 1, .push 4, .moveAssign 0 3, .squash 0, .destroy 0, .destroy 3, .destroy 2] := by
  obtain ⟨result, ran⟩ := Option.isSome_iff_exists.mp (show (Run.run step (start fun _ => UndoMultiIndex.empty bookKeys)
    [.startUndoSession 0, .emplace 0 fun id => some ⟨id, 1, 1⟩, .startUndoSession 1, .startUndoSession 1, .startUndoSession 0,
      .moveConstruct 1, .push 4, .moveAssign 0 3, .squash 0, .destroy 0, .destroy 3, .destroy 2]).isSome by decide)
  exact (sessions_balanced_iff _ _ ran).mpr (by decide)

/-- A session is assigned to a handle of another container and undone there: its own
container keeps the level when every handle is gone. -/
theorem assigned_session_unbalanced : ¬ Balanced (fun _ => UndoMultiIndex.empty bookKeys)
    [.startUndoSession 0, .startUndoSession 1, .moveAssign 0 1, .destroy 1, .destroy 0] := by
  intro balanced
  have left : (Run.run step (start fun _ => UndoMultiIndex.empty bookKeys)
      [.startUndoSession 0, .startUndoSession 1, .moveAssign 0 1, .destroy 1, .destroy 0]).map
      (fun (_, last) => (last.sessions, (last.containers 1).depth, last.pushed 1)) = some ([none, none], 1, 0) := by
    decide
  obtain ⟨⟨outputs, last⟩, ran, same⟩ := Option.map_eq_some_iff.mp left
  simp only [Prod.mk.injEq] at same
  obtain ⟨sessions, depth, pushed⟩ := same
  have settled := (balanced _ [] (List.append_nil _).symm outputs last ran).2 (by simp [sessions]) 1
  rw [depth, pushed] at settled
  cases settled

end SessionHandles
end ChainBase
