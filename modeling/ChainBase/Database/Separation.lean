import ChainBase.Database.Containers
import ChainBase.Database.Durability
import Mathlib.Data.Fintype.Basic

/-! Any number of processes and any number of journaled containers. Every container is one
container through all of them, whatever is done with the others; but one that a process
leaves out which makes the database anew and closes it is lost. -/

namespace ChainBase
open Interleaving OrderedSequence

variable {γ κ : Type} [SegmentManager γ] [DecidableEq κ]

def Disks.of (disks : Disks γ) (name : List Char) : Disk γ := ⟨disks.file, disks.journals name⟩

/-- A process, and what it does with the containers. -/
structure Usage (c : κ → Member γ) where
  args : OpenArgs
  uses : List (Σ k, Use (c k).ι)
  ending : Ending γ

namespace Usage
variable {c : κ → Member γ}

def inputs (life : Usage c) (k : κ) : List (c k).ι := (only k life.uses).filterMap Use.input

def live (disks : Disks γ) (life : Usage c) : Option (Option (List (Σ k, Option (c k).ω)) × Disks γ) :=
  match Opening.construct life.args disks.file with
  | (.opened o, some file) =>
    match Run.run (OpenDatabase.step o) ⟨file.segment, fun _ => none, disks.journals⟩ life.uses with
    | some (outputs, last) =>
      some (some outputs, ⟨life.ending.left { file with segment := last.segment }, last.journals⟩)
    | none => none
  | (.threw _, file) => some (none, { disks with file })
  | _ => none

/-- What has been asked of a container by the processes whose constructor has returned. -/
def performed (k : κ) : List (Usage c) → List (Option (List (Σ k, Option (c k).ω))) → List (c k).ι
  | life :: lives, some _ :: outputs => life.inputs k ++ performed k lives outputs
  | _ :: lives, none :: outputs => performed k lives outputs
  | _, _ => []

def replies (k : κ) (outputs : List (Option (List (Σ k, Option (c k).ω)))) : List (c k).ω :=
  outputs.flatMap fun output => (only k (output.getD [])).filterMap id

def Allows (disks : Disks γ) (life : Usage c) : Prop :=
  Service.Careful life.args ⟨disks.file, none⟩ ∧
    ∀ k, (c k).Allows (disks.of (c k).service.name) life.args life.ending (only k life.uses)

def Completes (disks : Disks γ) (life : Usage c) (k : κ) : Prop :=
  (c k).Completes (disks.of (c k).service.name) life.args life.ending (only k life.uses)

def Permits (disks : Disks γ) (life : Usage c) : Prop := life.Allows disks ∧ ∀ k, life.Completes disks k

instance [Fintype κ] [∀ (k : κ) (s : (c k).σ) (ops : List (c k).ι), Decidable ((c k).permits s ops)]
    [∀ k : κ, DecidablePred (c k).service.codec.Storable]
    (disks : Disks γ) (life : Usage c) : Decidable (life.Allows disks) :=
  inferInstanceAs (Decidable (_ ∧ ∀ k, (c k).Allows _ _ _ _))

instance [Fintype κ] [∀ (k : κ) (s : (c k).σ) (ops : List (c k).ι), Decidable ((c k).permits s ops)]
    [∀ k : κ, DecidablePred (c k).service.codec.Storable]
    (disks : Disks γ) (life : Usage c) : Decidable (life.Permits disks) :=
  inferInstanceAs (Decidable (_ ∧ ∀ k, (c k).Completes _ _ _ _))

variable {disks : Disks γ} {store : ∀ k, Durability.Store (c k).σ (Entry (c k).T)} {t : ∀ k, (c k).τ}

theorem lived (separate : Separate c) (holds : ∀ k, (c k).service.Holds (disks.of (c k).service.name) (store k))
    (keeps : ∀ k, (store k).Keeps (c k).agrees (c k).apply (c k).initial (t k)) {life : Usage c} (allows : life.Allows disks) :
    (life.live disks = some (none, disks) ∧ ∀ k, life.Completes disks k) ∨
    ∃ outputs after, ∃ later : ∀ k, Durability.Store (c k).σ (Entry (c k).T),
      life.live disks = some (some outputs, after) ∧ ∀ k,
        (only k outputs).filterMap id = (Run.follow (c k).spec (t k) (life.inputs k)).1 ∧
        (c k).service.Holds (after.of (c k).service.name) (later k) ∧
        (life.Completes disks k → (later k).Keeps (c k).agrees (c k).apply (c k).initial (Run.follow (c k).spec (t k) (life.inputs k)).2) ∧
        (¬ life.Completes disks k → (later k).image = some (c k).service.fresh) := by
  obtain ⟨careful, each⟩ := allows
  obtain ⟨error, refused⟩ | ⟨o, file, opened⟩ : (∃ error, Opening.construct life.args disks.file = (.threw error, disks.file)) ∨
      ∃ o file, Opening.construct life.args disks.file = (.opened o, some file) := by
    obtain refused | ⟨-, o, ran, -⟩ | ⟨-, o, after, -, -, ran, -⟩ := Opening.construct_outcomes careful.1 careful.2.1 disks.file
    · exact .inl refused
    · exact .inr ⟨o, _, ran⟩
    · exact .inr ⟨o, after, ran⟩
  · refine .inl ⟨by simp only [live, refused], fun k renews => ?_⟩
    have writes : life.args.mode ≠ .readOnly := by simp [careful.1]
    obtain ⟨o, ran, -⟩ := Opening.construct_renews writes renews
    exact absurd (refused.symm.trans ran) (by simp)
  · have alone := fun k => Member.lived (separate.lawful k) (holds k) (keeps k) careful opened (each k)
    choose outputs cells later ran left using alone
    obtain ⟨answers, q, called, apart⟩ := (OpenDatabase.parts separate o).runs
      (p := ⟨file.segment, fun _ => none, disks.journals⟩) fun k => ⟨outputs k, cells k, ran k⟩
    refine .inr ⟨answers, ⟨life.ending.left { file with segment := q.segment }, q.journals⟩, later, ?_, fun k => ?_⟩
    · simp only [live, opened, called]
    · have same := (ran k).symm.trans (apart k)
      rw [Option.some.injEq, Prod.mk.injEq] at same
      obtain ⟨told, here⟩ := same
      refine ⟨told ▸ (left k).replies, ?_, (left k).keeps, (left k).forgets⟩
      have held := (left k).holds q.segment (congrArg Cell.container here).symm
      rw [here] at held
      exact held

/-- Whatever the processes do with the other containers, what they do with one is one run. -/
theorem lives (separate : Separate c) {lives : List (Usage c)}
    (holds : ∀ k, (c k).service.Holds (disks.of (c k).service.name) (store k))
    (keeps : ∀ k, (store k).Keeps (c k).agrees (c k).apply (c k).initial (t k)) (permitted : Run.Permitted live Permits disks lives) :
    ∃ outputs last, ∃ later : ∀ k, Durability.Store (c k).σ (Entry (c k).T), Run.run live disks lives = some (outputs, last) ∧
      ∀ k, replies k outputs = (Run.follow (c k).spec (t k) (performed k lives outputs)).1 ∧
        (c k).service.Holds (last.of (c k).service.name) (later k) ∧
        (later k).Keeps (c k).agrees (c k).apply (c k).initial (Run.follow (c k).spec (t k) (performed k lives outputs)).2 := by
  induction lives generalizing disks store t with
  | nil => exact ⟨[], disks, store, rfl, fun k => ⟨rfl, holds k, keeps k⟩⟩
  | cons life lives ih =>
    obtain ⟨refused, -⟩ | ⟨answers, after, middle, lived, each⟩ := lived separate holds keeps permitted.1.1
    · obtain ⟨outputs, last, later, ran, others⟩ := ih holds keeps (permitted.2 none disks refused)
      exact ⟨none :: outputs, last, later, Run.run_step refused ran, others⟩
    · obtain ⟨outputs, last, later, ran, others⟩ := ih (fun k => (each k).2.1)
        (fun k => (each k).2.2.1 (permitted.1.2 k)) (permitted.2 (some answers) after lived)
      refine ⟨some answers :: outputs, last, later, Run.run_step lived ran, fun k => ?_⟩
      rw [performed, Run.follow_append, ← (others k).1, ← (each k).1]
      exact ⟨rfl, (others k).2⟩

theorem reopened {life : Usage c} {answers : List (Σ k, Option (c k).ω)} {after : Disks γ}
    (lived : life.live disks = some (some answers, after)) (journals : life.args.mode = .readWrite)
    (renews : Opening.Renews life.args disks.file) (kept : life.ending.kept = true) :
    after.file ≠ none ∧ ∃ o file, Opening.construct life.args after.file = (.opened o, some file) := by
  have writes : life.args.mode ≠ .readOnly := by simp [journals]
  obtain ⟨o, opened, same, -⟩ := Opening.construct_renews writes renews
  simp only [live, opened] at lived
  split at lived
  next outputs last ran =>
    cases lived
    cases ended : life.ending with
    | crashed memory | deleted =>
      rw [ended] at kept
      cases kept
    | closed =>
      have long : headerSize ≤ o.size := Nat.le_trans (by decide) (Nat.le_max_right _ _)
      have valid : validateDbHeader life.args.fpath life.args.environment
          (some ({ (o.rebuilt : DbFile γ) with segment := last.segment }.setDirty false)) = .ok true := by
        simp [validateDbHeader, Opening.rebuilt, DbFile.setDirty, same, Nat.not_lt.mpr long]
      obtain ⟨later, file, again, -⟩ := Opening.construct_clean writes valid
      exact ⟨by simp [Ending.left], later, file, again⟩
  next => cases lived

theorem delivers_iff (separate : Separate c) (holds : ∀ k, (c k).service.Holds (disks.of (c k).service.name) (store k))
    (keeps : ∀ k, (store k).Keeps (c k).agrees (c k).apply (c k).initial (t k)) {life : Usage c} (allows : life.Allows disks) :
    ∃ output after, life.live disks = some (output, after) ∧ ∀ k,
      let last := (Run.follow (c k).spec (t k) (performed k [life] [output])).2
      ((c k).service.Delivers (after.of (c k).service.name) fun s => (c k).agrees s last) ↔
        life.Completes disks k ∨ last = (c k).initial := by
  obtain ⟨refused, complete⟩ | ⟨answers, after, later, lived, each⟩ := lived separate holds keeps allows
  · refine ⟨none, disks, refused, fun k => ?_⟩
    exact iff_of_true ((holds k).delivers (separate.lawful k) (c k).serves (keeps k)) (.inl (complete k))
  · refine ⟨some answers, after, lived, fun k => ?_⟩
    have once : performed k [life] [some answers] = life.inputs k := List.append_nil _
    obtain ⟨-, held, kept, forgotten⟩ := each k
    rw [once]
    by_cases complete : life.Completes disks k
    · exact iff_of_true (held.delivers (separate.lawful k) (c k).serves (kept complete)) (.inl complete)
    · have delivers : ∀ args, Service.Careful args (after.of (c k).service.name) → ∀ o file,
          Opening.construct args after.file = (.opened o, some file) →
            ∃ journal, (c k).service.get o (after.of (c k).service.name) file.segment = .ok ((c k).service.fresh, some journal) := by
        intro args careful o file opened
        obtain ⟨error, refused⟩ | ⟨other, found, ran, -, gets⟩ := held.delivered (separate.lawful k) careful
        · exact absurd (opened.symm.trans refused) (by simp)
        · cases ran.symm.trans opened
          exact ⟨_, gets (c k).service.fresh (by rw [Durability.Store.reopen, forgotten complete])⟩
      have renews : Opening.Renews life.args disks.file := by
        by_contra opens
        exact complete fun renews => absurd renews opens
      have ended : life.ending.kept = true := by
        by_contra lost
        exact complete fun _ kept => absurd kept lost
      obtain ⟨present, o, file, again⟩ := reopened lived allows.1.1 renews ended
      have careful : Service.Careful life.args (after.of (c k).service.name) :=
        ⟨allows.1.1, allows.1.2.1, fun missing => absurd missing present⟩
      constructor
      · intro seen
        obtain ⟨s, journal, got, agree⟩ := seen life.args careful o file again
        obtain ⟨other, blank⟩ := delivers life.args careful o file again
        cases got.symm.trans blank
        exact .inr ((c k).unique _ _ _ agree (c k).fresh_agrees)
      · rintro (finished | same) args careful o file opened
        · exact absurd finished complete
        · obtain ⟨journal, blank⟩ := delivers args careful o file opened
          exact ⟨_, journal, blank, same ▸ (c k).fresh_agrees⟩

end Usage

/-! ## Containers with and without an undo stack -/

/-- A journaled container that a program declares, and its place in the segment. -/
inductive Journaled (γ : Type) : Type 1 where
  | plain {T : Type} [Object T] [Inhabited T] (keys : List (Comparator T)) (codec : Codec T)
      (find : γ → List Char → Option (MultiIndex T Unit)) (store : γ → List Char → MultiIndex T Unit → γ)
      (type : ContainerType) (suffix : List Char)
  | undo {T : Type} [Object T] [Inhabited T] (keys : List (Comparator T)) (codec : Codec T)
      (find : γ → List Char → Option (UndoMultiIndex T)) (store : γ → List Char → UndoMultiIndex T → γ)
      (type : ContainerType) (suffix : List Char)

/-- A plain container is for a table, one with an undo stack for a versioned table. -/
noncomputable def Journaled.member : Journaled γ → Member γ
  | @plain _ T _ _ keys codec find store type suffix =>
    { σ := MultiIndex T Unit, T, ι := PlainOp T, ω := Bool, τ := Table T keys
      service := PlainOp.service keys codec find store type suffix
      permits := PlainOp.Keeps
      agrees := MultiIndex.Represents
      apply := Entry.onTable
      spec := PlainOp.spec
      initial := Table.empty keys
      serves := PlainOp.serves keys
      unique := fun _ _ _ first second => first.unique second }
  | @undo _ T _ _ keys codec find store type suffix =>
    { σ := UndoMultiIndex T, T, ι := JournaledOp T, ω := Reply, τ := Versioned (Table T keys)
      service := JournaledOp.service keys codec find store type suffix
      permits := JournaledOp.Keeps
      agrees := fun s v => s.Refines v ∧ v.Grounded
      apply := Entry.onVersioned
      spec := JournaledOp.spec
      initial := ⟨Table.empty keys, [], 0⟩
      serves := JournaledOp.serves keys
      unique := fun _ _ _ first second => first.1.unique second.1 }

/-- Books, and books that can be taken back. -/
def Journaled.shelf : Bool → Journaled (ContainerSegment (MultiIndex Book Unit ⊕ UndoMultiIndex Book))
  | false => .plain bookKeys bookCodec (fun segment name => (segment.find name).bind Sum.getLeft?)
      (fun segment name s => segment.store name (.inl s)) ⟨"book".toList, 16, 96⟩ []
  | true => .undo bookKeys bookCodec (fun segment name => (segment.find name).bind Sum.getRight?)
      (fun segment name s => segment.store name (.inr s)) ⟨"book".toList, 16, 160⟩ "draft".toList

theorem Journaled.shelf_separate : Separate fun k => (Journaled.shelf k).member where
  lawful k := by
    cases k with
    | false =>
      refine ⟨fun _ _ => rfl, fun _ _ _ => rfl, fun segment name s => ?_⟩
      exact congrArg (Option.bind · Sum.getLeft?) (segment.find_store name _)
    | true =>
      refine ⟨fun _ _ => rfl, fun _ _ _ => rfl, fun segment name s => ?_⟩
      exact congrArg (Option.bind · Sum.getRight?) (segment.find_store name _)
  names := by
    show ∀ j k : Bool, j ≠ k → (shelf j).member.service.name ≠ (shelf k).member.service.name
    decide
  find_other j k apart segment s := by
    cases j <;> cases k
    case false.false | true.true => exact absurd rfl apart
    case false.true => exact congrArg (Option.bind · Sum.getLeft?) (segment.find_store_ne (by decide) _)
    case true.false => exact congrArg (Option.bind · Sum.getRight?) (segment.find_store_ne (by decide) _)

instance : ∀ (k : Bool) (s : (Journaled.shelf k).member.σ) (ops : List (Journaled.shelf k).member.ι),
    Decidable ((Journaled.shelf k).member.permits s ops)
  | false => fun (s : MultiIndex Book Unit) (ops : List (PlainOp Book)) => inferInstanceAs (Decidable (PlainOp.Keeps s ops))
  | true => fun (s : UndoMultiIndex Book) (ops : List (JournaledOp Book)) => inferInstanceAs (Decidable (JournaledOp.Keeps s ops))

instance : ∀ k : Bool, DecidablePred (Journaled.shelf k).member.service.codec.Storable
  | false => inferInstanceAs (DecidablePred bookCodec.Storable)
  | true => inferInstanceAs (DecidablePred bookCodec.Storable)

namespace Usage
variable {containers : κ → Journaled γ}

end Usage
end ChainBase
