import ChainBase.Container.MultiIndex

/-! The containers of a database, by name. The three overloads of `get` build the name
of a container from its type and a suffix, each for itself. -/

namespace ChainBase

/-- What `get` knows of a container type. -/
structure ContainerType where
  /-- `type_name.view()`. -/
  typeName : List Char
  sizeOfValueType : Nat
  sizeOfThis : Nat
deriving DecidableEq, Repr

/-- `detail::container`: the sizes that the container was built with. -/
structure Contained where
  sizeOfValueType : Nat
  sizeOfThis : Nat
deriving DecidableEq, Repr

/-- What `find` returns if it finds something: where the object is, and the object. -/
structure ContainerPtr where
  address : Nat
  contained : Contained
deriving DecidableEq, Repr

/-- The named objects of a segment, in the order in which they have been constructed. -/
structure NamedObjects where
  objects : List (List Char × Contained)
deriving DecidableEq, Repr

def nul : Char := Char.ofNat 0

def cStr (chars : List Char) : List Char := chars.takeWhile (· ≠ nul)

namespace ContainerType

/-- `c_name`, as `find` and `construct` read it. -/
def cName (type : ContainerType) (suffix : List Char) : List Char :=
  if suffix = [] then cStr type.typeName else cStr (type.typeName ++ '.' :: suffix)

def contained (type : ContainerType) : Contained := ⟨type.sizeOfValueType % 2 ^ 32, type.sizeOfThis % 2 ^ 32⟩

def Matches (type : ContainerType) (contained : Contained) : Prop :=
  type.sizeOfValueType = contained.sizeOfValueType ∧ type.sizeOfThis = contained.sizeOfThis

instance (type : ContainerType) (contained : Contained) : Decidable (type.Matches contained) :=
  inferInstanceAs (Decidable (_ ∧ _))

theorem cName_plain_iff (type : ContainerType) (suffix : List Char) :
    type.cName suffix = type.cName [] ↔ suffix = [] ∨ nul ∈ type.typeName := by
  by_cases plain : suffix = []
  · simp [plain]
  · simp only [cName, plain, if_false, if_true, false_or, cStr]
    by_cases ends : nul ∈ type.typeName
    · apply iff_of_true _ ends
      rw [List.takeWhile_append, if_neg]
      intro whole
      have all := List.takeWhile_eq_self_iff.mp (List.takeWhile_sublist _ |>.eq_of_length whole)
      simpa using all nul ends
    · apply iff_of_false _ ends
      have whole : ∀ char ∈ type.typeName, decide (char ≠ nul) = true := by
        intro char member
        apply decide_eq_true
        rintro rfl
        exact ends member
      have dot : '.' ≠ nul := by decide
      rw [List.takeWhile_append_of_pos whole, List.takeWhile_eq_self_iff.mpr whole, List.takeWhile_cons_of_pos (by simpa using dot)]
      simp

end ContainerType

def ContainerPtr.get (ptr : ContainerPtr) (type : ContainerType) : Except Thrown Nat :=
  if type.Matches ptr.contained then .ok ptr.address
  else .error (.runtimeError "content of memory does not match data expected by executable")

namespace ContainerPtr
variable {ptr found : ContainerPtr}

theorem get_not_null (ptr : ContainerPtr) (type : ContainerType) : (ptr.get type).map some ≠ .ok none := by
  unfold get
  split <;> simp [Except.map]

/-- Two containers at different places look alike only if both are refused. -/
theorem get_eq_iff (type : ContainerType) (apart : ptr.address ≠ found.address) :
    (ptr.get type).map some = (found.get type).map some ↔
      ¬ type.Matches ptr.contained ∧ ¬ type.Matches found.contained := by
  by_cases first : type.Matches ptr.contained <;> by_cases second : type.Matches found.contained <;>
    simp [get, first, second, Except.map, apart]

end ContainerPtr

namespace NamedObjects

def find (segment : NamedObjects) (name : List Char) : Option ContainerPtr :=
  (segment.objects.findIdx? (·.1 = name)).bind fun address => segment.objects[address]?.map fun object => ⟨address, object.2⟩

def construct (segment : NamedObjects) (name : List Char) (contained : Contained) : ContainerPtr × NamedObjects :=
  (⟨segment.objects.length, contained⟩, ⟨segment.objects ++ [(name, contained)]⟩)

/-- `get` of a database that can be written. -/
def get (segment : NamedObjects) (type : ContainerType) (suffix : List Char) : Except Thrown Nat × NamedObjects :=
  match segment.find (type.cName suffix) with
  | some ptr => (ptr.get type, segment)
  | none =>
    let (ptr, after) := segment.construct (type.cName suffix) type.contained
    (ptr.get type, after)

/-- `get` of a constant database. The name with the suffix is built but not used. -/
def getConst (segment : NamedObjects) (type : ContainerType) (_suffix : List Char) : Except Thrown (Option Nat) :=
  match segment.find (cStr type.typeName) with
  | some ptr => (ptr.get type).map some
  | none => .ok none

/-- `get` of a journaled container, up to the construction of the wrapper: the container
and the path of the journal. -/
def getJournaled (segment : NamedObjects) (journalPath : List Char) (type : ContainerType) (suffix : List Char) :
    Except Thrown (Nat × List Char) × NamedObjects :=
  let jfpath := journalPath ++ '.' :: type.cName suffix ++ ".journal".toList
  match segment.find (type.cName suffix) with
  | some ptr => ((ptr.get type).map (·, jfpath), segment)
  | none =>
    let (ptr, after) := segment.construct (type.cName suffix) type.contained
    ((ptr.get type).map (·, jfpath), after)

/-! ## What is found after any calls -/

inductive GetCall where
  | get (type : ContainerType) (suffix : List Char)
  | getJournaled (journalPath : List Char) (type : ContainerType) (suffix : List Char)
deriving DecidableEq, Repr

namespace GetCall

def type : GetCall → ContainerType
  | get type _ | getJournaled _ type _ => type

def name : GetCall → List Char
  | get type suffix | getJournaled _ type suffix => type.cName suffix

end GetCall

def perform (segment : NamedObjects) : GetCall → NamedObjects
  | .get type suffix => (segment.get type suffix).2
  | .getJournaled journalPath type suffix => (segment.getJournaled journalPath type suffix).2

/-- A new segment after some calls. -/
def run (calls : List GetCall) : NamedObjects := calls.foldl perform ⟨[]⟩

variable {segment : NamedObjects} {name other : List Char} {ptr found : ContainerPtr}

theorem find_nil (name : List Char) : (⟨[]⟩ : NamedObjects).find name = none := rfl

theorem find_mem (finds : segment.find name = some ptr) : segment.objects[ptr.address]? = some (name, ptr.contained) := by
  obtain ⟨address, first, inside⟩ := Option.bind_eq_some_iff.mp finds
  obtain ⟨⟨own, contained⟩, present, rfl⟩ := Option.map_eq_some_iff.mp inside
  obtain ⟨within, same, -⟩ := List.findIdx?_eq_some_iff_getElem.mp first
  have here := (List.getElem?_eq_some_iff.mp present).2
  rw [here] at same
  obtain rfl : own = name := of_decide_eq_true same
  exact present

theorem find_apart (finds : segment.find name = some ptr) (second : segment.find other = some found)
    (apart : name ≠ other) : ptr.address ≠ found.address := by
  intro same
  have here := find_mem finds
  rw [same, find_mem second] at here
  exact apart (Prod.mk.inj (Option.some.inj here)).1.symm

theorem find_construct (segment : NamedObjects) (name : List Char) (contained : Contained) (other : List Char) :
    (segment.construct name contained).2.find other =
      (segment.find other).or (if name = other then some ⟨segment.objects.length, contained⟩ else none) := by
  simp only [construct, find, List.findIdx?_append]
  cases first : segment.objects.findIdx? (·.1 = other) with
  | some address =>
    have within := (List.findIdx?_eq_some_iff_getElem.mp first).1
    simp [List.getElem?_append_left within, List.getElem?_eq_getElem within]
  | none =>
    by_cases own : name = other
    · simp [own]
    · simp [own]

theorem perform_eq (segment : NamedObjects) (call : GetCall) :
    segment.perform call =
      if (segment.find call.name).isSome then segment else (segment.construct call.name call.type.contained).2 := by
  cases call with
  | get type suffix =>
    simp only [perform, get, GetCall.name, GetCall.type]
    split
    next ptr finds => simp [finds]
    next missing => simp [missing]
  | getJournaled journalPath type suffix =>
    simp only [perform, getJournaled, GetCall.name, GetCall.type]
    split
    next ptr finds => simp [finds]
    next missing => simp [missing]

theorem perform_find (segment : NamedObjects) (call : GetCall) (name : List Char) :
    (segment.perform call).find name =
      (segment.find name).or (if call.name = name then some ⟨segment.objects.length, call.type.contained⟩ else none) := by
  rw [perform_eq]
  cases finds : segment.find call.name with
  | none => exact find_construct segment call.name call.type.contained name
  | some ptr =>
    rw [if_pos Option.isSome_some]
    by_cases own : call.name = name
    · rw [← own, finds]
      rfl
    · rw [if_neg own, Option.or_none]

theorem find_run (calls : List GetCall) (segment : NamedObjects) (name : List Char) :
    ((calls.foldl perform segment).find name).map ContainerPtr.contained =
      ((segment.find name).map ContainerPtr.contained).or
        ((calls.find? (·.name = name)).map fun call => call.type.contained) := by
  induction calls generalizing segment with
  | nil => simp
  | cons call calls ih =>
    rw [List.foldl_cons, ih, perform_find]
    by_cases own : call.name = name
    · cases segment.find name <;> simp [own]
    · simp [own]

/-! ## The overload for a constant database -/

variable {calls : List GetCall} {type : ContainerType} {suffix : List Char}

def Created (calls : List GetCall) (type : ContainerType) (suffix : List Char) : Prop :=
  ∃ call ∈ calls, call.name = type.cName suffix

/-- After the calls, the overload for a constant database returns what the other one
does for a container that has been created, and null for one that has not. -/
structure LookupAgrees (calls : List GetCall) (type : ContainerType) (suffix : List Char) : Prop where
  present : Created calls type suffix →
    (run calls).getConst type suffix = ((run calls).get type suffix).1.map some
  null : (run calls).getConst type suffix = .ok none ↔ ¬ Created calls type suffix

/-- The container of a name was created by a call for a type of other sizes. -/
def Foreign (calls : List GetCall) (type : ContainerType) (suffix : List Char) : Prop :=
  ∃ call ∈ calls.find? (·.name = type.cName suffix), ¬ type.Matches call.type.contained

/-- Nothing of the suffix is read; or neither the container with the suffix nor the one
without has been created; or both have, for types of other sizes. -/
def SameLookup (calls : List GetCall) (type : ContainerType) (suffix : List Char) : Prop :=
  (suffix = [] ∨ nul ∈ type.typeName) ∨ (¬ Created calls type suffix ∧ ¬ Created calls type []) ∨
    (Foreign calls type suffix ∧ Foreign calls type [])

theorem run_find (calls : List GetCall) (type : ContainerType) (suffix : List Char) :
    ((run calls).find (type.cName suffix)).map ContainerPtr.contained =
      (calls.find? (·.name = type.cName suffix)).map fun call => call.type.contained := by
  rw [run, find_run, find_nil]
  rfl

theorem created_iff : Created calls type suffix ↔ ((run calls).find (type.cName suffix)).isSome := by
  rw [← Option.isSome_map (f := ContainerPtr.contained), run_find, Option.isSome_map, List.find?_isSome]
  simp only [Created, decide_eq_true_eq]

theorem foreign_iff (finds : (run calls).find (type.cName suffix) = some ptr) :
    Foreign calls type suffix ↔ ¬ type.Matches ptr.contained := by
  have built := run_find calls type suffix
  rw [finds, Option.map_some] at built
  obtain ⟨call, first, same⟩ := Option.map_eq_some_iff.mp built.symm
  simp [Foreign, first, same]

theorem not_foreign (missing : ¬ Created calls type suffix) : ¬ Foreign calls type suffix := by
  rintro ⟨call, first, -⟩
  have own := List.find?_some first
  apply missing
  exact ⟨call, List.mem_of_find?_eq_some first, by simpa using own⟩

theorem agrees_of_plain (same : type.cName suffix = type.cName []) : LookupAgrees calls type suffix := by
  have plain : cStr type.typeName = type.cName suffix := same.symm
  constructor
  · intro created
    obtain ⟨ptr, finds⟩ := Option.isSome_iff_exists.mp (created_iff.mp created)
    simp only [getConst, get, plain, finds]
  · rw [created_iff, getConst, plain]
    cases finds : (run calls).find (type.cName suffix) with
    | none => simp
    | some ptr => simpa using ptr.get_not_null type

/-- The overload for a constant database agrees with the other one exactly if the suffix
makes no difference to what they find. -/
theorem const_get_agrees_iff (calls : List GetCall) (type : ContainerType) (suffix : List Char) :
    LookupAgrees calls type suffix ↔ SameLookup calls type suffix := by
  unfold SameLookup
  rw [← type.cName_plain_iff]
  by_cases same : type.cName suffix = type.cName []
  · exact iff_of_true (agrees_of_plain same) (.inl same)
  · simp only [same, false_or]
    cases plain : (run calls).find (type.cName []) with
    | none =>
      have missing : ¬ Created calls type [] := by simp [created_iff, plain]
      have returned : (run calls).getConst type suffix = .ok none := by
        rw [getConst, show cStr type.typeName = type.cName [] from rfl, plain]
      constructor
      · intro agrees
        exact .inl ⟨agrees.null.mp returned, missing⟩
      · rintro (⟨uncreated, -⟩ | ⟨-, foreign⟩)
        · exact ⟨fun created => absurd created uncreated, iff_of_true returned uncreated⟩
        · exact absurd foreign (not_foreign missing)
    | some ptr =>
      have present : Created calls type [] := by simp [created_iff, plain]
      have returned : (run calls).getConst type suffix = (ptr.get type).map some := by
        rw [getConst, show cStr type.typeName = type.cName [] from rfl, plain]
      have filled : (run calls).getConst type suffix ≠ .ok none := returned ▸ ptr.get_not_null type
      cases finds : (run calls).find (type.cName suffix) with
      | none =>
        have missing : ¬ Created calls type suffix := by simp [created_iff, finds]
        constructor
        · intro agrees
          exact absurd (agrees.null.mpr missing) filled
        · rintro (⟨-, absent⟩ | ⟨foreign, -⟩)
          · exact absurd present absent
          · exact absurd foreign (not_foreign missing)
      | some found =>
        have created : Created calls type suffix := by simp [created_iff, finds]
        have expected : ((run calls).get type suffix).1.map some = (found.get type).map some := by simp only [get, finds]
        have equal := ContainerPtr.get_eq_iff type (find_apart plain finds (Ne.symm same))
        rw [foreign_iff finds, foreign_iff plain]
        constructor
        · intro agrees
          have alike := agrees.present created
          rw [returned, expected] at alike
          exact .inr (equal.mp alike).symm
        · rintro (⟨-, absent⟩ | foreign)
          · exact absurd present absent
          · refine ⟨fun _ => ?_, iff_of_false filled (not_not_intro created)⟩
            rw [returned, expected]
            exact equal.mpr foreign.symm

/-- A container with a suffix is not the one that a constant database returns for it: it
returns the one without a suffix, or null. -/
theorem const_get_ignores_suffix :
    let book : ContainerType := ⟨"book".toList, 24, 96⟩
    ¬ LookupAgrees [.get book [], .get book "x".toList] book "x".toList ∧
    ¬ LookupAgrees [.get book "x".toList] book "x".toList := by
  intro book
  constructor
  · intro agrees
    exact absurd (agrees.present ⟨.get book "x".toList, by decide⟩) (by decide)
  · intro agrees
    exact absurd (agrees.null.mp (by decide)) (not_not_intro ⟨.get book "x".toList, by decide⟩)

end NamedObjects
end ChainBase
