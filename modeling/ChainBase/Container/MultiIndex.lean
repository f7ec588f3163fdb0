import ChainBase.Container.Index
import Mathlib.Logic.Function.Basic
import Mathlib.Algebra.Order.Ring.Int

/-! `basic_multi_index`: objects in allocated nodes, linked by id and by every
secondary key. Nodes are named by their address; an address is never used twice,
and every disposal is counted. -/

namespace ChainBase

/-- What a call throws. `user` is any exception of the caller's constructor or
modifier, or of an allocation. -/
inductive Thrown where
  | user
  | logicError (what : String)
  | runtimeError (what : String)
deriving DecidableEq, Repr

/-- Objects carry their primary key, of a type that has this many values. -/
class Object (T : Type) where
  id : T → Nat
  ids : Nat := 2 ^ 64

/-- What `emplace` relies on: its assertion on the id of a new object, and that the next
id is still one of its type. -/
def Object.Follows {T : Type} [Object T] (nextId : Nat) (item : T) : Prop :=
  nextId ≤ Object.id item ∧ Object.id item + 1 < Object.ids T

instance {T : Type} [Object T] (nextId : Nat) (item : T) : Decidable (Object.Follows nextId item) :=
  inferInstanceAs (Decidable (_ ∧ _))

/-- `node`: the object, what a derived container adds, and the balance field of
the hook for the first index. -/
structure Node (T E : Type) where
  item : T
  extra : E
  color : Int

structure MultiIndex (T E : Type) where
  nodes : Addr → Node T E
  /-- The next address the allocator hands out. -/
  fresh : Addr
  /-- How many times the node at an address has been destroyed and deallocated. -/
  disposed : Addr → Nat
  byId : List Addr
  indices : List (SetIndex T)
  nextId : Nat

/-- The outcome of `modify_with_revert`, apart from an exception of the modifier:
the modified object stays, the reverter has put the old one back (which must find
its places again), or the object has been removed. -/
inductive Modified where
  | kept
  | reverted (placed : Bool)
  | erased
deriving DecidableEq, Repr

namespace MultiIndex
variable {T E : Type}

def couldNotInsert : Thrown :=
  .logicError "could not insert object, most likely a uniqueness constraint was violated"

def couldNotModify : Thrown :=
  .logicError "could not modify object, most likely a uniqueness constraint was violated"

def empty [Inhabited T] [Inhabited E] (keys : List (OrderedSequence.Comparator T)) : MultiIndex T E where
  nodes _ := ⟨default, default, 0⟩
  fresh := 0
  disposed _ := 0
  byId := []
  indices := keys.map fun keys => ⟨keys, []⟩
  nextId := 0

def value (s : MultiIndex T E) (a : Addr) : T := (s.nodes a).item

def setItem (s : MultiIndex T E) (a : Addr) (item : T) : MultiIndex T E :=
  { s with nodes := Function.update s.nodes a { s.nodes a with item } }

def disposeNode (s : MultiIndex T E) (a : Addr) : MultiIndex T E :=
  { s with disposed := Function.update s.disposed a (s.disposed a + 1) }

variable [Object T]

def id (s : MultiIndex T E) (a : Addr) : Nat := Object.id (s.value a)

def idKeys : OrderedSequence.Comparator T := .ofKey Object.id

/-- The object that has an id, to which a caller has a reference. -/
def named (s : MultiIndex T E) (id : Nat) : Option Addr := s.byId.find? fun a => s.id a = id

/-- `find` in the first index: the lower bound of the key, if the key is its id. -/
def find (s : MultiIndex T E) (key : Nat) : Option Addr :=
  (s.byId.dropWhile fun a => s.id a < key).head?.filter fun a => s.id a = key

/-- `emplace`. The constructor is given the new id and says what object it makes
of it, or throws. The new node goes into the secondary indices, which may refuse
it, and only then to the end of the first. -/
def emplace [Inhabited E] (s : MultiIndex T E) (constructor : Nat → Option T) :
    Except Thrown Addr × MultiIndex T E :=
  let p := s.fresh
  let allocated := { s with fresh := p + 1 }
  match constructor s.nextId with
  | none => (.error .user, allocated.disposeNode p)
  | some item =>
    let built := { allocated with nodes := Function.update s.nodes p ⟨item, default, 0⟩ }
    match SetIndex.insertImpl built.value p built.indices with
    | (false, indices) => (.error couldNotInsert, { built with indices }.disposeNode p)
    | (true, indices) =>
      -- the id type wraps round behind its last value
      (.ok p, { built with indices, byId := built.byId ++ [p], nextId := (Object.id item + 1) % Object.ids T })

def eraseImpl (s : MultiIndex T E) (a : Addr) : MultiIndex T E :=
  { s with byId := s.byId.erase a, indices := SetIndex.eraseImpl a s.indices }

def remove (s : MultiIndex T E) (a : Addr) : MultiIndex T E := (s.eraseImpl a).disposeNode a

/-- `post_modify_impl<unique, 1>`. -/
def postModify (s : MultiIndex T E) (unique : Bool) (a : Addr) : Bool × MultiIndex T E :=
  let (ok, indices) := SetIndex.postModifyImpl s.value unique a s.indices
  (ok, { s with indices })

/-- `modify_with_revert`, where `item` is the object the modifier leaves (on
return or on its exception) and `backup` what the reverter assigns, if it agrees
to revert. -/
def modifyWithRevert (s : MultiIndex T E) (a : Addr) (item : T) (backup : Option T) : Modified × MultiIndex T E :=
  let oldId := s.id a
  let modified := s.setItem a item
  if oldId ≠ modified.id a then
    match backup with
    | some old => (.reverted true, modified.setItem a old)
    | none => (.erased, modified.remove a)
  else
    match modified.postModify true a with
    | (true, moved) => (.kept, moved)
    | (false, moved) =>
      match backup with
      | some old =>
        let (placed, restored) := (moved.setItem a old).postModify true a
        (.reverted placed, restored)
      | none => (.erased, moved.remove a)

def modifyThrows (threw : Bool) : Modified → Option Thrown
  | outcome => if threw then some .user else if outcome = .kept then none else some couldNotModify

def modify (s : MultiIndex T E) (a : Addr) (modifier : T → T × Bool) : Option Thrown × MultiIndex T E :=
  let (item, threw) := modifier (s.value a)
  let (outcome, after) := s.modifyWithRevert a item none
  (modifyThrows threw outcome, after)

def insert (s : MultiIndex T E) (a : Addr) : Bool × MultiIndex T E :=
  match SetIndex.insertImpl s.value a (⟨idKeys, s.byId⟩ :: s.indices) with
  | (ok, first :: indices) => (ok, { s with byId := first.tree, indices })
  | (ok, []) => (ok, s)

/-- `erase_new_ids`: cut the first index at the lower bound of `id`, and unlink
every node behind it from the other indices. -/
def eraseNewIds (s : MultiIndex T E) (id : Nat) : MultiIndex T E :=
  let newIds := s.byId.dropWhile fun a => s.id a < id
  let cut := { s with byId := s.byId.takeWhile fun a => s.id a < id }
  newIds.foldl (fun s a => { s with indices := SetIndex.eraseImpl a s.indices }.disposeNode a) cut

end MultiIndex

/-- The objects of the repository's own tests, with a secondary index on each member. -/
structure Book where
  id : Nat
  a : Int
  b : Int
deriving DecidableEq, Repr

instance : Inhabited Book := ⟨⟨0, 0, 1⟩⟩

instance : Object Book where
  id := Book.id

def bookKeys : List (OrderedSequence.Comparator Book) := [.ofKey Book.a, .ofKey Book.b]

def lastBook : Book := ⟨2 ^ 64 - 1, 1, 1⟩

end ChainBase
