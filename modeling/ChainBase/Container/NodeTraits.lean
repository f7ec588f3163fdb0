import ChainBase.Container.Links
import ChainBase.Library.OpaquePointers

/-! The traits through which the trees and lists of a container reach their nodes. The
algorithms are not here; whichever they are, they do on the links in the file what they would
do on pointers, wherever the file is mapped. -/

namespace ChainBase
open OpaquePointers (Response Machine Seen Algorithm)

inductive Link where
  | parent
  | left
  | right
deriving DecidableEq, Repr

def Hook.get : Link → Hook → Int
  | .parent => Hook.parent
  | .left => Hook.left
  | .right => Hook.right

def Hook.set : Link → Hook → Int → Hook
  | .parent, hook, parent => { hook with parent }
  | .left, hook, left => { hook with left }
  | .right, hook, right => { hook with right }

namespace OffsetNode

def getLink (l : Link) (m : Heap) (n : Int) : Option (Option Int) := (m n).map fun hook => pointer n (hook.get l)

def setLink (l : Link) (m : Heap) (n : Int) (target : Option Int) : Option Heap :=
  (m n).map fun hook => Function.update m n (some (hook.set l (link n target)))

def getParent := getLink .parent
def setParent := setLink .parent
def getLeft := getLink .left
def setLeft := setLink .left
def getPrevious := getLeft
def setPrevious := setLeft

theorem getRight_eq : getRight = getLink .right := rfl
theorem setRight_eq : setRight = setLink .right := rfl

def getColor (m : Heap) (n : Int) : Option Int := (m n).map Hook.color
def setColor (m : Heap) (n color : Int) : Option Heap := (m n).map fun hook => Function.update m n (some { hook with color })
def getBalance := getColor
def setBalance := setColor

end OffsetNode

/-! ## Plain pointers -/

/-- A node whose links are pointers. What has not been set since the node was constructed has
no value. -/
structure PlainNode (N : Type) where
  parent : Option (Option N) := none
  left : Option (Option N) := none
  right : Option (Option N) := none
  color : Option Int := none
deriving DecidableEq, Repr

namespace PlainNode
variable {N : Type}

def get : Link → PlainNode N → Option (Option N)
  | .parent => PlainNode.parent
  | .left => PlainNode.left
  | .right => PlainNode.right

def set : Link → PlainNode N → Option N → PlainNode N
  | .parent, node, parent => { node with parent := some parent }
  | .left, node, left => { node with left := some left }
  | .right, node, right => { node with right := some right }

variable [DecidableEq N]

def getLink (l : Link) (heap : N → Option (PlainNode N)) (n : N) : Option (Option N) := (heap n).bind (·.get l)

def setLink (l : Link) (heap : N → Option (PlainNode N)) (n : N) (target : Option N) : Option (N → Option (PlainNode N)) :=
  (heap n).map fun node => Function.update heap n (some (node.set l target))

def getColor (heap : N → Option (PlainNode N)) (n : N) : Option Int := (heap n).bind PlainNode.color

def setColor (heap : N → Option (PlainNode N)) (n : N) (color : Int) : Option (N → Option (PlainNode N)) :=
  (heap n).map fun node => Function.update heap n (some { node with color := some color })

end PlainNode

/-! ## Calls -/

/-- What the traits offer to an algorithm, and the comparison of two objects. -/
inductive TraitsCall where
  | getParent
  | setParent
  | getLeft
  | setLeft
  | getRight
  | setRight
  | getColor
  | setColor (color : Int)
  | getBalance
  | setBalance (balance : Int)
  | getNext
  | setNext
  | getPrevious
  | setPrevious
  | compare
deriving DecidableEq, Repr

section
variable {P M : Type}

/-- Only a pointer that is not null can be followed. -/
def read (get : P → Option (Option P)) (m : M) : List (Option P) → Option (Response P × M)
  | [some n] => (get n).map fun target => (.pointer target, m)
  | _ => none

def write (set : P → Option P → Option M) : List (Option P) → Option (Response P × M)
  | [some n, target] => (set n target).map fun after => (.nothing, after)
  | _ => none

def readNumber (get : P → Option Int) (m : M) : List (Option P) → Option (Response P × M)
  | [some n] => (get n).map fun value => (.number value, m)
  | _ => none

def writeNumber (set : P → Option M) : List (Option P) → Option (Response P × M)
  | [some n] => (set n).map fun after => (.nothing, after)
  | _ => none

def order (less : P → P → Bool) (m : M) : List (Option P) → Option (Response P × M)
  | [some a, some b] => some (.number (if less a b then 1 else 0), m)
  | _ => none

end

def OffsetNode.answer (less : Int → Int → Bool) : Machine TraitsCall Int Heap := fun m call =>
  match call with
  | .getParent => read (getParent m) m
  | .setParent => write (setParent m)
  | .getLeft => read (getLeft m) m
  | .setLeft => write (setLeft m)
  | .getRight => read (getRight m) m
  | .setRight => write (setRight m)
  | .getColor => readNumber (getColor m) m
  | .setColor color => writeNumber (setColor m · color)
  | .getBalance => readNumber (getBalance m) m
  | .setBalance balance => writeNumber (setBalance m · balance)
  | .getNext => read (getNext m) m
  | .setNext => write (setNext m)
  | .getPrevious => read (getPrevious m) m
  | .setPrevious => write (setPrevious m)
  | .compare => order less m

def PlainNode.answer {N : Type} [DecidableEq N] (less : N → N → Bool) : Machine TraitsCall N (N → Option (PlainNode N)) := fun heap call =>
  match call with
  | .getParent => read (getLink .parent heap) heap
  | .setParent => write (setLink .parent heap)
  | .getLeft | .getPrevious => read (getLink .left heap) heap
  | .setLeft | .setPrevious => write (setLink .left heap)
  | .getRight | .getNext => read (getLink .right heap) heap
  | .setRight | .setNext => write (setLink .right heap)
  | .getColor | .getBalance => readNumber (getColor heap) heap
  | .setColor value | .setBalance value => writeNumber (setColor heap · value)
  | .compare => order less heap

/-! ## The same nodes -/

/-- A node of the file, for one with pointers. -/
structure LinkedAs {N : Type} (place : N → Int) (n : N) (node : PlainNode N) (hook : Hook) : Prop where
  link : ∀ l target, node.get l = some target → OffsetNode.pointer (place n) (hook.get l) = target.map place
  color : ∀ color, node.color = some color → hook.color = color

/-- Every node lies at its place. -/
def Lies {N : Type} (place : N → Int) (heap : N → Option (PlainNode N)) (m : Heap) : Prop :=
  ∀ n, Option.Rel (LinkedAs place n) (heap n) (m (place n))

section
variable {N : Type} {place : N → Int} {n : N} {node : PlainNode N} {hook : Hook} {heap after : N → Option (PlainNode N)} {m : Heap}

theorem Lies.present (lies : Lies place heap m) (present : heap n = some node) :
    ∃ hook, m (place n) = some hook ∧ LinkedAs place n node hook := by
  have here := lies n
  rw [present] at here
  cases found : m (place n) with
  | none =>
    rw [found] at here
    cases here
  | some hook =>
    rw [found] at here
    cases here with
    | some linked => exact ⟨hook, rfl, linked⟩

theorem Lies.none_iff (lies : Lies place heap m) : heap n = none ↔ m (place n) = none := by
  have here := lies n
  cases plain : heap n <;> cases found : m (place n) <;> rw [plain, found] at here
  · simp
  · cases here
  · cases here
  · simp

theorem Lies.update [DecidableEq N] (lies : Lies place heap m) (apart : Function.Injective place) {node : Option (PlainNode N)}
    {hook : Option Hook} (linked : Option.Rel (LinkedAs place n) node hook) :
    Lies place (Function.update heap n node) (Function.update m (place n) hook) := by
  intro other
  by_cases same : other = n
  · subst same
    rw [Function.update_self, Function.update_self]
    exact linked
  · rw [Function.update_of_ne same, Function.update_of_ne (apart.ne same)]
    exact lies other

theorem Hook.get_set_self (l : Link) (hook : Hook) (link : Int) : (hook.set l link).get l = link := by
  cases l <;> rfl

theorem Hook.get_set_of_ne {l other : Link} (differs : other ≠ l) (hook : Hook) (link : Int) :
    (hook.set l link).get other = hook.get other := by
  cases l <;> cases other <;> first | rfl | exact absurd rfl differs

theorem PlainNode.get_set_self (l : Link) (node : PlainNode N) (target : Option N) : (node.set l target).get l = some target := by
  cases l <;> rfl

theorem PlainNode.get_set_of_ne {l other : Link} (differs : other ≠ l) (node : PlainNode N) (target : Option N) :
    (node.set l target).get other = node.get other := by
  cases l <;> cases other <;> first | rfl | exact absurd rfl differs

/-- Nodes are at even addresses, so no link is the one that stands for null. -/
theorem OffsetNode.pointer_link_even {a : Int} {target : Option Int} (here : 2 ∣ a) (there : ∀ b, target = some b → 2 ∣ b) :
    pointer a (link a target) = target := by
  rw [pointer_link, if_neg]
  intro behind
  have even := there _ behind
  omega

theorem LinkedAs.set (linked : LinkedAs place n node hook) (even : ∀ n, 2 ∣ place n) (l : Link) (target : Option N) :
    LinkedAs place n (node.set l target) (hook.set l (OffsetNode.link (place n) (target.map place))) := by
  constructor
  · intro other pointer read
    by_cases same : other = l
    · subst same
      rw [PlainNode.get_set_self] at read
      cases read
      rw [Hook.get_set_self]
      apply OffsetNode.pointer_link_even (even n)
      intro b found
      obtain ⟨other, -, rfl⟩ := Option.map_eq_some_iff.mp found
      exact even other
    · rw [PlainNode.get_set_of_ne same] at read
      rw [Hook.get_set_of_ne same]
      exact linked.link other pointer read
  · intro color colored
    cases l <;> exact linked.color color colored

/-! ## Calls on either -/

/-- The nodes lie at their places, and the rest of the memory is what it was. -/
structure InPlace (place : N → Int) (original : Heap) (heap : N → Option (PlainNode N)) (m : Heap) : Prop where
  lies : Lies place heap m
  frame : ∀ a, (∀ n, place n ≠ a) → m a = original a

variable {original : Heap}

theorem InPlace.update [DecidableEq N] (holds : InPlace place original heap m) (apart : Function.Injective place) {node : Option (PlainNode N)}
    {hook : Option Hook} (linked : Option.Rel (LinkedAs place n) node hook) :
    InPlace place original (Function.update heap n node) (Function.update m (place n) hook) := by
  constructor
  · exact holds.lies.update apart linked
  · intro a outside
    rw [Function.update_of_ne (outside n).symm]
    exact holds.frame a outside

theorem getLink_inPlace [DecidableEq N] (holds : InPlace place original heap m) (l : Link) {target : Option N}
    (got : PlainNode.getLink l heap n = some target) : OffsetNode.getLink l m (place n) = some (target.map place) := by
  obtain ⟨node, present, set⟩ := Option.bind_eq_some_iff.mp got
  obtain ⟨hook, here, linked⟩ := holds.lies.present present
  rw [OffsetNode.getLink, here, Option.map_some, linked.link l target set]

theorem setLink_inPlace [DecidableEq N] (holds : InPlace place original heap m) (apart : Function.Injective place)
    (even : ∀ n, 2 ∣ place n) (l : Link) {target : Option N} (set : PlainNode.setLink l heap n target = some after) :
    ∃ later, OffsetNode.setLink l m (place n) (target.map place) = some later ∧ InPlace place original after later := by
  obtain ⟨node, present, rfl⟩ := Option.map_eq_some_iff.mp set
  obtain ⟨hook, here, linked⟩ := holds.lies.present present
  refine ⟨_, by rw [OffsetNode.setLink, here, Option.map_some], ?_⟩
  exact holds.update apart (.some (linked.set even l target))

theorem getColor_inPlace [DecidableEq N] (holds : InPlace place original heap m) {color : Int}
    (got : PlainNode.getColor heap n = some color) : OffsetNode.getColor m (place n) = some color := by
  obtain ⟨node, present, set⟩ := Option.bind_eq_some_iff.mp got
  obtain ⟨hook, here, linked⟩ := holds.lies.present present
  rw [OffsetNode.getColor, here, Option.map_some, linked.color color set]

theorem setColor_inPlace [DecidableEq N] (holds : InPlace place original heap m) (apart : Function.Injective place) {color : Int}
    (set : PlainNode.setColor heap n color = some after) :
    ∃ later, OffsetNode.setColor m (place n) color = some later ∧ InPlace place original after later := by
  obtain ⟨node, present, rfl⟩ := Option.map_eq_some_iff.mp set
  obtain ⟨hook, here, linked⟩ := holds.lies.present present
  refine ⟨_, by rw [OffsetNode.setColor, here, Option.map_some], ?_⟩
  refine holds.update apart (.some ⟨fun l => ?_, fun _ colored => Option.some.inj colored⟩)
  cases l with
  | parent => exact linked.link .parent
  | left => exact linked.link .left
  | right => exact linked.link .right

end

section
variable {P Q M M' : Type} {f : P → Q} {related : M → M' → Prop} {s after : M} {t : M'} {arguments : List (Option P)}
  {response : Response P}

theorem read_follows {get : P → Option (Option P)} {get' : Q → Option (Option Q)} (still : related s t)
    (same : ∀ n target, get n = some target → get' (f n) = some (target.map f)) (ran : read get s arguments = some (response, after)) :
    ∃ later, read get' t (arguments.map (Option.map f)) = some (response.map f, later) ∧ related after later := by
  unfold read at ran
  split at ran
  · obtain ⟨target, got, done⟩ := Option.map_eq_some_iff.mp ran
    cases done
    exact ⟨t, by simp [read, same _ target got, Response.map], still⟩
  · cases ran

theorem write_follows {set : P → Option P → Option M} {set' : Q → Option Q → Option M'}
    (same : ∀ n target after, set n target = some after → ∃ later, set' (f n) (target.map f) = some later ∧ related after later)
    (ran : write set arguments = some (response, after)) :
    ∃ later, write set' (arguments.map (Option.map f)) = some (response.map f, later) ∧ related after later := by
  unfold write at ran
  split at ran
  · obtain ⟨changed, did, done⟩ := Option.map_eq_some_iff.mp ran
    cases done
    obtain ⟨later, also, still⟩ := same _ _ _ did
    exact ⟨later, by simp [write, also, Response.map], still⟩
  · cases ran

theorem readNumber_follows {get : P → Option Int} {get' : Q → Option Int} (still : related s t)
    (same : ∀ n value, get n = some value → get' (f n) = some value) (ran : readNumber get s arguments = some (response, after)) :
    ∃ later, readNumber get' t (arguments.map (Option.map f)) = some (response.map f, later) ∧ related after later := by
  unfold readNumber at ran
  split at ran
  · obtain ⟨value, got, done⟩ := Option.map_eq_some_iff.mp ran
    cases done
    exact ⟨t, by simp [readNumber, same _ value got, Response.map], still⟩
  · cases ran

theorem writeNumber_follows {set : P → Option M} {set' : Q → Option M'}
    (same : ∀ n after, set n = some after → ∃ later, set' (f n) = some later ∧ related after later)
    (ran : writeNumber set arguments = some (response, after)) :
    ∃ later, writeNumber set' (arguments.map (Option.map f)) = some (response.map f, later) ∧ related after later := by
  unfold writeNumber at ran
  split at ran
  · obtain ⟨changed, did, done⟩ := Option.map_eq_some_iff.mp ran
    cases done
    obtain ⟨later, also, still⟩ := same _ _ did
    exact ⟨later, by simp [writeNumber, also, Response.map], still⟩
  · cases ran

theorem order_follows {less : P → P → Bool} {less' : Q → Q → Bool} (still : related s t)
    (same : ∀ a b, less' (f a) (f b) = less a b) (ran : order less s arguments = some (response, after)) :
    ∃ later, order less' t (arguments.map (Option.map f)) = some (response.map f, later) ∧ related after later := by
  unfold order at ran
  split at ran
  · cases ran
    exact ⟨t, by simp [order, same, Response.map], still⟩
  · cases ran

end

section
variable {N : Type} [DecidableEq N] {place : N → Int} {original : Heap}

/-- Every call on the links in the file is answered as the one on pointers is. -/
theorem answer_follows (apart : Function.Injective place) (even : ∀ n, 2 ∣ place n) {less : N → N → Bool} {less' : Int → Int → Bool}
    (same : ∀ a b, less' (place a) (place b) = less a b) :
    OpaquePointers.Follows place (InPlace place original) (PlainNode.answer less) (OffsetNode.answer less') := by
  intro heap m call arguments response after holds ran
  have reads (l : Link) : ∀ n target, PlainNode.getLink l heap n = some target → OffsetNode.getLink l m (place n) = some (target.map place) :=
    fun _ _ => getLink_inPlace holds l
  have writes (l : Link) : ∀ n target after, PlainNode.setLink l heap n target = some after →
      ∃ later, OffsetNode.setLink l m (place n) (target.map place) = some later ∧ InPlace place original after later :=
    fun _ _ _ => setLink_inPlace holds apart even l
  have colors : ∀ n color, PlainNode.getColor heap n = some color → OffsetNode.getColor m (place n) = some color :=
    fun _ _ => getColor_inPlace holds
  have paints (color : Int) : ∀ n after, PlainNode.setColor heap n color = some after →
      ∃ later, OffsetNode.setColor m (place n) color = some later ∧ InPlace place original after later :=
    fun _ _ => setColor_inPlace holds apart
  cases call with
  | getParent => exact read_follows holds (reads .parent) ran
  | setParent => exact write_follows (writes .parent) ran
  | getLeft => exact read_follows holds (reads .left) ran
  | setLeft => exact write_follows (writes .left) ran
  | getRight => exact read_follows holds (reads .right) ran
  | setRight => exact write_follows (writes .right) ran
  | getColor => exact readNumber_follows holds colors ran
  | setColor color => exact writeNumber_follows (paints color) ran
  | getBalance => exact readNumber_follows holds colors ran
  | setBalance balance => exact writeNumber_follows (paints balance) ran
  | getNext => exact read_follows holds (reads .right) ran
  | setNext => exact write_follows (writes .right) ran
  | getPrevious => exact read_follows holds (reads .left) ran
  | setPrevious => exact write_follows (writes .left) ran
  | compare => exact order_follows holds same ran

/-! ## The file through many mappings -/

omit [DecidableEq N] in
theorem LinkedAs.moved {n : N} {node : PlainNode N} {hook : Hook} (linked : LinkedAs place n node hook) (base : Int) :
    LinkedAs (base + place ·) n node hook := by
  refine ⟨fun l target set => ?_, linked.color⟩
  have there := linked.link l target set
  unfold OffsetNode.pointer at there ⊢
  split at there
  · rename_i null
    rw [if_pos null]
    cases target with
    | none => rfl
    | some other => cases there
  · rename_i link
    rw [if_neg link]
    cases target with
    | none => cases there
    | some other =>
      simp only [Option.map_some, Option.some.injEq] at there ⊢
      omega

omit [DecidableEq N] in
theorem InPlace.moved {heap : N → Option (PlainNode N)} {m : Heap} (holds : InPlace place original heap m) (base : Int) :
    InPlace (base + place ·) (mapped original base) heap (mapped m base) := by
  constructor
  · intro n
    simp only [mapped_add]
    have here := holds.lies n
    cases plain : heap n <;> cases found : m (place n) <;> rw [plain, found] at here
    · exact .none
    · cases here
    · cases here
    · cases here with
      | some linked => exact .some (linked.moved base)
  · intro a outside
    apply holds.frame (a - base)
    intro n same
    exact outside n (by omega)

/-- What happens to the nodes of a file: one is constructed, where there may be any bytes,
or destroyed; or an algorithm is run on some of them, in a process that has the file mapped
at `base`, and on objects that compare as they do at that time. -/
inductive TraitsStep (N : Type) where
  | construct (n : N) (bytes : Hook)
  | destroy (n : N)
  | algorithm (base : Int) (less : Int → Int → Bool) (arguments : List N) (next : Algorithm TraitsCall) (rounds : Nat)

namespace TraitsStep

def onPointers (place : N → Int) (heap : N → Option (PlainNode N)) : TraitsStep N → Option (List Seen × (N → Option (PlainNode N)))
  | .construct n _ => if heap n = none then some ([], Function.update heap n (some {})) else none
  | .destroy n => if heap n = none then none else some ([], Function.update heap n none)
  | .algorithm _ less arguments next rounds =>
    (OpaquePointers.run (PlainNode.answer fun a b => less (place a) (place b)) next rounds
      ⟨heap, none :: arguments.map some, []⟩).map fun s => (s.seen, s.memory)

def onLinks (place : N → Int) (image : Heap) : TraitsStep N → Option (List Seen × Heap)
  | .construct n bytes => if image (place n) = none then some ([], Function.update image (place n) (some bytes)) else none
  | .destroy n => if image (place n) = none then none else some ([], Function.update image (place n) none)
  | .algorithm base less arguments next rounds =>
    (OpaquePointers.run (OffsetNode.answer fun a b => less (a - base) (b - base)) next rounds
      ⟨mapped image base, none :: arguments.map fun n => some (base + place n), []⟩).map fun s => (s.seen, mapped s.memory (-base))

/-- The file is mapped at an even address. -/
def Even : TraitsStep N → Prop
  | .algorithm base _ _ _ _ => 2 ∣ base
  | .construct _ _ | .destroy _ => True

instance (s : TraitsStep N) : Decidable s.Even := by
  cases s <;> unfold Even <;> infer_instance

theorem onLinks_follows (apart : Function.Injective place) (even : ∀ n, 2 ∣ place n) {heap after : N → Option (PlainNode N)}
    {image : Heap} {seen : List Seen} (step : TraitsStep N) (aligned : step.Even) (holds : InPlace place original heap image)
    (ran : step.onPointers place heap = some (seen, after)) :
    ∃ later, step.onLinks place image = some (seen, later) ∧ InPlace place original after later := by
  cases step with
  | construct n bytes =>
    simp only [onPointers, Option.ite_none_right_eq_some, Option.some.injEq, Prod.mk.injEq] at ran
    obtain ⟨free, rfl, rfl⟩ := ran
    refine ⟨_, by rw [onLinks, if_pos (holds.lies.none_iff.mp free)], ?_⟩
    refine holds.update apart (.some ⟨fun l target set => ?_, fun _ set => by cases set⟩)
    cases l <;> cases set
  | destroy n =>
    simp only [onPointers, Option.ite_none_left_eq_some, Option.some.injEq, Prod.mk.injEq] at ran
    obtain ⟨there, rfl, rfl⟩ := ran
    refine ⟨_, by rw [onLinks, if_neg fun none => there (holds.lies.none_iff.mpr none)], ?_⟩
    exact holds.update apart .none
  | algorithm base less arguments next rounds =>
    obtain ⟨s, run, done⟩ := Option.map_eq_some_iff.mp ran
    cases done
    have apart_there : Function.Injective (base + place ·) := fun a b same => apart (by simpa using same)
    have follows : OpaquePointers.Follows (base + place ·) (InPlace (base + place ·) (mapped original base))
        (PlainNode.answer fun a b => less (place a) (place b)) (OffsetNode.answer fun a b => less (a - base) (b - base)) :=
      answer_follows apart_there (fun n => Int.dvd_add aligned (even n)) fun a b => by simp
    have start : OpaquePointers.Renamed (base + place ·) (InPlace (base + place ·) (mapped original base))
        ⟨heap, none :: arguments.map some, []⟩ ⟨mapped image base, none :: arguments.map fun n => some (base + place n), []⟩ :=
      ⟨holds.moved base, by simp, rfl⟩
    obtain ⟨later, again, renamed⟩ := OpaquePointers.run_renamed apart_there follows next start run
    refine ⟨mapped later.memory (-base), ?_, ?_⟩
    · simp [onLinks, again, renamed.seen]
    · have back := renamed.memory.moved (-base)
      simpa [mapped_mapped] using back

/-- Whatever algorithms are run on the nodes of a file, and wherever it is mapped for each of
them, they see on its links what they would see on pointers; and nothing but nodes changes. -/
theorem algorithms_anywhere (place : N → Int) (apart : Function.Injective place) (even : ∀ n, 2 ∣ place n)
    (heap last : N → Option (PlainNode N)) (image : Heap) (lies : Lies place heap image) (steps : List (TraitsStep N))
    (aligned : ∀ step ∈ steps, step.Even) (seen : List (List Seen)) (ran : Run.run (onPointers place) heap steps = some (seen, last)) :
    ∃ final, Run.run (onLinks place) image steps = some (seen, final) ∧ Lies place last final ∧
      ∀ a, (∀ n, place n ≠ a) → final a = image a := by
  have start : InPlace place image heap image := ⟨lies, fun _ _ => rfl⟩
  obtain ⟨final, run, holds⟩ := Run.forward (fun heap image seen after step member holds ran =>
    onLinks_follows apart even step (aligned step member) holds ran) start ran
  exact ⟨final, run, holds.lies, holds.frame⟩

/-- A node is linked behind the root of a list, and the list is read where the file is mapped
next. -/
theorem algorithms_anywhere_list :
    let place : Nat → Int := fun n => 16 * n
    let script (calls : List (OpaquePointers.Call TraitsCall)) : Algorithm TraitsCall := fun seen => calls[seen.length]?
    let steps : List (TraitsStep Nat) :=
      [.construct 0 ⟨1, 1, 1, 0⟩, .construct 1 ⟨5, 16, 1, 7⟩,
        .algorithm 4096 (fun a b => a < b) [0, 1] (script [⟨.setNext, [1, 2]⟩, ⟨.setNext, [2, 1]⟩, ⟨.setColor 2, [2]⟩]) 3,
        .algorithm 8192 (fun a b => a < b) [0] (script [⟨.getNext, [1]⟩, ⟨.getNext, [2]⟩, ⟨.getColor, [2]⟩]) 3]
    let seen : List (List Seen) :=
      [[], [], [.nothing, .nothing, .nothing],
        [.pointer false [false, false], .pointer false [false, true, false], .number 2]]
    let last := ((Run.run (onPointers place) (fun _ => none) steps).map Prod.snd).getD fun _ => none
    ∃ final, Run.run (onLinks place) (fun _ => none) steps = some (seen, final) ∧ Lies place last final ∧
      ∀ a, (∀ n, place n ≠ a) → final a = none := by
  intro place script steps seen last
  have apart : Function.Injective place := fun a b same => by
    simp only [place] at same
    omega
  have even (n : Nat) : 2 ∣ place n := by
    simp only [place]
    omega
  exact algorithms_anywhere place apart even (fun _ => none) last (fun _ => none) (fun _ => .none) steps (by decide) seen rfl

end TraitsStep

end

end ChainBase
