import Mathlib.Logic.Function.Basic
import Saa.Opcode

/-! # Shared memory and program points

One primitive, any number of threads. An entry is named by its anchor address, zero
being the null pointer; its fields are separate maps, since the threads access them
as separate atomics. A program point carries the local variables live at it. -/
namespace Saa

open Word

abbrev Tid := ℕ
abbrev Ptr := ℕ

/-- The primitive, with the argument of its constructor. -/
inductive Kind where
  | lock
  | semaphore (permits : ℕ)
  | barrier (count : ℕ)
  | gate
  deriving DecidableEq, Repr

def MAX_SHARED_OWNERS : ℕ := DATA_MASK - 1

def POISONED_STATE : ℕ := LOCKED_FLAG

def ACQUIRED : ℕ := 0

def NOT_ACQUIRED : ℕ := 1

def POISONED : ℕ := 2

def MAX_SPIN_COUNT : ℕ := 128

def MAX_PERMITS : ℕ := DATA_MASK

def MAX_TASKS : ℕ := DATA_MASK

/-- `SyncPrimitive::max_shared_owners`. -/
def Kind.maxSharedOwners : Kind → ℕ
  | .lock => MAX_SHARED_OWNERS
  | .semaphore _ => MAX_PERMITS
  | .barrier _ => MAX_TASKS
  | .gate => 2 ^ 64 - 1

/-- The word written by `new`, `with_permits` and `with_count`. -/
def Kind.initialWord : Kind → ℕ
  | .lock | .gate => 0
  | .semaphore permits => MAX_PERMITS - min permits MAX_PERMITS
  | .barrier count => min MAX_TASKS count

inductive Mode where
  | exclusive | shared | waitExclusive | waitShared
  deriving DecidableEq, Repr

/-- The opcode `Lock::register_pager` and the blocking calls give to a mode. -/
def Mode.opcode : Mode → Opcode
  | .exclusive => .exclusive
  | .shared => .shared
  | .waitExclusive => .wait DATA_MASK
  | .waitShared => .wait 1

inductive GateState where
  | controlled | sealed | opened
  deriving DecidableEq, Repr

def GateState.toNat : GateState → ℕ
  | .controlled => 0
  | .sealed => 1
  | .opened => 2

def GateState.ofUsize : ℕ → GateState
  | 0 => .controlled
  | 1 => .sealed
  | _ => .opened

inductive GateError where
  | rejected | sealed | spuriousFailure | notRegistered | wrongMode | notReady
  deriving DecidableEq, Repr

def GateError.toNat : GateError → ℕ
  | .rejected => 4
  | .sealed => 8
  | .spuriousFailure => 12
  | .notRegistered => 16
  | .wrongMode => 20
  | .notReady => 24

def GateError.ofUsize : ℕ → GateError
  | 4 => .rejected
  | 8 => .sealed
  | 12 => .spuriousFailure
  | 16 => .notRegistered
  | 20 => .wrongMode
  | _ => .notReady

/-- `Gate::into_u8`. -/
def intoU8 (state : GateState) (error : Option GateError) : ℕ :=
  state.toNat ||| (error.map GateError.toNat).getD 0

def STATE_MASK : ℕ := 3

/-- `Gate::to_result` of a code that was stored: a `u8` without its two state bits is the
error. -/
def toResult (value : ℕ) : Except GateError GateState :=
  let error := value &&& (2 ^ 8 - 1 - STATE_MASK)
  if error ≠ 0 then .error (.ofUsize error) else .ok (.ofUsize (value &&& STATE_MASK))

/-- What an acquiring call wants from the primitive. -/
inductive Goal where
  | lock (mode : Mode)
  | permits (count : ℕ)
  | enter
  | arrive
  deriving DecidableEq, Repr

/-- How the call was made: `try_*`, a blocking call, a future, or `register_pager`. -/
inductive Via where
  | tryOnly | sync | async | pager
  deriving DecidableEq, Repr

/-- An acquiring call and the entry it may enqueue. -/
structure Req where
  goal : Goal
  via : Via
  entry : Ptr
  deriving DecidableEq, Repr

/-- The opcode passed to `construct` for the call. -/
def Goal.opcode : Goal → Opcode
  | .lock mode => mode.opcode
  | .permits count => .semaphore count
  | .enter => .wait 0
  | .arrive => .barrier false

/-- `Entry::state` without `WAKER_SET`: the stored result and the two result flags. -/
structure EntryState where
  result : ℕ
  resultSet : Bool
  finalized : Bool
  deriving DecidableEq, Repr

def EntryState.clear : EntryState := ⟨0, false, false⟩

/-- Who may touch a `WaitQueue`: it does not exist, its pager is not borrowed, or the
call a thread is running borrows it. -/
inductive Slot where
  | none | pager | used (t : Tid)
  deriving DecidableEq, Repr

/-- Who holds a share of the resource: a caller, or an entry that was not consumed yet. -/
inductive Holder where
  | caller (t : Tid)
  | entry (a : Ptr)
  deriving DecidableEq, Repr

/-- Where `process_wait_queue` returns to. -/
inductive After where
  | returned
  | finish (a : Ptr)
  | complete (a : Ptr) (state : ℕ)
  deriving DecidableEq, Repr

/-- What follows the loop that resolves a detached list. -/
inductive Then where
  | pass (state : ℕ) (head : Ptr) (k : After)
  | leave (k : After)
  | poisoned
  | woken
  | acknowledge (a : Ptr)
  | writeBack (q : Req)
  | last (q : Req)
  deriving DecidableEq, Repr

inductive Pc where
  | idle
  /-- A null anchor was followed. -/
  | fault
  | start (q : Req)
  | attempt (q : Req) (state spin : ℕ)
  | push (q : Req) (state : ℕ)
  | pushed (q : Req) (retry : Bool)
  | settle (q : Req) (result : ℕ)
  | settled (q : Req)
  | await (q : Req) (retry : Bool)
  | writeBack (q : Req) (count : ℕ)
  | releaseFast (op : Opcode)
  | releaseLoop (h : Holder) (op : Opcode) (state : ℕ)
  | poisonFast
  | poisonLoop (state : ℕ)
  | clearPoison
  | wakeAll (next : Option GateState) (error : Option GateError) (k : Then)
  | gateReset
  | gateDrop (a : Ptr)
  | acknowledge (a : Ptr)
  | walk (state : ℕ) (cur : Ptr) (k : After)
  | relink (state : ℕ) (head cur : Ptr) (k : After)
  | back (state : ℕ) (head cur : Ptr) (transferred : ℕ) (resolved : Ptr) (k : After)
  | tailReset (state : ℕ) (cur : Ptr) (transferred : ℕ) (resolved : Ptr) (k : After)
  | update (state : ℕ) (head : Ptr) (transferred : ℕ) (resolved : Ptr) (k : After)
  | add (state : ℕ) (head : Ptr) (transferred : ℕ) (resolved : Ptr) (k : After)
  | resolve (cur : Ptr) (result count : ℕ) (k : Then)
  | finalize (cur next : Ptr) (result count : ℕ) (k : Then)
  | remove (a : Ptr) (found state : ℕ) (cur : Ptr) (again : Bool)
  | dropLoad (a : Ptr)
  | dropLoop (a : Ptr) (state : ℕ)
  | complete (a : Ptr) (state : ℕ)
  | finish (a : Ptr)
  deriving DecidableEq, Repr

structure Cfg where
  word : ℕ
  next : Ptr → Ptr
  prev : Ptr → Ptr
  opcode : Ptr → Opcode
  state : Ptr → EntryState
  pollable : Ptr → Bool
  slot : Ptr → Slot
  pc : Tid → Pc

def Kind.initial (k : Kind) : Cfg where
  word := k.initialWord
  next := fun _ => 0
  prev := fun _ => 0
  opcode := fun _ => .wait 0
  state := fun _ => .clear
  pollable := fun _ => false
  slot := fun _ => .none
  pc := fun _ => .idle

/-- The calls an idle thread can make on the primitive or on a pager of it. -/
inductive Op where
  | acquire (q : Req)
  | poll (a : Ptr)
  | drop (a : Ptr)
  | releaseLock
  | releaseShare
  | poisonLock
  | clearPoison
  | release
  | releaseMany (count : ℕ)
  | permit
  | reject
  | open
  | seal
  | reset
  deriving DecidableEq, Repr

/-- The scheduler picks a thread: it enters a call, takes the next step of its call, or
the future it is suspended in is dropped. -/
inductive Action where
  | call (t : Tid) (op : Op)
  | run (t : Tid)
  | cancel (t : Tid)
  deriving DecidableEq, Repr

/-- What a step did, as far as histories record it. -/
inductive Event where
  | tau
  | call (t : Tid) (op : Op)
  | refuse (t : Tid) (result : ℕ)
  | acquire (t : Tid) (h : Holder) (op : Opcode)
  | release (t : Tid) (h : Holder) (op : Opcode)
  | push (t : Tid) (a : Ptr) (op : Opcode)
  | countDown (t : Tid) (a : Ptr) (op : Opcode)
  | last (t : Tid) (a : Ptr)
  | writeBack (t : Tid) (count : ℕ)
  | lockQueue (t : Tid)
  | cut (t : Tid) (a : Ptr)
  | tailReset (t : Tid)
  | grant (t : Tid) (transferred : ℕ)
  | unlink (t : Tid) (a : Ptr)
  | poison (t : Tid)
  | clearPoison (t : Tid)
  | wakeAll (t : Tid) (prev : GateState)
  | reset (t : Tid) (prev : GateState)
  | woke (t : Tid) (count : ℕ)
  | setResult (t : Tid) (a : Ptr) (result : ℕ)
  | finalize (t : Tid) (a : Ptr)
  | consume (t : Tid) (a : Ptr) (result : ℕ)
  | retry (t : Tid) (a : Ptr)
  | dropped (t : Tid) (a : Ptr)
  deriving DecidableEq, Repr

/-- An address that can be the anchor of an entry: a multiple of the virtual alignment,
above the first two lines of the address space. -/
def IsAnchor (a : Ptr) : Prop := a % VIRTUAL_ALIGNMENT = 0 ∧ 2 * VIRTUAL_ALIGNMENT ≤ a

instance (a : Ptr) : Decidable (IsAnchor a) := inferInstanceAs (Decidable (_ ∧ _))

end Saa
