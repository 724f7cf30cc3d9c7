import Saa.Permits
import Saa.Poison
import Saa.Rounds

/-! # Queries

`is_free`, `available_permits`, `count` and the like, and the `Debug` output of the primitives,
read the state word once. What they say agrees with the history in every state. -/
namespace Saa

open Word Lib.Linked Lib.Trace

/-- `Lock::is_free`. -/
def isFree (state : ℕ) : Bool := state ≠ POISONED_STATE ∧ data state = 0

/-- `Lock::is_locked`. -/
def isLocked (state : ℕ) : Bool := data state = DATA_MASK

/-- `Lock::is_shared`. -/
def isShared (state : ℕ) : Bool := data state ≠ 0 ∧ data state ≠ DATA_MASK

/-- `Lock::is_poisoned`. -/
def isPoisoned (state : ℕ) : Bool := state = POISONED_STATE

/-- `Semaphore::is_open`. -/
def isOpen (state : ℕ) : Bool := data state ≠ MAX_PERMITS

/-- `Semaphore::is_closed`. -/
def isClosed (state : ℕ) : Bool := data state = DATA_MASK

/-- `Semaphore::available_permits`. -/
def availablePermits (state : ℕ) : ℕ := MAX_PERMITS - data state

/-- `Barrier::count`. -/
def barrierCount (state : ℕ) : ℕ := data state

/-- The fields that every `Debug` implementation prints of the queue. -/
structure QueueDebug where
  beingProcessed : Bool
  tailAddr : ℕ
  deriving DecidableEq, Repr

def queueDebug (state : ℕ) : QueueDebug := ⟨Locked state, anchor state⟩

/-- The fields of the `Debug` implementation of `Lock`. -/
structure LockDebug where
  state : ℕ
  locked : Bool
  shareCount : ℕ
  poisoned : Bool
  queue : QueueDebug
  deriving DecidableEq, Repr

def lockDebug (state : ℕ) : LockDebug where
  state := state
  locked := data state = DATA_MASK
  shareCount := if data state = DATA_MASK then 0 else data state
  poisoned := state = POISONED_STATE
  queue := queueDebug state

/-- What the `Debug` output of a queue says: somebody is at work on it, or the lock is
poisoned, and the last entry that came. -/
def QueueDebug.Shows (d : QueueDebug) (s : Cfg) (v : View) : Prop :=
  (d.beingProcessed = true ↔ (∃ t, (s.pc t).Holds) ∨ s.word = POISONED_STATE) ∧
  d.tailAddr = v.queue.headD 0

section
variable {kind : Kind} {s : Cfg} {v : View} {h : List Event} {n : ℕ}

theorem Inv.shows (hi : Inv kind s v) : (queueDebug s.word).Shows s v := by
  constructor
  · simp only [queueDebug, decide_eq_true_eq]
    constructor
    · intro hl
      exact (hi.locked hl).imp id And.right
    · rintro (⟨t, ht⟩ | hw)
      · exact hi.word_locked ht
      · exact (hi.poisoned_iff.mp hw).1
  · have hchain := hi.glob.chain
    cases hq : v.queue with
    | nil =>
      rw [hq] at hchain
      exact hchain
    | cons a l =>
      rw [hq] at hchain
      exact hchain.head

theorem lock_predicates (state : ℕ) :
    [isPoisoned, isLocked, isShared, isFree].countP (· state) = 1 := by
  by_cases hw : state = POISONED_STATE
  · subst hw
    decide
  have hne : DATA_MASK ≠ 0 := by decide
  by_cases hm : data state = DATA_MASK
  · simp [isPoisoned, isLocked, isShared, isFree, hw, hm, hne]
  · by_cases hz : data state = 0
    · simp [isPoisoned, isLocked, isShared, isFree, hw, hz, hne.symm]
    · simp [isPoisoned, isLocked, isShared, isFree, hw, hm, hz]

/-- The queries of a lock agree with its history. In every run whose callers release and poison
only what they own, and in which no drop of an entry that was told `POISONED` releases what
somebody else acquired, a lock is `is_poisoned` if it was poisoned and not cleared since,
`is_locked` if it has an exclusive owner, `is_shared` if it has shared owners, and `is_free` if it
has no owner and is not poisoned; exactly one of these holds. The `Debug` output counts the
shared owners, and it shows the newest waiter. -/
theorem lock_queries (hr : Reach .lock Disciplined s h) :
    (isPoisoned s.word = true ↔ poisoned h = true) ∧
    (isLocked s.word = true ↔ (ledger h).owners .exclusive = 1) ∧
    (isShared s.word = true ↔ 0 < (ledger h).owners .shared) ∧
    (isFree s.word = true ↔ poisoned h = false ∧ (ledger h).owners .exclusive = 0 ∧
      (ledger h).owners .shared = 0) ∧
    [isPoisoned, isLocked, isShared, isFree].countP (· s.word) = 1 ∧
    (lockDebug s.word).locked = isLocked s.word ∧
    (lockDebug s.word).poisoned = isPoisoned s.word ∧
    (lockDebug s.word).shareCount = (ledger h).owners .shared ∧
    (lockDebug s.word).queue.Shows s (view h) := by
  obtain ⟨ha, hb⟩ := reach_books hr
  obtain ⟨hex, hsh, hle⟩ := hb.owners ha
  have hpo := reach_poisoned hr.any
  have hi := reach_inv (by simp) hr
  have hm : DATA_MASK = 63 := by decide
  have hpz : s.word = POISONED_STATE → data s.word = 0 := by
    intro hw
    rw [hw]
    decide
  simp only [isPoisoned, isLocked, isShared, isFree, lockDebug, decide_eq_true_eq]
  refine ⟨hpo, ?_, ?_, ?_, lock_predicates s.word, trivial, trivial, ?_, hi.shows⟩
  · refine ⟨fun hd => (hex.mp hd).1, fun hone => ?_⟩
    by_contra hd
    have := (hsh hd).1
    omega
  · constructor
    · rintro ⟨hz, hd⟩
      have := (hsh hd).2
      omega
    · intro hpos
      have hd : data s.word ≠ DATA_MASK := fun hd => by
        have := (hex.mp hd).2
        omega
      have := (hsh hd).2
      exact ⟨by omega, hd⟩
  · rw [← Bool.not_eq_true, ← hpo]
    constructor
    · rintro ⟨hw, hz⟩
      obtain ⟨h₁, h₂⟩ := hsh (by omega)
      exact ⟨hw, h₁, by omega⟩
    · rintro ⟨hw, h₁, h₂⟩
      refine ⟨hw, ?_⟩
      by_cases hd : data s.word = DATA_MASK
      · have := (hex.mp hd).1
        omega
      · rw [(hsh hd).2]
        exact h₂
  · split
    · next hd => exact ((hex.mp hd).2).symm
    · next hd => exact (hsh hd).2

/-- The queries of a semaphore agree with its history. In every run whose callers release only
permits that callers acquired or that were withheld at the start, what is available is what the
semaphore was made with and what was released, less what was acquired by calls and by entries,
and the difference never wraps. `is_open` and `is_closed` say whether that is something. -/
theorem semaphore_queries (hr : Reach (.semaphore n) (Accounted n) s h) :
    availablePermits s.word + (permits h).acquired + total (ledger h).ops (ledger h).granted =
      min n MAX_PERMITS + (permits h).released ∧
    (isOpen s.word = true ↔ 0 < availablePermits s.word) ∧
    (isClosed s.word = true ↔ availablePermits s.word = 0) ∧
    (queueDebug s.word).Shows s (view h) := by
  obtain ⟨-, hb⟩ := reach_budget hr
  have hsum := hb.sum
  rw [permits_ledger] at hsum
  have hd := data_lt s.word
  have hm : MAX_PERMITS = 63 := by decide
  have hmask : DATA_MASK = 63 := by decide
  have hi := reach_inv (by simp) hr
  unfold Ledger.charge withheld at hsum
  simp only [availablePermits, isOpen, isClosed, decide_eq_true_eq]
  refine ⟨?_, ?_, ?_, hi.shows⟩ <;> omega

/-- What `Barrier::count` returns, in every run of a barrier of size at least one in which no
future is dropped: the number of tasks that the current generation still misses, or zero while
its last task sets the counter back. -/
theorem barrier_queries (hn : 1 ≤ n) (hr : Reach (.barrier n) Undropped s h) :
    (barrierCount s.word ≠ 0 →
      barrierCount s.word + (rounds h).arrived = ((rounds h).backs + 1) * tasks n) ∧
    (barrierCount s.word = 0 ↔ ∃ t, (s.pc t).Closing) ∧
    barrierCount s.word ≤ tasks n ∧ (queueDebug s.word).Shows s (view h) := by
  obtain ⟨hcare, -⟩ := reach_attends hr
  obtain ⟨hi, -⟩ := reach_barrier (Careful.polite hcare)
  rcases (reach_rounded (tasks_pos hn) hcare).phase with hf | ⟨t, hc⟩
  · have hsum := hf.sum
    have harr := hf.arrived
    refine ⟨fun _ => ?_, ⟨fun hz => absurd hz hf.pos, fun ⟨t, ht⟩ => absurd ht (hf.calm t)⟩, ?_,
      hi.shows⟩
    · unfold barrierCount
      rw [Nat.add_mul]
      omega
    · unfold barrierCount
      omega
  · have hz := hc.zero
    refine ⟨fun hne => absurd hz hne, ⟨fun _ => ⟨t, hc.closing⟩, fun _ => hz⟩, ?_, hi.shows⟩
    unfold barrierCount
    omega

end

/-- Two owners share the lock, one of them a pager that was not polled. -/
theorem lock_queries_sharing :
    ∃ s h, execIf (system .lock) Disciplined (Kind.initial .lock) [] sharing = some (s, h) ∧
      (isShared s.word = true ↔ 0 < (ledger h).owners .shared) ∧
      (lockDebug s.word).shareCount = (ledger h).owners .shared := by
  obtain ⟨s, h, hrun⟩ : ∃ s h, execIf (system .lock) Disciplined (Kind.initial .lock) []
      sharing = some (s, h) := ⟨_, _, rfl⟩
  obtain ⟨-, -, hshared, -, -, -, -, hcount, -⟩ := lock_queries (Run.execIf .init hrun)
  exact ⟨s, h, hrun, hshared, hcount⟩

/-- The permit that a dropped pager was granted is available again. -/
theorem semaphore_queries_abandoned :
    ∃ s h, execIf (system (.semaphore 1)) (Accounted 1) (Kind.initial (.semaphore 1)) []
        abandoned = some (s, h) ∧
      availablePermits s.word + (permits h).acquired + total (ledger h).ops (ledger h).granted =
        1 + (permits h).released := by
  obtain ⟨s, h, hrun⟩ : ∃ s h, execIf (system (.semaphore 1)) (Accounted 1)
      (Kind.initial (.semaphore 1)) [] abandoned = some (s, h) := ⟨_, _, rfl⟩
  exact ⟨s, h, hrun, (semaphore_queries (Run.execIf .init hrun)).1⟩

theorem barrier_queries_meeting :
    ∃ s h, execIf (system (.barrier 2)) Undropped (Kind.initial (.barrier 2)) []
        (meeting.take 4) = some (s, h) ∧ (rounds h).arrived = 1 ∧
      (barrierCount s.word ≠ 0 → barrierCount s.word + 1 = ((rounds h).backs + 1) * tasks 2) := by
  obtain ⟨s, h, hrun, harr⟩ : ∃ s h, execIf (system (.barrier 2)) Undropped
      (Kind.initial (.barrier 2)) [] (meeting.take 4) = some (s, h) ∧ (rounds h).arrived = 1 :=
    ⟨_, _, rfl, rfl⟩
  have hcount := (barrier_queries (by decide) (Run.execIf .init hrun)).1
  rw [harr] at hcount
  exact ⟨s, h, hrun, harr, hcount⟩

end Saa
