import Saa.Config

/-! # One step of one thread

Each function below is one source function cut at its accesses to the state word:
a step does at most one atomic operation on the word, plus accesses to the entry it
visits. A `compare_exchange` is a comparison of the word with the local snapshot. -/
namespace Saa

open Word

def Cfg.goto (s : Cfg) (t : Tid) (p : Pc) : Cfg := { s with pc := Function.update s.pc t p }

section
variable (s : Cfg) (t : Tid) (p : Pc)

@[simp] theorem goto_word : (s.goto t p).word = s.word := rfl
@[simp] theorem goto_next : (s.goto t p).next = s.next := rfl
@[simp] theorem goto_prev : (s.goto t p).prev = s.prev := rfl
@[simp] theorem goto_opcode : (s.goto t p).opcode = s.opcode := rfl
@[simp] theorem goto_state : (s.goto t p).state = s.state := rfl
@[simp] theorem goto_pollable : (s.goto t p).pollable = s.pollable := rfl
@[simp] theorem goto_slot : (s.goto t p).slot = s.slot := rfl
@[simp] theorem goto_pc_self : (s.goto t p).pc t = p := Function.update_self ..

theorem goto_pc_of_ne {u : Tid} (h : u ≠ t) : (s.goto t p).pc u = s.pc u :=
  Function.update_of_ne h _ _

end

/-- `WaitQueue::construct`. A reused entry keeps its next link, its state and its flag. -/
def Cfg.construct (s : Cfg) (a : Ptr) (op : Opcode) (hadEntry : Bool) : Cfg :=
  if hadEntry then
    { s with prev := Function.update s.prev a 0, opcode := Function.update s.opcode a op }
  else
    { s with
      next := Function.update s.next a 0
      prev := Function.update s.prev a 0
      opcode := Function.update s.opcode a op
      state := Function.update s.state a .clear
      pollable := Function.update s.pollable a false }

/-- The call returns: an entry on its stack is gone, a pager is handed back. -/
def Cfg.leave (s : Cfg) (t : Tid) (q : Req) : Cfg :=
  match q.via with
  | .tryOnly => s.goto t .idle
  | .pager => { s with slot := Function.update s.slot q.entry .pager }.goto t .idle
  | .sync | .async => { s with slot := Function.update s.slot q.entry .none }.goto t .idle

/-- The CAS of `Entry::set_result`: flags and result are or-ed into the entry state. -/
def EntryState.set (e : EntryState) (result : ℕ) : EntryState :=
  { e with result := e.result ||| result, resultSet := true }

def Cfg.setResult (s : Cfg) (a : Ptr) (result : ℕ) : Cfg :=
  { s with
    state := Function.update s.state a ((s.state a).set result)
    pollable := Function.update s.pollable a true }

def Cfg.setFinalized (s : Cfg) (a : Ptr) : Cfg :=
  { s with state := Function.update s.state a { s.state a with finalized := true } }

/-- The stores of `Entry::try_consume_result` once the result is finalized. -/
def Cfg.consume (s : Cfg) (a : Ptr) : Cfg :=
  { s with
    state := Function.update s.state a .clear
    pollable := Function.update s.pollable a false }

/-- One iteration of an acquisition loop on the snapshot it read: try to write a new word,
return a result code, or report that the caller has to queue. -/
inductive Attempt where
  | cas (new : ℕ)
  | done (result : ℕ)
  | blocked
  deriving DecidableEq, Repr

/-- `Lock::try_lock_internal`. -/
def tryLockInternal (state : ℕ) : Attempt :=
  if state = POISONED_STATE then .done POISONED
  else if state ≠ 0 then .blocked
  else .cas DATA_MASK

/-- `Lock::try_share_internal`. -/
def tryShareInternal (state : ℕ) : Attempt :=
  if state = POISONED_STATE then .done POISONED
  else if MAX_SHARED_OWNERS ≤ state then .blocked
  else .cas (state + 1)

/-- The wait modes of `Lock::register_pager`. The word is compared with the result code
`POISONED`, as in the source. -/
def waitInternal (mode : Mode) (state : ℕ) : Attempt :=
  if state = POISONED then .done POISONED
  else if (mode = .waitExclusive ∧ data state = 0) ∨
      (mode = .waitShared ∧ data state < MAX_SHARED_OWNERS) then .done ACQUIRED
  else .blocked

/-- `Semaphore::try_acquire_internal`. -/
def tryAcquireInternal (count state : ℕ) : Attempt :=
  if anchor state ≠ 0 ∨ MAX_PERMITS < data state + count then .blocked
  else .cas (state + count)

/-- The match of `Gate::push_wait_queue_entry`. -/
def pushWaitQueueEntry (state : ℕ) : Attempt :=
  match GateState.ofUsize (data state) with
  | .controlled => .blocked
  | .sealed => .done (intoU8 .sealed (some .sealed))
  | .opened => .done (intoU8 .opened none)

def Goal.attempt : Goal → ℕ → Attempt
  | .lock .exclusive => tryLockInternal
  | .lock .shared => tryShareInternal
  | .lock mode => waitInternal mode
  | .permits count => tryAcquireInternal count
  | .enter => pushWaitQueueEntry
  | .arrive => fun _ => .blocked

/-- Only `try_lock_internal_spin` and `try_share_internal_spin` repeat a blocked attempt. -/
def Goal.spins : Goal → Bool
  | .lock .exclusive | .lock .shared => true
  | _ => false

/-- The word was updated in favour of the call. -/
def acquired (s : Cfg) (t : Tid) (q : Req) (new : ℕ) : Event × Cfg :=
  match q.via with
  | .pager => (.acquire t (.entry q.entry) q.goal.opcode,
      { s with word := new }.goto t (.settle q ACQUIRED))
  | _ => (.acquire t (.caller t) q.goal.opcode, { s with word := new }.leave t q)

/-- A result code is known without queueing: a pager stores it, a lock call returns it. -/
def answered (s : Cfg) (t : Tid) (q : Req) (result : ℕ) : Event × Cfg :=
  if q.via = .pager ∨ q.goal = .enter then (.tau, s.goto t (.settle q result))
  else (.refuse t result, s.leave t q)

/-- The attempt failed. The blocking calls build a fresh entry here, the others did before. -/
def blocked (s : Cfg) (t : Tid) (q : Req) (state : ℕ) : Event × Cfg :=
  if q.via = .tryOnly then (.refuse t NOT_ACQUIRED, s.leave t q)
  else if q.via = .pager ∨ q.goal = .enter then (.tau, s.goto t (.push q state))
  else (.tau, (s.construct q.entry q.goal.opcode false).goto t (.push q state))

/-- The first access of an acquiring call: the compare-exchange (or `fetch_update`) of the
spinning lock calls, a load everywhere else. -/
def startStep (s : Cfg) (t : Tid) (q : Req) : Event × Cfg :=
  if q.via ≠ .tryOnly ∧ q.goal = .lock .exclusive ∧ s.word = 0 then acquired s t q DATA_MASK
  else if q.via ≠ .tryOnly ∧ q.goal = .lock .shared ∧ s.word < MAX_SHARED_OWNERS then
    acquired s t q (s.word + 1)
  else (.tau, s.goto t (.attempt q s.word 0))

/-- One iteration of `Barrier::count_down`. -/
def countDown (s : Cfg) (t : Tid) (q : Req) (state : ℕ) : Event × Cfg :=
  if data state = 0 then
    (.tau, (s.construct q.entry (.barrier true) true).goto t (.push q state))
  else if data state = 1 then
    if s.word = state then
      (.last t q.entry, { s with word := 0 }.goto t (.resolve (anchor state) 0 0 (.writeBack q)))
    else (.tau, s.goto t (.attempt q s.word 0))
  else if s.word = state then
    (.countDown t q.entry (s.opcode q.entry),
      { s with
        word := join q.entry (tag (state - 1))
        next := Function.update s.next q.entry (anchor state) }.goto t (.pushed q false))
  else (.tau, { s with next := Function.update s.next q.entry (anchor state) }.goto t
      (.attempt q s.word 0))

def attemptStep (s : Cfg) (t : Tid) (q : Req) (state spin : ℕ) : Event × Cfg :=
  if q.goal = .arrive then countDown s t q state
  else match q.goal.attempt state with
    | .cas new =>
      if s.word = state then acquired s t q new else (.tau, s.goto t (.attempt q s.word spin))
    | .done result => answered s t q result
    | .blocked =>
      if q.goal.spins ∧ q.via ≠ .tryOnly ∧ spin + 1 < MAX_SPIN_COUNT then
        (.tau, s.goto t (.attempt q state (spin + 1)))
      else blocked s t q state

/-- `SyncPrimitive::try_push_wait_queue_entry`; every caller starts over when it fails. -/
def tryPushWaitQueueEntry (s : Cfg) (t : Tid) (q : Req) (state : ℕ) : Event × Cfg :=
  if s.word = state then
    (.push t q.entry (s.opcode q.entry),
      { s with
        word := join q.entry (tag state)
        next := Function.update s.next q.entry (anchor state) }.goto t
          (.pushed q (decide (q.goal = Goal.arrive))))
  else (.tau, { s with next := Function.update s.next q.entry (anchor state) }.goto t (.start q))

/-- `Entry::set_pollable`, then the call returns or waits. -/
def pushedStep (s : Cfg) (t : Tid) (q : Req) (retry : Bool) : Event × Cfg :=
  let s' := { s with pollable := Function.update s.pollable q.entry true }
  (.tau, if q.via = .pager then s'.leave t q else s'.goto t (.await q retry))

/-- `fetch_or(RESULT_FINALIZED)` on the thread's own entry. -/
def settledStep (s : Cfg) (t : Tid) (q : Req) : Event × Cfg :=
  let s' := s.setFinalized q.entry
  (.finalize t q.entry, if q.via = .pager then s'.leave t q else s'.goto t (.await q false))

/-- One poll by the waiting call. A wait-only barrier entry sends its owner back to
`count_down`, every other result ends the call. -/
def awaitStep (s : Cfg) (t : Tid) (q : Req) (retry : Bool) : Event × Cfg :=
  if (s.state q.entry).finalized then
    if retry then
      (.retry t q.entry,
        ((s.consume q.entry).construct q.entry (.barrier false) true).goto t (.start q))
    else (.consume t q.entry (s.state q.entry).result, (s.consume q.entry).leave t q)
  else (.tau, s)

/-- The `swap` of `Barrier::count_down`. -/
def writeBackStep (s : Cfg) (t : Tid) (q : Req) (count : ℕ) : Event × Cfg :=
  (.writeBack t count,
    { s with word := count }.goto t (.resolve (anchor s.word) 2 0 (.last q)))

def After.pc : After → Pc
  | .returned => .idle
  | .finish a => .finish a
  | .complete a state => .complete a state

/-- The top of the loop of `process_wait_queue`. -/
def passStart (state : ℕ) (head : Ptr) (k : After) : Pc :=
  if head = 0 then .walk state (anchor state) k else .relink state head (anchor state) k

/-- `Entry::iter_forward(tail, true, ..)` looking for the head. -/
def walkStep (s : Cfg) (t : Tid) (state : ℕ) (cur : Ptr) (k : After) : Event × Cfg :=
  if cur = 0 then (.tau, s.goto t .fault)
  else if s.next cur = 0 then (.tau, s.goto t (.back state cur cur 0 0 k))
  else (.tau, { s with prev := Function.update s.prev (s.next cur) cur }.goto t
      (.walk state (s.next cur) k))

/-- `Entry::set_prev_ptr`. -/
def relinkStep (s : Cfg) (t : Tid) (state : ℕ) (head cur : Ptr) (k : After) : Event × Cfg :=
  if cur = 0 then (.tau, s.goto t .fault)
  else if s.next cur ≠ 0 ∧ s.prev (s.next cur) = 0 then
    (.tau, { s with prev := Function.update s.prev (s.next cur) cur }.goto t
      (.relink state head (s.next cur) k))
  else (.tau, s.goto t (.back state head head 0 0 k))

/-- The closure `process_wait_queue` passes to `Entry::iter_backward`. -/
def backStep (kind : Kind) (s : Cfg) (t : Tid) (state : ℕ) (head cur : Ptr) (transferred : ℕ)
    (resolved : Ptr) (k : After) : Event × Cfg :=
  if cur = 0 then (.tau, s.goto t (.update state head transferred resolved k))
  else if Grantable kind.maxSharedOwners (data state + transferred) (s.opcode cur) then
    if s.prev cur ≠ 0 then
      (.tau, s.goto t (.back state head (s.prev cur)
        (transferred + (s.opcode cur).acquiredCount) cur k))
    else (.tau, s.goto t (.tailReset state cur transferred resolved k))
  else (.cut t cur, { s with next := Function.update s.next cur 0 }.goto t
      (.update state cur transferred resolved k))

/-- The compare-exchange on the tail entry. -/
def tailResetStep (s : Cfg) (t : Tid) (state : ℕ) (cur : Ptr) (transferred : ℕ)
    (resolved : Ptr) (k : After) : Event × Cfg :=
  if s.word = state then
    (.tailReset t,
      { s with word := data state + transferred + (s.opcode cur).acquiredCount }.goto t
        (.resolve cur 0 0 (.leave k)))
  else (.cut t cur, { s with next := Function.update s.next cur 0 }.goto t
      (.add state cur transferred resolved k))

/-- The `fetch_update` that unlocks the queue unless a release was missed. -/
def updateStep (s : Cfg) (t : Tid) (state : ℕ) (head : Ptr) (transferred : ℕ)
    (resolved : Ptr) (k : After) : Event × Cfg :=
  if data s.word = data state then
    (.grant t transferred,
      { s with word := join (anchor s.word) (data s.word + transferred) }.goto t
        (.resolve resolved 0 0 (.leave k)))
  else (.tau, s.goto t (.add state head transferred resolved k))

/-- The `fetch_add` before another pass. -/
def addStep (s : Cfg) (t : Tid) (head : Ptr) (transferred : ℕ) (resolved : Ptr) (k : After) :
    Event × Cfg :=
  (.grant t transferred,
    { s with word := s.word + transferred }.goto t
      (.resolve resolved 0 0 (.pass (s.word + transferred) head k)))

def Then.step (s : Cfg) (t : Tid) (count : ℕ) : Then → Event × Cfg
  | .pass state head k => (.tau, s.goto t (passStart state head k))
  | .leave k => (.tau, s.goto t k.pc)
  | .poisoned => (.tau, s.goto t .idle)
  | .woken => (.woke t count, s.goto t .idle)
  | .acknowledge a => (.woke t count, s.goto t (.acknowledge a))
  | .writeBack q => (.tau, s.goto t (.writeBack q (1 + count)))
  | .last q => (.tau, s.goto t (.settle q 1))

/-- `Entry::iter_forward(.., false, ..)` calling `set_result` on each entry. The next
link is read before the result is set. -/
def resolveStep (s : Cfg) (t : Tid) (cur : Ptr) (result count : ℕ) (k : Then) : Event × Cfg :=
  if cur = 0 then k.step s t count
  else (.setResult t cur result,
    (s.setResult cur result).goto t (.finalize cur (s.next cur) result count k))

def finalizeStep (s : Cfg) (t : Tid) (cur next : Ptr) (result count : ℕ) (k : Then) :
    Event × Cfg :=
  (.finalize t cur, (s.setFinalized cur).goto t (.resolve next result (count + 1) k))

def Holder.after : Holder → After
  | .caller _ => .returned
  | .entry a => .finish a

/-- One iteration of `SyncPrimitive::release_loop`. -/
def releaseLoop (s : Cfg) (t : Tid) (h : Holder) (op : Opcode) (state : ℕ) : Event × Cfg :=
  if ¬op.CanRelease state then (.refuse t 0, s.goto t h.after.pc)
  else if s.word ≠ state then (.tau, s.goto t (.releaseLoop h op s.word))
  else if anchor state = 0 ∨ Locked state then
    (.release t h op, { s with word := state - op.acquiredCount }.goto t h.after.pc)
  else
    (.release t h op, { s with word := lock state - op.acquiredCount }.goto t
      (passStart (lock state - op.acquiredCount) 0 h.after))

/-- The fast paths of `release_lock`, `release_share`, `release` and `release_many`. -/
def releaseFast (s : Cfg) (t : Tid) (op : Opcode) : Event × Cfg :=
  let slow := (Event.tau, s.goto t (.releaseLoop (.caller t) op s.word))
  match op with
  | .exclusive =>
    if s.word = DATA_MASK then (.release t (.caller t) op, { s with word := 0 }.goto t .idle)
    else slow
  | .shared =>
    if s.word ≠ 0 ∧ s.word ≤ MAX_SHARED_OWNERS then
      (.release t (.caller t) op, { s with word := s.word - 1 }.goto t .idle)
    else slow
  | .semaphore count =>
    if s.word = count then (.release t (.caller t) op, { s with word := 0 }.goto t .idle)
    else slow
  | .barrier _ | .wait _ => slow

/-- The fast path of `Lock::poison_lock`. -/
def poisonFast (s : Cfg) (t : Tid) : Event × Cfg :=
  if s.word = DATA_MASK then (.poison t, { s with word := POISONED_STATE }.goto t .idle)
  else (.tau, s.goto t (.poisonLoop s.word))

/-- One iteration of `Lock::poison_lock_internal`. -/
def poisonLockInternal (s : Cfg) (t : Tid) (state : ℕ) : Event × Cfg :=
  if state = POISONED_STATE ∨ data state ≠ DATA_MASK then (.refuse t 0, s.goto t .idle)
  else if Locked state then (.tau, s.goto t (.poisonLoop s.word))
  else if s.word = state then
    (.poison t, { s with word := POISONED_STATE }.goto t
      (.resolve (anchor state) POISONED 0 .poisoned))
  else (.tau, s.goto t (.poisonLoop s.word))

/-- `Lock::clear_poison`. -/
def clearPoisonStep (s : Cfg) (t : Tid) : Event × Cfg :=
  if s.word = POISONED_STATE then (.clearPoison t, { s with word := 0 }.goto t .idle)
  else (.refuse t 0, s.goto t .idle)

/-- `Gate::wake_all` up to its loop. -/
def wakeAllStep (s : Cfg) (t : Tid) (next : Option GateState) (error : Option GateError)
    (k : Then) : Event × Cfg :=
  let prev := GateState.ofUsize (data s.word)
  let word := match next with
    | some state => state.toNat
    | none => data s.word
  let result := intoU8 (next.getD prev) error
  (.wakeAll t prev, { s with word := word }.goto t (.resolve (anchor s.word) result 0 k))

/-- `Gate::reset`. The new state is built from the old one, as in the source. -/
def gateResetStep (s : Cfg) (t : Tid) : Event × Cfg :=
  let state := GateState.ofUsize (data s.word)
  if state = .controlled then (.refuse t 0, s.goto t .idle)
  else (.reset t state, { s with word := join (anchor s.word) state.toNat }.goto t .idle)

/-- The return of `remove_wait_queue_entry` into `force_remove_wait_queue_entry`. -/
def removed (a : Ptr) (found state : ℕ) (wasQueued : Bool) : Pc :=
  let k := if wasQueued then After.finish a else .complete a found
  if Locked state then passStart state 0 k else k.pc

/-- One iteration of the walk of `remove_wait_queue_entry`. `found` is the word that
`force_remove_wait_queue_entry` locked; `again` says that a compare-exchange failed before. -/
def removeStep (s : Cfg) (t : Tid) (a : Ptr) (found state : ℕ) (cur : Ptr) (again : Bool) :
    Event × Cfg :=
  if cur = 0 then
    if again then (.tau, s.goto t (.remove a found state (anchor state) true))
    else (.tau, s.goto t (removed a found state false))
  else if cur ≠ a then
    if s.next cur = 0 then (.tau, s.goto t (.remove a found state 0 again))
    else (.tau, { s with prev := Function.update s.prev (s.next cur) cur }.goto t
        (.remove a found state (s.next cur) again))
  else
    -- the walk stored `cur` in the next entry; the closure overwrites it with the previous one
    let s' := if s.next a = 0 then s
      else { s with prev := Function.update s.prev (s.next a) (s.prev a) }
    if s.prev a ≠ 0 then
      (.unlink t a, { s' with next := Function.update s.next (s.prev a) (s.next a) }.goto t
        (removed a found state true))
    else
      let state' := if s.next a = 0 then data state else join (s.next a) (tag state)
      if s.word = state then
        (.unlink t a, { s' with word := state' }.goto t (removed a found state' true))
      else if anchor s.word = 0 then (.tau, s'.goto t .fault)
      else (.tau, s'.goto t (.remove a found s.word (anchor s.word) true))

/-- One iteration of `SyncPrimitive::force_remove_wait_queue_entry`. -/
def forceRemove (s : Cfg) (t : Tid) (a : Ptr) (state : ℕ) : Event × Cfg :=
  if Locked state then (.tau, s.goto t (.dropLoop a s.word))
  else if anchor state = 0 then (.tau, s.goto t (.complete a state))
  else if s.word = state then
    (.lockQueue t, { s with word := lock state }.goto t
      (.remove a state (lock state) (anchor state) false))
  else (.tau, s.goto t (.dropLoop a s.word))

/-- Waiting for `result_finalized`, then `release_loop` from the old snapshot. -/
def completeStep (s : Cfg) (t : Tid) (a : Ptr) (state : ℕ) : Event × Cfg :=
  if (s.state a).finalized then (.tau, s.goto t (.releaseLoop (.entry a) (s.opcode a) state))
  else (.tau, s)

/-- The end of `Entry::prepare_drop`; the memory of the entry is given back. -/
def finishStep (s : Cfg) (t : Tid) (a : Ptr) : Event × Cfg :=
  (.dropped t a,
    { s with
      pollable := Function.update s.pollable a false
      slot := Function.update s.slot a .none }.goto t .idle)

/-- `Gate::drop_wait_queue_entry` before `wake_all`. -/
def gateDropStep (s : Cfg) (t : Tid) (a : Ptr) : Event × Cfg :=
  if (s.state a).finalized then
    (.consume t a (s.state a).result, (s.consume a).goto t (.finish a))
  else (.tau, s.goto t (.wakeAll none (some .spuriousFailure) (.acknowledge a)))

/-- `Entry::acknowledge_result_sync`. -/
def acknowledgeStep (s : Cfg) (t : Tid) (a : Ptr) : Event × Cfg :=
  if (s.state a).finalized then
    (.consume t a (s.state a).result, (s.consume a).goto t (.finish a))
  else (.tau, s)

/-- The drop callback of the primitive. -/
def Kind.dropPc (kind : Kind) (a : Ptr) : Pc :=
  match kind with
  | .gate => .gateDrop a
  | _ => .dropLoad a

def runStep (kind : Kind) (s : Cfg) (t : Tid) : Option (Event × Cfg) :=
  match s.pc t with
  | .idle | .fault => none
  | .start q => some (startStep s t q)
  | .attempt q state spin => some (attemptStep s t q state spin)
  | .push q state => some (tryPushWaitQueueEntry s t q state)
  | .pushed q retry => some (pushedStep s t q retry)
  | .settle q result => some (.setResult t q.entry result,
      (s.setResult q.entry result).goto t (.settled q))
  | .settled q => some (settledStep s t q)
  | .await q retry => some (awaitStep s t q retry)
  | .writeBack q count => some (writeBackStep s t q count)
  | .releaseFast op => some (releaseFast s t op)
  | .releaseLoop h op state => some (releaseLoop s t h op state)
  | .poisonFast => some (poisonFast s t)
  | .poisonLoop state => some (poisonLockInternal s t state)
  | .clearPoison => some (clearPoisonStep s t)
  | .wakeAll next error k => some (wakeAllStep s t next error k)
  | .gateReset => some (gateResetStep s t)
  | .gateDrop a => some (gateDropStep s t a)
  | .acknowledge a => some (acknowledgeStep s t a)
  | .walk state cur k => some (walkStep s t state cur k)
  | .relink state head cur k => some (relinkStep s t state head cur k)
  | .back state head cur transferred resolved k =>
    some (backStep kind s t state head cur transferred resolved k)
  | .tailReset state cur transferred resolved k =>
    some (tailResetStep s t state cur transferred resolved k)
  | .update state head transferred resolved k =>
    some (updateStep s t state head transferred resolved k)
  | .add _ head transferred resolved k => some (addStep s t head transferred resolved k)
  | .resolve cur result count k => some (resolveStep s t cur result count k)
  | .finalize cur next result count k => some (finalizeStep s t cur next result count k)
  | .remove a found state cur again => some (removeStep s t a found state cur again)
  | .dropLoad a => some (.tau, s.goto t (.dropLoop a s.word))
  | .dropLoop a state => some (forceRemove s t a state)
  | .complete a state => some (completeStep s t a state)
  | .finish a => some (finishStep s t a)

/-- The calls the types of the primitive admit. -/
def Req.Fits (q : Req) (kind : Kind) : Prop :=
  match q.goal, kind with
  | .lock mode, .lock => q.via = .pager ∨ mode = .exclusive ∨ mode = .shared
  | .permits _, .semaphore _ => True
  | .enter, .gate => q.via ≠ .tryOnly
  | .arrive, .barrier _ => q.via = .sync ∨ q.via = .async
  | _, _ => False

instance (q : Req) (kind : Kind) : Decidable (q.Fits kind) := by
  unfold Req.Fits
  split <;> infer_instance

/-- More permits than `MAX_PERMITS` are refused before anything else happens. -/
def Goal.TooMany : Goal → Prop
  | .permits count => MAX_PERMITS < count
  | _ => False

instance (g : Goal) : Decidable g.TooMany :=
  match g with
  | .permits _ => inferInstanceAs (Decidable (_ < _))
  | .lock _ | .enter | .arrive => inferInstanceAs (Decidable False)

/-- `Gate::enter_*` and `Barrier::wait_*` construct their entry before the first access,
the blocking calls of `Lock` and `Semaphore` only when they have to queue. -/
def Goal.constructsEarly : Goal → Bool
  | .enter | .arrive => true
  | _ => false

/-- The beginning of an acquiring call up to its first access to the word. -/
def acquireCall (s : Cfg) (t : Tid) (q : Req) : Option (Event × Cfg) :=
  if q.goal.TooMany then some (.refuse t 0, s)
  else match q.via with
    | .tryOnly => some (.call t (.acquire q), s.goto t (.start q))
    | .sync | .async =>
      if IsAnchor q.entry ∧ s.slot q.entry = .none then
        let s' := { s with slot := Function.update s.slot q.entry (.used t) }
        some (.call t (.acquire q),
          (if q.goal.constructsEarly then s'.construct q.entry q.goal.opcode false
            else s').goto t (.start q))
      else none
    | .pager =>
      if IsAnchor q.entry then
        let s' := { s with slot := Function.update s.slot q.entry (.used t) }
        match s.slot q.entry with
        | .none => some (.call t (.acquire q),
            (s'.construct q.entry q.goal.opcode false).goto t (.start q))
        | .pager =>
          if s.pollable q.entry then some (.refuse t 0, s)
          else some (.call t (.acquire q),
            (s'.construct q.entry q.goal.opcode true).goto t (.start q))
        | .used _ => none
      else none

/-- `Pager::try_poll` on a pager nobody borrows. -/
def pollCall (s : Cfg) (t : Tid) (a : Ptr) : Option (Event × Cfg) :=
  if s.slot a = .pager then
    if s.pollable a ∧ (s.state a).finalized then
      some (.consume t a (s.state a).result, s.consume a)
    else some (.refuse t 0, s)
  else none

/-- `Entry::prepare_drop` of a pager nobody borrows. -/
def dropCall (kind : Kind) (s : Cfg) (t : Tid) (a : Ptr) : Option (Event × Cfg) :=
  if s.slot a = .pager then
    if s.pollable a then
      some (.call t (.drop a),
        { s with slot := Function.update s.slot a (.used t) }.goto t (kind.dropPc a))
    else some (.dropped t a, { s with slot := Function.update s.slot a .none })
  else none

def callStep (kind : Kind) (s : Cfg) (t : Tid) (op : Op) : Option (Event × Cfg) :=
  if s.pc t ≠ .idle then none
  else match op, kind with
    | .acquire q, _ => if q.Fits kind then acquireCall s t q else none
    | .poll a, _ => pollCall s t a
    | .drop a, _ => dropCall kind s t a
    | .releaseLock, .lock => some (.call t op, s.goto t (.releaseFast .exclusive))
    | .releaseShare, .lock => some (.call t op, s.goto t (.releaseFast .shared))
    | .poisonLock, .lock => some (.call t op, s.goto t .poisonFast)
    | .clearPoison, .lock => some (.call t op, s.goto t .clearPoison)
    | .release, .semaphore _ => some (.call t op, s.goto t (.releaseFast (.semaphore 1)))
    | .releaseMany count, .semaphore _ =>
      if count < 256 then some (.call t op, s.goto t (.releaseFast (.semaphore count)))
      else some (.refuse t 0, s)
    | .permit, .gate => some (.call t op, s.goto t (.wakeAll none none .woken))
    | .reject, .gate => some (.call t op, s.goto t (.wakeAll none (some .rejected) .woken))
    | .open, .gate => some (.call t op, s.goto t (.wakeAll (some .opened) none .woken))
    | .seal, .gate =>
      some (.call t op, s.goto t (.wakeAll (some .sealed) (some .sealed) .woken))
    | .reset, .gate => some (.call t op, s.goto t .gateReset)
    | _, _ => none

/-- Dropping a future that is suspended in its `await`. -/
def cancelStep (kind : Kind) (s : Cfg) (t : Tid) : Option (Event × Cfg) :=
  match s.pc t with
  | .await q _ =>
    if q.via = .async then
      if s.pollable q.entry then
        some (.call t (.drop q.entry), s.goto t (kind.dropPc q.entry))
      else some (.dropped t q.entry, s.leave t q)
    else none
  | _ => none

def step (kind : Kind) (s : Cfg) : Action → Option (Event × Cfg)
  | .call t op => callStep kind s t op
  | .run t => runStep kind s t
  | .cancel t => cancelStep kind s t

end Saa
