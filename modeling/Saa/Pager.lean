import Saa.Resolution

/-! # One pager and its resolvers

The entry of one pager over any number of registrations. The owner calls `register_pager`
and polls; a primitive that holds the entry may resolve it at any time. Each atomic
operation on the entry and each access to the slot of its monitor is one step, and a
`compare_exchange_weak` may fail although the values agree. What the rest of the
development does in one step with the state of an entry is taken apart here. -/
namespace Saa.Pager

open Lib.Trace

inductive Error where
  | notRegistered | wrongMode | notReady
  deriving DecidableEq, Repr

def ERROR_WRONG_MODE : ℕ := 2 ^ 8 - 1

/-- `Entry::state`: the result in the low byte, then `RESULT_SET`, `WAKER_SET` and
`RESULT_FINALIZED`. -/
structure Bits where
  result : ℕ
  resultSet : Bool
  wakerSet : Bool
  finalized : Bool
  deriving DecidableEq, Repr

def Bits.clear : Bits := ⟨0, false, false, false⟩

/-- What the slot of a monitor holds: a waker or a thread. -/
inductive Handle where
  | waker (id : ℕ)
  | thread (id : ℕ)
  deriving DecidableEq, Repr

/-- A poll that installs a handle, and the one it installs. -/
inductive Poll where
  | sync (thread : ℕ)
  | async (waker : ℕ)
  deriving DecidableEq, Repr

def Poll.handle : Poll → Handle
  | .sync t => .thread t
  | .async w => .waker w

/-- Where the owner is. -/
inductive Owner where
  | idle
  /-- A future of `poll_async` that returned `Pending` is kept. -/
  | suspended
  -- `register_pager`
  | deciding | pushing | settling
  -- `try_poll`
  | attempt
  -- `poll_result_sync` and `poll_result_async`
  | consume (p : Poll)
  | load (p : Poll)
  | consumeAgain (p : Poll)
  | release (p : Poll) (seen : Bits)
  | install (p : Poll)
  | arm (p : Poll)
  | notify (p : Poll)
  | park (thread : ℕ)
  | leave (waker : ℕ)
  -- the stores of `try_consume_result`
  | clear (result : ℕ) (waited : Bool)
  | unpoll (result : ℕ) (waited : Bool)
  deriving DecidableEq, Repr

/-- Where the call of `set_result` for the current registration is. -/
inductive Resolver where
  | idle
  | store (result : ℕ)
  | load (result : ℕ)
  | cas (result : ℕ) (seen : Bits)
  | take
  | finalize (handle : Option Handle)
  | wake (handle : Handle)
  | done
  deriving DecidableEq, Repr

structure State where
  bits : Bits
  pollable : Bool
  /-- Whether the monitor is `Monitor::Sync`. -/
  sync : Bool
  slot : Option Handle
  /-- The `park` tokens of the threads. -/
  token : ℕ → Bool
  owner : Owner
  resolver : Resolver
  /-- A primitive holds the entry and has not begun to resolve it. -/
  queued : Bool
  /-- Handles that resolvers of earlier registrations have still to wake. -/
  late : List Handle

def initial : State :=
  ⟨.clear, false, false, none, fun _ => false, .idle, .idle, false, []⟩

inductive Action where
  -- calls of the owner
  | register (admissible sync : Bool)
  | isRegistered
  | tryPoll
  | pollSync (thread : ℕ)
  | pollAsync (waker : ℕ)
  | repoll (waker : ℕ)
  | abandon
  -- how the primitive ends a `register_pager`
  | push
  | settle (result : ℕ)
  -- the next step of the owner, and of the resolver
  | owner (spurious : Bool)
  | resolve (result : ℕ)
  | resolver (spurious : Bool)
  | late
  deriving DecidableEq, Repr

inductive Event where
  | tau
  | refused
  | construct (sync : Bool)
  | registered
  | asked (answer : Bool)
  | begin
  | resolve (result : ℕ)
  | write (handle : Handle)
  | wake (handle : Handle)
  | pending (waker : ℕ)
  | consumed (result : ℕ)
  | returned (result : Except Error ℕ)

def State.to (s : State) (p : Owner) : State := { s with owner := p }

/-- `Waker::wake` and `Thread::unpark`. -/
def State.signal (s : State) : Handle → State
  | .waker _ => s
  | .thread t => { s with token := Function.update s.token t true }

section Signal

variable (s : State) (w : Handle)

@[simp] theorem signal_bits : (s.signal w).bits = s.bits := by cases w <;> rfl

@[simp] theorem signal_pollable : (s.signal w).pollable = s.pollable := by cases w <;> rfl

@[simp] theorem signal_slot : (s.signal w).slot = s.slot := by cases w <;> rfl

@[simp] theorem signal_owner : (s.signal w).owner = s.owner := by cases w <;> rfl

@[simp] theorem signal_resolver : (s.signal w).resolver = s.resolver := by cases w <;> rfl

@[simp] theorem signal_queued : (s.signal w).queued = s.queued := by cases w <;> rfl

theorem signal_token (t : ℕ) :
    (s.signal w).token t = (s.token t || decide (w = .thread t)) := by
  cases w with
  | waker => simp [State.signal]
  | thread u =>
    by_cases h : t = u
    · simp [State.signal, h]
    · simp [State.signal, h, Ne.symm h]

end Signal

def Resolver.owed : Resolver → List Handle
  | .wake w => [w]
  | _ => []

/-- `register_pager` up to its first access to the primitive. `construct` replaces the
monitor and keeps state and flag of the entry. -/
def register (s : State) (admissible sync : Bool) : Event × State :=
  if ¬admissible ∨ s.pollable then (.refused, s)
  else (.construct sync,
    { s with
      sync := sync
      slot := none
      owner := .deciding
      resolver := .idle
      late := s.resolver.owed ++ s.late })

/-- The beginning of `try_poll`. -/
def tryPoll (s : State) : Event × State :=
  if ¬s.pollable then (.returned (.error .notRegistered), s) else (.begin, s.to .attempt)

/-- The beginning of `poll_sync`. -/
def pollSync (s : State) (t : ℕ) : Event × State :=
  if ¬s.pollable then (.returned (.error .notRegistered), s)
  else if ¬s.sync then (.returned (.error .wrongMode), s)
  else (.begin, s.to (.consume (.sync t)))

/-- The beginning of `poll_async`. -/
def pollAsync (s : State) (w : ℕ) : Event × State :=
  if ¬s.pollable then (.returned (.error .notRegistered), s)
  else if s.sync then (.returned (.error .wrongMode), s)
  else (.begin, s.to (.consume (.async w)))

/-- `Entry::try_consume_result` up to its stores. -/
def tryConsumeResult (s : State) (waited : Bool) (otherwise : Event × State) : Event × State :=
  if s.bits.finalized then (.tau, s.to (.clear s.bits.result waited)) else otherwise

/-- What a poll returns for a result it has consumed. -/
def toResult (r : ℕ) (waited : Bool) : Except Error ℕ :=
  if waited ∧ r = ERROR_WRONG_MODE then .error .wrongMode else .ok r

/-- The next step of the owner. -/
def ownerStep (s : State) (spurious : Bool) : Option (Event × State) :=
  match s.owner with
  | .idle | .suspended | .deciding => none
  | .pushing => some (.registered, { s with pollable := true, owner := .idle })
  | .settling => if s.resolver = .done then some (.registered, s.to .idle) else none
  | .attempt => some (tryConsumeResult s false (.returned (.error .notReady), s.to .idle))
  | .consume p => some (tryConsumeResult s true (.tau, s.to (.load p)))
  | .load p => some (.tau, s.to (if s.bits.resultSet then .consumeAgain p
      else if s.bits.wakerSet then .release p s.bits else .install p))
  | .consumeAgain p => some (tryConsumeResult s true (.tau, s.to (.notify p)))
  | .release p seen =>
    some (.tau, if ¬spurious ∧ s.bits = seen then
        { s with bits := { s.bits with wakerSet := false }, owner := .install p }
      else s.to (.notify p))
  | .install p => some (.write p.handle, { s with slot := some p.handle, owner := .arm p })
  | .arm p =>
    let s' := { s with bits := { s.bits with wakerSet := true } }
    if s.bits.resultSet then some (.tau, s'.to (.notify p))
    else match p with
      | .sync t => some (.tau, s'.to (.park t))
      | .async w => some (.pending w, s'.to .suspended)
  | .notify p => match p with
    | .sync _ => some (.tau, s.to (.consume p))
    | .async w => some (.wake (.waker w), s.to (.leave w))
  | .park t =>
    if s.token t then
      some (.tau, { s with token := Function.update s.token t false, owner := .consume (.sync t) })
    else if spurious then some (.tau, s.to (.consume (.sync t)))
    else none
  | .leave w => some (.pending w, s.to .suspended)
  | .clear r waited => some (.consumed r, { s with bits := .clear, owner := .unpoll r waited })
  | .unpoll r waited => some (.returned (toResult r waited),
      { s with pollable := false, owner := .idle })

/-- The next step of `Entry::set_result`. -/
def resolverStep (s : State) (spurious : Bool) : Option (Event × State) :=
  match s.resolver with
  | .idle | .done => none
  | .store r => some (.tau, { s with pollable := true, resolver := .load r })
  | .load r => some (.tau, { s with resolver := .cas r s.bits })
  | .cas r seen =>
    if ¬spurious ∧ s.bits = seen then
      some (.tau,
        { s with
          bits := { seen with result := seen.result ||| r, resultSet := true }
          resolver := if seen.wakerSet then .take else .finalize none })
    else some (.tau, { s with resolver := .cas r s.bits })
  | .take => some (.tau, { s with slot := none, resolver := .finalize s.slot })
  | .finalize w => some (.tau,
      { s with
        bits := { s.bits with finalized := true }
        resolver := match w with
          | some w => .wake w
          | none => .done })
  | .wake w => some (.wake w, { s.signal w with resolver := .done })

/-- Codes that no primitive stores are not passed to `set_result`. -/
def step (s : State) : Action → Option (Event × State)
  | .register admissible sync => if s.owner = .idle then some (register s admissible sync) else none
  | .isRegistered => if s.owner = .idle then some (.asked s.pollable, s) else none
  | .tryPoll => if s.owner = .idle then some (tryPoll s) else none
  | .pollSync t => if s.owner = .idle then some (pollSync s t) else none
  | .pollAsync w => if s.owner = .idle then some (pollAsync s w) else none
  | .repoll w =>
    if s.owner = .suspended then some (.begin, s.to (.consume (.async w))) else none
  | .abandon => if s.owner = .suspended then some (.tau, s.to .idle) else none
  | .push =>
    if s.owner = .deciding then some (.tau, { s with owner := .pushing, queued := true }) else none
  | .settle r =>
    if s.owner = .deciding ∧ r < ERROR_WRONG_MODE then
      some (.resolve r, { s with owner := .settling, resolver := .store r })
    else none
  | .owner spurious => ownerStep s spurious
  | .resolve r =>
    if s.queued ∧ r < ERROR_WRONG_MODE then
      some (.resolve r, { s with queued := false, resolver := .store r })
    else none
  | .resolver spurious => resolverStep s spurious
  | .late => match s.late with
    | [] => none
    | w :: late => some (.wake w, { s.signal w with late := late })

def system : System State Action Event := ⟨initial, step⟩

/-- Every interleaving of the owner with the resolvers. -/
abbrev Reach : State → List Event → Prop := Run system free

/-- The places of a waiting poll that may lead on without touching the entry. -/
def Owner.Loops : Owner → Prop
  | .consume _ | .load _ | .consumeAgain _ | .release _ _ | .notify _ | .park _ => True
  | _ => False

inductive OwnerMove (s : State) : Owner → Event → State → Prop where
  | pushed : OwnerMove s .pushing .registered { s with pollable := true, owner := .idle }
  | settled : s.resolver = .done → OwnerMove s .settling .registered (s.to .idle)
  | notReady : OwnerMove s .attempt (.returned (.error .notReady)) (s.to .idle)
  | found {p : Owner} {waited : Bool} : p = .attempt ∨ p.Loops →
      OwnerMove s p .tau (s.to (.clear s.bits.result waited))
  | turn {p p' : Owner} : p.Loops → OwnerMove s p .tau (s.to p')
  | unflag {m : Poll} : OwnerMove s (.release m s.bits) .tau
      { s with bits := { s.bits with wakerSet := false }, owner := .install m }
  | write {m : Poll} : OwnerMove s (.install m) (.write m.handle)
      { s with slot := some m.handle, owner := .arm m }
  | flag {m : Poll} {p' : Owner} : OwnerMove s (.arm m) .tau
      { s with bits := { s.bits with wakerSet := true }, owner := p' }
  | suspend {w : ℕ} : OwnerMove s (.arm (.async w)) (.pending w)
      { s with bits := { s.bits with wakerSet := true }, owner := .suspended }
  | wake {w : ℕ} : OwnerMove s (.notify (.async w)) (.wake (.waker w)) (s.to (.leave w))
  | unpark {t : ℕ} : OwnerMove s (.park t) .tau
      { s with token := Function.update s.token t false, owner := .consume (.sync t) }
  | leave {w : ℕ} : OwnerMove s (.leave w) (.pending w) (s.to .suspended)
  | clear {r : ℕ} {waited : Bool} : OwnerMove s (.clear r waited) (.consumed r)
      { s with bits := .clear, owner := .unpoll r waited }
  | unpoll {r : ℕ} {waited : Bool} : OwnerMove s (.unpoll r waited)
      (.returned (toResult r waited)) { s with pollable := false, owner := .idle }

inductive ResolverMove (s : State) : Resolver → Event → State → Prop where
  | store {r : ℕ} :
      ResolverMove s (.store r) .tau { s with pollable := true, resolver := .load r }
  | load {p : Resolver} {r : ℕ} : p = .load r ∨ (∃ seen, p = .cas r seen) →
      ResolverMove s p .tau { s with resolver := .cas r s.bits }
  | set {r : ℕ} : ResolverMove s (.cas r s.bits) .tau
      { s with
        bits := { s.bits with result := s.bits.result ||| r, resultSet := true }
        resolver := if s.bits.wakerSet then .take else .finalize none }
  | take : ResolverMove s .take .tau { s with slot := none, resolver := .finalize s.slot }
  | finalize {w : Option Handle} {p' : Resolver} : p' = .done ∨ (∃ w, p' = .wake w) →
      ResolverMove s (.finalize w) .tau
        { s with bits := { s.bits with finalized := true }, resolver := p' }
  | wake {w : Handle} : ResolverMove s (.wake w) (.wake w) { s.signal w with resolver := .done }

def Action.Polls : Action → Prop
  | .tryPoll | .pollSync _ | .pollAsync _ => True
  | _ => False

/-- Every step of a pager, with what was tested on the way. -/
inductive Move (s : State) : Action → Event → State → Prop where
  | refused {admissible sync : Bool} : Move s (.register admissible sync) .refused s
  | construct {admissible sync : Bool} : s.owner = .idle → s.pollable = false →
      Move s (.register admissible sync) (.construct sync)
        { s with
          sync := sync
          slot := none
          owner := .deciding
          resolver := .idle
          late := s.resolver.owed ++ s.late }
  | asked : s.owner = .idle → Move s .isRegistered (.asked s.pollable) s
  | failed {a : Action} {x : Error} : s.owner = .idle → a.Polls →
      (x = .notRegistered ↔ s.pollable = false) → Move s a (.returned (.error x)) s
  | begin {a : Action} {p : Owner} : s.owner = .idle → a.Polls → Move s a .begin (s.to p)
  | repoll {w : ℕ} : s.owner = .suspended →
      Move s (.repoll w) .begin (s.to (.consume (.async w)))
  | abandon : s.owner = .suspended → Move s .abandon .tau (s.to .idle)
  | push : s.owner = .deciding →
      Move s .push .tau { s with owner := .pushing, queued := true }
  | settle {r : ℕ} : s.owner = .deciding →
      Move s (.settle r) (.resolve r) { s with owner := .settling, resolver := .store r }
  | resolve {r : ℕ} : s.queued = true →
      Move s (.resolve r) (.resolve r) { s with queued := false, resolver := .store r }
  | late {w : Handle} {late : List Handle} :
      Move s .late (.wake w) { s.signal w with late := late }
  | owner {b : Bool} {e : Event} {s' : State} : OwnerMove s s.owner e s' →
      Move s (.owner b) e s'
  | resolver {b : Bool} {e : Event} {s' : State} : ResolverMove s s.resolver e s' →
      Move s (.resolver b) e s'

section Moves

variable {s s' : State} {e : Event} {a : Action} {b : Bool}

theorem tryConsumeResult_move {p : Owner} {waited : Bool} {o : Event × State}
    (hp : p = .attempt ∨ p.Loops) (ho : OwnerMove s p o.1 o.2)
    (hs : tryConsumeResult s waited o = (e, s')) : OwnerMove s p e s' := by
  unfold tryConsumeResult at hs
  split at hs
  · cases hs
    exact .found hp
  · subst hs
    exact ho

theorem ownerStep_move (hs : ownerStep s b = some (e, s')) : OwnerMove s s.owner e s' := by
  cases ho : s.owner with
  | idle | suspended | deciding => simp [ownerStep, ho] at hs
  | pushing | clear | leave | install | unpoll =>
    simp only [ownerStep, ho, Option.some.injEq, Prod.mk.injEq] at hs
    obtain ⟨rfl, rfl⟩ := hs
    constructor
  | settling =>
    simp only [ownerStep, ho] at hs
    split at hs
    · next hd =>
      cases hs
      exact .settled hd
    · cases hs
  | attempt =>
    simp only [ownerStep, ho, Option.some.injEq] at hs
    exact tryConsumeResult_move (.inl rfl) .notReady hs
  | consume m | consumeAgain m =>
    simp only [ownerStep, ho, Option.some.injEq] at hs
    refine tryConsumeResult_move (.inr trivial) (.turn ?_) hs
    trivial
  | load m =>
    simp only [ownerStep, ho, Option.some.injEq, Prod.mk.injEq] at hs
    obtain ⟨rfl, rfl⟩ := hs
    exact .turn trivial
  | release m seen =>
    simp only [ownerStep, ho] at hs
    split at hs
    · next hx =>
      cases hs
      obtain ⟨-, rfl⟩ := hx
      exact .unflag
    · cases hs
      exact .turn trivial
  | arm m =>
    simp only [ownerStep, ho] at hs
    split at hs
    · cases hs
      exact .flag
    · cases m <;> cases hs
      · exact .flag
      · exact .suspend
  | notify m =>
    cases m <;> simp only [ownerStep, ho, Option.some.injEq, Prod.mk.injEq] at hs <;>
      obtain ⟨rfl, rfl⟩ := hs
    · exact .turn trivial
    · exact .wake
  | park t =>
    simp only [ownerStep, ho] at hs
    split at hs
    · cases hs
      exact .unpark
    · split at hs
      · cases hs
        exact .turn trivial
      · cases hs

theorem resolverStep_move (hs : resolverStep s b = some (e, s')) :
    ResolverMove s s.resolver e s' := by
  cases hr : s.resolver with
  | idle | done => simp [resolverStep, hr] at hs
  | load r =>
    simp only [resolverStep, hr, Option.some.injEq, Prod.mk.injEq] at hs
    obtain ⟨rfl, rfl⟩ := hs
    exact .load (.inl rfl)
  | cas r seen =>
    simp only [resolverStep, hr] at hs
    split at hs
    · next hx =>
      cases hs
      obtain ⟨-, rfl⟩ := hx
      exact .set
    · cases hs
      exact .load (.inr ⟨seen, rfl⟩)
  | finalize w =>
    simp only [resolverStep, hr, Option.some.injEq, Prod.mk.injEq] at hs
    obtain ⟨rfl, rfl⟩ := hs
    cases w with
    | none => exact .finalize (.inl rfl)
    | some w => exact .finalize (.inr ⟨w, rfl⟩)
  | store | take | wake =>
    simp only [resolverStep, hr, Option.some.injEq, Prod.mk.injEq] at hs
    obtain ⟨rfl, rfl⟩ := hs
    constructor

theorem step_move (hs : step s a = some (e, s')) : Move s a e s' := by
  cases a with
  | register admissible sync =>
    simp only [step, register, Option.ite_none_right_eq_some, Option.some.injEq] at hs
    obtain ⟨hi, hs⟩ := hs
    split at hs
    · cases hs
      exact .refused
    · next hx =>
      cases hs
      exact .construct hi (by simpa using (not_or.mp hx).2)
  | isRegistered =>
    simp only [step, Option.ite_none_right_eq_some, Option.some.injEq, Prod.mk.injEq] at hs
    obtain ⟨hi, rfl, rfl⟩ := hs
    exact .asked hi
  | tryPoll =>
    simp only [step, tryPoll, Option.ite_none_right_eq_some, Option.some.injEq] at hs
    obtain ⟨hi, hs⟩ := hs
    split at hs
    · next hp =>
      cases hs
      exact .failed hi trivial (by simpa using hp)
    · cases hs
      exact .begin hi trivial
  | pollSync t =>
    simp only [step, pollSync, Option.ite_none_right_eq_some, Option.some.injEq] at hs
    obtain ⟨hi, hs⟩ := hs
    split at hs
    · next hp =>
      cases hs
      exact .failed hi trivial (by simpa using hp)
    next hp =>
    split at hs
    · cases hs
      exact .failed hi trivial (by simpa using hp)
    · cases hs
      exact .begin hi trivial
  | pollAsync w =>
    simp only [step, pollAsync, Option.ite_none_right_eq_some, Option.some.injEq] at hs
    obtain ⟨hi, hs⟩ := hs
    split at hs
    · next hp =>
      cases hs
      exact .failed hi trivial (by simpa using hp)
    next hp =>
    split at hs
    · cases hs
      exact .failed hi trivial (by simpa using hp)
    · cases hs
      exact .begin hi trivial
  | repoll w =>
    simp only [step, Option.ite_none_right_eq_some, Option.some.injEq, Prod.mk.injEq] at hs
    obtain ⟨hi, rfl, rfl⟩ := hs
    exact .repoll hi
  | abandon =>
    simp only [step, Option.ite_none_right_eq_some, Option.some.injEq, Prod.mk.injEq] at hs
    obtain ⟨hi, rfl, rfl⟩ := hs
    exact .abandon hi
  | push =>
    simp only [step, Option.ite_none_right_eq_some, Option.some.injEq, Prod.mk.injEq] at hs
    obtain ⟨hi, rfl, rfl⟩ := hs
    exact .push hi
  | settle r =>
    simp only [step, Option.ite_none_right_eq_some, Option.some.injEq, Prod.mk.injEq] at hs
    obtain ⟨⟨hi, -⟩, rfl, rfl⟩ := hs
    exact .settle hi
  | owner b => exact .owner (ownerStep_move hs)
  | resolve r =>
    simp only [step, Option.ite_none_right_eq_some, Option.some.injEq, Prod.mk.injEq] at hs
    obtain ⟨⟨hq, -⟩, rfl, rfl⟩ := hs
    exact .resolve hq
  | resolver b => exact .resolver (resolverStep_move hs)
  | late =>
    simp only [step] at hs
    split at hs
    · cases hs
    · cases hs
      exact .late

end Moves

end Saa.Pager
