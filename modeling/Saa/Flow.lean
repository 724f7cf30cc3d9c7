import Saa.Frame

/-! # The control flow of one thread

`Move` lists every edge between two program points, with the event of the step and what
the thread tested on the way. Invariants that follow a thread through its call are
proved edge by edge; its phase says which part of the code it is in. -/
namespace Saa

open Word Lib.Linked

inductive Phase where
  | idle | acquiring | waiting | arriving | releasing | poisoning | gating | passing | dropping
  | fault
  deriving DecidableEq, Repr

def Then.phase : Then → Phase
  | .pass _ _ _ | .leave _ => .passing
  | .poisoned => .poisoning
  | .woken | .acknowledge _ => .gating
  | .writeBack _ | .last _ => .arriving

def Pc.phase : Pc → Phase
  | .idle => .idle
  | .fault => .fault
  | .start _ | .attempt _ _ _ | .push _ _ => .acquiring
  | .pushed _ _ | .settle _ _ | .settled _ | .await _ _ => .waiting
  | .writeBack _ _ => .arriving
  | .releaseFast _ | .releaseLoop _ _ _ => .releasing
  | .poisonFast | .poisonLoop _ | .clearPoison => .poisoning
  | .wakeAll _ _ _ | .gateReset | .gateDrop _ | .acknowledge _ => .gating
  | .walk _ _ _ | .relink _ _ _ _ | .back _ _ _ _ _ _ | .tailReset _ _ _ _ _
  | .update _ _ _ _ _ | .add _ _ _ _ _ => .passing
  | .resolve _ _ _ k | .finalize _ _ _ _ k => k.phase
  | .remove _ _ _ _ _ | .dropLoad _ | .dropLoop _ _ | .complete _ _ | .finish _ => .dropping

/-- The phases one step can lead to. -/
def Phase.next : Phase → List Phase
  | .idle => [.idle, .acquiring, .releasing, .poisoning, .gating, .dropping]
  | .acquiring => [.acquiring, .waiting, .arriving, .idle]
  | .waiting => [.waiting, .acquiring, .idle]
  | .arriving => [.arriving, .waiting]
  | .releasing => [.releasing, .passing, .dropping, .idle]
  | .poisoning => [.poisoning, .idle]
  | .gating => [.gating, .dropping, .idle]
  | .passing => [.passing, .dropping, .idle]
  | .dropping => [.dropping, .passing, .releasing, .idle]
  | .fault => []

/-- The commands of a gate, and where they begin. -/
inductive Commands : Op → Pc → Prop where
  | permit : Commands .permit (.wakeAll none none .woken)
  | reject : Commands .reject (.wakeAll none (some .rejected) .woken)
  | open : Commands .open (.wakeAll (some .opened) none .woken)
  | seal : Commands .seal (.wakeAll (some .sealed) (some .sealed) .woken)
  | reset : Commands .reset .gateReset

inductive Entrance (kind : Kind) : Op → Pc → Prop where
  | releaseLock : kind = .lock → Entrance kind .releaseLock (.releaseFast .exclusive)
  | releaseShare : kind = .lock → Entrance kind .releaseShare (.releaseFast .shared)
  | poisonLock : kind = .lock → Entrance kind .poisonLock .poisonFast
  | clearPoison : kind = .lock → Entrance kind .clearPoison .clearPoison
  | release {n : ℕ} : kind = .semaphore n → Entrance kind .release (.releaseFast (.semaphore 1))
  | releaseMany {n count : ℕ} : kind = .semaphore n →
      Entrance kind (.releaseMany count) (.releaseFast (.semaphore count))
  | gate {op : Op} {p : Pc} : kind = .gate → Commands op p → Entrance kind op p

def Trying (p : Pc) (q : Req) : Prop := p = .start q ∨ ∃ state i, p = .attempt q state i

theorem Trying.reqs {p : Pc} {q : Req} (h : Trying p q) : p.reqs = some q := by
  rcases h with rfl | ⟨state, i, rfl⟩ <;> rfl

theorem Trying.deciding {p : Pc} {q : Req} (h : Trying p q) : Deciding p q := by
  rcases h with rfl | ⟨state, i, rfl⟩
  · exact deciding_start q
  · exact deciding_attempt q state i

/-- The edges of a gate outside `enter`. -/
inductive GateMove (s : Cfg) (v : View) (t : Tid) : Pc → Event → Pc → Prop where
  | wakeAll {nx : Option GateState} {er : Option GateError} {k : Then} :
      GateMove s v t (.wakeAll nx er k) (.wakeAll t (GateState.ofUsize (data s.word)))
        (.resolve (anchor s.word) (intoU8 (nx.getD (GateState.ofUsize (data s.word))) er) 0 k)
  | unchanged : GateState.ofUsize (data s.word) = .controlled →
      GateMove s v t .gateReset (.refuse t 0) .idle
  | reset : GateState.ofUsize (data s.word) ≠ .controlled →
      GateMove s v t .gateReset (.reset t (GateState.ofUsize (data s.word))) .idle
  | consumed {a : Ptr} : v.stat a = .final →
      GateMove s v t (.gateDrop a) (.consume t a (s.state a).result) (.finish a)
  | spurious {a : Ptr} : v.stat a ≠ .final →
      GateMove s v t (.gateDrop a) .tau (.wakeAll none (some .spuriousFailure) (.acknowledge a))
  | acknowledged {a : Ptr} : v.stat a = .final →
      GateMove s v t (.acknowledge a) (.consume t a (s.state a).result) (.finish a)
  | unanswered {a : Ptr} : GateMove s v t (.acknowledge a) .tau (.acknowledge a)
  | woken {r n : ℕ} : v.taken t = [] → GateMove s v t (.resolve 0 r n .woken) (.woke t n) .idle
  | woke {a : Ptr} {r n : ℕ} : v.taken t = [] →
      GateMove s v t (.resolve 0 r n (.acknowledge a)) (.woke t n) (.acknowledge a)

inductive Move (kind : Kind) (s : Cfg) (v : View) (t : Tid) : Action → Pc → Event → Pc → Prop where
  -- entering a call
  | acquire {q : Req} : q.Fits kind → ¬q.goal.TooMany →
      (q.via ≠ .tryOnly → v.stat q.entry = .idle ∧ ∀ u, s.slot q.entry ≠ .used u) →
      Move kind s v t (.call t (.acquire q)) .idle (.call t (.acquire q)) (.start q)
  | poll {a : Ptr} : s.slot a = .pager → v.stat a = .final →
      Move kind s v t (.call t (.poll a)) .idle (.consume t a (s.state a).result) .idle
  | drop {a : Ptr} : s.slot a = .pager → v.stat a ≠ .idle →
      Move kind s v t (.call t (.drop a)) .idle (.call t (.drop a)) (kind.dropPc a)
  | dropIdle {a : Ptr} : s.slot a = .pager → v.stat a = .idle →
      Move kind s v t (.call t (.drop a)) .idle (.dropped t a) .idle
  | enter {op : Op} {p : Pc} : Entrance kind op p →
      Move kind s v t (.call t op) .idle (.call t op) p
  | rejected {op : Op} : Move kind s v t (.call t op) .idle (.refuse t 0) .idle
  | cancel {q : Req} {retry : Bool} : q.via = .async →
      Move kind s v t (.cancel t) (.await q retry) (.call t (.drop q.entry)) (kind.dropPc q.entry)
  -- acquiring
  | own {p : Pc} {q : Req} : Trying p q → q.via ≠ .pager →
      Move kind s v t (.run t) p (.acquire t (.caller t) q.goal.opcode) .idle
  | take {p : Pc} {q : Req} : Trying p q → q.via = .pager →
      Move kind s v t (.run t) p (.acquire t (.entry q.entry) q.goal.opcode) (.settle q ACQUIRED)
  | load {q : Req} : Move kind s v t (.run t) (.start q) .tau (.attempt q s.word 0)
  | reload {q : Req} {state i j : ℕ} : s.word ≠ state →
      Move kind s v t (.run t) (.attempt q state i) .tau (.attempt q s.word j)
  | spin {q : Req} {state i : ℕ} : q.goal ≠ .arrive →
      Move kind s v t (.run t) (.attempt q state i) .tau (.attempt q state (i + 1))
  | answer {q : Req} {state i r : ℕ} : q.goal ≠ .arrive → q.goal.attempt state = .done r →
      q.via = .pager ∨ q.goal = .enter →
      Move kind s v t (.run t) (.attempt q state i) .tau (.settle q r)
  | refuse {q : Req} {state i r : ℕ} : q.goal ≠ .arrive →
      Move kind s v t (.run t) (.attempt q state i) (.refuse t r) .idle
  | queue {q : Req} {state i : ℕ} : q.goal ≠ .arrive → q.goal.attempt state = .blocked →
      q.via ≠ .tryOnly → Move kind s v t (.run t) (.attempt q state i) .tau (.push q state)
  | waitOnly {q : Req} {state i : ℕ} : (∃ n, kind = .barrier n) → q.goal = .arrive →
      data state = 0 →
      Move kind s v t (.run t) (.attempt q state i) .tau (.push q state)
  | last {q : Req} {i : ℕ} : (∃ n, kind = .barrier n) → q.goal = .arrive → data s.word = 1 →
      Move kind s v t (.run t) (.attempt q s.word i) (.last t q.entry)
        (.resolve (anchor s.word) 0 0 (.writeBack q))
  | countDown {q : Req} {i : ℕ} : (∃ n, kind = .barrier n) → q.goal = .arrive → 2 ≤ data s.word →
      Move kind s v t (.run t) (.attempt q s.word i) (.countDown t q.entry (s.opcode q.entry))
        (.pushed q false)
  | push {q : Req} : Move kind s v t (.run t) (.push q s.word)
      (.push t q.entry (s.opcode q.entry)) (.pushed q (decide (q.goal = .arrive)))
  | again {q : Req} {state : ℕ} : s.word ≠ state →
      Move kind s v t (.run t) (.push q state) .tau (.start q)
  | registered {q : Req} {retry : Bool} : q.via = .pager →
      Move kind s v t (.run t) (.pushed q retry) .tau .idle
  | wait {q : Req} {retry : Bool} : q.via ≠ .pager →
      Move kind s v t (.run t) (.pushed q retry) .tau (.await q retry)
  | settle {q : Req} {r : ℕ} : Move kind s v t (.run t) (.settle q r) (.setResult t q.entry r)
      (.settled q)
  | settled {q : Req} : q.via = .pager →
      Move kind s v t (.run t) (.settled q) (.finalize t q.entry) .idle
  | settledWait {q : Req} : q.via ≠ .pager →
      Move kind s v t (.run t) (.settled q) (.finalize t q.entry) (.await q false)
  | pending {q : Req} {retry : Bool} : (s.state q.entry).finalized = false →
      Move kind s v t (.run t) (.await q retry) .tau (.await q retry)
  | retry {q : Req} : (∃ n, kind = .barrier n) → v.stat q.entry = .final →
      Move kind s v t (.run t) (.await q true) (.retry t q.entry) (.start q)
  | consume {q : Req} : v.stat q.entry = .final → Move kind s v t (.run t) (.await q false)
      (.consume t q.entry (s.state q.entry).result) .idle
  | writeBack {q : Req} {count : ℕ} : (∃ n, kind = .barrier n) →
      Move kind s v t (.run t) (.writeBack q count)
      (.writeBack t count) (.resolve (anchor s.word) 2 0 (.last q))
  -- releasing
  | fast {op : Opcode} :
      Move kind s v t (.run t) (.releaseFast op) (.release t (.caller t) op) .idle
  | slow {op : Opcode} :
      Move kind s v t (.run t) (.releaseFast op) .tau (.releaseLoop (.caller t) op s.word)
  | unreleased {o : Holder} {op : Opcode} {state : ℕ} : ¬op.CanRelease state →
      Move kind s v t (.run t) (.releaseLoop o op state) (.refuse t 0) o.after.pc
  | reRelease {o : Holder} {op : Opcode} {state : ℕ} : op.CanRelease state → s.word ≠ state →
      Move kind s v t (.run t) (.releaseLoop o op state) .tau (.releaseLoop o op s.word)
  | release {o : Holder} {op : Opcode} : op.CanRelease s.word → anchor s.word = 0 ∨ Locked s.word →
      Move kind s v t (.run t) (.releaseLoop o op s.word) (.release t o op) o.after.pc
  | releasePass {o : Holder} {op : Opcode} {w : ℕ} : op.CanRelease s.word → anchor s.word ≠ 0 →
      ¬Locked s.word → w = lock s.word - op.acquiredCount →
      Move kind s v t (.run t) (.releaseLoop o op s.word) (.release t o op)
        (.walk w (anchor w) o.after)
  -- poisoning
  | poisonFast : s.word = DATA_MASK → Move kind s v t (.run t) .poisonFast (.poison t) .idle
  | poisonSlow : Move kind s v t (.run t) .poisonFast .tau (.poisonLoop s.word)
  | poisonRefuse {state : ℕ} : Move kind s v t (.run t) (.poisonLoop state) (.refuse t 0) .idle
  | poisonReload {state : ℕ} :
      Move kind s v t (.run t) (.poisonLoop state) .tau (.poisonLoop s.word)
  | poison : Move kind s v t (.run t) (.poisonLoop s.word) (.poison t)
      (.resolve (anchor s.word) POISONED 0 .poisoned)
  | clear : Move kind s v t (.run t) .clearPoison (.clearPoison t) .idle
  | clearRefuse : Move kind s v t (.run t) .clearPoison (.refuse t 0) .idle
  -- everything a gate does outside `enter`
  | gate {p p' : Pc} {e : Event} : kind = .gate → GateMove s v t p e p' →
      Move kind s v t (.run t) p e p'
  -- processing the queue
  | walk {state : ℕ} {cur : Ptr} {k : After} : s.next cur ≠ 0 →
      Move kind s v t (.run t) (.walk state cur k) .tau (.walk state (s.next cur) k)
  | walked {state : ℕ} {cur : Ptr} {k : After} : s.next cur = 0 →
      Move kind s v t (.run t) (.walk state cur k) .tau (.back state cur cur 0 0 k)
  | relink {state : ℕ} {head cur : Ptr} {k : After} : s.next cur ≠ 0 →
      Move kind s v t (.run t) (.relink state head cur k) .tau (.relink state head (s.next cur) k)
  | relinked {state : ℕ} {head cur : Ptr} {k : After} :
      Move kind s v t (.run t) (.relink state head cur k) .tau (.back state head head 0 0 k)
  | back {state : ℕ} {head cur resolved : Ptr} {tr : ℕ} {k : After} :
      Grantable kind.maxSharedOwners (data state + tr) (s.opcode cur) → s.prev cur ≠ 0 →
      Move kind s v t (.run t) (.back state head cur tr resolved k) .tau
        (.back state head (s.prev cur) (tr + (s.opcode cur).acquiredCount) cur k)
  | backTail {state : ℕ} {head cur resolved : Ptr} {tr : ℕ} {k : After} :
      Grantable kind.maxSharedOwners (data state + tr) (s.opcode cur) → s.prev cur = 0 →
      Move kind s v t (.run t) (.back state head cur tr resolved k) .tau
        (.tailReset state cur tr resolved k)
  | cut {state : ℕ} {head cur resolved : Ptr} {tr : ℕ} {k : After} :
      ¬Grantable kind.maxSharedOwners (data state + tr) (s.opcode cur) →
      Move kind s v t (.run t) (.back state head cur tr resolved k) (.cut t cur)
        (.update state cur tr resolved k)
  | tailReset {cur resolved : Ptr} {tr : ℕ} {k : After} :
      Move kind s v t (.run t) (.tailReset s.word cur tr resolved k) (.tailReset t)
        (.resolve cur 0 0 (.leave k))
  | tailCut {state : ℕ} {cur resolved : Ptr} {tr : ℕ} {k : After} : s.word ≠ state →
      Move kind s v t (.run t) (.tailReset state cur tr resolved k) (.cut t cur)
        (.add state cur tr resolved k)
  | update {state : ℕ} {head resolved : Ptr} {tr : ℕ} {k : After} : data s.word = data state →
      Move kind s v t (.run t) (.update state head tr resolved k) (.grant t tr)
        (.resolve resolved 0 0 (.leave k))
  | missed {state : ℕ} {head resolved : Ptr} {tr : ℕ} {k : After} : data s.word ≠ data state →
      Move kind s v t (.run t) (.update state head tr resolved k) .tau
        (.add state head tr resolved k)
  | add {state : ℕ} {head resolved : Ptr} {tr : ℕ} {k : After} :
      Move kind s v t (.run t) (.add state head tr resolved k) (.grant t tr)
        (.resolve resolved 0 0 (.pass (s.word + tr) head k))
  -- resolving a detached list
  | set {cur : Ptr} {r n : ℕ} {k : Then} : cur ∈ v.taken t →
      Move kind s v t (.run t) (.resolve cur r n k) (.setResult t cur r)
        (.finalize cur (s.next cur) r n k)
  | finalize {cur nx : Ptr} {r n : ℕ} {k : Then} :
      Move kind s v t (.run t) (.finalize cur nx r n k) (.finalize t cur) (.resolve nx r (n + 1) k)
  | pass {state : ℕ} {head : Ptr} {r n : ℕ} {k : After} : v.taken t = [] →
      Move kind s v t (.run t) (.resolve 0 r n (.pass state head k)) .tau
        (.relink state head (anchor state) k)
  | leave {r n : ℕ} {k : After} : v.taken t = [] →
      Move kind s v t (.run t) (.resolve 0 r n (.leave k)) .tau k.pc
  | poisoned {r n : ℕ} : Move kind s v t (.run t) (.resolve 0 r n .poisoned) .tau .idle
  | counted {r n : ℕ} {q : Req} : (∃ n, kind = .barrier n) → v.taken t = [] →
      Move kind s v t (.run t) (.resolve 0 r n (.writeBack q)) .tau (.writeBack q (1 + n))
  | arrived {r n : ℕ} {q : Req} : (∃ n, kind = .barrier n) → v.taken t = [] →
      Move kind s v t (.run t) (.resolve 0 r n (.last q)) .tau (.settle q 1)
  -- dropping an entry
  | dropLoad {a : Ptr} : Move kind s v t (.run t) (.dropLoad a) .tau (.dropLoop a s.word)
  | dropReload {a : Ptr} {state : ℕ} : Locked state ∨ anchor state ≠ 0 ∧ s.word ≠ state →
      Move kind s v t (.run t) (.dropLoop a state) .tau (.dropLoop a s.word)
  | dropGone {a : Ptr} {state : ℕ} : ¬Locked state → anchor state = 0 →
      Move kind s v t (.run t) (.dropLoop a state) .tau (.complete a state)
  | lockQueue {a : Ptr} : ¬Locked s.word → anchor s.word ≠ 0 →
      Move kind s v t (.run t) (.dropLoop a s.word) (.lockQueue t)
        (.remove a s.word (lock s.word) (anchor s.word) false)
  | seek {a cur cur' : Ptr} {found state state' : ℕ} {again again' : Bool} :
      Move kind s v t (.run t) (.remove a found state cur again) .tau
        (.remove a found state' cur' again')
  | missing {a cur : Ptr} {found state : ℕ} {again : Bool} : v.stat a ≠ .queued →
      Move kind s v t (.run t) (.remove a found state cur again) .tau
        (.walk state (anchor state) (.complete a found))
  | unlink {a cur : Ptr} {found state state' : ℕ} {again : Bool} :
      v.stat a = .queued → Locked state' →
      Move kind s v t (.run t) (.remove a found state cur again) (.unlink t a)
        (.walk state' (anchor state') (.finish a))
  | unlinkOnly {a cur : Ptr} {found state : ℕ} {again : Bool} : v.queue = [a] →
      Move kind s v t (.run t) (.remove a found state cur again) (.unlink t a) (.finish a)
  | unresolved {a : Ptr} {state : ℕ} : (s.state a).finalized = false →
      Move kind s v t (.run t) (.complete a state) .tau (.complete a state)
  | complete {a : Ptr} {state : ℕ} : v.stat a = .final →
      Move kind s v t (.run t) (.complete a state) .tau
        (.releaseLoop (.entry a) (s.opcode a) state)
  | finish {a : Ptr} : Move kind s v t (.run t) (.finish a) (.dropped t a) .idle

section
variable {kind : Kind} {s : Cfg} {v : View} {t : Tid} {e : Event} {p p' : Pc}

theorem phase_idle : p.phase = .idle ↔ p = .idle := by
  refine ⟨fun hp => ?_, fun hp => hp ▸ rfl⟩
  cases p with
  | idle => rfl
  | resolve _ _ _ k | finalize _ _ _ _ k => cases k <;> cases hp
  | _ => cases hp

theorem GateMove.phase (hm : GateMove s v t p e p') (hf : p.Fits kind) :
    p'.phase ∈ p.phase.next := by
  cases hm with
  | wakeAll =>
    obtain ⟨-, rfl | ⟨a, rfl⟩⟩ := hf <;> simp [Pc.phase, Then.phase, Phase.next]
  | _ => simp [Pc.phase, Then.phase, Phase.next]

theorem Move.phase (hm : Move kind s v t (.run t) p e p') (hf : kind = .gate → p.Fits kind) :
    p'.phase ∈ p.phase.next := by
  cases hm with
  | gate hk hg => exact hg.phase (hf hk)
  | own htry | take htry =>
    rcases htry with rfl | ⟨state, i, rfl⟩ <;> simp [Pc.phase, Phase.next]
  | @unreleased o | @release o => cases o <;> simp [Pc.phase, Phase.next, Holder.after, After.pc]
  | @leave _ _ k => cases k <;> simp [Pc.phase, Then.phase, Phase.next, After.pc]
  | @set _ _ _ k | @finalize _ _ _ _ k => cases k <;> simp [Pc.phase, Then.phase, Phase.next]
  | _ => simp [Pc.phase, Then.phase, Phase.next]

end
end Saa
