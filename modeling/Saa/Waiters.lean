import Saa.Solo

/-! # No waiter is left behind

In a lock and in a semaphore the oldest waiter cannot be served while the queue is not
being processed. A release that finds the queue locked only lowers the word; the thread
that owns the queue sees the lower word before it gives the queue back. -/
namespace Saa

open Word Lib.Linked Lib.Trace

/-- The primitives that hand over their resource through the queue. -/
def Kind.Grants (kind : Kind) : Prop := kind = .lock ∨ ∃ n, kind = .semaphore n

/-- The oldest waiter cannot inherit from the word. -/
def HeadBlocked (kind : Kind) (s : Cfg) (v : View) : Prop :=
  ∀ a ∈ v.queue.getLast?, ¬Grantable kind.maxSharedOwners (data s.word) (s.opcode a)

def Asks (s : Cfg) (q : Req) : Prop := q.via = .pager → s.opcode q.entry = q.goal.opcode

/-- What an acquiring call knows of the snapshot it decides on. -/
def Weighs (kind : Kind) (s : Cfg) : Pc → Prop
  | .start q => Asks s q
  | .attempt q state _ => Asks s q ∧ (anchor state = 0 → state ≤ 64)
  | .push q state => Asks s q ∧
      (anchor state = 0 → ¬Grantable kind.maxSharedOwners (data state) (s.opcode q.entry))
  | .settle q _ => Asks s q
  | _ => True

structure Awake (kind : Kind) (s : Cfg) (v : View) : Prop where
  head : ¬Locked s.word → HeadBlocked kind s v
  weighs : ∀ t, Weighs kind s (s.pc t)

section
variable {kind : Kind} {s s' : Cfg} {v : View} {t : Tid} {q : Req} {act : Action} {e : Event}

theorem Kind.Grants.not_barrier (h : kind.Grants) (n : ℕ) : kind ≠ .barrier n := by
  rcases h with rfl | ⟨m, rfl⟩ <;> simp

theorem Kind.Grants.no_barrier (h : kind.Grants) : ¬∃ n, kind = .barrier n := fun ⟨n, hn⟩ =>
  h.not_barrier n hn

theorem Kind.Grants.not_gate (h : kind.Grants) : kind ≠ .gate := by
  rcases h with rfl | ⟨m, rfl⟩ <;> simp

theorem Inv.word_le (h : Inv kind s v) (ha : anchor s.word = 0) : s.word ≤ 64 := by
  by_cases hl : Locked s.word
  · rcases h.locked hl with ⟨u, hu⟩ | ⟨-, hp⟩
    · exact absurd ha (h.anchor_ne hu)
    · rw [hp]
      decide
  · exact (lt_of_unlocked ha hl).le

theorem blocked_not_grantable {g : Goal} {state : ℕ} (hb : g.attempt state = .blocked)
    (hg : (∃ m, g = .lock m) ∧ kind = .lock ∨ (∃ n, g = .permits n) ∧ ∃ n, kind = .semaphore n)
    (htoo : ¬g.TooMany) (hz : anchor state = 0) (hle : state ≤ 64) :
    ¬Grantable kind.maxSharedOwners (data state) g.opcode := by
  have hm : MAX_SHARED_OWNERS = 62 := by decide
  have hd : DATA_MASK = 63 := by decide
  have hp : POISONED_STATE = 64 := by decide
  rcases hg with ⟨⟨m, rfl⟩, rfl⟩ | ⟨⟨c, rfl⟩, n, rfl⟩
  · have hdata := data_eq state
    cases m <;> simp only [Goal.attempt, tryLockInternal, tryShareInternal, waitInternal] at hb <;>
      split at hb <;> (try cases hb) <;> split at hb <;> (try cases hb) <;>
      simp_all [Grantable, Goal.opcode, Mode.opcode, Opcode.desiredCount, Kind.maxSharedOwners] <;>
      omega
  · have hdata := data_eq state
    simp only [Goal.attempt, tryAcquireInternal] at hb
    split at hb
    · simp_all [Grantable, Goal.opcode, Opcode.desiredCount, Kind.maxSharedOwners, Goal.TooMany,
        MAX_PERMITS]
      omega
    · cases hb

theorem weighs_goto {x : Cfg} {p : Pc} (h : Weighs kind (x.goto t p) p) :
    Weighs kind (x.goto t p) ((x.goto t p).pc t) := by
  rw [goto_pc_self]
  exact h

theorem weighs_leave {x : Cfg} : Weighs kind (x.leave t q) ((x.leave t q).pc t) := by
  rw [leave_pc, Function.update_self]
  trivial

theorem weighs_of_phase {x : Cfg} {p : Pc} (h : p.phase ≠ .acquiring) (hw : p.phase ≠ .waiting) :
    Weighs kind x p := by
  cases p with
  | start | attempt | push => exact absurd rfl h
  | settle => exact absurd rfl hw
  | _ => trivial

theorem acquired_weighs {new : ℕ} (ha : Asks s q) :
    Weighs kind (acquired s t q new).2 ((acquired s t q new).2.pc t) := by
  unfold acquired
  split
  · exact weighs_goto ha
  · exact weighs_leave

theorem answered_weighs {r : ℕ} (ha : Asks s q) :
    Weighs kind (answered s t q r).2 ((answered s t q r).2.pc t) := by
  unfold answered
  split
  · exact weighs_goto ha
  · exact weighs_leave

theorem startStep_weighs (h : Inv kind s v) (ha : Asks s q) :
    Weighs kind (startStep s t q).2 ((startStep s t q).2.pc t) := by
  unfold startStep
  split
  · exact acquired_weighs ha
  · split
    · exact acquired_weighs ha
    · exact weighs_goto ⟨ha, h.word_le⟩

theorem grants_goal (hk : kind.Grants) (hf : q.Fits kind) :
    (∃ m, q.goal = .lock m) ∧ kind = .lock ∨
      (∃ n, q.goal = .permits n) ∧ ∃ n, kind = .semaphore n := by
  cases hg : q.goal with
  | lock m => exact .inl ⟨⟨m, rfl⟩, lock_fits hf hg⟩
  | permits n => exact .inr ⟨⟨n, rfl⟩, permits_fits hf hg⟩
  | enter => exact absurd (enter_fits hf hg).2 hk.not_gate
  | arrive => exact absurd (arrive_fits hf hg).2 hk.no_barrier

theorem attemptStep_weighs (hk : kind.Grants) (h : Inv kind s v) {state spin : ℕ}
    (hpc : s.pc t = .attempt q state spin) (ha : Asks s q) (hle : anchor state = 0 → state ≤ 64) :
    Weighs kind (attemptStep s t q state spin).2 ((attemptStep s t q state spin).2.pc t) := by
  have hl := h.loc t
  rw [hpc] at hl
  have hreq := hl.reqs q rfl
  have hgoal := grants_goal hk hreq.1
  have hne : q.goal ≠ .arrive ∧ q.goal ≠ .enter := by
    rcases hgoal with ⟨⟨m, he⟩, -⟩ | ⟨⟨n, he⟩, -⟩ <;> rw [he] <;> simp
  unfold attemptStep
  rw [if_neg hne.1]
  split
  · split
    · exact acquired_weighs ha
    · exact weighs_goto ⟨ha, h.word_le⟩
  · exact answered_weighs ha
  · next hb =>
    have hng : anchor state = 0 →
        ¬Grantable kind.maxSharedOwners (data state) q.goal.opcode := fun hz =>
      blocked_not_grantable hb hgoal hreq.2 hz (hle hz)
    split
    · exact weighs_goto ⟨ha, hle⟩
    · unfold blocked
      split
      · exact weighs_leave
      split
      · next hv =>
        refine weighs_goto ⟨ha, fun hz => ?_⟩
        rw [goto_opcode, ha (hv.resolve_right hne.2)]
        exact hng hz
      · have hop := (construct_fresh s q.entry q.goal.opcode false (fun hf => by cases hf)).2.1
        refine weighs_goto ⟨fun _ => hop, fun hz => ?_⟩
        rw [goto_opcode, hop]
        exact hng hz

theorem push_weighs {state : ℕ} (ha : Asks s q) :
    Weighs kind (tryPushWaitQueueEntry s t q state).2
      ((tryPushWaitQueueEntry s t q state).2.pc t) := by
  unfold tryPushWaitQueueEntry
  split
  · exact weighs_goto trivial
  · exact weighs_goto ha

theorem acquireCall_weighs (hw : Weighs kind s (s.pc t)) (hs : acquireCall s t q = some (e, s')) :
    Weighs kind s' (s'.pc t) := by
  cases acquireCall_begun hs with
  | refused => exact hw
  | tryOnly _ hv => exact weighs_goto fun hp => by rw [hv] at hp; cases hp
  | bare _ hv => exact weighs_goto fun hp => by rw [hp] at hv; simp at hv
  | @fresh had =>
    refine weighs_goto fun _ => ?_
    rw [goto_opcode]
    cases had <;> simp [Cfg.construct]

theorem dropPc_weighs {x : Cfg} (a : Ptr) : Weighs kind x (kind.dropPc a) := by
  cases kind <;> trivial

theorem callStep_weighs {op : Op} (hs : callStep kind s t op = some (e, s')) :
    Weighs kind s' (s'.pc t) := by
  unfold callStep at hs
  split at hs
  · cases hs
  next hidle =>
  rw [not_not] at hidle
  have hw : Weighs kind s (s.pc t) := by rw [hidle]; trivial
  split at hs
  · split at hs
    · exact acquireCall_weighs hw hs
    · cases hs
  · unfold pollCall at hs
    split at hs
    · split at hs <;> cases hs
      · change Weighs kind _ (s.pc t)
        rw [hidle]
        trivial
      · exact hw
    · cases hs
  · unfold dropCall at hs
    split at hs
    · split at hs <;> cases hs
      · exact weighs_goto (dropPc_weighs _)
      · change Weighs kind _ (s.pc t)
        rw [hidle]
        trivial
    · cases hs
  case h_9 =>
    split at hs <;> cases hs
    · exact weighs_goto trivial
    · exact hw
  all_goals
    cases hs
    try exact weighs_goto trivial

theorem runStep_weighs (hk : kind.Grants) (h : Inv kind s v) (hw : Weighs kind s (s.pc t))
    (hs : runStep kind s t = some (e, s')) : Weighs kind s' (s'.pc t) := by
  have hph := (runStep_move h hs).phase fun _ => (h.loc t).fits
  have hl := h.loc t
  have hother : Phase.acquiring ∉ (s.pc t).phase.next → Phase.waiting ∉ (s.pc t).phase.next →
      Weighs kind s' (s'.pc t) := fun hn hn' =>
    weighs_of_phase (fun he => hn (he ▸ hph)) fun he => hn' (he ▸ hph)
  cases hpc : s.pc t
  case start q =>
    rw [hpc] at hw
    simp only [runStep, hpc, Option.some.injEq, Prod.ext_iff] at hs
    exact hs.2 ▸ startStep_weighs h hw
  case attempt q state spin =>
    rw [hpc] at hw
    simp only [runStep, hpc, Option.some.injEq, Prod.ext_iff] at hs
    exact hs.2 ▸ attemptStep_weighs hk h hpc hw.1 hw.2
  case push q state =>
    rw [hpc] at hw
    simp only [runStep, hpc, Option.some.injEq, Prod.ext_iff] at hs
    exact hs.2 ▸ push_weighs hw.1
  case pushed q retry =>
    simp only [runStep, hpc, Option.some.injEq, pushedStep] at hs
    split at hs <;> cases hs
    · exact weighs_leave
    · exact weighs_goto trivial
  case settle q r =>
    simp only [runStep, hpc, Option.some.injEq] at hs
    cases hs
    exact weighs_goto trivial
  case settled q =>
    simp only [runStep, hpc, Option.some.injEq, settledStep] at hs
    split at hs <;> cases hs
    · exact weighs_leave
    · exact weighs_goto trivial
  case await q retry =>
    rw [hpc] at hl
    simp only [runStep, hpc, Option.some.injEq, awaitStep] at hs
    split at hs
    · split at hs
      · next hr =>
        obtain ⟨-, n, hn⟩ := arrive_fits (hl.reqs q rfl).1 (hl.fits.2 hr)
        exact absurd hn (hk.not_barrier n)
      · cases hs
        exact weighs_leave
    · cases hs
      exact hw
  case resolve cur r n k =>
    rw [hpc] at hl hother
    cases k
    case writeBack q => exact absurd hl.fits hk.no_barrier
    case last q => exact absurd hl.fits hk.no_barrier
    all_goals
      exact hother (by simp [Pc.phase, Then.phase, Phase.next])
        (by simp [Pc.phase, Then.phase, Phase.next])
  case finalize cur nx r n k =>
    rw [hpc] at hl hother
    cases k
    case writeBack q => exact absurd hl.fits hk.no_barrier
    case last q => exact absurd hl.fits hk.no_barrier
    all_goals
      exact hother (by simp [Pc.phase, Then.phase, Phase.next])
        (by simp [Pc.phase, Then.phase, Phase.next])
  case writeBack q c => exact absurd hpc (h.no_writeBack hk.not_barrier)
  case idle => simp [runStep, hpc] at hs
  case fault => simp [runStep, hpc] at hs
  all_goals
    exact hother (by rw [hpc]; simp [Pc.phase, Phase.next])
      (by rw [hpc]; simp [Pc.phase, Phase.next])

theorem cancelStep_weighs (hs : cancelStep kind s t = some (e, s')) :
    Weighs kind s' (s'.pc t) := by
  unfold cancelStep at hs
  split at hs
  · split at hs
    · split at hs <;> cases hs
      · exact weighs_goto (dropPc_weighs _)
      · exact weighs_leave
    · cases hs
  · cases hs

theorem Frame.weighs {u : Tid} (hf : Frame s v t e s') (h : Inv kind s v) (hu : u ≠ t)
    (hw : Weighs kind s (s.pc u)) : Weighs kind s' (s'.pc u) := by
  have hl := h.loc u
  rw [hf.pc u hu]
  have hop : ∀ q : Req, (s.pc u).entry = q.held → q.via ≠ .tryOnly →
      s'.opcode q.entry = s.opcode q.entry := fun q he htry =>
    hf.opcode _ u hu ((hl.slot _).mp (he.trans (if_neg htry)))
  have hask : ∀ q : Req, (s.pc u).entry = q.held → Asks s q → Asks s' q := by
    intro q he ha hp
    rw [hop q he (by rw [hp]; simp)]
    exact ha hp
  cases hpc : s.pc u <;> rw [hpc] at hw hask hop hl <;> try trivial
  case start q => exact hask q rfl hw
  case attempt q state spin => exact ⟨hask q rfl hw.1, hw.2⟩
  case push q state =>
    refine ⟨hask q rfl hw.1, ?_⟩
    rw [hop q rfl hl.fits.1]
    exact hw.2
  case settle q r => exact hask q rfl hw

/-- What a step does to the oldest waiter. -/
theorem step_head (hk : kind.Grants) (h : Inv kind s v) (h' : Inv kind s' (v.observe e))
    (ha : Awake kind s v) (hs : step kind s act = some (e, s')) (hn : ¬Locked s'.word) :
    HeadBlocked kind s' (v.observe e) := by
  have hef := step_effect h hs
  have hf := step_frame h hs
  have hnil : s.word < 128 → v.queue = [] := fun hw =>
    h.glob.chain.eq_nil_iff.mpr (h.anchor_zero (by omega))
  have hkeep : ∀ b, b ∈ v.queue → b ∈ (v.observe e).queue → s'.opcode b = s.opcode b := by
    intro b hb hb'
    refine hf.kept b ?_ ?_
    · rw [(h.glob.queued b).mp hb]; simp
    · rw [(h'.glob.queued b).mp hb']; simp
  have hsame : (v.observe e).queue = v.queue → s'.word = s.word →
      HeadBlocked kind s' (v.observe e) := by
    intro hq hw b hb
    rw [hq] at hb
    have hm := List.mem_of_getLast? hb
    rw [hw, hkeep b hm (by rw [hq]; exact hm)]
    exact ha.head (by rw [← hw]; exact hn) b hb
  have hempty : (v.observe e).queue = [] → HeadBlocked kind s' (v.observe e) := by
    intro hq b hb
    rw [hq] at hb
    cases hb
  cases e
  case acquire => exact hempty (hnil (by have := hef.1; omega))
  case release =>
    by_cases hq : v.queue = []
    · exact hempty hq
    · exact absurd (hef.2.2 hq) hn
  case push u b op =>
    obtain ⟨-, hop, ⟨q, hpc, rfl⟩, hd, hlk⟩ := hef
    intro x hx
    change x ∈ (q.entry :: v.queue).getLast? at hx
    rw [hd, hop]
    cases hq : v.queue with
    | nil =>
      rw [hq] at hx
      cases hx
      have hw := ha.weighs u
      rw [hpc] at hw
      exact hw.2 (h.glob.chain.eq_nil_iff.mp hq)
    | cons c l =>
      rw [hq, List.getLast?_cons_cons] at hx
      exact ha.head (fun hl => hn (hlk.mpr hl)) x (by rw [hq]; exact hx)
  case countDown u b op =>
    obtain ⟨-, -, ⟨q, i, hpc, -, hg⟩, -⟩ := hef
    have hl := h.loc u
    rw [hpc] at hl
    obtain ⟨-, n, hn⟩ := arrive_fits (hl.reqs q rfl).1 hg
    exact absurd hn (hk.not_barrier n)
  case last u b =>
    obtain ⟨⟨q, i, hpc, -, hg⟩, -⟩ := hef
    have hl := h.loc u
    rw [hpc] at hl
    obtain ⟨-, n, hn⟩ := arrive_fits (hl.reqs q rfl).1 hg
    exact absurd hn (hk.not_barrier n)
  case writeBack u c =>
    obtain ⟨⟨q, hpc⟩, -⟩ := hef
    exact absurd hpc (h.no_writeBack hk.not_barrier)
  case lockQueue => exact absurd hef.2.2.1 hn
  case cut u b =>
    rw [hef.2] at hn
    exact absurd (h.word_locked hef.1) hn
  case tailReset => exact hempty rfl
  case grant u tr =>
    obtain ⟨-, -, -, -, hg⟩ := hef
    intro b hb
    have hm := List.mem_of_getLast? hb
    rw [hkeep b hm hm]
    exact hg hn b hb
  case unlink u b =>
    refine hempty ?_
    change v.queue.erase b = []
    rw [hef.2.2 hn, List.erase_cons_head]
  case poison => exact hempty rfl
  case clearPoison => exact hempty (hnil (by rw [hef.1]; decide))
  case wakeAll => exact absurd hef.1 hk.not_gate
  case reset => exact absurd hef.1 hk.not_gate
  all_goals exact hsame rfl hef

theorem step_awake (hk : kind.Grants) (h : Inv kind s v) (h' : Inv kind s' (v.observe e))
    (ha : Awake kind s v) (hs : step kind s act = some (e, s')) :
    Awake kind s' (v.observe e) := by
  have hf := step_frame h hs
  refine ⟨step_head hk h h' ha hs, fun u => ?_⟩
  by_cases hu : u = act.actor
  · subst hu
    cases act with
    | call t op => exact callStep_weighs hs
    | run t => exact runStep_weighs hk h (ha.weighs t) hs
    | cancel t => exact cancelStep_weighs hs
  · exact hf.weighs h hu (ha.weighs u)

theorem reach_awake {ok : Guard Cfg Action Event} {h : List Event} (hk : kind.Grants)
    (hr : Reach kind ok s h) : Inv kind s (view h) ∧ Awake kind s (view h) := by
  refine hr.invariant (P := fun s h => Inv kind s (view h) ∧ Awake kind s (view h)) ?_ ?_
  · refine ⟨initial_inv kind, fun _ => ?_, fun t => trivial⟩
    intro a ha
    cases ha
  · rintro s h a e s' hr ⟨hi, ha⟩ hok hs
    have hi' := reach_inv hk.not_barrier (.step hr hok hs)
    exact ⟨hi', step_awake hk hi hi' ha hs⟩

/-- In every reachable state of a lock or a semaphore whose queue is neither empty nor
being processed, the oldest waiter cannot be granted from the data field. -/
theorem no_stranded_waiter {h : List Event} {e : Ptr} (hk : kind.Grants)
    (hr : Reach kind free s h) (hl : ¬Locked s.word) (he : (view h).queue.getLast? = some e) :
    data s.word ≠ 0 ∧ kind.maxSharedOwners < data s.word + (s.opcode e).desiredCount := by
  have hb := (reach_awake hk hr).2.head hl e he
  simpa only [Grantable, not_or, not_le] using hb

end

/-- The waiter of a handover, before the permit is released. -/
theorem no_stranded_waiter_handover :
    ∃ s h, exec (system (.semaphore 1)) (Kind.initial (.semaphore 1)) [] (handover.take 8) =
        some (s, h) ∧ (view h).queue.getLast? = some 256 ∧
      data s.word ≠ 0 ∧ MAX_PERMITS < data s.word + (s.opcode 256).desiredCount := by
  obtain ⟨s, h, hrun, hl, hq⟩ : ∃ s h,
      exec (system (.semaphore 1)) (Kind.initial (.semaphore 1)) [] (handover.take 8) =
        some (s, h) ∧ ¬Locked s.word ∧ (view h).queue.getLast? = some 256 :=
    ⟨_, _, rfl, by decide, rfl⟩
  exact ⟨s, h, hrun, hq, no_stranded_waiter (Or.inr ⟨1, rfl⟩)
    (Run.exec .init (admits_free ..) hrun) hl hq⟩

end Saa
