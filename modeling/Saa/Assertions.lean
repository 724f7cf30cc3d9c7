import Saa.Barrier
import Saa.Gates
import Saa.Walks

/-! # Assertions

The debug assertions of the queue and of the primitives, and the null pointers that their
walks must not follow. The assertions about the addresses inside a wait queue are not among
them. -/
namespace Saa

open Word Lib.Linked Lib.Trace

/-- The result codes a primitive stores in its entries. -/
def Kind.Codes : Kind → ℕ → Prop
  | .lock, r => r = ACQUIRED ∨ r = POISONED
  | .semaphore _, r => r = ACQUIRED
  | .gate, r => r < 16
  | .barrier _, r => r ≤ 2

/-- The assertion of `Entry::try_consume_result`, and those that a lock makes about the code. -/
def EntryState.Sound (kind : Kind) (e : EntryState) : Prop :=
  e.finalized = true → e.resultSet = true ∧
    (kind = .lock → e.result = ACQUIRED ∨ e.result = POISONED)

/-- The code that `try_lock_internal` and `try_share_internal` return for an attempt. -/
def Attempt.code : Attempt → ℕ
  | .cas _ => ACQUIRED
  | .done result => result
  | .blocked => NOT_ACQUIRED

/-- What a program point has to do with codes: those that it is about to store, and the snapshot
with which a call was told to queue. -/
def Pc.Coded (kind : Kind) : Pc → Prop
  | .fault => False
  | .settle _ r | .resolve _ r _ _ | .finalize _ _ r _ _ => kind.Codes r
  | .wakeAll _ er _ => ∀ g, intoU8 g er < 16
  | .push q state => q.goal = .arrive ∨ q.goal.attempt state = .blocked
  | _ => True

structure Coded (kind : Kind) (s : Cfg) (v : View) : Prop where
  stored : ∀ a, (v.stat a).Resolved → kind.Codes (s.state a).result
  carried : ∀ t, (s.pc t).Coded kind

def Pc.joins : Pc → Option Req
  | .start q | .attempt q _ _ | .push q _ => some q
  | _ => none

def Pc.retries : Pc → Option Req
  | .pushed q true | .await q true => some q
  | _ => none

structure Retrying (s : Cfg) (v : View) : Prop where
  joins : ∀ t q, (s.pc t).joins = some q → s.pollable q.entry = false
  codes : ∀ t, (s.pc t).verdict ≠ some 1
  retries : ∀ t q, (s.pc t).retries = some q → (v.stat q.entry).Resolved →
    (s.state q.entry).result ≠ 1

section
variable {kind : Kind} {s s' : Cfg} {v : View} {h : List Event} {t u : Tid} {a b : Ptr} {r n : ℕ}
  {act : Action} {e : Event} {q : Req}

theorem codes_zero (kind : Kind) : kind.Codes 0 := by
  cases kind <;> simp [Kind.Codes, ACQUIRED]

theorem attempt_codes {state : ℕ} (hf : q.Fits kind) (ha : q.goal.attempt state = .done r) :
    kind.Codes r := by
  cases hg : q.goal with
  | lock mode =>
    obtain rfl := lock_fits hf hg
    rw [hg] at ha
    cases mode <;>
      simp only [Goal.attempt, tryLockInternal, tryShareInternal, waitInternal] at ha <;>
      (split at ha <;> try split at ha) <;> cases ha <;> simp [Kind.Codes]
  | permits count =>
    rw [hg] at ha
    simp only [Goal.attempt, tryAcquireInternal] at ha
    split at ha <;> cases ha
  | enter =>
    obtain ⟨-, rfl⟩ := enter_fits hf hg
    rw [hg] at ha
    simp only [Goal.attempt, pushWaitQueueEntry] at ha
    split at ha <;> cases ha <;> exact show _ < 16 by decide
  | arrive =>
    rw [hg] at ha
    cases ha

theorem after_coded (k : After) : k.pc.Coded kind := by cases k <;> trivial

theorem Took.coded_self (ht : Took kind s v t act e s') (hc : (s.pc t).Coded kind) :
    (s'.pc t).Coded kind := by
  have hl := ht.inv.loc t
  have hmv := ht.move
  generalize s.pc t = p at hmv hl hc
  generalize s'.pc t = p' at hmv
  cases hmv with
  | take => cases kind <;> simp [Pc.Coded, Kind.Codes, ACQUIRED]
  | answer _ ha => exact attempt_codes (hl.reqs _ rfl).1 ha
  | queue _ ha => exact .inr ha
  | waitOnly _ hg => exact .inl hg
  | last | tailReset | update | add => exact codes_zero kind
  | writeBack hn =>
    obtain ⟨n, rfl⟩ := hn
    exact Nat.le_refl 2
  | arrived hn =>
    obtain ⟨n, rfl⟩ := hn
    exact Nat.le_succ 1
  | poison =>
    obtain rfl : kind = .lock := hl.fits
    exact .inr rfl
  | enter hen =>
    cases hen with
    | gate _ hcmd =>
      cases hcmd with
      | reset => trivial
      | _ =>
        intro g
        cases g <;> decide
    | _ => trivial
  | gate hk hg =>
    subst hk
    cases hg with
    | wakeAll => exact hc _
    | spurious => exact fun g => by cases g <;> decide
    | _ => trivial
  | set | finalize => exact hc
  | unreleased | release | leave => exact after_coded _
  | drop | cancel => cases kind <;> trivial
  | _ => trivial

theorem Took.stores {x : Tid} (ht : Took kind s v t act (.setResult x a r) s')
    (hc : (s.pc t).Coded kind) : kind.Codes r := by
  have hmv := ht.move
  generalize s.pc t = p at hmv hc
  generalize s'.pc t = p' at hmv
  cases hmv with
  | settle | set => exact hc
  | gate _ hg => cases hg

theorem Took.finalizes {x : Tid} (ht : Took kind s v t act (.finalize x a) s') :
    v.stat a = .answered t := by
  have hl := ht.inv.loc t
  have hmv := ht.move
  generalize s.pc t = p at hmv hl
  generalize s'.pc t = p' at hmv
  cases hmv with
  | settled | settledWait | finalize => exact (hl.answering _).mp rfl
  | gate _ hg => cases hg

theorem Took.result_of (ht : Took kind s v t act e s') (hres : ((v.observe e).stat a).Resolved) :
    (∃ r, e = .setResult t a r ∧ (s'.state a).result = r) ∨
    (v.stat a).Resolved ∧ (s'.state a).result = (s.state a).result := by
  have hi' : (v.observe e).stat a ≠ .idle := by
    rcases hres with hst | ⟨x, hst⟩ <;> rw [hst] <;> simp
  by_cases hset : ∃ x r, e = .setResult x a r
  · obtain ⟨x, r, rfl⟩ := hset
    obtain ⟨rfl, hr, -⟩ := ht.frame.set x a r rfl
    exact .inl ⟨r, rfl, hr⟩
  have hne : ∀ x r, e ≠ .setResult x a r := fun x r he => hset ⟨x, r, he⟩
  have hwas : (v.stat a).Resolved := by
    rcases stat_resolved hres with hst | ⟨x, r, he⟩ | ⟨x, rfl⟩
    · exact hst
    · exact absurd he (hne x r)
    · exact .inr ⟨t, ht.finalizes⟩
  have hi : v.stat a ≠ .idle := by
    rcases hwas with hst | ⟨x, hst⟩ <;> rw [hst] <;> simp
  exact .inr ⟨hwas, ht.frame.result a hi hi' hne⟩

theorem step_coded (ht : Took kind s v t act e s') (hc : Coded kind s v) :
    Coded kind s' (v.observe e) where
  carried u := by
    by_cases hu : u = t
    · rw [hu]
      exact ht.coded_self (hc.carried t)
    · rw [ht.frame.pc u hu]
      exact hc.carried u
  stored a hres := by
    rcases ht.result_of hres with ⟨r, rfl, hr⟩ | ⟨hwas, hr⟩ <;> rw [hr]
    · exact ht.stores (hc.carried t)
    · exact hc.stored a hwas

theorem reach_coded (hb : ∀ n, kind ≠ .barrier n) (hr : Reach kind free s h) :
    Coded kind s (view h) := by
  refine hr.invariant (P := fun s h => Coded kind s (view h)) ?_ ?_
  · refine ⟨fun a hres => ?_, fun t => trivial⟩
    rcases hres with hst | ⟨x, hst⟩ <;> cases hst
  · intro s h act e s' hr ih hok hs
    exact step_coded (took (reach_inv hb hr) (reach_inv hb (.step hr hok hs)) hs) ih

theorem construct_pollable {op : Opcode} {had : Bool} (hb : b ≠ a) :
    (s.construct a op had).pollable b = s.pollable b := by
  unfold Cfg.construct
  split
  · rfl
  · exact Function.update_of_ne hb _ _

theorem leave_pollable (x : Cfg) (q : Req) : (x.leave t q).pollable = x.pollable := by
  unfold Cfg.leave
  split <;> rfl

theorem acquired_pollable {new : ℕ} : (acquired s t q new).2.pollable b = s.pollable b := by
  unfold acquired
  split
  · rfl
  · exact congrFun (leave_pollable _ q) b

theorem answered_pollable {r : ℕ} : (answered s t q r).2.pollable b = s.pollable b := by
  unfold answered
  split
  · rfl
  · exact congrFun (leave_pollable _ q) b

theorem blocked_pollable {state : ℕ} (hb : q.via ≠ .tryOnly → b ≠ q.entry) :
    (blocked s t q state).2.pollable b = s.pollable b := by
  unfold blocked
  split
  · exact congrFun (leave_pollable _ q) b
  next hv =>
  split
  · rfl
  · exact (congrFun (goto_pollable _ t _) b).trans (construct_pollable (hb hv))

theorem countDown_pollable {state : ℕ} (hb : b ≠ q.entry) :
    (countDown s t q state).2.pollable b = s.pollable b := by
  unfold countDown
  split
  · exact (congrFun (goto_pollable _ t _) b).trans (construct_pollable hb)
  split
  · split <;> rfl
  · split <;> rfl

theorem Inv.pollable_run (hi : Inv kind s v) (hs : step kind s (.run t) = some (e, s'))
    (hb : s.slot b = .used u) (hu : u ≠ t) (hst : v.stat b = .idle) :
    s'.pollable b = s.pollable b := by
  have hl := hi.loc t
  have hown : ∀ a, (s.pc t).entry = some a → b ≠ a := by
    rintro a ha rfl
    rw [(hl.slot b).mp ha] at hb
    exact hu (Slot.used.inj hb).symm
  have hheld : ∀ q : Req, (s.pc t).entry = q.held → q.via ≠ .tryOnly → b ≠ q.entry := fun q hq hv =>
    hown q.entry (hq.trans (if_neg hv))
  simp only [step] at hs
  unfold runStep at hs
  cases hpc : s.pc t <;> rw [hpc] at hl hown hheld <;>
    simp only [hpc, Option.some.injEq, reduceCtorEq] at hs <;>
    (try
      obtain ⟨-, h₂⟩ := Prod.ext_iff.mp hs
      change _ = s' at h₂
      subst h₂)
  case start q =>
    unfold startStep
    split
    · exact acquired_pollable
    split
    · exact acquired_pollable
    · rfl
  case attempt q state spin =>
    have hne : q.via ≠ .tryOnly → b ≠ q.entry := hheld q rfl
    unfold attemptStep
    split
    · next hg =>
      have hv := (arrive_fits (hl.reqs q rfl).1 hg).1
      exact countDown_pollable (hne (by rcases hv with hv | hv <;> rw [hv] <;> simp))
    split
    · split
      · exact acquired_pollable
      · rfl
    · exact answered_pollable
    · split
      · rfl
      · exact blocked_pollable hne
  case push q state =>
    unfold tryPushWaitQueueEntry
    split <;> rfl
  case pushed q retry =>
    have hne := hheld q rfl hl.fits.1
    unfold pushedStep
    split <;> simp [leave_pollable, hne]
  case settle q r => exact Function.update_of_ne (hheld q rfl hl.fits) _ _
  case settled q =>
    unfold settledStep
    split <;> simp [leave_pollable, Cfg.setFinalized]
  case await q retry =>
    have hne := hheld q rfl (by rcases hl.fits.1 with hv | hv <;> rw [hv] <;> simp)
    unfold awaitStep
    repeat' split
    all_goals simp [leave_pollable, construct_pollable, Cfg.consume, hne]
  case resolve cur r n k =>
    unfold resolveStep
    split
    · cases k <;> rfl
    · next hcur =>
      obtain ⟨l, hcons⟩ := hl.taken.mem_head hcur
      have hx := (hi.glob.taken t cur).mp (hcons ▸ List.mem_cons_self)
      refine Function.update_of_ne ?_ _ _
      rintro rfl
      rw [hst] at hx
      cases hx
  case gateDrop a =>
    unfold gateDropStep
    split
    · exact Function.update_of_ne (hown a rfl) _ _
    · rfl
  case acknowledge a =>
    unfold acknowledgeStep
    split
    · exact Function.update_of_ne (hown a rfl) _ _
    · rfl
  case finish a => exact Function.update_of_ne (hown a rfl) _ _
  case releaseFast op => cases op <;> dsimp only [releaseFast] <;> (try split) <;> rfl
  case releaseLoop | poisonFast | poisonLoop | clearPoison | gateReset | walk | relink | back |
      tailReset | update | remove | dropLoop | complete =>
    simp only [releaseLoop, poisonFast, poisonLockInternal, clearPoisonStep, gateResetStep,
      walkStep, relinkStep, backStep, tailResetStep, updateStep, removeStep, forceRemove,
      completeStep]
    repeat' split
    all_goals rfl
  all_goals rfl

theorem acquireCall_pollable (hs : acquireCall s t q = some (e, s')) (hb : s.slot b = .used u) :
    s'.pollable b = s.pollable b := by
  cases acquireCall_begun hs with
  | refused | tryOnly | bare => rfl
  | fresh _ _ _ hor =>
    refine (congrFun (goto_pollable _ t _) b).trans (construct_pollable ?_)
    rintro rfl
    rcases hor with ⟨hsl, -⟩ | ⟨hsl, -⟩ <;> rw [hb] at hsl <;> cases hsl

theorem Inv.pollable_other (hi : Inv kind s v) (hs : step kind s act = some (e, s'))
    (hb : s.slot b = .used u) (hu : u ≠ act.actor) (hst : v.stat b = .idle) :
    s'.pollable b = s.pollable b := by
  cases act with
  | run t => exact hi.pollable_run hs hb hu hst
  | cancel t =>
    simp only [step, cancelStep] at hs
    repeat' split at hs
    all_goals cases hs
    · rfl
    · exact congrFun (leave_pollable _ _) b
  | call t op =>
    have hne : ∀ a, s.slot a = .pager ∨ s.slot a = .none → b ≠ a := by
      rintro a ha rfl
      rcases ha with ha | ha <;> rw [hb] at ha <;> cases ha
    simp only [step, callStep] at hs
    split at hs
    · cases hs
    cases op with
    | acquire q =>
      simp only at hs
      split at hs
      swap
      · cases hs
      exact acquireCall_pollable hs hb
    | poll a =>
      simp only [pollCall] at hs
      split at hs
      · next hc =>
        split at hs <;> cases hs
        · exact Function.update_of_ne (hne a (.inl hc)) _ _
        · rfl
      · cases hs
    | drop a =>
      simp only [dropCall] at hs
      repeat' split at hs
      all_goals cases hs
      all_goals rfl
    | _ =>
      cases kind <;> simp only [reduceCtorEq] at hs
      all_goals (try split at hs) <;> cases hs <;> rfl

theorem joins_pollable (hp : (s.pc t).joins = some q) (hg : q.goal = .arrive)
    (hs : step kind s (.run t) = some (e, s')) : s'.pollable = s.pollable := by
  simp only [step] at hs
  unfold runStep at hs
  cases hpc : s.pc t <;> rw [hpc] at hp <;> cases hp <;>
    simp only [hpc, Option.some.injEq] at hs <;>
    (obtain ⟨-, h₂⟩ := Prod.ext_iff.mp hs
     change _ = s' at h₂
     subst h₂)
  case start => simp [startStep, hg]
  case attempt =>
    unfold attemptStep countDown
    rw [if_pos hg]
    repeat' split
    all_goals rfl
  case push =>
    unfold tryPushWaitQueueEntry
    split <;> rfl

theorem Inv.joins_own (hi : Inv (.barrier n) s v)
    (hs : step (.barrier n) s act = some (e, s')) (ht : act.actor = t)
    (hf : ∀ q, (s.pc t).joins = some q → s.pollable q.entry = false)
    (hp : (s'.pc t).joins = some q) : s'.pollable q.entry = false := by
  have hmv := step_move hi hs
  have harr : ∀ q, (s.pc t).reqs = some q → q.goal = .arrive := fun q => hi.arrives
  rw [ht] at hmv
  generalize hpc : s.pc t = p at hmv hf harr
  generalize hpc' : s'.pc t = p' at hmv hp
  cases hmv with
  | gate hg => cases hg
  | enter hin =>
    cases hin with
    | gate hg => cases hg
    | _ => cases hp
  | @unreleased o | @release o => cases o <;> cases hp
  | @leave _ _ k => cases k <;> cases hp
  | queue hne => exact absurd (harr _ rfl) hne
  | spin hne => exact absurd (harr _ rfl) hne
  | acquire hfit htoo =>
    cases hp
    obtain ⟨goal, via, a⟩ := q
    obtain rfl : goal = .arrive := by
      cases goal with
      | arrive => rfl
      | _ => cases hfit
    have hv : via = .sync ∨ via = .async := hfit
    simp only [step, callStep, hpc, ne_eq, not_true_eq_false, if_false, if_pos hfit, acquireCall,
      if_neg htoo] at hs
    rcases hv with rfl | rfl
    all_goals
      simp only at hs
      split at hs
      swap
      · cases hs
      cases hs
      exact Function.update_self _ _ _
  | @load q' | @again q' | @reload q' | @waitOnly q' =>
    cases hp
    rw [joins_pollable (by rw [hpc]; rfl) (harr _ rfl) hs]
    exact hf _ rfl
  | retry =>
    cases hp
    simp only [step, runStep, hpc, awaitStep] at hs
    split at hs
    · simp only [if_true] at hs
      cases hs
      simp [Cfg.construct, Cfg.consume]
    · cases hs
  | _ => cases hp

theorem Inv.joining (hi : Inv (.barrier n) s v) (hp : (s.pc t).joins = some q) :
    s.slot q.entry = .used t ∧ v.stat q.entry = .idle := by
  have hl := hi.loc t
  have hreq : (s.pc t).reqs = some q ∧ (s.pc t).entry = q.held ∧ (s.pc t).stage = .prep := by
    generalize s.pc t = p at hp
    unfold Pc.joins at hp
    split at hp <;> cases hp <;> exact ⟨rfl, rfl, rfl⟩
  have hent : (s.pc t).entry = some q.entry := by
    refine hreq.2.1.trans (if_neg ?_)
    obtain ⟨hv | hv, -⟩ := arrive_fits (hl.reqs q hreq.1).1 (hi.arrives hreq.1) <;> rw [hv] <;> simp
  have hst := hl.stat _ hent
  rw [hreq.2.2] at hst
  exact ⟨(hl.slot _).mp hent, hst⟩

theorem Took.codes_own (ht : Took (.barrier n) s v t act e s')
    (hc : (s.pc t).verdict ≠ some 1) : (s'.pc t).verdict ≠ some 1 := by
  have hl := ht.inv.loc t
  have hmv := ht.move
  generalize s.pc t = p at hmv hl hc
  generalize s'.pc t = p' at hmv
  cases hmv with
  | gate hg => cases hg
  | enter hin =>
    cases hin with
    | gate hg => cases hg
    | _ => simp [Pc.verdict]
  | set | finalize => exact hc
  | poison => cases hl.fits
  | @unreleased o | @release o => cases o <;> simp [Pc.verdict, Holder.after, After.pc]
  | @leave _ _ k => cases k <;> simp [Pc.verdict, After.pc]
  | _ => simp [Pc.verdict, Kind.dropPc]

theorem Took.retries_own (ht : Took (.barrier n) s v t act e s')
    (hp : (s'.pc t).retries = some q) :
    (s.pc t).retries = some q ∧ e = .tau ∨ (v.observe e).stat q.entry = .queued := by
  have hmv := ht.move
  generalize s.pc t = p at hmv
  generalize s'.pc t = p' at hmv hp
  cases hmv with
  | gate hg => cases hg
  | enter hin =>
    cases hin with
    | gate hg => cases hg
    | _ => cases hp
  | @unreleased o | @release o => cases o <;> cases hp
  | @leave _ _ k => cases k <;> cases hp
  | @push q' =>
    refine .inr ?_
    generalize decide (q'.goal = .arrive) = b at hp
    cases b <;> cases hp
    simp [View.observe]
  | @wait q' retry | @pending q' retry =>
    cases retry <;> cases hp
    exact .inl ⟨rfl, rfl⟩
  | _ => cases hp

theorem Inv.retrying (hi : Inv (.barrier n) s v) (hp : (s.pc t).retries = some q) :
    s.slot q.entry = .used t := by
  have hl := hi.loc t
  have hreq : (s.pc t).reqs = some q ∧ (s.pc t).entry = q.held := by
    generalize s.pc t = p at hp
    unfold Pc.retries at hp
    split at hp <;> cases hp <;> exact ⟨rfl, rfl⟩
  refine (hl.slot _).mp (hreq.2.trans (if_neg ?_))
  obtain ⟨hv | hv, -⟩ := arrive_fits (hl.reqs q hreq.1).1 (hi.arrives hreq.1) <;> rw [hv] <;> simp

theorem Took.stores_other (ht : Took (.barrier n) s v t act (.setResult t a r) s')
    (ha : s.slot a = .used u) (hu : u ≠ t) (hc : (s.pc t).verdict ≠ some 1) : r ≠ 1 := by
  have hset : ∀ q r', s.pc t = .settle q r' → q.entry ≠ a := by
    rintro q r' hp rfl
    rw [(ht.inv.settling hp).2.1] at ha
    exact hu (Slot.used.inj ha).symm
  have hmv := ht.move
  generalize s.pc t = p at hmv hset hc
  generalize s'.pc t = p' at hmv
  cases hmv with
  | gate hg => cases hg
  | settle => exact absurd rfl (hset _ _ rfl)
  | set =>
    rintro rfl
    exact hc rfl

theorem step_retrying (hs : step (.barrier n) s act = some (e, s'))
    (ht : Took (.barrier n) s v act.actor act e s') (hr : Retrying s v) :
    Retrying s' (v.observe e) where
  joins u q hp := by
    by_cases hu : u = act.actor
    · subst hu
      exact ht.inv.joins_own hs rfl (hr.joins _) hp
    · rw [ht.frame.pc u hu] at hp
      obtain ⟨hsl, hst⟩ := ht.inv.joining hp
      rw [ht.inv.pollable_other hs hsl hu hst]
      exact hr.joins u q hp
  codes u := by
    by_cases hu : u = act.actor
    · rw [hu]
      exact ht.codes_own (hr.codes _)
    · rw [ht.frame.pc u hu]
      exact hr.codes u
  retries u q hp hres := by
    by_cases hu : u = act.actor
    · rw [hu] at hp
      rcases ht.retries_own hp with ⟨hp₀, rfl⟩ | hq
      · rcases ht.result_of hres with ⟨r, hx, -⟩ | ⟨hwas, hsame⟩
        · cases hx
        · rw [hsame]
          exact hr.retries _ q hp₀ hwas
      · rcases hres with hx | ⟨x, hx⟩ <;> rw [hq] at hx <;> cases hx
    · rw [ht.frame.pc u hu] at hp
      rcases ht.result_of hres with ⟨r, rfl, hsame⟩ | ⟨hwas, hsame⟩ <;> rw [hsame]
      · exact ht.stores_other (ht.inv.retrying hp) hu (hr.codes _)
      · exact hr.retries u q hp hwas

theorem reach_retrying (hr : Reach (.barrier n) Polite s h) :
    Coded (.barrier n) s (view h) ∧ Retrying s (view h) := by
  refine hr.invariant (P := fun s h => Coded (.barrier n) s (view h) ∧ Retrying s (view h)) ?_ ?_
  · refine ⟨⟨fun a hres => ?_, fun t => trivial⟩, ⟨?_, ?_, ?_⟩⟩
    · rcases hres with hst | ⟨x, hst⟩ <;> cases hst
    · intro t q hp
      cases hp
    · intro t
      simp [system, Kind.initial, Pc.verdict]
    · intro t q hp
      cases hp
  · rintro s h act e s' hr ⟨hc, hx⟩ hok hs
    have ht := took (reach_barrier hr).1 (reach_barrier (.step hr hok hs)).1 hs
    exact ⟨step_coded ht hc, step_retrying hs ht hx⟩

theorem Coded.sound (hc : Coded kind s v) (hi : Inv kind s v) (hne : v.stat a ≠ .idle) :
    (s.state a).Sound kind := by
  intro hf
  have hst := hi.glob.final_of hne hf
  refine ⟨(hi.glob.final a hst).1, ?_⟩
  rintro rfl
  exact hc.stored a (.inl hst)

theorem Snap.anchor_ne {state : ℕ} {newer seg : List Ptr} (hs : Snap s v state newer seg)
    (hi : Inv kind s v) : anchor state ≠ 0 :=
  hi.glob.chain.ne_null _ (hs.mem (List.mem_of_mem_head? hs.tail))

end

end Saa
