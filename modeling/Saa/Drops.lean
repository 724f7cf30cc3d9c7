import Saa.Owners
import Saa.Removal

/-! # Dropping a registered entry

`force_remove_wait_queue_entry` as a whole: whether it ends, and what it does to the owners
of a lock. Both depend on the word it meets, since a poisoned lock looks like a queue that
another thread is processing. -/
namespace Saa

open Word Lib.Linked Lib.Trace

/-- No thread but `t` is in the middle of an operation: the others are idle or suspended in
a call that waits. -/
def Quiet (t : Tid) (s : Cfg) : Prop :=
  ∀ u, u ≠ t → s.pc u = .idle ∨ ∃ q retry, s.pc u = .await q retry

/-- Alone, thread `t` finishes the drop of `a`, and the entry is in no queue then. -/
def Ends (kind : Kind) (t : Tid) (a : Ptr) (s : Cfg) (h : List Event) : Prop :=
  ∃ s' h', Solo kind t s h s' h' ∧ s'.pc t = .idle ∧ s'.slot a = .none ∧ a ∉ (view h').queue

section
variable {kind : Kind} {s s₁ s' : Cfg} {v : View} {h h₁ h' : List Event} {t : Tid} {a : Ptr}
  {k : After} {op : Opcode} {state : ℕ} {act : Action} {e : Event}

theorem Ends.after (hx : Solo kind t s h s₁ h₁) (he : Ends kind t a s₁ h₁) : Ends kind t a s h := by
  obtain ⟨s', h', hy, hend⟩ := he
  exact ⟨s', h', hx.trans hy, hend⟩

theorem solo_pc {u : Tid} (hk : kind.Grants) (hr : Reach kind free s h) (hu : u ≠ t)
    (hx : Solo kind t s h s' h') : s'.pc u = s.pc u := by
  induction hx with
  | done => rfl
  | @step s h e s₁ _ _ hs _ ih =>
    have hr₁ : Reach kind free s₁ (e :: h) := .step (a := Action.run t) hr trivial hs
    replace hs : step kind s (.run t) = some (e, s₁) := hs
    have ht := took (reach_inv hk.not_barrier hr) (reach_inv hk.not_barrier hr₁) hs
    exact (ih hr₁).trans (ht.frame.pc u hu)

theorem Quiet.solo (hk : kind.Grants) (hr : Reach kind free s h) (hq : Quiet t s)
    (hx : Solo kind t s h s' h') : Quiet t s' := by
  intro u hu
  rw [solo_pc hk hr hu hx]
  exact hq u hu

theorem Quiet.not_holds (hq : Quiet t s) (hp : ¬(s.pc t).Holds) (u : Tid) : ¬(s.pc u).Holds := by
  by_cases hu : u = t
  · rwa [hu]
  · rcases hq u hu with hx | ⟨_, _, hx⟩ <;> rw [hx] <;> exact id

theorem Quiet.final (hq : Quiet t s) (hi : Inv kind s v) (hp : s.pc t = .complete a state) :
    v.stat a = .final := by
  have hl := hi.loc t
  rw [hp] at hl
  obtain ⟨hidle, hun, hqueued⟩ := hl.stat a rfl
  have hrest : ∀ u, (s.pc u).takePtr = 0 ∧ (s.pc u).answering = none := by
    intro u
    by_cases hu : u = t
    · rw [hu, hp]
      exact ⟨rfl, rfl⟩
    · rcases hq u hu with hx | ⟨_, _, hx⟩ <;> rw [hx] <;> exact ⟨rfl, rfl⟩
  cases hst : v.stat a with
  | final => rfl
  | idle => exact absurd hst hidle
  | unlinked => exact absurd hst hun
  | queued => exact absurd hst hqueued
  | taken u =>
    have hm := (hi.glob.taken u a).mpr hst
    rw [(hi.loc u).taken_nil (hrest u).1] at hm
    cases hm
  | answered u =>
    have hans := ((hi.loc u).answering a).mpr hst
    rw [(hrest u).2] at hans
    cases hans

theorem finish_ends (hk : kind.Grants) (hr : Reach kind free s h) (hp : s.pc t = .finish a) :
    Ends kind t a s h := by
  have hs : step kind s (.run t) = some (finishStep s t a) := by simp [step, runStep, hp]
  have hr' : Reach kind free (finishStep s t a).2 (.dropped t a :: h) :=
    .step (a := Action.run t) hr trivial hs
  have hslot : (finishStep s t a).2.slot a = .none := by simp [finishStep]
  refine ⟨_, _, .step hs .done, goto_pc_self .., hslot, ?_⟩
  have hglob := (reach_inv hk.not_barrier hr').glob
  intro hm
  have hst := (hglob.queued a).mp hm
  rw [hglob.idle_of_none hslot] at hst
  cases hst

/-- A pass over the queue ends, and the drop goes on behind it. -/
theorem pass_ends (hk : kind.Grants) (hr : Reach kind free s h) (hq : Quiet t s)
    (hp : s.pc t = .walk s.word (anchor s.word) k)
    (hnext : ∀ s' h', Reach kind free s' h' → Quiet t s' → s'.pc t = k.pc → Ends kind t a s' h') :
    Ends kind t a s h := by
  have hi := reach_inv hk.not_barrier hr
  have hh : (s.pc t).Holds := by rw [hp]; trivial
  have hne : (view h).queue ≠ [] := fun hx => hi.anchor_ne hh (hi.glob.chain.eq_nil_iff.mp hx)
  obtain ⟨_, s', h', -, hsolo, hpc, -⟩ :=
    process_alone (h := h) (max_le hk.not_gate) (hi.ready hh) hne hp
  exact (hnext s' h' (hr.alone hsolo) (hq.solo hk hr hsolo) hpc).after hsolo

theorem release_ends (hk : kind.Grants) (hr : Reach kind free s h) (hq : Quiet t s)
    (hp : s.pc t = .releaseLoop (.entry a) op s.word) : Ends kind t a s h := by
  have hfinish : ∀ {e s₁}, step kind s (.run t) = some (e, s₁) → s₁.pc t = .finish a →
      Ends kind t a s h := by
    intro e s₁ hs hp₁
    have hr₁ : Reach kind free s₁ (e :: h) := .step (a := Action.run t) hr trivial hs
    exact (finish_ends hk hr₁ hp₁).after (.step hs .done)
  have hs : step kind s (.run t) = some (releaseLoop s t (.entry a) op s.word) := by
    simp [step, runStep, hp]
  by_cases hcan : op.CanRelease s.word
  swap
  · rw [releaseLoop, if_pos hcan] at hs
    exact hfinish hs (goto_pc_self ..)
  rw [releaseLoop, if_neg (not_not.mpr hcan), if_neg (not_not.mpr rfl)] at hs
  by_cases hz : anchor s.word = 0 ∨ Locked s.word
  · rw [if_pos hz] at hs
    exact hfinish hs (goto_pc_self ..)
  rw [if_neg hz] at hs
  have hr₁ : Reach kind free _ (.release t (.entry a) op :: h) :=
    .step (a := Action.run t) hr trivial hs
  have hx : Solo kind t s h _ (.release t (.entry a) op :: h) := .step hs .done
  refine Ends.after hx (pass_ends (k := .finish a) hk hr₁ (hq.solo hk hr hx) ?_ ?_)
  · rw [goto_pc_self, goto_word]
    rfl
  · intro s' h' hr' _ hp'
    exact finish_ends hk hr' hp'

theorem complete_ends (hk : kind.Grants) (hr : Reach kind free s h) (hq : Quiet t s)
    (hp : s.pc t = .complete a state) : Ends kind t a s h := by
  have hi := reach_inv hk.not_barrier hr
  have hf := (hi.glob.final a (hq.final hi hp)).2
  have hs : step kind s (.run t) =
      some (.tau, s.goto t (.releaseLoop (.entry a) (s.opcode a) state)) := by
    simp [step, runStep, hp, completeStep, hf]
  set s₁ := s.goto t (.releaseLoop (.entry a) (s.opcode a) state) with hs₁
  have hr₁ : Reach kind free s₁ (.tau :: h) := .step (a := Action.run t) hr trivial hs
  have hx : Solo kind t s h s₁ (.tau :: h) := .step hs .done
  have hq₁ := hq.solo hk hr hx
  refine Ends.after hx ?_
  by_cases hw : s.word = state
  · exact release_ends hk hr₁ hq₁ (by rw [hs₁, goto_pc_self, goto_word, hw])
  by_cases hcan : (s.opcode a).CanRelease state
  · have hs₂ : step kind s₁ (.run t) =
        some (.tau, s₁.goto t (.releaseLoop (.entry a) (s.opcode a) s₁.word)) := by
      simp [step, runStep, hs₁, releaseLoop, hcan, hw]
    have hr₂ : Reach kind free _ (.tau :: .tau :: h) := .step (a := Action.run t) hr₁ trivial hs₂
    have hy : Solo kind t s₁ (.tau :: h) _ (.tau :: .tau :: h) := .step hs₂ .done
    exact Ends.after hy
      (release_ends hk hr₂ (hq₁.solo hk hr₁ hy) (goto_pc_self ..))
  · have hs₂ : step kind s₁ (.run t) = some (.refuse t 0, s₁.goto t (.finish a)) := by
      simp [step, runStep, hs₁, releaseLoop, hcan, Holder.after, After.pc]
    have hr₂ : Reach kind free _ (.refuse t 0 :: .tau :: h) :=
      .step (a := Action.run t) hr₁ trivial hs₂
    exact (finish_ends hk hr₂ (goto_pc_self ..)).after (.step hs₂ .done)

theorem removed_ends {found : ℕ} {b : Bool} (hk : kind.Grants) (hr : Reach kind free s h)
    (hq : Quiet t s) (hp : s.pc t = removed a found s.word b) : Ends kind t a s h := by
  have hafter : ∀ s' h', Reach kind free s' h' → Quiet t s' →
      s'.pc t = (if b then After.finish a else .complete a found).pc → Ends kind t a s' h' := by
    intro s' h' hr' hq' hp'
    cases b with
    | true => exact finish_ends hk hr' hp'
    | false => exact complete_ends hk hr' hq' hp'
  by_cases hl : Locked s.word
  · refine pass_ends hk hr hq ?_ hafter
    simpa [removed, hl, passStart] using hp
  · refine hafter s h hr hq ?_
    simpa [removed, hl] using hp

theorem remove_ends {found : ℕ} (hk : kind.Grants) (hr : Reach kind free s h) (hq : Quiet t s)
    (hp : s.pc t = .remove a found s.word (anchor s.word) false) : Ends kind t a s h := by
  have hi := reach_inv hk.not_barrier hr
  have hne := hi.anchor_ne (t := t) (by rw [hp]; trivial)
  obtain ⟨s₁, h₁, e, s', -, hx, -, hs, -, hend⟩ :=
    search_alone (.init : While kind s t a found s []) hp hi.glob.chain (by simp) hne
  obtain ⟨b, hp'⟩ := hend rfl
  obtain ⟨g, hsolo⟩ := (hx.trans (.step hs .done)).rebase h
  have hr' : Reach kind free s' g := hr.alone hsolo
  exact (removed_ends hk hr' (hq.solo hk hr hsolo) hp').after hsolo

theorem dropLoad_ends (hk : kind.Grants) (hr : Reach kind free s h) (hq : Quiet t s)
    (hp : s.pc t = .dropLoad a) (hw : s.word ≠ POISONED_STATE) : Ends kind t a s h := by
  have hi := reach_inv hk.not_barrier hr
  have hn : ¬Locked s.word := by
    intro hl
    rcases hi.locked hl with ⟨u, hu⟩ | ⟨-, hx⟩
    · exact hq.not_holds (by rw [hp]; exact id) u hu
    · exact hw hx
  have hs : step kind s (.run t) = some (.tau, s.goto t (.dropLoop a s.word)) := by
    simp [step, runStep, hp]
  set s₁ := s.goto t (.dropLoop a s.word) with hs₁
  have hr₁ : Reach kind free s₁ (.tau :: h) := .step (a := Action.run t) hr trivial hs
  have hx : Solo kind t s h s₁ (.tau :: h) := .step hs .done
  have hq₁ := hq.solo hk hr hx
  refine Ends.after hx ?_
  by_cases hz : anchor s.word = 0
  · have hs₂ : step kind s₁ (.run t) = some (.tau, s₁.goto t (.complete a s.word)) := by
      simp [step, runStep, hs₁, forceRemove, hn, hz]
    have hr₂ : Reach kind free _ (.tau :: .tau :: h) := .step (a := Action.run t) hr₁ trivial hs₂
    have hy : Solo kind t s₁ (.tau :: h) _ (.tau :: .tau :: h) := .step hs₂ .done
    exact (complete_ends hk hr₂ (hq₁.solo hk hr₁ hy) (goto_pc_self ..)).after hy
  · have hs₂ : step kind s₁ (.run t) = some (.lockQueue t, { s₁ with word := lock s.word }.goto t
        (.remove a s.word (lock s.word) (anchor s.word) false)) := by
      simp [step, runStep, hs₁, forceRemove, hn, hz]
    have hr₂ : Reach kind free _ (.lockQueue t :: .tau :: h) :=
      .step (a := Action.run t) hr₁ trivial hs₂
    have hy : Solo kind t s₁ (.tau :: h) _ (.lockQueue t :: .tau :: h) := .step hs₂ .done
    have hanchor : anchor s.word = anchor (lock s.word) := (lock_fields (w := s.word)).1.symm
    rw [hanchor] at hr₂ hy
    exact Ends.after hy (remove_ends hk hr₂ (hq₁.solo hk hr₁ hy) (goto_pc_self ..))

theorem dropLoad_spins (hx : Solo kind t s h s' h') (hw : s.word = POISONED_STATE)
    (hp : s.pc t = .dropLoad a ∨ s.pc t = .dropLoop a POISONED_STATE) : s'.pc t ≠ .idle := by
  have hl : Locked POISONED_STATE := by decide
  induction hx with
  | done => rcases hp with hp | hp <;> rw [hp] <;> simp
  | @step s h e s₁ _ _ hs _ ih =>
    have hs₁ : s₁ = s.goto t (.dropLoop a POISONED_STATE) := by
      rcases hp with hp | hp <;>
        simp only [system, step, runStep, hp, forceRemove, if_pos hl, hw, Option.some.injEq,
          Prod.mk.injEq] at hs <;> exact hs.2.symm
    subst hs₁
    exact ih hw (.inr (goto_pc_self ..))

theorem Kind.Grants.dropPc (hk : kind.Grants) (a : Ptr) : kind.dropPc a = .dropLoad a := by
  rcases hk with rfl | ⟨n, rfl⟩ <;> rfl

theorem Took.drop_starts {u : Tid} (ht : Took kind s v u act (.call t (.drop a)) s₁)
    (hk : kind.Grants) :
    s₁.word = s.word ∧ s₁.pc t = .dropLoad a ∧ ∀ u, u ≠ t → s₁.pc u = s.pc u := by
  have hmv := ht.move
  have hothers := ht.frame.pc
  generalize s.pc u = p at hmv
  generalize hp' : s₁.pc u = p' at hmv
  cases hmv with
  | drop | cancel => exact ⟨ht.effect, by rw [hp', hk.dropPc], hothers⟩
  | enter hin =>
    cases hin with
    | gate hg => exact absurd hg hk.not_gate
  | gate hg => exact absurd hg hk.not_gate

/-- Cancellation terminates exactly outside the poisoned state. Take any state of a lock or
a semaphore that a run reaches while no other thread is in the middle of an operation, and
let a thread begin to drop a registered entry, whatever has become of it. Alone, the drop
ends, with the entry in no queue, if and only if the word is not the poisoned state. -/
theorem drop_ends_iff (hk : kind.Grants) (hr : Reach kind free s h) (hq : Quiet t s)
    (hs : step kind s act = some (.call t (.drop a), s₁)) :
    Ends kind t a s₁ (.call t (.drop a) :: h) ↔ s.word ≠ POISONED_STATE := by
  have hr₁ : Reach kind free s₁ (.call t (.drop a) :: h) := .step hr trivial hs
  obtain ⟨hword, hpc, hothers⟩ :=
    (took (reach_inv hk.not_barrier hr) (reach_inv hk.not_barrier hr₁) hs).drop_starts hk
  constructor
  · rintro ⟨s', h', hx, hidle, -⟩ hw
    exact dropLoad_spins hx (hword.trans hw) (.inl hpc) hidle
  · intro hw
    refine dropLoad_ends hk hr₁ (fun u hu => ?_) hpc (by rwa [hword])
    rw [hothers u hu]
    exact hq u hu

theorem exec_other {as : List Action} {u : Tid} (hk : kind.Grants) (hr : Reach kind free s h)
    (hx : exec (system kind) s h as = some (s', h')) (hu : ∀ act ∈ as, act.actor ≠ u) :
    s'.pc u = s.pc u := by
  induction as generalizing s h with
  | nil =>
    cases hx
    rfl
  | cons act as ih =>
    simp only [exec] at hx
    split at hx
    · next e s₁ hs =>
      have hr₁ : Reach kind free s₁ (e :: h) := .step hr trivial hs
      have ht := took (reach_inv hk.not_barrier hr) (reach_inv hk.not_barrier hr₁) hs
      rw [ih hr₁ hx fun act hm => hu act (by simp [hm])]
      exact ht.frame.pc u (Ne.symm (hu act (by simp)))
    · cases hx

theorem exec_quiet {as : List Action} (hk : kind.Grants)
    (hx : exec (system kind) kind.initial [] as = some (s, h))
    (ha : ∀ act ∈ as, act.actor = 0 ∨ act.actor = 1) (hz : s.pc 0 = .idle) : Quiet 1 s := by
  intro u hu
  by_cases h₀ : u = 0
  · exact .inl (h₀ ▸ hz)
  · left
    refine (exec_other hk .init hx fun act hm => ?_).trans rfl
    rcases ha act hm with h | h <;> rw [h] <;> exact Ne.symm ‹_›

end

def oneWaiter : List Action :=
  [.call 0 (.acquire ⟨.lock .exclusive, .tryOnly, 0⟩), .run 0, .run 0,
    .call 1 (.acquire ⟨.lock .waitExclusive, .pager, 256⟩), .run 1, .run 1, .run 1, .run 1]

theorem drop_ends_iff_waiting :
    ∃ s h s₁, exec (system .lock) Kind.lock.initial [] oneWaiter = some (s, h) ∧
      (view h).queue = [256] ∧
      step .lock s (.call 1 (.drop 256)) = some (.call 1 (.drop 256), s₁) ∧
      Ends .lock 1 256 s₁ (.call 1 (.drop 256) :: h) := by
  have hk : Kind.lock.Grants := .inl rfl
  obtain ⟨s, h, s₁, hrun, hqueue, hs, hzero, hw⟩ : ∃ s h s₁,
      exec (system .lock) Kind.lock.initial [] oneWaiter = some (s, h) ∧ (view h).queue = [256] ∧
      step .lock s (.call 1 (.drop 256)) = some (.call 1 (.drop 256), s₁) ∧ s.pc 0 = .idle ∧
      s.word ≠ POISONED_STATE := ⟨_, _, _, rfl, rfl, rfl, rfl, by decide⟩
  have hr : Reach .lock free s h := Run.exec .init (admits_free ..) hrun
  have hq := exec_quiet hk hrun (by decide) hzero
  exact ⟨s, h, s₁, hrun, hqueue, hs, (drop_ends_iff hk hr hq hs).mpr hw⟩

/-- Thread 0 takes the lock and poisons it, and thread 1 registers a pager for it. -/
def toldPoisoned : List Action :=
  [.call 0 (.acquire ⟨.lock .exclusive, .tryOnly, 0⟩), .run 0, .run 0, .call 0 .poisonLock, .run 0,
    .call 1 (.acquire ⟨.lock .exclusive, .pager, 256⟩), .run 1, .run 1, .run 1, .run 1]

/-- The pager has its result, nobody else is at work, and its drop never ends. -/
theorem drop_spins_poisoned :
    ∃ s h s₁, exec (system .lock) Kind.lock.initial [] toldPoisoned = some (s, h) ∧ Quiet 1 s ∧
      (view h).stat 256 = .final ∧
      step .lock s (.call 1 (.drop 256)) = some (.call 1 (.drop 256), s₁) ∧
      ¬Ends .lock 1 256 s₁ (.call 1 (.drop 256) :: h) := by
  obtain ⟨s, h, s₁, hrun, hst, hs, hzero, hw, hp⟩ : ∃ s h s₁,
      exec (system .lock) Kind.lock.initial [] toldPoisoned = some (s, h) ∧
      (view h).stat 256 = .final ∧
      step .lock s (.call 1 (.drop 256)) = some (.call 1 (.drop 256), s₁) ∧ s.pc 0 = .idle ∧
      s₁.word = POISONED_STATE ∧ s₁.pc 1 = .dropLoad 256 :=
    ⟨_, _, _, rfl, rfl, rfl, rfl, rfl, rfl⟩
  refine ⟨s, h, s₁, hrun, exec_quiet (.inl rfl) hrun (by decide) hzero, hst, hs, ?_⟩
  rintro ⟨s', h', hx, hidle, -⟩
  exact dropLoad_spins hx hw (.inl hp) hidle

def Pc.Drops (p : Pc) (a : Ptr) : Prop :=
  p.entry = some a ∧ (p.phase = .dropping ∨ p.phase = .releasing ∨ p.phase = .passing)

/-- Callers release and poison only what they own. -/
def Responsible : Guard Cfg Action Event := fun _ h act => match act with
  | .call t .releaseLock | .call t .poisonLock => (t, .exclusive) ∈ (ledger h).callers
  | .call t .releaseShare => (t, .shared) ∈ (ledger h).callers
  | _ => True

instance (s : Cfg) (h : List Event) (act : Action) : Decidable (Responsible s h act) :=
  match act with
  | .call t op => decidable_of_iff (Disciplined s h (.call t op)) (and_iff_right id)
  | .run _ | .cancel _ => inferInstanceAs (Decidable True)

/-- A step of the drop of an entry with the stored result `POISONED` releases nothing: data
field and owners stay as they are, but for the waiters the step serves like any pass over
the queue. -/
def Spares : Guard Cfg Action Event := fun s h act => ∀ t a e s',
  act = .run t → (s.pc t).Drops a → (s.state a).result = POISONED →
  step .lock s act = some (e, s') →
  data s'.word = data s.word + total s.opcode ((view h).served e) ∧
  (ledger (e :: h)).callers = (ledger h).callers ∧
  (ledger (e :: h)).granted =
    ((view h).served e).filter (fun b => ((ledger h).ops b).Acquires) ++ (ledger h).granted

section
variable {s s' : Cfg} {l : Ledger} {h : List Event} {t : Tid} {a : Ptr} {act : Action} {e : Event}

theorem spares_of_same (hd : data s'.word = data s.word) (hv : l.view.served e = [])
    (hc : (l.observe e).callers = l.callers) (hg : (l.observe e).granted = l.granted) :
    data s'.word = data s.word + total s.opcode (l.view.served e) ∧
    (l.observe e).callers = l.callers ∧
    (l.observe e).granted =
      (l.view.served e).filter (fun b => (l.ops b).Acquires) ++ l.granted := by
  rw [hv]
  exact ⟨hd, hc, hg⟩

theorem Took.spares (ht : Took .lock s l.view t (.run t) e s') (hc : Credit .lock s l)
    (hmis : ¬Misreleases s (.run t)) (hp : (s.pc t).Drops a) (hr : (s.state a).result = POISONED) :
    data s'.word = data s.word + total s.opcode (l.view.served e) ∧
    (l.observe e).callers = l.callers ∧
    (l.observe e).granted =
      (l.view.served e).filter (fun b => (l.ops b).Acquires) ++ l.granted := by
  have hl := ht.inv.loc t
  have hafter := hc.after t
  have hef := ht.effect
  -- a release would take something the entry does not own
  have hrel : ∀ op, s.pc t = .releaseLoop (.entry a) op s.word → op.CanRelease s.word →
      e = .release t (.entry a) op → data s'.word = data s.word ∧ a ∉ l.granted := by
    rintro op hpc hcan rfl
    have hz : op.acquiredCount = 0 := by
      by_contra hz
      apply hmis
      simp only [Misreleases, hpc]
      exact ⟨hr, trivial, hcan, hz⟩
    have hdata : data s'.word = data s.word - op.acquiredCount := hef.2.1
    rw [hpc] at hl
    refine ⟨by rw [hdata, hz, Nat.sub_zero], fun hg => ?_⟩
    have hns : ¬Spent s a :=
      ht.inv.not_spent (.inr ((hl.slot a).mp rfl)) (by rw [hpc]; simp [Pc.after])
    have hx := ((hc.answer a (.inl (hl.stat a rfl)) hns).2.mp hg).1
    rw [hr] at hx
    cases hx
  have hmv := ht.move
  generalize hpc : s.pc t = p at hmv hp hafter hl hrel
  generalize s'.pc t = p' at hmv
  cases hmv with
  | gate hg => cases hg
  | update | add =>
    exact ⟨by rw [hef.2.2.2.1, hef.2.1]; rfl, rfl, rfl⟩
  | tailReset =>
    obtain ⟨-, hw, hlt, -⟩ := hef
    refine ⟨?_, rfl, rfl⟩
    rw [data_eq, Nat.mod_eq_of_lt hlt, hw]
    rfl
  | @release o op hcan | @releasePass o op w hcan =>
    cases o with
    | caller x => cases hp.1
    | entry b =>
      obtain rfl : b = a := Option.some.inj hp.1
      obtain ⟨hd, hg⟩ := hrel op rfl hcan rfl
      exact spares_of_same hd rfl rfl (List.erase_of_not_mem hg)
  | finish =>
    exact spares_of_same (congrArg data hef) rfl rfl (List.erase_of_not_mem (hafter _ rfl))
  | fast => cases hp.1
  | lockQueue => exact spares_of_same hef.2.2.2.2 rfl rfl rfl
  | unlink | unlinkOnly => exact spares_of_same hef.2.1 rfl rfl rfl
  | cut | tailCut => exact spares_of_same (congrArg data hef.2) rfl rfl rfl
  | own htry | take htry =>
    rcases htry with rfl | ⟨_, _, rfl⟩ <;> exact absurd hp.2 (by simp [Pc.phase])
  | last | countDown | push | consume | writeBack | poisonFast | poison | clear =>
    exact absurd hp.2 (by simp [Pc.phase])
  | _ => exact spares_of_same (congrArg data hef) rfl rfl rfl

theorem misrelease_takes (hr : Reach .lock free s h) (hmis : Misreleases s act) :
    ¬Spares s h act := by
  intro hsp
  cases act with
  | call | cancel => exact hmis
  | run t =>
    simp only [Misreleases] at hmis
    split at hmis
    swap
    · exact hmis
    next a op state hpc =>
    obtain ⟨hres, rfl, hcan, hacq⟩ := hmis
    obtain ⟨s', hs⟩ : ∃ s', step .lock s (.run t) = some (.release t (.entry a) op, s') := by
      simp only [step, runStep, hpc, releaseLoop]
      rw [if_neg (not_not.mpr hcan), if_neg (not_not.mpr rfl)]
      split <;> exact ⟨_, rfl⟩
    have hdrop : (s.pc t).Drops a := by
      rw [hpc]
      exact ⟨rfl, .inr (.inl rfl)⟩
    obtain ⟨hdata, -⟩ := hsp t a _ s' rfl hdrop hres hs
    obtain ⟨-, hd, -⟩ := step_effect (reach_inv (by simp) hr) hs
    have hle := acquired_le_data hcan
    change _ = data s.word + 0 at hdata
    unfold Opcode.Acquires at hacq
    omega

/-- Dropping an entry with the result `POISONED` touches no owner in exactly those runs in
which no such drop comes to its release loop with a word that admits a release of what the
entry had asked for. -/
theorem poisoned_drop_spares_iff :
    Reach .lock (fun s h act => Responsible s h act ∧ Spares s h act) s h ↔
      Reach .lock (fun s h act => Responsible s h act ∧ ¬Misreleases s act) s h := by
  constructor
  · intro hr
    refine hr.guard fun s h act hr hok => ⟨hok.1, fun hmis => ?_⟩
    exact misrelease_takes hr.any hmis hok.2
  · intro hr
    refine hr.guard fun s h act hr hok => ⟨hok.1, ?_⟩
    have hdis : Reach .lock Disciplined s h := by
      refine hr.guard fun s h act _ hok => ⟨hok.2, ?_⟩
      exact hok.1
    obtain ⟨ha, -⟩ := reach_books hdis
    rintro t a e s' rfl hp hres hs
    have hr' : Reach .lock free s' (e :: h) := .step (a := Action.run t) hr.any trivial hs
    have ht : Took .lock s (ledger h).view t (.run t) e s' := by
      refine took ha.inv ?_ hs
      rw [ledger_view]
      exact reach_inv (by simp) hr'
    have hsp := ht.spares ha.credit hok.2 hp hres
    rw [ledger_view] at hsp
    exact hsp

end

/-- The pager of `toldPoisoned` is dropped after `clear_poison` and after thread 2 has taken
the lock; the schedule ends at its release loop. -/
def lateDrop : List Action :=
  toldPoisoned ++ [.call 0 .clearPoison, .run 0,
    .call 2 (.acquire ⟨.lock .exclusive, .tryOnly, 0⟩), .run 2, .run 2,
    .call 1 (.drop 256), .run 1, .run 1, .run 1]

/-- The drop releases the lock of thread 2. -/
theorem poisoned_drop_robs :
    ∃ s h, execIf (system .lock) Responsible Kind.lock.initial [] lateDrop = some (s, h) ∧
      (ledger h).callers = [(2, .exclusive)] ∧ data s.word = DATA_MASK ∧
      (∃ e s', step .lock s (.run 1) = some (e, s') ∧ data s'.word = 0) ∧
      ¬Spares s h (.run 1) := by
  obtain ⟨s, h, hrun, hown, hd, hs, hmis⟩ : ∃ s h,
      execIf (system .lock) Responsible Kind.lock.initial [] lateDrop = some (s, h) ∧
      (ledger h).callers = [(2, .exclusive)] ∧ data s.word = DATA_MASK ∧
      (∃ e s', step .lock s (.run 1) = some (e, s') ∧ data s'.word = 0) ∧
      Misreleases s (.run 1) :=
    ⟨_, _, rfl, rfl, rfl, ⟨_, _, rfl, rfl⟩, rfl, rfl, rfl, by decide⟩
  have hr : Reach .lock free s h := (Run.execIf .init hrun).any
  exact ⟨s, h, hrun, hown, hd, hs, misrelease_takes hr hmis⟩

end Saa
