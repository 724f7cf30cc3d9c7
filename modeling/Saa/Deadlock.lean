import Saa.Gates
import Saa.Lib.Sweep
import Saa.Outcome
import Saa.Poison
import Saa.Progress

/-! # Who waits for whom

A thread in the middle of a call waits in few places: a drop and a poisoning wait for the
thread that has locked the queue, and a drop that came too late, of a gate or of another
primitive, waits for the result of its entry. Whoever is waited for does not wait. -/
namespace Saa

open Word Lib.Linked Lib.Trace Lib.Refine Lib.Sweep

/-- The thread is in no call, or suspended in one until its entry is resolved. -/
def Pc.Rests (p : Pc) : Prop := p = .idle ∨ ∃ q retry, p = .await q retry

inductive WaitsFor (s : Cfg) (v : View) (t u : Tid) : Prop where
  | queue {a : Ptr} {state : ℕ} : s.pc t = .dropLoop a state → (s.pc u).Holds → WaitsFor s v t u
  | poison {state : ℕ} : s.pc t = .poisonLoop state → (s.pc u).Holds → WaitsFor s v t u
  | result {a : Ptr} {state : ℕ} : s.pc t = .complete a state →
      v.stat a = .taken u ∨ v.stat a = .answered u → WaitsFor s v t u
  | answer {a : Ptr} : s.pc t = .acknowledge a →
      v.stat a = .taken u ∨ v.stat a = .answered u → WaitsFor s v t u

/-- A drop that takes the poisoned state for a locked queue. -/
def Barred (s : Cfg) (t : Tid) : Prop :=
  s.word = POISONED_STATE ∧ ∃ a state, s.pc t = .dropLoop a state

/-- Alone, the thread gets to the end of its call or to a place where it waits. -/
def Halts (kind : Kind) (t : Tid) (s : Cfg) (h : List Event) : Prop :=
  ∃ s' h', Solo kind t s h s' h' ∧
    ((s'.pc t).Rests ∨ (∃ u, u ≠ t ∧ WaitsFor s' (view h') t u) ∨ Barred s' t)

section
variable {kind : Kind} {s s₁ s' : Cfg} {v : View} {h h₁ h' : List Event} {t u w : Tid} {a : Ptr}
  {k : After} {op : Opcode} {state : ℕ} {act : Action} {e : Event} {q : Req}

theorem Halts.after (hx : Solo kind t s h s₁ h₁) (hh : Halts kind t s₁ h₁) : Halts kind t s h := by
  obtain ⟨s', h', hy, hend⟩ := hh
  exact ⟨s', h', hx.trans hy, hend⟩

theorem Halts.step (hr : Reach kind free s h)
    (hs : step kind s (.run t) = some (e, s₁))
    (hnext : Reach kind free s₁ (e :: h) → Halts kind t s₁ (e :: h)) : Halts kind t s h :=
  (hnext (.step (a := Action.run t) hr trivial hs)).after (.step hs .done)

theorem Halts.rests (hp : (s.pc t).Rests) : Halts kind t s h := ⟨s, h, .done, .inl hp⟩

theorem idle_halts (hp : s.pc t = .idle) : Halts kind t s h := .rests (.inl hp)

theorem snapshot_halts (loop : ℕ → Pc) (hr : Reach kind free s h) (hp : s.pc t = loop state)
    (hfresh : ∀ {s h}, Reach kind free s h → s.pc t = loop s.word → Halts kind t s h)
    (hstale : s.word ≠ state → ∃ e p, step kind s (.run t) = some (e, s.goto t p) ∧
      (p = loop s.word ∨ ∀ h', Reach kind free (s.goto t p) h' → Halts kind t (s.goto t p) h')) :
    Halts kind t s h := by
  by_cases hw : s.word = state
  · exact hfresh hr (hw ▸ hp)
  obtain ⟨e, p, hs, rfl | hout⟩ := hstale hw
  · exact .step hr hs fun hr₁ => hfresh hr₁ (goto_pc_self ..)
  · exact .step hr hs (hout _)

theorem leave_rests {x : Cfg} : ((x.leave t q).pc t).Rests := by
  rw [leave_pc, Function.update_self]
  exact .inl rfl

theorem finish_halts (hr : Reach kind free s h) (hp : s.pc t = .finish a) :
    Halts kind t s h := by
  have hs : step kind s (.run t) = some (finishStep s t a) := by simp [step, runStep, hp]
  exact .step hr hs fun _ => idle_halts (goto_pc_self ..)

theorem holder_halts {x : Holder} (hr : Reach kind free s h)
    (hp : s.pc t = x.after.pc) : Halts kind t s h := by
  cases x with
  | caller u => exact idle_halts hp
  | entry a => exact finish_halts hr hp

theorem release_halts {x : Holder} (hk : kind.Grants) (hr : Reach kind free s h)
    (hp : s.pc t = .releaseLoop x op s.word) : Halts kind t s h := by
  have hs : step kind s (.run t) = some (releaseLoop s t x op s.word) := by
    simp [step, runStep, hp]
  by_cases hcan : op.CanRelease s.word
  swap
  · rw [releaseLoop, if_pos hcan] at hs
    exact .step hr hs fun hr₁ => holder_halts hr₁ (goto_pc_self ..)
  rw [releaseLoop, if_neg (not_not.mpr hcan), if_neg (not_not.mpr rfl)] at hs
  by_cases hz : anchor s.word = 0 ∨ Locked s.word
  · rw [if_pos hz] at hs
    exact .step hr hs fun hr₁ => holder_halts hr₁ (goto_pc_self ..)
  · rw [if_neg hz] at hs
    refine .step hr hs fun hr₁ => ?_
    obtain ⟨s', h', hx, k, hmem, hpc⟩ := leaves_queue (t := t) hk hr₁ (by
      rw [goto_pc_self]
      trivial)
    rw [goto_pc_self] at hmem
    obtain rfl := List.mem_singleton.mp hmem
    exact (holder_halts (hr₁.alone hx) hpc).after hx

theorem releaseLoop_halts {x : Holder} (hk : kind.Grants) (hr : Reach kind free s h)
    (hp : s.pc t = .releaseLoop x op state) : Halts kind t s h := by
  refine snapshot_halts (.releaseLoop x op) hr hp (release_halts hk) fun hw => ?_
  have hs : step kind s (.run t) = some (releaseLoop s t x op state) := by simp [step, runStep, hp]
  by_cases hcan : op.CanRelease state
  · rw [releaseLoop, if_neg (not_not.mpr hcan), if_pos hw] at hs
    exact ⟨_, _, hs, .inl rfl⟩
  · rw [releaseLoop, if_pos hcan] at hs
    exact ⟨_, _, hs, .inr fun h₁ hr₁ => holder_halts hr₁ (goto_pc_self ..)⟩

theorem releaseFast_halts (hk : kind.Grants) (hr : Reach kind free s h)
    (hp : s.pc t = .releaseFast op) : Halts kind t s h := by
  obtain ⟨e, s₁, hs⟩ : ∃ e s₁, step kind s (.run t) = some (e, s₁) :=
    ⟨(releaseFast s t op).1, (releaseFast s t op).2, by simp [step, runStep, hp]⟩
  have hm : Move kind s (view h) t (.run t) (s.pc t) e (s₁.pc t) :=
    step_move (reach_inv hk.not_barrier hr) hs
  refine .step hr hs fun hr₁ => ?_
  rw [hp] at hm
  generalize hp₁ : s₁.pc t = p₁ at hm
  cases hm with
  | gate hg => exact absurd hg hk.not_gate
  | fast => exact idle_halts hp₁
  | slow => exact releaseLoop_halts hk hr₁ hp₁
  | own htry | take htry => rcases htry with hx | ⟨_, _, hx⟩ <;> cases hx

/-- The result of an entry that has left the queue is there, or some other thread has still
to store it. -/
theorem resolved_or_pending (hi : Inv kind s v) (hz : (s.pc t).takePtr = 0)
    (hn : (s.pc t).answering = none)
    (hst : v.stat a ≠ .idle ∧ v.stat a ≠ .unlinked ∧ v.stat a ≠ .queued) :
    v.stat a = .final ∨ ∃ u, u ≠ t ∧ (v.stat a = .taken u ∨ v.stat a = .answered u) := by
  obtain ⟨hidle, hun, hqueued⟩ := hst
  cases hst : v.stat a with
  | final => exact .inl rfl
  | idle => exact absurd hst hidle
  | unlinked => exact absurd hst hun
  | queued => exact absurd hst hqueued
  | taken u =>
    refine .inr ⟨u, ?_, .inl rfl⟩
    rintro rfl
    have hm := (hi.glob.taken u a).mpr hst
    rw [(hi.loc u).taken_nil hz] at hm
    cases hm
  | answered u =>
    refine .inr ⟨u, ?_, .inr rfl⟩
    rintro rfl
    have hans := ((hi.loc u).answering a).mpr hst
    rw [hn] at hans
    cases hans

theorem complete_halts (hk : kind.Grants) (hr : Reach kind free s h)
    (hp : s.pc t = .complete a state) : Halts kind t s h := by
  have hi := reach_inv hk.not_barrier hr
  have hl := hi.loc t
  rw [hp] at hl
  rcases resolved_or_pending (t := t) hi (by rw [hp]; rfl) (by rw [hp]; rfl) (hl.stat a rfl) with
    hst | ⟨u, hu, hst⟩
  · have hf := (hi.glob.final a hst).2
    have hs : step kind s (.run t) =
        some (.tau, s.goto t (.releaseLoop (.entry a) (s.opcode a) state)) := by
      simp [step, runStep, hp, completeStep, hf]
    exact .step hr hs fun hr₁ => releaseLoop_halts hk hr₁ (goto_pc_self ..)
  · exact ⟨s, h, .done, .inr (.inl ⟨u, hu, .result hp hst⟩)⟩

theorem after_halts (hk : kind.Grants) (hr : Reach kind free s h) (hp : s.pc t = k.pc) :
    Halts kind t s h := by
  cases k with
  | returned => exact idle_halts hp
  | finish a => exact finish_halts hr hp
  | complete a state => exact complete_halts hk hr hp

theorem queue_halts (hk : kind.Grants) (hr : Reach kind free s h) (hp : (s.pc t).AtQueue) :
    Halts kind t s h := by
  obtain ⟨s', h', hx, k, -, hpc⟩ := leaves_queue hk hr hp
  exact (after_halts hk (hr.alone hx) hpc).after hx

theorem locked_waits (hi : Inv kind s v) (hp : ¬(s.pc t).Holds) (hl : Locked s.word) :
    (∃ u, u ≠ t ∧ (s.pc u).Holds) ∨ s.word = POISONED_STATE := by
  rcases hi.locked hl with ⟨u, hu⟩ | ⟨-, hx⟩
  · refine .inl ⟨u, ?_, hu⟩
    rintro rfl
    exact hp hu
  · exact .inr hx

theorem drop_halts (hk : kind.Grants) (hr : Reach kind free s h)
    (hp : s.pc t = .dropLoop a s.word) : Halts kind t s h := by
  have hs : step kind s (.run t) = some (forceRemove s t a s.word) := by simp [step, runStep, hp]
  by_cases hl : Locked s.word
  · refine ⟨s, h, .done, .inr ?_⟩
    rcases locked_waits (reach_inv hk.not_barrier hr) (by rw [hp]; exact id) hl with
      ⟨u, hu, hh⟩ | hw
    · exact .inl ⟨u, hu, .queue hp hh⟩
    · exact .inr ⟨hw, a, s.word, hp⟩
  by_cases hz : anchor s.word = 0
  · rw [forceRemove, if_neg hl, if_pos hz] at hs
    exact .step hr hs fun hr₁ => complete_halts hk hr₁ (goto_pc_self ..)
  · rw [forceRemove, if_neg hl, if_neg hz, if_pos rfl] at hs
    refine .step hr hs fun hr₁ => queue_halts hk hr₁ ?_
    rw [goto_pc_self]
    trivial

theorem dropLoop_halts (hk : kind.Grants) (hr : Reach kind free s h)
    (hp : s.pc t = .dropLoop a state) : Halts kind t s h := by
  refine snapshot_halts (.dropLoop a) hr hp (drop_halts hk) fun hw => ?_
  have hs : step kind s (.run t) = some (forceRemove s t a state) := by simp [step, runStep, hp]
  by_cases hl : Locked state
  · rw [forceRemove, if_pos hl] at hs
    exact ⟨_, _, hs, .inl rfl⟩
  by_cases hz : anchor state = 0
  · rw [forceRemove, if_neg hl, if_pos hz] at hs
    exact ⟨_, _, hs, .inr fun h₁ hr₁ => complete_halts hk hr₁ (goto_pc_self ..)⟩
  · rw [forceRemove, if_neg hl, if_neg hz, if_neg hw] at hs
    exact ⟨_, _, hs, .inl rfl⟩

theorem poisoned_halts {cur : Ptr} {r n : ℕ} (hk : kind.Grants) (hr : Reach kind free s h)
    (hp : s.pc t = .resolve cur r n .poisoned) : Halts kind t s h := by
  obtain ⟨s₁, h₁, hx, -, hp₁, -⟩ := resolve_alone (reach_inv hk.not_barrier hr) hp
  have hs : step kind s₁ (.run t) = some (.tau, s₁.goto t .idle) := by
    simp [step, runStep, hp₁, resolveStep, Then.step]
  exact Halts.after hx (.step (hr.alone hx) hs fun _ => idle_halts (goto_pc_self ..))

theorem finalize_halts {cur nx : Ptr} {r n : ℕ} (hk : kind.Grants) (hr : Reach kind free s h)
    (hp : s.pc t = .finalize cur nx r n .poisoned) : Halts kind t s h := by
  have hs : step kind s (.run t) = some (finalizeStep s t cur nx r n .poisoned) := by
    simp [step, runStep, hp]
  exact .step hr hs fun hr₁ => poisoned_halts hk hr₁ (goto_pc_self ..)

theorem poison_halts (hk : kind.Grants) (hr : Reach kind free s h)
    (hp : s.pc t = .poisonLoop s.word) : Halts kind t s h := by
  have hi := reach_inv hk.not_barrier hr
  have hs : step kind s (.run t) = some (poisonLockInternal s t s.word) := by
    simp [step, runStep, hp]
  by_cases hd : s.word = POISONED_STATE ∨ data s.word ≠ DATA_MASK
  · rw [poisonLockInternal, if_pos hd] at hs
    exact .step hr hs fun _ => idle_halts (goto_pc_self ..)
  by_cases hl : Locked s.word
  · refine ⟨s, h, .done, .inr (.inl ?_)⟩
    rcases locked_waits hi (by rw [hp]; exact id) hl with ⟨u, hu, hh⟩ | hw
    · exact ⟨u, hu, .poison hp hh⟩
    · exact absurd (.inl hw) hd
  · rw [poisonLockInternal, if_neg hd, if_neg hl, if_pos rfl] at hs
    refine .step hr hs fun hr₁ => ?_
    exact poisoned_halts hk hr₁ (goto_pc_self ..)

theorem poisonLoop_halts (hk : kind.Grants) (hr : Reach kind free s h)
    (hp : s.pc t = .poisonLoop state) : Halts kind t s h := by
  refine snapshot_halts .poisonLoop hr hp (poison_halts hk) fun hw => ?_
  have hs : step kind s (.run t) = some (poisonLockInternal s t state) := by
    simp [step, runStep, hp]
  by_cases hd : state = POISONED_STATE ∨ data state ≠ DATA_MASK
  · rw [poisonLockInternal, if_pos hd] at hs
    exact ⟨_, _, hs, .inr fun h₁ _ => idle_halts (goto_pc_self ..)⟩
  by_cases hl : Locked state
  · rw [poisonLockInternal, if_neg hd, if_pos hl] at hs
    exact ⟨_, _, hs, .inl rfl⟩
  · rw [poisonLockInternal, if_neg hd, if_neg hl, if_neg hw] at hs
    exact ⟨_, _, hs, .inl rfl⟩

theorem pushed_halts {retry : Bool} (hr : Reach kind free s h) (hp : s.pc t = .pushed q retry) :
    Halts kind t s h := by
  have hs : step kind s (.run t) = some (pushedStep s t q retry) := by simp [step, runStep, hp]
  refine .step hr hs fun _ => .rests ?_
  split
  · exact leave_rests
  · rw [goto_pc_self]
    exact .inr ⟨q, retry, rfl⟩

theorem settled_rests : ((settledStep s t q).2.pc t).Rests := by
  unfold settledStep
  dsimp only
  split
  · exact leave_rests
  · rw [goto_pc_self]
    exact .inr ⟨q, false, rfl⟩

theorem settled_halts (hr : Reach kind free s h) (hp : s.pc t = .settled q) :
    Halts kind t s h := by
  have hs : step kind s (.run t) = some (settledStep s t q) := by simp [step, runStep, hp]
  exact .step hr hs fun _ => .rests settled_rests

theorem settle_halts {r : ℕ} (hr : Reach kind free s h) (hp : s.pc t = .settle q r) :
    Halts kind t s h := by
  have hs : step kind s (.run t) = some (.setResult t q.entry r,
      (s.setResult q.entry r).goto t (.settled q)) := by simp [step, runStep, hp]
  exact .step hr hs fun hr₁ => settled_halts hr₁ (goto_pc_self ..)

theorem waiting_halts (hr : Reach kind free s h) (hp : (s.pc t).phase = .waiting) :
    Halts kind t s h := by
  cases hpc : s.pc t with
  | pushed q retry => exact pushed_halts hr hpc
  | settle q r => exact settle_halts hr hpc
  | settled q => exact settled_halts hr hpc
  | await q retry => exact .rests (.inr ⟨q, retry, hpc⟩)
  | resolve _ _ _ k | finalize _ _ _ _ k =>
    rw [hpc] at hp
    cases k <;> cases hp
  | _ =>
    rw [hpc] at hp
    cases hp

theorem not_arriving (hb : ∀ n, kind ≠ .barrier n) (hi : Inv kind s v) :
    (s.pc t).phase ≠ .arriving := by
  intro hp
  have hf := (hi.loc t).fits
  cases hpc : s.pc t with
  | resolve _ _ _ k | finalize _ _ _ _ k =>
    rw [hpc] at hp hf
    cases k with
    | writeBack | last =>
      obtain ⟨n, hn⟩ := hf
      exact hb n hn
    | _ => cases hp
  | writeBack =>
    rw [hpc] at hf
    obtain ⟨n, hn⟩ := hf
    exact hb n hn
  | _ =>
    rw [hpc] at hp
    cases hp

theorem acquiring_halts (hb : ∀ n, kind ≠ .barrier n) (hr : Reach kind free s h)
    (hp : (s.pc t).phase = .acquiring) : Halts kind t s h := by
  obtain ⟨s', h', hx, hend⟩ : ∃ s' h', Solo kind t s h s' h' ∧ _ := acquiring_alone hp
  have hr' := hr.alone hx
  refine Halts.after hx ?_
  simp only [List.mem_cons, List.not_mem_nil, or_false] at hend
  rcases hend with hend | hend | hend
  · exact idle_halts (phase_idle.mp hend)
  · exact waiting_halts hr' hend
  · exact absurd hend (not_arriving hb (reach_inv hb hr'))

theorem reach_sound (hb : ∀ n, kind ≠ .barrier n) (hr : Reach kind free s h) (t : Tid) :
    s.pc t ≠ .fault := by
  refine hr.invariant (P := fun s _ => s.pc t ≠ .fault) (by simp [system, Kind.initial]) ?_
  intro s h act e s' hr ih _ hs
  by_cases ht : t = act.actor
  · rw [ht]
    exact (step_move (reach_inv hb hr) hs).sound
  · rw [step_pc hs ht]
    exact ih

theorem granting_halts (hk : kind.Grants) (hr : Reach kind free s h) (t : Tid) :
    Halts kind t s h := by
  have hi := reach_inv hk.not_barrier hr
  have hf := (hi.loc t).fits
  cases hpc : s.pc t with
  | idle => exact idle_halts hpc
  | await q retry => exact .rests (.inr ⟨q, retry, hpc⟩)
  | fault => exact absurd hpc (reach_sound hk.not_barrier hr t)
  | start | attempt | push => exact acquiring_halts hk.not_barrier hr (by rw [hpc]; rfl)
  | pushed | settle | settled => exact waiting_halts hr (by rw [hpc]; rfl)
  | releaseFast op => exact releaseFast_halts hk hr hpc
  | releaseLoop => exact releaseLoop_halts hk hr hpc
  | poisonFast =>
    have hs : step kind s (.run t) = some (poisonFast s t) := by simp [step, runStep, hpc]
    unfold poisonFast at hs
    split at hs
    · exact .step hr hs fun _ => idle_halts (goto_pc_self ..)
    · exact .step hr hs fun hr₁ => poisonLoop_halts hk hr₁ (goto_pc_self ..)
  | poisonLoop => exact poisonLoop_halts hk hr hpc
  | clearPoison =>
    have hs : step kind s (.run t) = some (clearPoisonStep s t) := by simp [step, runStep, hpc]
    unfold clearPoisonStep at hs
    split at hs <;> exact .step hr hs fun _ => idle_halts (goto_pc_self ..)
  | walk | relink | back | tailReset | update | add | remove =>
    exact queue_halts hk hr (by rw [hpc]; trivial)
  | resolve _ _ _ k =>
    rw [hpc] at hf
    cases k with
    | pass | leave => exact queue_halts hk hr (by rw [hpc]; trivial)
    | poisoned => exact poisoned_halts hk hr hpc
    | woken | acknowledge => exact absurd hf hk.not_gate
    | writeBack | last => exact absurd hf hk.no_barrier
  | finalize _ _ _ _ k =>
    rw [hpc] at hf
    cases k with
    | pass | leave => exact queue_halts hk hr (by rw [hpc]; trivial)
    | poisoned => exact finalize_halts hk hr hpc
    | woken | acknowledge => exact absurd hf hk.not_gate
    | writeBack | last => exact absurd hf hk.no_barrier
  | dropLoad a =>
    have hs : step kind s (.run t) = some (.tau, s.goto t (.dropLoop a s.word)) := by
      simp [step, runStep, hpc]
    exact .step hr hs fun hr₁ => dropLoop_halts hk hr₁ (goto_pc_self ..)
  | dropLoop => exact dropLoop_halts hk hr hpc
  | complete => exact complete_halts hk hr hpc
  | finish => exact finish_halts hr hpc
  | writeBack =>
    rw [hpc] at hf
    exact absurd hf hk.no_barrier
  | wakeAll =>
    rw [hpc] at hf
    exact absurd hf.1 hk.not_gate
  | gateReset | gateDrop | acknowledge =>
    rw [hpc] at hf
    exact absurd hf hk.not_gate

/-- The entry whose result a drop of a gate entry is going to acknowledge, once it has called
`wake_all`. -/
def Pc.acking : Pc → Option Ptr
  | .acknowledge a | .resolve _ _ _ (.acknowledge a) | .finalize _ _ _ _ (.acknowledge a) => some a
  | _ => none

theorem acking_entry {p : Pc} (hp : p.acking = some a) : p.entry = some a ∧ p.stage = .live := by
  cases p with
  | acknowledge b => exact ⟨hp, rfl⟩
  | resolve _ _ _ k | finalize _ _ _ _ k =>
    cases k with
    | acknowledge b => exact ⟨hp, rfl⟩
    | _ => cases hp
  | _ => cases hp

theorem Took.acking (ht : Took .gate s v t act e s') (hp : (s'.pc t).acking = some a) :
    (s.pc t).acking = some a ∨ (v.observe e).queue = [] := by
  have hmv := ht.move
  generalize s.pc t = p at hmv
  generalize s'.pc t = p' at hmv hp
  cases hmv with
  | gate _ hg =>
    cases hg with
    | wakeAll => exact .inr rfl
    | unanswered | woke => exact .inl hp
    | _ => cases hp
  | @set _ _ _ k | @finalize _ _ _ _ k =>
    cases k with
    | acknowledge b => exact .inl hp
    | _ => cases hp
  | enter hen =>
    cases hen with
    | gate _ hc => cases hc <;> cases hp
    | _ => cases hp
  | @unreleased o | @release o => cases o <;> cases hp
  | @leave _ _ k => cases k <;> cases hp
  | _ => cases hp

theorem reach_acking (hr : Reach .gate free s h) :
    ∀ t a, (s.pc t).acking = some a → (view h).stat a ≠ .queued := by
  refine hr.invariant (P := fun s h => ∀ t a, (s.pc t).acking = some a →
    (view h).stat a ≠ .queued) (fun t a hp => by cases hp) ?_
  intro s h act e s' hr ih hok hs t a hp hq
  have hi := reach_inv (by simp) hr
  have hi' : Inv .gate s' ((view h).observe e) := reach_inv (by simp) (.step hr hok hs)
  have ht := took hi hi' hs
  have hold : (s.pc t).acking = some a → False := by
    intro hp
    obtain ⟨hent, hstage⟩ := acking_entry hp
    have hadm := (hi.loc t).stat a hent
    rw [hstage] at hadm
    rcases ht.pushed hq with hx | hx
    · exact ih t a hp hx
    · exact hadm.1 hx
  by_cases hta : t = act.actor
  · subst hta
    rcases ht.acking hp with hx | hx
    · exact hold hx
    · have hm := (hi'.glob.queued a).mpr hq
      rw [hx] at hm
      cases hm
  · exact hold (by rwa [ht.frame.pc t hta] at hp)

theorem acknowledge_halts (hr : Reach .gate free s h) (hp : s.pc t = .acknowledge a) :
    Halts .gate t s h := by
  have hi := reach_inv (by simp) hr
  have hl := hi.loc t
  rw [hp] at hl
  obtain ⟨hidle, hun⟩ := hl.stat a rfl
  have hqueued := reach_acking hr t a (by rw [hp]; rfl)
  rcases resolved_or_pending (t := t) hi (by rw [hp]; rfl) (by rw [hp]; rfl)
    ⟨hidle, hun, hqueued⟩ with hst | ⟨u, hu, hst⟩
  · have hf := (hi.glob.final a hst).2
    have hs : step .gate s (.run t) = some (.consume t a (s.state a).result,
        (s.consume a).goto t (.finish a)) := by
      simp [step, runStep, hp, acknowledgeStep, hf]
    exact .step hr hs fun hr₁ => finish_halts hr₁ (goto_pc_self ..)
  · exact ⟨s, h, .done, .inr (.inl ⟨u, hu, .answer hp hst⟩)⟩

theorem waking_halts {cur : Ptr} {r n : ℕ} {k : Then} (hr : Reach .gate free s h)
    (hp : s.pc t = .resolve cur r n k) : Halts .gate t s h := by
  have hf := ((reach_inv (by simp) hr).loc t).fits
  obtain ⟨s₁, h₁, hx, -, hp₁, -⟩ := resolve_alone (reach_inv (by simp) hr) hp
  have hr₁ := hr.alone hx
  refine Halts.after hx ?_
  rw [hp] at hf
  cases k with
  | woken =>
    have hs : step .gate s₁ (.run t) =
        some (.woke t (n + ((view h).taken t).length), s₁.goto t .idle) := by
      simp [step, runStep, hp₁, resolveStep, Then.step]
    exact .step hr₁ hs fun _ => idle_halts (goto_pc_self ..)
  | acknowledge a =>
    have hs : step .gate s₁ (.run t) =
        some (.woke t (n + ((view h).taken t).length), s₁.goto t (.acknowledge a)) := by
      simp [step, runStep, hp₁, resolveStep, Then.step]
    exact .step hr₁ hs fun hr₂ => acknowledge_halts hr₂ (goto_pc_self ..)
  | pass | leave => exact absurd rfl hf
  | poisoned => cases hf
  | writeBack | last =>
    obtain ⟨n, hn⟩ := hf
    cases hn

theorem wakeAll_halts {nx : Option GateState} {er : Option GateError} {k : Then}
    (hr : Reach .gate free s h) (hp : s.pc t = .wakeAll nx er k) : Halts .gate t s h := by
  have hs : step .gate s (.run t) = some (wakeAllStep s t nx er k) := by simp [step, runStep, hp]
  exact .step hr hs fun hr₁ => waking_halts hr₁ (goto_pc_self ..)

theorem gate_halts (hr : Reach .gate free s h) (t : Tid) : Halts .gate t s h := by
  have hi := reach_inv (by simp) hr
  have hf := (hi.loc t).fits
  cases hpc : s.pc t with
  | idle => exact idle_halts hpc
  | await q retry => exact .rests (.inr ⟨q, retry, hpc⟩)
  | fault => exact absurd hpc (reach_sound (by simp) hr t)
  | start | attempt | push =>
    exact acquiring_halts (by simp) hr (by rw [hpc]; rfl)
  | pushed | settle | settled => exact waiting_halts hr (by rw [hpc]; rfl)
  | wakeAll => exact wakeAll_halts hr hpc
  | resolve => exact waking_halts hr hpc
  | finalize cur nx r n k =>
    have hs : step .gate s (.run t) = some (finalizeStep s t cur nx r n k) := by
      simp [step, runStep, hpc]
    exact .step hr hs fun hr₁ => waking_halts hr₁ (goto_pc_self ..)
  | gateReset =>
    have hs : step .gate s (.run t) = some (gateResetStep s t) := by simp [step, runStep, hpc]
    unfold gateResetStep at hs
    dsimp only at hs
    split at hs <;> exact .step hr hs fun _ => idle_halts (goto_pc_self ..)
  | gateDrop a =>
    have hs : step .gate s (.run t) = some (gateDropStep s t a) := by simp [step, runStep, hpc]
    unfold gateDropStep at hs
    split at hs
    · exact .step hr hs fun hr₁ => finish_halts hr₁ (goto_pc_self ..)
    · exact .step hr hs fun hr₁ => wakeAll_halts hr₁ (goto_pc_self ..)
  | acknowledge a => exact acknowledge_halts hr hpc
  | finish => exact finish_halts hr hpc
  | walk | relink | back | tailReset | update | add | remove | releaseLoop | dropLoad | dropLoop
  | complete =>
    rw [hpc] at hf
    exact absurd rfl hf
  | releaseFast =>
    rw [hpc] at hf
    rcases hf with ⟨hx, -⟩ | ⟨n, c, hx, -⟩ <;> cases hx
  | poisonFast | poisonLoop | clearPoison =>
    rw [hpc] at hf
    cases hf
  | writeBack =>
    rw [hpc] at hf
    obtain ⟨n, hn⟩ := hf
    cases hn

theorem grants_or_gate (hb : ∀ n, kind ≠ .barrier n) : kind.Grants ∨ kind = .gate := by
  cases kind with
  | lock => exact .inl (.inl rfl)
  | semaphore n => exact .inl (.inr ⟨n, rfl⟩)
  | barrier n => exact absurd rfl (hb n)
  | gate => exact .inr rfl

/-- Alone, every thread gets to the end of its call, or to a place where it waits for another
thread or for the poison to be cleared. -/
theorem halts (hb : ∀ n, kind ≠ .barrier n) (hr : Reach kind free s h) (t : Tid) :
    Halts kind t s h := by
  rcases grants_or_gate hb with hk | rfl
  · exact granting_halts hk hr t
  · exact gate_halts hr t

def Pc.Owes (p : Pc) : Prop := p.Holds ∨ p.takePtr ≠ 0 ∨ p.answering ≠ none

theorem pending_owes (hi : Inv kind s v) (hst : v.stat a = .taken u ∨ v.stat a = .answered u) :
    (s.pc u).Owes := by
  rcases hst with hst | hst
  · refine .inr (.inl fun hz => ?_)
    have hm := (hi.glob.taken u a).mpr hst
    rw [(hi.loc u).taken_nil hz] at hm
    cases hm
  · refine .inr (.inr ?_)
    rw [((hi.loc u).answering a).mpr hst]
    simp

theorem WaitsFor.owes (hx : WaitsFor s v t u) (hi : Inv kind s v) : (s.pc u).Owes := by
  cases hx with
  | queue _ hh | poison _ hh => exact .inl hh
  | result _ hst | answer _ hst => exact pending_owes hi hst

theorem Pc.Owes.not_waits (hp : (s.pc t).Owes) : ¬WaitsFor s v t u := by
  intro hx
  cases hx with
  | queue hpc | poison hpc | result hpc | answer hpc =>
    rw [hpc] at hp
    rcases hp with hh | hz | hn
    · exact hh
    · exact hz rfl
    · exact hn rfl

theorem Pc.Rests.not_owes {p : Pc} (hp : p.Rests) : ¬p.Owes := by
  rcases hp with rfl | ⟨q, retry, rfl⟩ <;>
    simp [Pc.Owes, Pc.Holds, Pc.takePtr, Pc.answering]

theorem after_not_owes (k : After) : ¬k.pc.Owes := by
  cases k <;> simp [After.pc, Pc.Owes, Pc.Holds, Pc.takePtr, Pc.answering]

theorem resolve_discharges {cur : Ptr} {r n : ℕ} {k : Then} (hb : ∀ n, kind ≠ .barrier n)
    (hr : Reach kind free s h) (hk : ∀ state head x, k ≠ .pass state head x)
    (hp : s.pc t = .resolve cur r n k) :
    ∃ s' h', Solo kind t s h s' h' ∧ ¬(s'.pc t).Owes := by
  obtain ⟨s', h', hx, -, hp', -⟩ := resolve_alone (reach_inv hb hr) hp
  refine ⟨s', h', hx, ?_⟩
  rw [hp']
  cases k with
  | pass state head x => exact absurd rfl (hk state head x)
  | _ => simp [Pc.Owes, Pc.Holds, Pc.takePtr, Pc.answering]

theorem finalize_discharges {cur nx : Ptr} {r n : ℕ} {k : Then} (hb : ∀ n, kind ≠ .barrier n)
    (hr : Reach kind free s h) (hk : ∀ state head x, k ≠ .pass state head x)
    (hp : s.pc t = .finalize cur nx r n k) :
    ∃ s' h', Solo kind t s h s' h' ∧ ¬(s'.pc t).Owes := by
  have hs : step kind s (.run t) = some (finalizeStep s t cur nx r n k) := by
    simp [step, runStep, hp]
  obtain ⟨s', h', hx, hend⟩ := resolve_discharges hb (.step (a := Action.run t) hr trivial hs) hk
    (goto_pc_self ..)
  exact ⟨s', h', .step hs hx, hend⟩

/-- Alone, a thread does what others wait for. -/
theorem discharges (hb : ∀ n, kind ≠ .barrier n) (hr : Reach kind free s h) (t : Tid) :
    ∃ s' h', Solo kind t s h s' h' ∧ ¬(s'.pc t).Owes := by
  have hf := ((reach_inv hb hr).loc t).fits
  have hqueue : kind ≠ .gate → (s.pc t).AtQueue →
      ∃ s' h', Solo kind t s h s' h' ∧ ¬(s'.pc t).Owes := by
    intro hg hp
    obtain ⟨s', h', hx, k, -, hpc⟩ := leaves_queue ((grants_or_gate hb).resolve_right hg) hr hp
    exact ⟨s', h', hx, by rw [hpc]; exact after_not_owes k⟩
  cases hpc : s.pc t with
  | walk | relink | back | tailReset | update | add | remove =>
    rw [hpc] at hf
    exact hqueue hf (by rw [hpc]; trivial)
  | resolve _ _ _ k =>
    cases k with
    | pass =>
      rw [hpc] at hf
      exact hqueue hf (by rw [hpc]; trivial)
    | _ => exact resolve_discharges hb hr (by simp) hpc
  | finalize _ _ _ _ k =>
    cases k with
    | pass =>
      rw [hpc] at hf
      exact hqueue hf (by rw [hpc]; trivial)
    | _ => exact finalize_discharges hb hr (by simp) hpc
  | settled q =>
    have hs : step kind s (.run t) = some (settledStep s t q) := by simp [step, runStep, hpc]
    exact ⟨_, _, .step hs .done, settled_rests.not_owes⟩
  | _ =>
    refine ⟨s, h, .done, ?_⟩
    rw [hpc]
    simp [Pc.Owes, Pc.Holds, Pc.takePtr, Pc.answering]

/-- Nobody waits in a circle. In every reachable state of a lock, a semaphore or a gate, every
thread that runs alone gets to the end of its call or is suspended in it, or it comes to a
place where it waits for another thread, or it is a drop that meets a poisoned lock. A thread
that is waited for does not wait itself, and it ends the wait when it runs alone. -/
theorem no_wait_cycle (hb : ∀ n, kind ≠ .barrier n) (hr : Reach kind free s h) :
    (∀ t, Halts kind t s h) ∧
    ∀ t u, WaitsFor s (view h) t u → u ≠ t ∧ (∀ w, ¬WaitsFor s (view h) u w) ∧
      ∃ s' h', Solo kind u s h s' h' ∧ ¬WaitsFor s' (view h') t u := by
  refine ⟨halts hb hr, fun t u hx => ?_⟩
  have howes := hx.owes (reach_inv hb hr)
  refine ⟨?_, fun w => howes.not_waits, ?_⟩
  · rintro rfl
    exact howes.not_waits hx
  · obtain ⟨s', h', hsolo, hend⟩ := discharges hb hr u
    exact ⟨s', h', hsolo, fun hx' => hend (hx'.owes (reach_inv hb (hr.alone hsolo)))⟩

/-- Only finitely many threads are in a call. -/
theorem reach_support (hr : Reach kind free s h) : ∃ l : List Tid, ∀ t ∉ l, s.pc t = .idle := by
  refine hr.invariant (P := fun s _ => ∃ l : List Tid, ∀ t ∉ l, s.pc t = .idle)
    ⟨[], fun _ _ => rfl⟩ ?_
  rintro s h act e s' - ⟨l, hl⟩ - hs
  refine ⟨act.actor :: l, fun t ht => ?_⟩
  rw [List.mem_cons, not_or] at ht
  rw [step_pc hs ht.1]
  exact hl t ht.2

theorem alone_pc (hu : u ≠ t) (hx : Solo kind t s h s' h') : s'.pc u = s.pc u := by
  induction hx with
  | done => rfl
  | @step s h e s₁ _ _ hs _ ih =>
    replace hs : step kind s (.run t) = some (e, s₁) := hs
    exact ih.trans (step_pc hs hu)

theorem dropLoop_not_owes : ¬(Pc.dropLoop a state).Owes := by
  simp [Pc.Owes, Pc.Holds, Pc.takePtr, Pc.answering]

def Pc.Yields (p : Pc) : Prop := p.phase ∈ [.dropping, .passing, .releasing, .idle]

theorem Took.not_poison {x : Tid} (ht : Took kind s v t act e s') (hp : (s.pc t).Yields) :
    e ≠ .poison x := by
  rintro rfl
  have hmv := ht.move
  generalize s.pc t = p at hmv hp
  generalize s'.pc t = p' at hmv
  cases hmv with
  | gate _ hg => cases hg
  | poisonFast | poison => simp [Pc.Yields, Pc.phase] at hp

theorem Took.yields (ht : Took kind s v t (.run t) e s')
    (hs : step kind s (.run t) = some (e, s')) (hp : (s.pc t).Yields) : (s'.pc t).Yields := by
  have hphase := ht.move.phase fun _ => (ht.inv.loc t).fits
  simp only [Pc.Yields, List.mem_cons, List.not_mem_nil, or_false] at hp ⊢
  rcases hp with hp | hp | hp | hp
  · rw [hp] at hphase
    simp only [Phase.next, List.mem_cons, List.not_mem_nil, or_false] at hphase
    tauto
  · rw [hp] at hphase
    simp only [Phase.next, List.mem_cons, List.not_mem_nil, or_false] at hphase
    tauto
  · rw [hp] at hphase
    simp only [Phase.next, List.mem_cons, List.not_mem_nil, or_false] at hphase
    tauto
  · simp [step, runStep, phase_idle.mp hp] at hs

theorem Took.stays_open (ht : Took kind s v t act e s') (hs : step kind s act = some (e, s'))
    (he : ∀ x, e ≠ .poison x) (hw : s.word ≠ POISONED_STATE) :
    s'.word ≠ POISONED_STATE := by
  intro hw'
  rcases ht.inv'.locked (ht.inv'.poisoned_iff.mp hw').1 with ⟨u, hu⟩ | ⟨rfl, -⟩
  · exact ht.inv'.holds_not_poisoned hu hw'
  · have hx := (ht.poison_word hs).mp hw'
    cases e with
    | poison x => exact he x rfl
    | clearPoison x => exact hx
    | _ => exact hw hx

theorem solo_stays_open (hb : ∀ n, kind ≠ .barrier n) (hr : Reach kind free s h)
    (hx : Solo kind t s h s' h') (hp : (s.pc t).Yields) (hw : s.word ≠ POISONED_STATE) :
    s'.word ≠ POISONED_STATE := by
  induction hx with
  | done => exact hw
  | @step s h e s₁ _ _ hs _ ih =>
    have hr₁ : Reach kind free s₁ (e :: h) := .step (a := Action.run t) hr trivial hs
    replace hs : step kind s (.run t) = some (e, s₁) := hs
    have ht : Took kind s (view h) t (.run t) e s₁ :=
      took (reach_inv hb hr) (reach_inv hb hr₁) hs
    exact ih hr₁ (ht.yields hs hp) (ht.stays_open hs (fun x => ht.not_poison hp) hw)

theorem calm_halts (hb : ∀ n, kind ≠ .barrier n) (hr : Reach kind free s h)
    (hc : ∀ u, ¬(s.pc u).Owes) (t : Tid) :
    ∃ s' h', Solo kind t s h s' h' ∧ ((s'.pc t).Rests ∨ Barred s' t) := by
  obtain ⟨s', h', hx, hend⟩ := halts hb hr t
  refine ⟨s', h', hx, ?_⟩
  rcases hend with hend | ⟨u, hu, hwait⟩ | hend
  · exact .inl hend
  · have howes := hwait.owes (reach_inv hb (hr.alone hx))
    rw [alone_pc hu hx] at howes
    exact absurd howes (hc u)
  · exact .inr hend

/-- The queue is unlocked and the results are stored. -/
theorem becomes_calm (hb : ∀ n, kind ≠ .barrier n) (hr : Reach kind free s h) :
    ∃ s' g, Onward (system kind) (Only Action.run) s h s' g ∧ Reach kind free s' (g ++ h) ∧
      ∀ u, ¬(s'.pc u).Owes := by
  obtain ⟨l, hl⟩ := reach_support hr
  refine sweep Action.run Cfg.pc (fun p => ¬p.Owes) (C := Reach kind free) ?_ (l := l) hr ?_
  · intro s h t hr
    obtain ⟨s', h', hx, hend⟩ := discharges hb hr t
    exact ⟨s', h', hx, hr.alone hx, hend, fun u hu => alone_pc hu hx⟩
  · intro t ht
    rw [hl t ht]
    exact Pc.Rests.not_owes (.inl rfl)

theorem becomes_still (hb : ∀ n, kind ≠ .barrier n) (hr : Reach kind free s h)
    (hc : ∀ u, ¬(s.pc u).Owes) :
    ∃ s' g, Onward (system kind) (Only Action.run) s h s' g ∧
      (Reach kind free s' (g ++ h) ∧ ∀ u, ¬(s'.pc u).Owes) ∧
      ∀ u, (s'.pc u).Rests ∨ ∃ a state, s'.pc u = .dropLoop a state := by
  obtain ⟨l, hl⟩ := reach_support hr
  refine sweep Action.run Cfg.pc (fun p => p.Rests ∨ ∃ a state, p = .dropLoop a state)
    (C := fun s h => Reach kind free s h ∧ ∀ u, ¬(s.pc u).Owes) ?_ (l := l) ⟨hr, hc⟩ ?_
  · rintro s h t ⟨hr, hc⟩
    obtain ⟨s', h', hx, hend⟩ := calm_halts hb hr hc t
    have hothers : ∀ u, u ≠ t → s'.pc u = s.pc u := fun u hu => alone_pc hu hx
    refine ⟨s', h', hx, ⟨hr.alone hx, fun u => ?_⟩, hend.imp id And.right, hothers⟩
    by_cases hu : u = t
    · subst hu
      rcases hend with hend | ⟨-, a, state, hp⟩
      · exact hend.not_owes
      · rw [hp]
        exact dropLoop_not_owes
    · rw [hothers u hu]
      exact hc u
  · intro t ht
    exact .inl (.inl (hl t ht))

theorem becomes_quiescent (hb : ∀ n, kind ≠ .barrier n) (hr : Reach kind free s h)
    (hw : s.word ≠ POISONED_STATE)
    (hc : ∀ u, (s.pc u).Rests ∨ ∃ a state, s.pc u = .dropLoop a state) :
    ∃ s' g, Onward (system kind) (Only Action.run) s h s' g ∧ Quiescent s' ∧
      s'.word ≠ POISONED_STATE := by
  have howes : ∀ {s : Cfg}, (∀ u, (s.pc u).Rests ∨ ∃ a state, s.pc u = .dropLoop a state) →
      ∀ u, ¬(s.pc u).Owes := by
    intro s hc u
    rcases hc u with hp | ⟨a, state, hp⟩
    · exact hp.not_owes
    · rw [hp]
      exact dropLoop_not_owes
  have hone : ∀ {s : Cfg} {h : List Event} (t : Tid), (Reach kind free s h ∧
      s.word ≠ POISONED_STATE ∧ ∀ u, (s.pc u).Rests ∨ ∃ a state, s.pc u = .dropLoop a state) →
      ∃ s' h', Solo kind t s h s' h' ∧ (Reach kind free s' h' ∧ s'.word ≠ POISONED_STATE ∧
        ∀ u, (s'.pc u).Rests ∨ ∃ a state, s'.pc u = .dropLoop a state) ∧ (s'.pc t).Rests ∧
        ∀ u, u ≠ t → s'.pc u = s.pc u := by
    rintro s h t ⟨hr, hw, hc⟩
    by_cases hp : (s.pc t).Rests
    · exact ⟨s, h, .done, ⟨hr, hw, hc⟩, hp, fun _ _ => rfl⟩
    obtain ⟨a, state, hpc⟩ := (hc t).resolve_left hp
    obtain ⟨s', h', hx, hend⟩ := calm_halts hb hr (howes hc) t
    have hw' := solo_stays_open hb hr hx (by rw [hpc]; simp [Pc.Yields, Pc.phase]) hw
    have hrest := hend.resolve_right fun hb => hw' hb.1
    have hothers : ∀ u, u ≠ t → s'.pc u = s.pc u := fun u hu => alone_pc hu hx
    refine ⟨s', h', hx, ⟨hr.alone hx, hw', fun u => ?_⟩, hrest, hothers⟩
    by_cases hu : u = t
    · exact .inl (hu ▸ hrest)
    · rw [hothers u hu]
      exact hc u
  obtain ⟨l, hl⟩ := reach_support hr
  obtain ⟨s', g, hx, ⟨-, hw', -⟩, hq⟩ :=
    sweep Action.run Cfg.pc Pc.Rests hone ⟨hr, hw, hc⟩ fun t ht => .inl (hl t ht)
  exact ⟨s', g, hx, hq, hw'⟩

/-- Steps of the calls that are under way end them all, but for drops that a poisoned lock
does not let go. -/
theorem comes_to_rest (hb : ∀ n, kind ≠ .barrier n) (hr : Reach kind free s h) :
    ∃ s' g, Onward (system kind) (Only Action.run) s h s' g ∧
      (∀ u, (s'.pc u).Rests ∨ ∃ a state, s'.pc u = .dropLoop a state) ∧
      (s'.word ≠ POISONED_STATE → Quiescent s') := by
  obtain ⟨s₁, g₁, hx₁, hr₁, hc₁⟩ := becomes_calm hb hr
  obtain ⟨s₂, g₂, hx₂, ⟨hr₂, -⟩, hc₂⟩ := becomes_still hb hr₁ hc₁
  have hx := onward_trans hx₁ hx₂
  by_cases hw : s₂.word = POISONED_STATE
  · exact ⟨s₂, g₂ ++ g₁, hx, hc₂, fun hx => absurd hw hx⟩
  · obtain ⟨s₃, g₃, hx₃, hq, -⟩ := becomes_quiescent hb hr₂ hw hc₂
    rw [← List.append_assoc] at hx₃
    exact ⟨s₃, g₃ ++ (g₂ ++ g₁), onward_trans hx hx₃, fun u => .inl (hq u), fun _ => hq⟩

theorem Inv.poisoned_lock (hi : Inv kind s v) (hw : s.word = POISONED_STATE) : kind = .lock := by
  rcases hi.locked (hi.poisoned_iff.mp hw).1 with ⟨u, hu⟩ | ⟨hlock, -⟩
  · exact absurd hw (hi.holds_not_poisoned hu)
  · exact hlock

/-- No deadlock. From every reachable state of a lock, a semaphore or a gate, steps of the
calls that are under way lead to a state in which no thread is in the middle of an operation,
or the lock is poisoned and the only threads in the middle of an operation are drops, which
wait for the poison to be cleared. -/
theorem deadlock_free (hb : ∀ n, kind ≠ .barrier n) (hr : Reach kind free s h) :
    ∃ s' g, Onward (system kind) (Only Action.run) s h s' g ∧
      (Quiescent s' ∨ kind = .lock ∧ s'.word = POISONED_STATE ∧
        ∀ u, (s'.pc u).Rests ∨ ∃ a state, s'.pc u = .dropLoop a state) := by
  obtain ⟨s', g, hx, hc, hq⟩ := comes_to_rest hb hr
  have hr' : Reach kind free s' (g ++ h) := (onward_mono (fun _ _ _ _ => trivial) hx).run hr
  refine ⟨s', g, hx, ?_⟩
  by_cases hw : s'.word = POISONED_STATE
  · exact .inr ⟨(reach_inv hb hr').poisoned_lock hw, hw, hc⟩
  · exact .inl (hq hw)

end

/-- Thread 0 has the only permit and thread 1 waits for it. Thread 0 has locked the queue to
release it when the future of thread 1 is dropped. -/
def metInDrop : List Action :=
  [.call 0 (.acquire ⟨.permits 1, .tryOnly, 0⟩), .run 0, .run 0,
    .call 1 (.acquire ⟨.permits 1, .async, 256⟩), .run 1, .run 1, .run 1, .run 1,
    .call 0 .release, .run 0, .run 0, .cancel 1, .run 1]

theorem no_wait_cycle_metInDrop :
    ∃ s h, exec (system (.semaphore 1)) (Kind.initial (.semaphore 1)) [] metInDrop = some (s, h) ∧
      WaitsFor s (view h) 1 0 ∧ (∀ w, ¬WaitsFor s (view h) 0 w) ∧
      ∃ s' h', Solo (.semaphore 1) 0 s h s' h' ∧ ¬WaitsFor s' (view h') 1 0 := by
  obtain ⟨s, h, hrun, hdrop, hhold⟩ : ∃ s h,
      exec (system (.semaphore 1)) (Kind.initial (.semaphore 1)) [] metInDrop = some (s, h) ∧
      s.pc 1 = .dropLoop 256 s.word ∧ (s.pc 0).Holds := ⟨_, _, rfl, rfl, trivial⟩
  have hwait : WaitsFor s (view h) 1 0 := .queue hdrop hhold
  obtain ⟨-, hall⟩ := no_wait_cycle (by simp) (Run.exec .init (admits_free ..) hrun)
  obtain ⟨-, hno, hends⟩ := hall 1 0 hwait
  exact ⟨s, h, hrun, hwait, hno, hends⟩

theorem deadlock_free_metInDrop :
    ∃ s h, exec (system (.semaphore 1)) (Kind.initial (.semaphore 1)) [] metInDrop = some (s, h) ∧
      ¬Quiescent s ∧
      ∃ s' g, Onward (system (.semaphore 1)) (Only Action.run) s h s' g ∧ Quiescent s' := by
  obtain ⟨s, h, hrun, hdrop⟩ : ∃ s h,
      exec (system (.semaphore 1)) (Kind.initial (.semaphore 1)) [] metInDrop = some (s, h) ∧
      s.pc 1 = .dropLoop 256 s.word := ⟨_, _, rfl, rfl⟩
  obtain ⟨s', g, hx, hq | ⟨hlock, -⟩⟩ :=
    deadlock_free (by simp) (Run.exec .init (admits_free ..) hrun)
  · refine ⟨s, h, hrun, fun hall => ?_, s', g, hx, hq⟩
    rcases hall 1 with hp | ⟨q, retry, hp⟩ <;> rw [hdrop] at hp <;> cases hp
  · cases hlock

end Saa
